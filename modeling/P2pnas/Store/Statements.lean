import P2pnas.Store.Manifest

/-!
# Statements that write the manifest (`manifest.rs`)

Each statement gives tables that meet the constraints or is refused; beside each stands what
an accepted one did.
-/

namespace P2pnas.Store.Manifest
open P2pnas.Lib.Frames P2pnas.Lib.Strings P2pnas.Lib.Tables

/-- The values `insert_file` binds; the state stamps of the argument are ignored. -/
def FileRow.toRec (f : FileRow) : FileRec where
  fileId := f.fileId
  userId := f.userId
  path := f.path
  size := f.size
  storedBytes := f.storedBytes
  chunkCount := f.chunkCount
  createdAt := f.createdAt
  retiredPath := none
  deletedAt := none
  supersededAt := none
  lineage := some f.lineage
  keyScheme := f.keyScheme
  contentHash := f.contentHash
  packId := f.packId
  packOffset := f.packOffset
  packLen := f.packLen

def insertFile (db : Db) (f : FileRow) : Option Db :=
  if h : f.toRec.fileId ∈ db.files.map FileRec.fileId ∨
      f.toRec.pathKey ∈ db.files.map FileRec.pathKey then
    none
  else some {
    db with
    files := db.files ++ [f.toRec]
    constraints := {
      db.constraints with
      fileIds := nodup_concat db.constraints.fileIds (fun hm => h (.inl hm))
      filePaths := nodup_concat db.constraints.filePaths (fun hm => h (.inr hm))
      chunkFiles := fun c hc => by
        rw [List.map_append]
        exact List.mem_append_left _ (db.constraints.chunkFiles c hc) } }

theorem insertFile_some {db db' : Db} {f : FileRow} (h : insertFile db f = some db') :
    f.fileId ∉ db.files.map FileRec.fileId ∧
      db'.toTables = { db.toTables with files := db.files ++ [f.toRec] } := by
  unfold insertFile at h
  split at h
  · cases h
  · rename_i hnew
    cases h
    exact ⟨fun hm => hnew (.inl hm), rfl⟩

def insertChunk (db : Db) (c : ChunkRow) : Option Db :=
  if h : c.chunkId ∉ db.chunks.map ChunkRow.chunkId ∧ c.fileId ∈ db.files.map FileRec.fileId then
    some {
      db with
      chunks := db.chunks ++ [c]
      constraints := {
        db.constraints with
        chunkIds := nodup_concat db.constraints.chunkIds h.1
        chunkFiles := fun c' hc' => by
          rcases List.mem_append.mp hc' with hold | hnew
          · exact db.constraints.chunkFiles c' hold
          · rw [List.mem_singleton.mp hnew]; exact h.2
        shardChunks := fun s hs => by
          rw [List.map_append]
          exact List.mem_append_left _ (db.constraints.shardChunks s hs) } }
  else none

theorem insertChunk_some {db db' : Db} {c : ChunkRow} (h : insertChunk db c = some db') :
    c.chunkId ∉ db.chunks.map ChunkRow.chunkId ∧
      db'.toTables = { db.toTables with chunks := db.chunks ++ [c] } := by
  unfold insertChunk at h
  split at h
  · rename_i hnew
    cases h
    exact ⟨hnew.1, rfl⟩
  · cases h

def insertShard (db : Db) (s : ShardRow) : Option Db :=
  if h : s.fragmentId ∉ db.shards.map ShardRow.fragmentId ∧
      s.chunkId ∈ db.chunks.map ChunkRow.chunkId then
    some {
      db with
      shards := db.shards ++ [s]
      constraints := {
        db.constraints with
        shardIds := nodup_concat db.constraints.shardIds h.1
        shardChunks := fun s' hs' => by
          rcases List.mem_append.mp hs' with hold | hnew
          · exact db.constraints.shardChunks s' hold
          · rw [List.mem_singleton.mp hnew]; exact h.2 } }
  else none

theorem insertShard_some {db db' : Db} {s : ShardRow} (h : insertShard db s = some db') :
    s.fragmentId ∉ db.shards.map ShardRow.fragmentId ∧
      db'.toTables = { db.toTables with shards := db.shards ++ [s] } := by
  unfold insertShard at h
  split at h
  · rename_i hnew
    cases h
    exact ⟨hnew.1, rfl⟩
  · cases h

/-- An `UPDATE files` that leaves the primary key alone. -/
def updateFiles (db : Db) (sel : FileRec → Bool) (set : FileRec → FileRec)
    (hid : ∀ r, (set r).fileId = r.fileId) : Option Db :=
  if h : ((update sel set db.files).map FileRec.pathKey).Nodup then
    some {
      db with
      files := update sel set db.files
      constraints := {
        db.constraints with
        fileIds := by rw [update_map _ _ _ hid]; exact db.constraints.fileIds
        filePaths := h
        chunkFiles := by rw [update_map _ _ _ hid]; exact db.constraints.chunkFiles } }
  else none

theorem updateFiles_some {db db' : Db} {sel : FileRec → Bool} {set : FileRec → FileRec}
    {hid : ∀ r, (set r).fileId = r.fileId} (h : updateFiles db sel set hid = some db') :
    db'.toTables = { db.toTables with files := update sel set db.files } := by
  unfold updateFiles at h
  split at h
  · cases h
    rfl
  · cases h

/-- The column a row is retired by. -/
inductive Retire where
  | deletedAt
  | supersededAt
  deriving DecidableEq, Repr

def Retire.get : Retire → FileRec → Option Time
  | .deletedAt, r => r.deletedAt
  | .supersededAt, r => r.supersededAt

/-- The `SET` list of `retire_row` (`manifest.rs:553-571`). -/
def Retire.set (c : Retire) (at' : Time) (r : FileRec) : FileRec :=
  let parked := { r with
    retiredPath := some (r.retiredPath.getD r.path), path := retiredKey r.fileId }
  match c with
  | .deletedAt => { parked with deletedAt := some at' }
  | .supersededAt => { parked with supersededAt := some at' }

theorem Retire.set_fileId (c : Retire) (at' : Time) (r : FileRec) : (c.set at' r).fileId = r.fileId := by
  cases c <;> rfl

def retireRow (db : Db) (u f : Text) (c : Retire) (at' : Time) : Option Db :=
  updateFiles db (fun r => isRow u f r && (c.get r).isNone) (c.set at') (c.set_fileId at')

def trashFile (db : Db) (u f : Text) (at' : Time) : Option Db := retireRow db u f .deletedAt at'

def supersedeFile (db : Db) (u f : Text) (at' : Time) : Option Db :=
  retireRow db u f .supersededAt at'

def restoreFile (db : Db) (u f path : Text) : Option Db :=
  updateFiles db (isRow u f) (fun r => { r with
    deletedAt := none, supersededAt := none, retiredPath := none, path := path }) (fun _ => rfl)

def updateFilePath (db : Db) (u f newPath : Text) : Option Db :=
  updateFiles db (isRow u f) (fun r => { r with path := newPath }) (fun _ => rfl)

/-- `assign_to_pack` (`manifest.rs:730-751`). -/
def assignToPack (db : Db) (u f packId : Text) (offset len : ℤ) : Option Db :=
  updateFiles db (isRow u f) (fun r => { r with
    packId := some packId, packOffset := some offset, packLen := some len, chunkCount := 0,
    storedBytes := 0 }) (fun _ => rfl)

/-- `DELETE FROM files`, with the chunks and shards that go with a deleted row. -/
def deleteFiles (db : Db) (sel : FileRec → Bool) : Db :=
  let files := db.files.filter (fun r => !sel r)
  let chunks := db.chunks.filter (fun c => c.fileId ∈ files.map FileRec.fileId)
  let shards := db.shards.filter (fun s => s.chunkId ∈ chunks.map ChunkRow.chunkId)
  { db with
    files := files
    chunks := chunks
    shards := shards
    constraints := {
      fileIds := nodup_filter _ db.constraints.fileIds
      filePaths := nodup_filter _ db.constraints.filePaths
      chunkIds := nodup_filter _ db.constraints.chunkIds
      chunkFiles := fun c hc => by simpa using (List.mem_filter.mp hc).2
      shardIds := nodup_filter _ db.constraints.shardIds
      shardChunks := fun s hs => by simpa using (List.mem_filter.mp hs).2
      folderKeys := db.constraints.folderKeys } }

/-- The statement of `purge_file_row` (`manifest.rs:717`). -/
def deleteFile (db : Db) (u f : Text) : Db := deleteFiles db (isRow u f)

/-- The statement of `strip_file_chunks` (`manifest.rs:765-769`), shards cascading. -/
def deleteChunks (db : Db) (u f : Text) : Db :=
  let chunks := db.chunks.filter fun c => !(c.fileId = f && db.files.any (isRow u f))
  let shards := db.shards.filter (fun s => s.chunkId ∈ chunks.map ChunkRow.chunkId)
  { db with
    chunks := chunks
    shards := shards
    constraints := {
      db.constraints with
      chunkIds := nodup_filter _ db.constraints.chunkIds
      chunkFiles := fun c hc => db.constraints.chunkFiles c (List.mem_filter.mp hc).1
      shardIds := nodup_filter _ db.constraints.shardIds
      shardChunks := fun s hs => by simpa using (List.mem_filter.mp hs).2 } }

def setShardLocation (db : Db) (frag location : Text) : Db :=
  let set : ShardRow → ShardRow := fun s => { s with location := location }
  { db with
    shards := update (fun s => s.fragmentId = frag) set db.shards
    constraints := {
      db.constraints with
      shardIds := by rw [update_map _ _ set (fun _ => rfl)]; exact db.constraints.shardIds
      shardChunks := fun s hs => by
        obtain ⟨s₀, hs₀, ⟨_, rfl⟩ | ⟨_, rfl⟩⟩ := mem_update.mp hs
        · exact db.constraints.shardChunks s₀ hs₀
        · exact db.constraints.shardChunks s hs₀ } }

/-! ### Folders -/

/-- One `INSERT OR IGNORE`. -/
def insertFolderRow (db : Db) (row : FolderRow) : Db :=
  if h : row.key ∈ db.folders.map FolderRow.key then db
  else { db with
    folders := db.folders ++ [row]
    constraints := { db.constraints with folderKeys := nodup_concat db.constraints.folderKeys h } }

/-- The folder rows `insert_folder` asks for: every ancestor of the path, then the path. -/
def ancestorPaths (acc : Text) : List Text → List Text
  | [] => []
  | seg :: segs =>
    let acc := if acc.isEmpty then seg else acc ++ slash :: seg
    acc :: ancestorPaths acc segs

def folderRowsFor (u path : Text) : List FolderRow :=
  (ancestorPaths [] ((splitOn slash (trimMatches slash path)).filter (!·.isEmpty))).map
    fun p => { userId := u, path := p, parent := dirname p }

/-- What `insert_folder` leaves when all its statements work. -/
def insertFolder (db : Db) (u path : Text) : Db := (folderRowsFor u path).foldl insertFolderRow db

def deleteFolderSubtree (db : Db) (u path : Text) : Db :=
  { db with
    folders := db.folders.filter fun r => !(r.userId = u && underPath path r.path)
    constraints := { db.constraints with folderKeys := nodup_filter _ db.constraints.folderKeys } }

/-- The rows after `update_folder_path` (`manifest.rs:951-957`). -/
def movedFolders (u old new : Text) (folders : List FolderRow) : List FolderRow :=
  update (fun r => r.userId = u && r.path = old)
    (fun r => { r with path := new, parent := dirname new }) folders

def updateFolderPath (db : Db) (u old new : Text) : Option Db :=
  if h : ((movedFolders u old new db.folders).map FolderRow.key).Nodup then
    some {
      db with
      folders := movedFolders u old new db.folders
      constraints := { db.constraints with folderKeys := h } }
  else none

theorem updateFolderPath_some {db db' : Db} {u old new : Text}
    (h : updateFolderPath db u old new = some db') :
    db'.toTables = { db.toTables with folders := movedFolders u old new db.folders } := by
  unfold updateFolderPath at h
  split at h
  · cases h
    rfl
  · cases h

end P2pnas.Store.Manifest
