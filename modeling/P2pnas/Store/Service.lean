import P2pnas.Store.Reading

/-!
# Service operations (`service.rs:55-657`)

Push, the trash, restore, rename, and the three ways a row is destroyed for good. The id a
push mints and the instants `Utc::now()` returns are arguments. The counts and sizes that a
call returns for accounting are computed as the source computes them.
-/

namespace P2pnas.Store.Service
open P2pnas.Lib.Frames P2pnas.Lib.Strings P2pnas.Core P2pnas.Core.Base P2pnas.Core.Crypto
open P2pnas.Core.Erasure P2pnas.Core.Pipeline P2pnas.Store.Manifest P2pnas.Store.Session
open P2pnas.Store.Reading

def LOCAL : Text := "local".toList

/-- `(fragment_id, peer_location)`. -/
abbrev RemoteShard := Text × Text

section
variable {K : Type} (P : Prims K) (key : K)

/-! ### Writing the chunks of a file (`service.rs:717-770`) -/

/-- `pad_shard`; the slice of a data shard is never longer than the shard. -/
def padShard (slice : Bytes) (shardLen : ℕ) : Bytes :=
  if slice.length = shardLen then slice
  else slice ++ List.replicate (shardLen - slice.length) 0

/-- The bytes stored for shard `i` of a chunk; a missing recovery shard is a panic. -/
def shardBytes (c : ProcessedChunk) (i : ℕ) : Outcome StoreError Bytes :=
  if i < DATA_SHARDS then .ok (padShard ((dataShard c.cipher c.shardLen i).getD []) c.shardLen)
  else match c.recovery[i - DATA_SHARDS]? with
    | some b => .ok b
    | none => .error .panic

def chunkRowFor (fileId : Text) (c : ProcessedChunk) : ChunkRow where
  chunkId := chunkId fileId c.index
  fileId := fileId
  idx := c.index
  nonce := c.nonce
  isCompressed := c.isCompressed
  plaintextLen := c.plaintextLen
  cipherLen := c.cipher.length
  shardLen := c.shardLen

def shardRowFor (cid : Text) (i : ℕ) (bytes : Bytes) : ShardRow where
  fragmentId := fragmentId P cid i
  chunkId := cid
  shardIndex := i
  location := LOCAL
  hash := shardHash P bytes

/-- `verify_hash` (`service.rs:699-701`); an empty hash is a row from before hashes. -/
def verifyHash (bytes : Bytes) (expected : Text) : Bool :=
  expected.isEmpty || shardHash P bytes = expected

def writeShard (cid : Text) (c : ProcessedChunk) (i : ℕ) : Svc Unit := do
  let bytes ← ofOutcome (shardBytes c i)
  storeWrite (fragmentId P cid i) bytes
  stmt (insertShard · (shardRowFor P cid i bytes))

def writeChunk (fileId : Text) (c : ProcessedChunk) : Svc Unit := do
  stmt (insertChunk · (chunkRowFor fileId c))
  let _ ← collect (writeShard P (chunkId fileId c.index) c) (List.range TOTAL_SHARDS)
  return ()

def writeChunkRows (fileId : Text) (chunks : List ProcessedChunk) : Svc Unit := do
  let _ ← collect (writeChunk P fileId) chunks
  return ()

/-- Disk cost of the shards of a file. -/
def storedBytesOf (chunks : List ProcessedChunk) : ℤ :=
  (chunks.map fun c => ((TOTAL_SHARDS * shardDiskCost c.shardLen : ℕ) : ℤ)).sum

/-! ### Push (`service.rs:55-161`) -/

structure PushResult where
  fileId : Text
  size : ℤ
  storedBytes : ℤ
  supersededFileId : Option Text
  supersededSize : ℤ
  supersededStored : ℤ
  unchanged : Bool
  deriving DecidableEq, Repr

/-- The row a push writes. -/
def pushRow (u path mint : Text) (data : Bytes) (now : Time) (chunks : List ProcessedChunk)
    (lineage : Text) : FileRow where
  fileId := mint
  userId := u
  path := path
  size := data.length
  storedBytes := storedBytesOf chunks
  chunkCount := chunks.length
  createdAt := now
  deletedAt := none
  supersededAt := none
  lineage := lineage
  keyScheme := KeyScheme.V2.asI64
  contentHash := some (blake3Hex P data)
  packId := none
  packOffset := none
  packLen := none

/-- Step the row at the path aside, when there is one. -/
def supersedeOpt (u : Text) (row : Option FileRow) (now : Time) : Svc Unit :=
  match row with
  | some p => stmt (supersedeFile · u p.fileId now)
  | none => pure ()

def pushTx (u path mint : Text) (data : Bytes) (now : Time) (chunks : List ProcessedChunk) :
    Svc PushResult := do
  let prev ← query (getFileByPath · u path)
  supersedeOpt u prev now
  let lineage := (prev.map FileRow.lineage).getD mint
  stmt (insertFile · (pushRow P u path mint data now chunks lineage))
  writeChunkRows P mint chunks
  return {
    fileId := mint
    size := data.length
    storedBytes := storedBytesOf chunks
    supersededFileId := prev.map FileRow.fileId
    supersededSize := (prev.map FileRow.size).getD 0
    supersededStored := (prev.map FileRow.storedBytes).getD 0
    unchanged := false }

/-- The upload is what the path already holds. -/
def sameContent (prev : FileRow) (data : Bytes) : Bool :=
  prev.size = data.length && prev.contentHash = some (blake3Hex P data)

/-- Content the path does not hold yet. -/
def pushNew (u path : Text) (data : Bytes) (mint : Text) (now : Time) : Svc PushResult := do
  let chunks ← ofOutcome (wrapErr .core (processV2 P data key (utf8 u) (utf8 mint) {}))
  transaction (pushTx P u path mint data now chunks)

def push (u path : Text) (data : Bytes) (mint : Text) (now : Time) : Svc PushResult := do
  let prev ← query (getFileByPath · u path)
  match prev.filter (sameContent P · data) with
  | some p => return {
      fileId := p.fileId
      size := p.size
      storedBytes := 0
      supersededFileId := none
      supersededSize := 0
      supersededStored := 0
      unchanged := true }
  | none => pushNew P key u path data mint now

end

/-! ### The trash (`service.rs:275-371`) -/

def trash (u f : Text) (now : Time) : Svc FileRow := do
  let row ← query (getFile · u f)
  let file ← orThrow .notFound row
  if file.deletedAt.isSome then return file
  else if file.supersededAt.isSome then throwErr .notFound
  else
    stmt (trashFile · u f now)
    let row ← query (getFile · u f)
    orThrow .notFound row

structure TrashSummary where
  files : ℕ
  size : ℤ
  storedBytes : ℤ
  deriving DecidableEq, Repr

/-- `TrashSummary::add` over the rows. -/
def TrashSummary.of (rows : List FileRow) : TrashSummary where
  files := rows.length
  size := (rows.map FileRow.size).sum
  storedBytes := (rows.map FileRow.storedBytes).sum

def trashUnder (u : Text) (now : Time) (f : Text × Text) : Svc (Option FileRow) := do
  let row ← query (getFile · u f.1)
  stmt (trashFile · u f.1 now)
  return row

/-- Nothing under the path: there has to be a folder at it. -/
def requireFolder (u path : Text) (files : List (Text × Text)) : Svc Unit :=
  if files.isEmpty then do
    let there ← query (folderExists · u path)
    if there then pure () else throwErr .notFound
  else pure ()

/-- The transaction of `trash_path` for a path with no file at it. -/
def trashSubtree (u path : Text) (now : Time) : Svc TrashSummary := do
  let files ← query (filesUnder · u path)
  requireFolder u path files
  let rows ← collect (trashUnder u now) files
  stmt (fun db => some (deleteFolderSubtree db u path))
  return TrashSummary.of (rows.filterMap id)

def trashPath (u path : Text) (now : Time) : Svc TrashSummary :=
  let path := trimMatches slash path
  transaction do
    let file ← query (getFileByPath · u path)
    match file with
    | some file =>
      stmt (trashFile · u file.fileId now)
      return TrashSummary.of [file]
    | none => trashSubtree u path now

/-- `insert_folder` (`manifest.rs:855-878`), one statement for each folder. -/
def insertFolderSvc (u path : Text) : Svc Unit := do
  let _ ← collect (fun row => stmt fun db => some (insertFolderRow db row)) (folderRowsFor u path)
  return ()

def restoreTx (u f : Text) (newPath : Option Text) (now : Time) : Svc Unit := do
  let row ← query (getFile · u f)
  let file ← orThrow .notFound row
  if file.isLive then throwErr .notFound
  else
    let target := trimMatches slash (newPath.getD file.path)
    if target.isEmpty then throwErr .notFound
    else
      let current ← query (getFileByPath · u target)
      supersedeOpt u (current.filter fun c => c.fileId ≠ file.fileId) now
      insertFolderSvc u (dirname target)
      stmt (restoreFile · u f target)

def restore (u f : Text) (newPath : Option Text) (now : Time) : Svc FileRow := do
  transaction (restoreTx u f newPath now)
  let row ← query (getFile · u f)
  orThrow .notFound row

def mkdir (u path : Text) : Svc Unit := insertFolderSvc u (trimMatches slash path)

/-! ### Rename (`service.rs:619-657`) -/

/-- `&path[from.len()..]`, a panic when that is not a character boundary. -/
def suffixOf (fromPath path : Text) : Svc Text :=
  match sliceFrom path (byteLen fromPath) with
  | some s => return s
  | none => ofOutcome (.error .panic)

def moveFile (u fromPath toPath : Text) (f : Text × Text) : Svc Unit := do
  let suffix ← suffixOf fromPath f.2
  stmt (updateFilePath · u f.1 (toPath ++ suffix))

def moveFolder (u fromPath toPath path : Text) : Svc Unit := do
  let suffix ← suffixOf fromPath path
  stmt (updateFolderPath · u path (toPath ++ suffix))

/-- The transaction of `rename` for a path with no file at it. -/
def renameSubtree (u fromPath toPath : Text) : Svc Unit := do
  let files ← query (filesUnder · u fromPath)
  let folders ← query (foldersUnder · u fromPath)
  if files.isEmpty && folders.isEmpty then throwErr .notFound
  else
    let _ ← collect (moveFile u fromPath toPath) files
    let _ ← collect (moveFolder u fromPath toPath) folders
    insertFolderSvc u toPath

def rename (u fromPath toPath : Text) : Svc Unit :=
  let fromPath := trimMatches slash fromPath
  let toPath := trimMatches slash toPath
  if fromPath.isEmpty || toPath.isEmpty || fromPath == toPath then throwErr .notFound
  else transaction do
    insertFolderSvc u (dirname toPath)
    let file ← query (getFileByPath · u fromPath)
    match file with
    | some file => stmt (updateFilePath · u file.fileId toPath)
    | none => renameSubtree u fromPath toPath

/-! ### Destroying rows (`service.rs:240-262`, `373-527`) -/

/-- `purge_file_row`: the shards of the row, and the row gone. -/
def purgeFileRow (u f : Text) : Svc (List RemoteShard) := do
  let frags ← query (fragsOf · u f)
  stmt (fun db => some (deleteFile db u f))
  return frags

/-- `purge_local_collect_remote`: local shards are deleted, the others returned. -/
def purgeLocalCollectRemote (frags : List RemoteShard) : Svc (List RemoteShard) := do
  let _ ← collect (fun s => storeDelete s.1) (frags.filter fun s => s.2 = LOCAL)
  return frags.filter fun s => s.2 ≠ LOCAL

def purgeFile (u f : Text) : Svc (FileRow × List RemoteShard) := do
  let row ← query (getFile · u f)
  let file ← orThrow .notFound row
  let frags ← purgeFileRow u f
  let remote ← purgeLocalCollectRemote frags
  return (file, remote)

def emptyTrashTx (u : Text) : Svc (TrashSummary × List RemoteShard) := do
  let rows ← query (listTrashed · u)
  let frags ← collect (fun r => purgeFileRow u r.fileId) rows
  return (TrashSummary.of rows, frags.flatten)

def emptyTrash (u : Text) : Svc (TrashSummary × List RemoteShard) := do
  let r ← transaction (emptyTrashTx u)
  let remote ← purgeLocalCollectRemote r.2
  return (r.1, remote)

structure RetentionPolicy where
  trashDays : ℤ := 30
  versionDays : ℤ := 90
  keepVersions : ℤ := 3
  deriving DecidableEq, Repr

/-- One day in nanoseconds. -/
def DAY : ℤ := 24 * 60 * 60 * 1000000000

/-- `cutoff` (`service.rs:516-527`): the clamp makes the other arm unreachable. -/
def cutoff (now : Time) (days : ℤ) : Time := now - max 0 (min days 36500) * DAY

/-- The four selection rules of the sweep, in order; `cutoff` reads the clock each time. -/
def retiredCandidates (db : Db) (policy : RetentionPolicy) (nowTrash nowVersion : Time) :
    List PurgeCandidate :=
  trashedBefore db (cutoff nowTrash policy.trashDays) ++
    supersededBefore db (cutoff nowVersion policy.versionDays) ++
    supersededBeyond db (max policy.keepVersions 0) ++ supersededOrphans db

/-- Skip a file id that came up before. -/
def firstSeen (seen : List Text) : List PurgeCandidate → List PurgeCandidate
  | [] => []
  | c :: cs => if c.2.1 ∈ seen then firstSeen seen cs else c :: firstSeen (c.2.1 :: seen) cs

structure PurgeReport where
  files : ℕ
  freed : List (Text × ℤ × ℤ)
  remote : List RemoteShard
  deriving DecidableEq, Repr

/-- Sizes per account, accounts in order. -/
def freedPerUser (purged : List PurgeCandidate) : List (Text × ℤ × ℤ) :=
  (((purged.map fun c => c.1).dedup).insertionSort (fun a b => textLe a b)).map fun u =>
    (u, ((purged.filter fun c => c.1 = u).map fun c => c.2.2.1).sum,
      ((purged.filter fun c => c.1 = u).map fun c => c.2.2.2).sum)

def purgeRetiredTx (policy : RetentionPolicy) (nowTrash nowVersion : Time) :
    Svc (List PurgeCandidate × List RemoteShard) := do
  let trashed ← query (trashedBefore · (cutoff nowTrash policy.trashDays))
  let old ← query (supersededBefore · (cutoff nowVersion policy.versionDays))
  let beyond ← query (supersededBeyond · (max policy.keepVersions 0))
  let orphans ← query supersededOrphans
  let purged := firstSeen [] (trashed ++ old ++ beyond ++ orphans)
  let frags ← collect (fun c => purgeFileRow c.1 c.2.1) purged
  return (purged, frags.flatten)

def purgeRetired (policy : RetentionPolicy) (nowTrash nowVersion : Time) : Svc PurgeReport := do
  let r ← transaction (purgeRetiredTx policy nowTrash nowVersion)
  let remote ← purgeLocalCollectRemote r.2
  return { files := r.1.length, freed := freedPerUser r.1, remote := remote }

end P2pnas.Store.Service
