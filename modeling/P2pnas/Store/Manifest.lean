import Mathlib.Data.List.Sort
import P2pnas.Core.Pipeline
import P2pnas.Lib.Tables

/-!
# The manifest tables (`manifest.rs`)

The four tables of the encrypted manifest with the constraints the schema declares. A `Db`
carries the constraints, so a statement either gives tables that meet them or is refused.
Integer columns are `i64`; texts are compared by their bytes; the stamps are instants, whose
RFC 3339 texts sort like time.
-/

namespace P2pnas.Store.Manifest
open P2pnas.Lib.Frames P2pnas.Lib.Strings P2pnas.Lib.Tables P2pnas.Core.Base

/-- Nanoseconds since the epoch, an instant before it being negative. -/
abbrev Time := ℤ

/-- `v as u64` (or `usize`) of an `i64` value. -/
def asU64 : ℤ → ℕ
  | .ofNat n => n
  | .negSucc n => 2 ^ 64 - 1 - n

@[simp] theorem asU64_natCast (n : ℕ) : asU64 (n : ℤ) = n := rfl

/-! ### Rows -/

/-- A row of `files`, column by column. -/
structure FileRec where
  fileId : Text
  userId : Text
  path : Text
  size : ℤ
  storedBytes : ℤ
  chunkCount : ℤ
  createdAt : Time
  retiredPath : Option Text
  deletedAt : Option Time
  supersededAt : Option Time
  lineage : Option Text
  keyScheme : ℤ
  contentHash : Option Text
  packId : Option Text
  packOffset : Option ℤ
  packLen : Option ℤ
  deriving DecidableEq, Repr

/-- What `FILE_COLS` selects: the user-visible path and a lineage that is always there. -/
structure FileRow where
  fileId : Text
  userId : Text
  path : Text
  size : ℤ
  storedBytes : ℤ
  chunkCount : ℤ
  createdAt : Time
  deletedAt : Option Time
  supersededAt : Option Time
  lineage : Text
  keyScheme : ℤ
  contentHash : Option Text
  packId : Option Text
  packOffset : Option ℤ
  packLen : Option ℤ
  deriving DecidableEq, Repr

structure ChunkRow where
  chunkId : Text
  fileId : Text
  idx : ℤ
  nonce : Bytes
  isCompressed : Bool
  plaintextLen : ℤ
  cipherLen : ℤ
  shardLen : ℤ
  deriving DecidableEq, Repr

structure ShardRow where
  fragmentId : Text
  chunkId : Text
  shardIndex : ℤ
  location : Text
  hash : Text
  deriving DecidableEq, Repr

structure FolderRow where
  userId : Text
  path : Text
  parent : Text
  deriving DecidableEq, Repr

/-- `COALESCE(lineage, file_id)`. -/
def FileRec.lineageId (r : FileRec) : Text := r.lineage.getD r.fileId

/-- `map_file` over `FILE_COLS`. -/
def FileRec.view (r : FileRec) : FileRow where
  fileId := r.fileId
  userId := r.userId
  path := r.retiredPath.getD r.path
  size := r.size
  storedBytes := r.storedBytes
  chunkCount := r.chunkCount
  createdAt := r.createdAt
  deletedAt := r.deletedAt
  supersededAt := r.supersededAt
  lineage := r.lineageId
  keyScheme := r.keyScheme
  contentHash := r.contentHash
  packId := r.packId
  packOffset := r.packOffset
  packLen := r.packLen

/-- `LIVE`: neither in the trash nor replaced. -/
def FileRec.live (r : FileRec) : Bool := r.deletedAt.isNone && r.supersededAt.isNone

def FileRow.isLive (f : FileRow) : Bool := f.deletedAt.isNone && f.supersededAt.isNone

/-! ### Keys and paths -/

def slash : Char := '/'

/-- The control character U+0001 that opens the hidden keys. -/
def hidden : Char := Char.ofNat 1

def RETIRED_PATH_PREFIX : Text := hidden :: "retired/".toList

def retiredKey (fileId : Text) : Text := RETIRED_PATH_PREFIX ++ fileId

def PACK_PATH_PREFIX : Text := hidden :: "pack/".toList

def packKey (packId : Text) : Text := PACK_PATH_PREFIX ++ packId

/-- `path NOT LIKE '\x01pack/%'`, on the stored path. -/
def notPack (path : Text) : Bool := !like (PACK_PATH_PREFIX ++ ['%']) path

def FileRow.isPack (f : FileRow) : Bool := PACK_PATH_PREFIX.isPrefixOf f.path

/-- Directory part of a path, empty at the top level. -/
def dirname (path : Text) : Text :=
  match path.reverse.dropWhile (· ≠ slash) with
  | [] => []
  | _ :: rest => rest.reverse

/-- Binary collation: code points compared in order. -/
def textLe : Text → Text → Bool
  | [], _ => true
  | _ :: _, [] => false
  | c :: s, d :: t => c < d || (c == d && textLe s t)

section
variable {K : Type} (P : Prims K)

/-- `shard_hash` (`manifest.rs:236-238`): sixteen bytes of the digest, in hexadecimal. -/
def shardHash (bytes : Bytes) : Text := hexEncode ((P.blake3 bytes).take 16)

/-- `blake3_hex` (`crypto.rs:518-520`). -/
def blake3Hex (bytes : Bytes) : Text := hexEncode (P.blake3 bytes)

/-- `fragment_id` (`manifest.rs:984-990`). -/
def fragmentId (chunkId : Text) (shardIndex : ℕ) : Text :=
  hexEncode ((P.blake3 (utf8 chunkId ++ utf8 [':'] ++ beBytes 4 shardIndex)).take 16)

/-- `chunk_id`: the file id and the index in decimal. -/
def chunkId (fileId : Text) (idx : ℕ) : Text := fileId ++ ':' :: Nat.toDigits 10 idx

end

/-! ### Tables and their constraints -/

structure Tables where
  files : List FileRec
  chunks : List ChunkRow
  shards : List ShardRow
  folders : List FolderRow
  deriving DecidableEq, Repr

def FileRec.pathKey (r : FileRec) : Text × Text := (r.userId, r.path)
def FolderRow.key (r : FolderRow) : Text × Text := (r.userId, r.path)

/-- Primary keys, `UNIQUE (user_id, path)` and the two foreign keys of the schema. -/
structure Constraints (t : Tables) : Prop where
  fileIds : (t.files.map FileRec.fileId).Nodup
  filePaths : (t.files.map FileRec.pathKey).Nodup
  chunkIds : (t.chunks.map ChunkRow.chunkId).Nodup
  chunkFiles : ∀ c ∈ t.chunks, c.fileId ∈ t.files.map FileRec.fileId
  shardIds : (t.shards.map ShardRow.fragmentId).Nodup
  shardChunks : ∀ s ∈ t.shards, s.chunkId ∈ t.chunks.map ChunkRow.chunkId
  folderKeys : (t.folders.map FolderRow.key).Nodup

structure Db extends Tables where
  constraints : Constraints toTables

def Db.empty : Db where
  files := []
  chunks := []
  shards := []
  folders := []
  constraints := by constructor <;> simp

/-! ### Reads -/

/-- The row of user `u` with id `f`. -/
def isRow (u f : Text) (r : FileRec) : Bool := r.userId = u && r.fileId = f

def getFile (db : Db) (u f : Text) : Option FileRow := (db.files.find? (isRow u f)).map FileRec.view

def getFileByPath (db : Db) (u path : Text) : Option FileRow :=
  (db.files.find? fun r => r.userId = u && r.path = path && r.live && notPack r.path).map FileRec.view

def getChunks (db : Db) (f : Text) : List ChunkRow :=
  (db.chunks.filter (fun c => c.fileId = f)).insertionSort (fun a b => a.idx ≤ b.idx)

def getShards (db : Db) (chunkId : Text) : List ShardRow :=
  (db.shards.filter (fun s => s.chunkId = chunkId)).insertionSort
    (fun a b => a.shardIndex ≤ b.shardIndex)

theorem mem_getChunks {db : Db} {f : Text} {c : ChunkRow} :
    c ∈ getChunks db f ↔ c ∈ db.chunks ∧ c.fileId = f := by
  rw [getChunks, List.mem_insertionSort, List.mem_filter, decide_eq_true_eq]

theorem mem_getShards {db : Db} {cid : Text} {s : ShardRow} :
    s ∈ getShards db cid ↔ s ∈ db.shards ∧ s.chunkId = cid := by
  rw [getShards, List.mem_insertionSort, List.mem_filter, decide_eq_true_eq]

/-- The shards of a file of user `u`, with their locations (`manifest.rs:705-716`). -/
def fragsOf (db : Db) (u f : Text) : List (Text × Text) :=
  if db.files.any (isRow u f) then
    (db.shards.filter fun s => db.chunks.any fun c => c.chunkId = s.chunkId && c.fileId = f).map
      fun s => (s.fragmentId, s.location)
  else []

def listFiles (db : Db) (u : Text) : List FileRow :=
  ((db.files.filter fun r => r.userId = u && r.live && notPack r.path).map
    FileRec.view).insertionSort (fun a b => textLe a.path b.path)

/-- Every row of a user, whatever its state (`manifest.rs:437-444`). -/
def listUserRows (db : Db) (u : Text) : List FileRow :=
  ((db.files.filter fun r => r.userId = u).map FileRec.view).insertionSort
    (fun a b => textLe a.path b.path)

def listTrashed (db : Db) (u : Text) : List FileRow :=
  ((db.files.filter fun r => r.userId = u && r.deletedAt.isSome && notPack r.path).map
    FileRec.view).insertionSort
      (fun a b => b.deletedAt.getD 0 < a.deletedAt.getD 0 ∨
        (a.deletedAt.getD 0 = b.deletedAt.getD 0 ∧ textLe a.path b.path))

def packableFiles (db : Db) (u : Text) (maxSize : ℤ) : List FileRow :=
  ((db.files.filter fun r => r.userId = u && r.live && r.packId.isNone && 0 < r.chunkCount &&
    r.size ≤ maxSize && notPack r.path).map FileRec.view).insertionSort
      (fun a b => textLe a.path b.path)

def packMembers (db : Db) (u packId : Text) : List FileRow :=
  ((db.files.filter fun r => r.userId = u && r.packId = some packId).map
    FileRec.view).insertionSort (fun a b => a.packOffset.getD 0 ≤ b.packOffset.getD 0)

/-! ### What retention may reclaim -/

/-- `(user_id, file_id, size, stored_bytes)`. -/
abbrev PurgeCandidate := Text × Text × ℤ × ℤ

def FileRec.candidate (r : FileRec) : PurgeCandidate := (r.userId, r.fileId, r.size, r.storedBytes)

def before (at' : Option Time) (cutoff : Time) : Bool :=
  match at' with
  | some t => t < cutoff
  | none => false

def trashedBefore (db : Db) (cutoff : Time) : List PurgeCandidate :=
  (db.files.filter fun r => before r.deletedAt cutoff).map FileRec.candidate

def supersededBefore (db : Db) (cutoff : Time) : List PurgeCandidate :=
  (db.files.filter fun r => before r.supersededAt cutoff).map FileRec.candidate

/-- `a` comes before `b` in `ORDER BY created_at DESC, file_id DESC`. -/
def newer (a b : FileRec) : Bool :=
  b.createdAt < a.createdAt || (a.createdAt = b.createdAt && !textLe a.fileId b.fileId)

def sameLineage (a b : FileRec) : Bool := a.userId = b.userId && a.lineageId = b.lineageId

/-- `ROW_NUMBER()` of a superseded row in its lineage: one more than the rows before it. -/
def rowNumber (db : Db) (r : FileRec) : ℕ :=
  db.files.countP (fun q => q.supersededAt.isSome && sameLineage q r && newer q r) + 1

def supersededBeyond (db : Db) (keep : ℤ) : List PurgeCandidate :=
  (db.files.filter fun r => r.supersededAt.isSome && keep < (rowNumber db r : ℤ)).map
    FileRec.candidate

/-- A superseded row whose lineage has no row that is not superseded. -/
def isOrphan (db : Db) (r : FileRec) : Bool :=
  r.supersededAt.isSome && !db.files.any fun l => sameLineage l r && l.supersededAt.isNone

def supersededOrphans (db : Db) : List PurgeCandidate :=
  (db.files.filter (isOrphan db)).map FileRec.candidate

/-! ### Folders -/

def folderExists (db : Db) (u path : Text) : Bool := db.folders.any fun r => r.userId = u && r.path = path

/-- `path = ?2 OR path LIKE '<path>/%'`. -/
def underPath (path q : Text) : Bool := q = path || like (path ++ [slash] ++ ['%']) q

def filesUnder (db : Db) (u path : Text) : List (Text × Text) :=
  ((db.files.filter fun r => r.userId = u && underPath path r.path && r.live).map
    fun r => (r.fileId, r.path)).insertionSort (fun a b => textLe a.2 b.2)

def foldersUnder (db : Db) (u path : Text) : List Text :=
  ((db.folders.filter fun r => r.userId = u && underPath path r.path).map
    FolderRow.path).insertionSort (fun a b => textLe a b)

end P2pnas.Store.Manifest
