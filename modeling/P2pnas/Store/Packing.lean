import P2pnas.Store.Service

/-!
# Small-file packing (`service.rs:800-1200`)

A pack is an ordinary row behind a hidden path whose plaintext is its members' bytes and a
trailer that lists them. A member keeps its row and reads as a range of the pack.
-/

namespace P2pnas.Store.Packing
open P2pnas.Lib.Frames P2pnas.Lib.Strings P2pnas.Core P2pnas.Core.Base P2pnas.Core.Crypto
open P2pnas.Core.Pipeline P2pnas.Store.Manifest P2pnas.Store.Session P2pnas.Store.Reading
open P2pnas.Store.Service

def SMALL_MAX : ℕ := 256 * 1024
def PACK_TARGET : ℕ := 1024 * 1024
def PACK_MAGIC : Bytes := ascii "P2PNPAK1"

structure PackEntry where
  fileId : Text
  data : Bytes
  deriving DecidableEq, Repr

structure PackResult where
  packId : Option Text
  packSize : ℤ
  packStoredBytes : ℤ
  members : ℕ
  freedStoredBytes : ℤ
  remote : List RemoteShard
  deriving DecidableEq, Repr

/-! ### The pack format -/

/-- Offset and length of each member, the first at `start`. -/
def packRanges (start : ℕ) : List PackEntry → List (ℕ × ℕ)
  | [] => []
  | e :: es => (start, e.data.length) :: packRanges (start + e.data.length) es

theorem packRanges_length (start : ℕ) (es : List PackEntry) :
    (packRanges start es).length = es.length := by
  induction es generalizing start with
  | nil => rfl
  | cons e es ih => rw [packRanges, List.length_cons, ih, List.length_cons]

/-- One index record; a file id of 4 GiB or more is refused. -/
def indexEntry (e : PackEntry) (range : ℕ × ℕ) : Outcome StoreError Bytes :=
  if (utf8 e.fileId).length < 2 ^ 32 then
    .ok (lp 4 (utf8 e.fileId) ++ beBytes 8 range.1 ++ beBytes 8 range.2)
  else fail (.integrity ("file id of ".toList ++ e.fileId ++ " too long for a pack index".toList))

/-- `build_pack` (`service.rs:855-880`). -/
def buildPack (entries : List PackEntry) : Outcome StoreError (Bytes × List (ℕ × ℕ)) := do
  let ranges := packRanges 0 entries
  let records ← collect (fun er => indexEntry er.1 er.2) (entries.zip ranges)
  let index := records.flatten
  if index.length < 2 ^ 32 then
    return ((entries.map PackEntry.data).flatten ++ index ++ beBytes 4 index.length ++ PACK_MAGIC,
      ranges)
  else fail (.integrity "pack index too large".toList)

/-- `plan_packs` (`service.rs:1003-1022`): the groups before those of one are dropped. -/
def planGroups (target : ℤ) (group : List FileRow) (bytes : ℤ) : List FileRow → List (List FileRow)
  | [] => if group.isEmpty then [] else [group]
  | f :: fs =>
    if !group.isEmpty && target < bytes + f.size then group :: planGroups target [f] f.size fs
    else planGroups target (group ++ [f]) (bytes + f.size) fs

def planPacks (files : List FileRow) (target : ℤ) : List (List FileRow) :=
  (planGroups target [] 0 files).filter fun g => 2 ≤ g.length

variable {K : Type} (P : Prims K) (key : K)

/-! ### Writing a pack -/

/-- `insert_pack_row` (`service.rs:955-995`). -/
def insertPackRow (u packId : Text) (plain : Bytes) (now : Time) : Svc ℤ := do
  let chunks ← ofOutcome (wrapErr .core (processV2 P plain key (utf8 u) (utf8 packId) {}))
  stmt (insertFile · (pushRow P u (packKey packId) packId plain now chunks packId))
  writeChunkRows P packId chunks
  return storedBytesOf chunks

/-- One member of `pack_files`: what it stored is freed. -/
def packMember (u packId : Text) (er : PackEntry × ℕ × ℕ) : Svc (ℤ × List RemoteShard) := do
  let row ← query (getFile · u er.1.fileId)
  let row ← orThrow
    (.integrity ("file ".toList ++ er.1.fileId ++ " vanished while being packed".toList)) row
  if row.packId.isSome || row.size ≠ er.1.data.length then
    throwErr (.integrity ("file ".toList ++ er.1.fileId ++ " changed while being packed".toList))
  else
    let frags ← query (fragsOf · u er.1.fileId)
    stmt (fun db => some (deleteChunks db u er.1.fileId))
    stmt (assignToPack · u er.1.fileId packId er.2.1 er.2.2)
    return (row.storedBytes, frags)

/-- The transaction of `pack_files`: what was freed, the shards to drop, the cost of the pack. -/
def packFilesTx (u packId : Text) (entries : List PackEntry) (plain : Bytes) (ranges : List (ℕ × ℕ))
    (now : Time) : Svc (ℤ × List RemoteShard × ℤ) := do
  let freed ← collect (packMember u packId) (entries.zip ranges)
  let stored ← insertPackRow P key u packId plain now
  return ((freed.map Prod.fst).sum, (freed.map Prod.snd).flatten, stored)

/-- `pack_files` (`service.rs:1042-1085`). -/
def packFiles (u : Text) (entries : List PackEntry) (packId : Text) (now : Time) :
    Svc PackResult :=
  if entries.isEmpty then throwErr (.integrity "cannot build an empty pack".toList)
  else do
    let built ← ofOutcome (buildPack entries)
    let r ← transaction (packFilesTx P key u packId entries built.1 built.2 now)
    let remote ← purgeLocalCollectRemote r.2.1
    return {
      packId := some packId
      packSize := built.1.length
      packStoredBytes := r.2.2
      members := entries.length
      freedStoredBytes := r.1
      remote := remote }

/-! ### Compaction -/

/-- Every row that still names the pack has to be among the survivors. -/
def checkCarried (oldPackId : Text) (survivors : List PackEntry) (members : List FileRow) :
    Outcome StoreError Unit :=
  match members.find? fun m => m.fileId ∉ survivors.map PackEntry.fileId with
  | some m => fail (.integrity ("member ".toList ++ m.fileId ++ " of pack ".toList ++ oldPackId ++
      " is not among the compaction survivors".toList))
  | none => .ok ()

def moveMember (u oldPackId newPackId : Text) (er : PackEntry × ℕ × ℕ) : Svc Unit := do
  let row ← query (getFile · u er.1.fileId)
  let row ← orThrow
    (.integrity ("file ".toList ++ er.1.fileId ++ " vanished while being compacted".toList)) row
  if row.packId ≠ some oldPackId || row.size ≠ er.1.data.length then
    throwErr (.integrity ("file ".toList ++ er.1.fileId ++ " changed while being compacted".toList))
  else stmt (assignToPack · u er.1.fileId newPackId er.2.1 er.2.2)

/-- The new pack, its size and cost; `none` when the old pack had no member left. -/
def compactPackTx (u oldPackId : Text) (survivors : List PackEntry) (newPackId : Text)
    (now : Time) : Svc (FileRow × Option (ℕ × ℤ) × List RemoteShard) := do
  let row ← query (getFile · u oldPackId)
  let old ← orThrow .notFound row
  if old.isPack then
    let members ← query (packMembers · u oldPackId)
    ofOutcome (checkCarried oldPackId survivors members)
    if survivors.isEmpty then
      let frags ← purgeFileRow u oldPackId
      return (old, none, frags)
    else
      let built ← ofOutcome (buildPack survivors)
      let _ ← collect (moveMember u oldPackId newPackId) (survivors.zip built.2)
      let stored ← insertPackRow P key u newPackId built.1 now
      let frags ← purgeFileRow u oldPackId
      return (old, some (built.1.length, stored), frags)
  else throwErr (.integrity (oldPackId ++ " is not a pack".toList))

/-- `compact_pack` (`service.rs:1101-1167`). -/
def compactPack (u oldPackId : Text) (survivors : List PackEntry) (newPackId : Text) (now : Time) :
    Svc PackResult := do
  let r ← transaction (compactPackTx P key u oldPackId survivors newPackId now)
  let remote ← purgeLocalCollectRemote r.2.2
  return {
    packId := r.2.1.map fun _ => newPackId
    packSize := (r.2.1.map fun n => (n.1 : ℤ)).getD 0
    packStoredBytes := (r.2.1.map Prod.snd).getD 0
    members := survivors.length
    freedStoredBytes := r.1.storedBytes
    remote := remote }

/-! ### Repacking one user's small files -/

/-- How deep `pull` goes on a manifest that does not move: a member, then its container. -/
def PULL_DEPTH : ℕ := 2

/-- The entries of a pack: each file read through the local pull path. -/
def gather (u : Text) (fileIds : List Text) : Svc (List PackEntry) :=
  collect (fun f => do
    let data ← (pull P key PULL_DEPTH u f).run
    return { fileId := f, data := data }) fileIds

structure RepackReport where
  packs : ℕ
  filesPacked : ℕ
  bytesPacked : ℤ
  storedFreed : ℤ
  storedAdded : ℤ
  remote : List RemoteShard
  deriving DecidableEq, Repr

/-- One group of the pass, under the id its pack mints: the result and the bytes packed. -/
def repackGroup (u : Text) (now : Time) (g : List FileRow × Text) : Svc (PackResult × ℤ) := do
  let entries ← gather P key u (g.1.map FileRow.fileId)
  let r ← packFiles P key u entries g.2 now
  return (r, ((entries.map fun e => (e.data.length : ℤ)).sum))

/-- `repack_small_files` (`service.rs:1170-1200`); group `i` mints `mints i`. -/
def repackSmallFiles (u : Text) (mints : ℕ → Text) (now : Time) : Svc RepackReport := do
  let candidates ← query (packableFiles · u SMALL_MAX)
  let groups := (planPacks candidates PACK_TARGET).zipIdx.map fun g => (g.1, mints g.2)
  let rs ← collect (repackGroup P key u now) groups
  return {
    packs := rs.length
    filesPacked := (rs.map fun r => r.1.members).sum
    bytesPacked := (rs.map Prod.snd).sum
    storedFreed := (rs.map fun r => r.1.freedStoredBytes).sum
    storedAdded := (rs.map fun r => r.1.packStoredBytes).sum
    remote := (rs.map fun r => r.1.remote).flatten }

end P2pnas.Store.Packing
