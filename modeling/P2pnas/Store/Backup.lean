import P2pnas.Store.Session

/-!
# The sealed manifest backup (`backup.rs:263-399`, `454-473`, `593-625`)

A snapshot of the manifest is framed, sealed under a key of the node and the day, and
erasure-coded into fourteen self-describing envelopes. The day number is the version, and
the nonce is always the one of index 0.
-/

namespace P2pnas.Store.Backup
open P2pnas.Lib.Frames P2pnas.Lib.Strings P2pnas.Core.Base P2pnas.Core.Crypto
open P2pnas.Core.Erasure P2pnas.Store.Session

def MANIFEST_BACKUP_DOMAIN : Bytes := ascii "p2pnas/manifest-backup/v1"
def MB_MAGIC : Bytes := ascii "KBP2PMB1"
def MB_FORMAT : Byte := 1
def MS_MAGIC : Bytes := ascii "KBP2PMS1"
def MS_FORMAT : Byte := 1
def BLOB_HASH_LEN : ℕ := 16
def PEER_ID_LEN : ℕ := 32
def DAY_SECS : ℕ := 24 * 60 * 60

def backupError (msg : String) : StoreError := .integrity msg.toList

/-- `manifest_backup_version_now`: whole days since the epoch; a clock before it reads 0. -/
def manifestBackupVersionNow (secs : Option UInt64) : ℕ :=
  match secs with
  | some s => s.toNat / DAY_SECS
  | none => 0

theorem version_lt (secs : Option UInt64) : manifestBackupVersionNow secs < 2 ^ 64 := by
  cases secs with
  | none => simp only [manifestBackupVersionNow]; omega
  | some s => exact Nat.lt_of_le_of_lt (Nat.div_le_self ..) s.toNat_lt

variable {K : Type} (P : Prims K)

def manifestBackupFragmentId (peerId : Text) (version shardIndex : ℕ) : Text :=
  hexEncode ((P.blake3 (MANIFEST_BACKUP_DOMAIN ++ utf8 peerId ++ beBytes 8 version ++
    beBytes 4 shardIndex)).take 16)

def manifestBackupSealer (key : K) (peerId : Text) (version : ℕ) : K :=
  fileSubkey P (deriveV2 P key MANIFEST_BACKUP_DOMAIN [utf8 peerId, beBytes 8 version])
    MANIFEST_BACKUP_DOMAIN

def blobHash (blob : Bytes) : Bytes := (P.blake3 blob).take BLOB_HASH_LEN

/-- The frame that is sealed. -/
def snapshotFrame (peerId : Text) (version : ℕ) (snapshot : Bytes) : Bytes :=
  MB_MAGIC ++ [MB_FORMAT] ++ beBytes 8 version ++ utf8 peerId ++ beBytes 8 snapshot.length ++
    snapshot

/-- `seal_manifest_snapshot`. -/
def sealManifestSnapshot (key : K) (peerId : Text) (version : ℕ) (snapshot : Bytes) :
    Outcome StoreError Bytes :=
  if byteLen peerId ≠ PEER_ID_LEN then fail (backupError "peer id has unexpected length")
  else wrapErr .core (sealChunkRaw P (manifestBackupSealer P key peerId version)
    (snapshotFrame peerId version snapshot) 0)

/-- The envelope of shard `i`. -/
def envelope (version : ℕ) (blob shard : Bytes) (i : ℕ) : Bytes :=
  MS_MAGIC ++ [MS_FORMAT] ++ beBytes 8 version ++ beBytes 1 i ++ beBytes 4 shard.length ++
    beBytes 8 blob.length ++ blobHash P blob ++ shard

def encodeManifestBackupShards (version : ℕ) (blob : Bytes) : Outcome StoreError (List Bytes) := do
  let shards ← wrapErr .core (encode P blob)
  return shards.zipIdx.map fun s => envelope P version blob s.1 s.2

structure ManifestBackupBlob where
  version : ℕ
  snapshotLen : ℕ
  blobLen : ℕ
  shards : List Bytes
  deriving DecidableEq, Repr

/-- `build_manifest_backup` after the snapshot was taken and read. -/
def buildManifestBackup (key : K) (peerId : Text) (version : ℕ) (snapshot : Bytes) :
    Outcome StoreError ManifestBackupBlob := do
  let blob ← sealManifestSnapshot P key peerId version snapshot
  let shards ← encodeManifestBackupShards P version blob
  return {
    version := version
    snapshotLen := snapshot.length
    blobLen := blob.length
    shards := shards }

/-! ### The seal operation of a backup -/

/-- The seal operations `sealManifestSnapshot` makes: one, unless the peer id is refused. -/
def sealOps (key : K) (peerId : Text) (version : ℕ) (snapshot : Bytes) : List (Seal K) :=
  if byteLen peerId ≠ PEER_ID_LEN then []
  else [⟨manifestBackupSealer P key peerId version, nonceFor 0, [],
    snapshotFrame peerId version snapshot⟩]

/-- The call returns what the AEAD makes of that operation. -/
theorem sealManifestSnapshot_ops (key : K) (peerId : Text) (version : ℕ) (snapshot : Bytes) :
    sealManifestSnapshot P key peerId version snapshot =
      match sealOps P key peerId version snapshot with
      | [] => fail (backupError "peer id has unexpected length")
      | op :: _ => wrapErr .core
        (orFail (.crypto "seal") (P.sealInPlace op.key op.nonce op.aad op.plain)) := by
  rw [sealManifestSnapshot, sealOps]
  split
  · rfl
  · rfl

/-- The key determines the day. -/
theorem manifestBackupSealer_inj (hk : HkdfSeparates P) {key : K} {peerId : Text} {v v' : ℕ}
    (hlen : byteLen peerId < 2 ^ 64) (hv : v < 2 ^ 64) (hv' : v' < 2 ^ 64)
    (h : manifestBackupSealer P key peerId v = manifestBackupSealer P key peerId v') : v = v' := by
  obtain ⟨_, hraw, _⟩ := hk _ _ _ _ _ _ h
  obtain ⟨_, _, hinfo⟩ := hk _ _ _ _ _ _ hraw
  have h8 : (256 : ℕ) ^ 8 = 2 ^ 64 := by norm_num
  have hd : MANIFEST_BACKUP_DOMAIN.length < 256 ^ 8 := by decide
  have hp : (utf8 peerId).length < 256 ^ 8 := by rw [h8]; exact hlen
  simp only [infoV2, lpConcat_cons, lpConcat_nil, List.append_nil] at hinfo
  have hrest := (lp_append_inj hp hp (lp_append_inj hd hd hinfo).2).2
  have hb : ∀ n : ℕ, (beBytes 8 n).length < 256 ^ 8 := by
    intro n
    rw [beBytes_length]
    norm_num
  have hver := (lp_append_inj (x := []) (y := []) (hb v) (hb v')
    (by simpa only [List.append_nil] using hrest)).1
  exact beBytes_inj (by rw [h8]; exact hv) (by rw [h8]; exact hv') hver

/-- The frame of one node and day determines the snapshot. -/
theorem snapshotFrame_inj {peerId : Text} {version : ℕ} {s t : Bytes}
    (h : snapshotFrame peerId version s = snapshotFrame peerId version t) : s = t := by
  have hlen : (MB_MAGIC ++ [MB_FORMAT] ++ beBytes 8 version ++ utf8 peerId ++
      beBytes 8 s.length).length = (MB_MAGIC ++ [MB_FORMAT] ++ beBytes 8 version ++
      utf8 peerId ++ beBytes 8 t.length).length := by
    simp only [List.length_append, beBytes_length]
  exact (List.append_inj h hlen).2

end P2pnas.Store.Backup
