import P2pnas.Lib.Cursor
import P2pnas.Store.Hostile

/-!
# The envelopes of a manifest backup (`backup.rs:107-123`, `280-306`, `453-506`)

What a peer holds of a backup is one erasure shard behind a header of seven fields. The parser
names the ranges of the header by literal offsets. The results are that these are the ranges the
writer filled, that no range is out of the bytes at hand, whatever they are, and that an envelope it
accepts is the header of its fields followed by its data.
-/

namespace P2pnas.Store.Envelopes
open P2pnas.Lib.Frames P2pnas.Lib.Cursor P2pnas.Core.Base P2pnas.Core.Erasure
open P2pnas.Store.Session P2pnas.Store.Backup P2pnas.Store.Restore P2pnas.Store.Hostile

/-- `be_u64`. -/
def beU64 (bytes : Bytes) : Outcome StoreError ℕ :=
  orFail (backupError "malformed length field") (word 8 bytes)

/-- `be_u32`. -/
def beU32 (bytes : Bytes) : Outcome StoreError ℕ :=
  orFail (backupError "malformed length field") (word 4 bytes)

/-- `decode_manifest_backup_shard`, each range and index of it a step that can panic. -/
def decodeChecked (bytes : Bytes) : Outcome StoreError ManifestBackupShard :=
  if bytes.length < MS_HEADER then fail (backupError "backup shard too short")
  else do
    let magic ← inBounds (slice bytes 0 8)
    let format ← inBounds bytes[8]?
    if magic ≠ MS_MAGIC ∨ format ≠ MS_FORMAT then
      fail (backupError "not a p2pnas manifest backup shard")
    else
      let version ← beU64 (← inBounds (slice bytes 9 17))
      let index ← inBounds bytes[17]?
      if TOTAL_SHARDS ≤ index.toNat then fail (backupError "backup shard index out of range")
      else
        let shardLen ← beU32 (← inBounds (slice bytes 18 22))
        let blobLen ← beU64 (← inBounds (slice bytes 22 30))
        if blobLen = 0 then fail (backupError "backup shard declares an empty blob")
        else
          let hash ← inBounds ((slice bytes 30 MS_HEADER).filter fun h => h.length = BLOB_HASH_LEN)
          let data ← inBounds (slice bytes MS_HEADER bytes.length)
          if data.length ≠ shardLen then fail (backupError "backup shard length mismatch")
          else return {
            version := version
            shardIndex := index.toNat
            blobLen := blobLen
            blobHash := hash
            data := data }

/-- The header layout: `MS_MAGIC | MS_FORMAT | version | shard_index | shard_len | blob_len | hash`. -/
def header (s : ManifestBackupShard) : Bytes :=
  MS_MAGIC ++ [MS_FORMAT] ++ beBytes 8 s.version ++ beBytes 1 s.shardIndex ++ beBytes 4 s.data.length ++
    beBytes 8 s.blobLen ++ s.blobHash

/-! ### No step is out of bounds -/

theorem slice_bytesAt (bytes : Bytes) {start stop : ℕ} (h : start ≤ stop) (hl : stop ≤ bytes.length) :
    slice bytes start stop = some (bytesAt bytes start stop) := if_pos ⟨h, hl⟩

theorem bytesAt_length {bytes : Bytes} {start stop : ℕ} (hl : stop ≤ bytes.length) :
    (bytesAt bytes start stop).length = stop - start := by
  rw [bytesAt, List.length_take, List.length_drop]
  omega

theorem bytesAt_byte {bytes : Bytes} {i : ℕ} (h : i < bytes.length) :
    bytesAt bytes i (i + 1) = [bytes[i]] := by
  rw [bytesAt, Nat.add_sub_cancel_left, List.drop_eq_getElem_cons h]
  rfl

theorem bytesAt_end (bytes : Bytes) (start : ℕ) : bytesAt bytes start bytes.length = bytes.drop start := by
  rw [bytesAt, ← List.length_drop, List.take_length]

theorem beVal_singleton (b : Byte) : beVal [b] = b.toNat := by
  simp only [beVal, List.foldl_cons, List.foldl_nil, Nat.zero_mul, Nat.zero_add]

/-- Behind the length check every range exists, so the parser is the one without partial steps. -/
theorem decodeChecked_eq (bytes : Bytes) : decodeChecked bytes = decodeManifestBackupShard bytes := by
  rw [decodeChecked, decodeManifestBackupShard]
  split
  · rfl
  next hlong =>
  have hhead : MS_HEADER = 46 := rfl
  have h8 : bytes[8]? = some bytes[8] := List.getElem?_eq_getElem (by omega)
  have h17 : bytes[17]? = some bytes[17] := List.getElem?_eq_getElem (by omega)
  have hformat : bytesAt bytes 8 9 = [bytes[8]] := bytesAt_byte (by omega)
  have hindex : bytesAt bytes 17 18 = [bytes[17]] := bytesAt_byte (by omega)
  have hmagic := slice_bytesAt bytes (by omega : 0 ≤ 8) (by omega)
  have hversion := slice_bytesAt bytes (by omega : 9 ≤ 17) (by omega)
  have hshardLen := slice_bytesAt bytes (by omega : 18 ≤ 22) (by omega)
  have hblobLen := slice_bytesAt bytes (by omega : 22 ≤ 30) (by omega)
  have hhash := slice_bytesAt bytes (by omega : 30 ≤ MS_HEADER) (by omega)
  have hdata := slice_bytesAt bytes (by omega : MS_HEADER ≤ bytes.length) le_rfl
  have hw1 : word 8 (bytesAt bytes 9 17) = some (beVal (bytesAt bytes 9 17)) :=
    word_isSome (bytesAt_length (by omega))
  have hw2 : word 4 (bytesAt bytes 18 22) = some (beVal (bytesAt bytes 18 22)) :=
    word_isSome (bytesAt_length (by omega))
  have hw3 : word 8 (bytesAt bytes 22 30) = some (beVal (bytesAt bytes 22 30)) :=
    word_isSome (bytesAt_length (by omega))
  have hhashLen : decide ((bytesAt bytes 30 MS_HEADER).length = BLOB_HASH_LEN) = true :=
    decide_eq_true (bytesAt_length (by omega))
  simp only [hmagic, h8, hversion, h17, hshardLen, hblobLen, hhash, hdata, inBounds_some, ok_bind, beU64, beU32,
    hw1, hw2, hw3, orFail_some, Option.filter_some, hhashLen, if_true, hformat, hindex, beVal_singleton,
    bytesAt_end, ne_eq, List.cons.injEq, and_true]
  rfl

theorem decodeChecked_noPanic (bytes : Bytes) : decodeChecked bytes ≠ .error .panic := by
  intro h
  rw [decodeChecked_eq, decodeManifestBackupShard] at h
  split at h
  · cases h
  split at h
  · cases h
  simp only at h
  split at h
  · cases h
  split at h
  · cases h
  split at h
  · cases h
  · cases h

/-! ### What is accepted is what the header says -/

theorem take_bytesAt (bytes : Bytes) {start stop : ℕ} (h : start ≤ stop) :
    bytes.take stop = bytes.take start ++ bytesAt bytes start stop := by
  have hstop : stop = start + (stop - start) := by omega
  rw [bytesAt]
  conv_lhs => rw [hstop, List.take_add]

/-- A word of the header is its value, written on its width. -/
theorem beBytes_bytesAt (bytes : Bytes) (start stop : ℕ) (hl : stop ≤ bytes.length) :
    beBytes (stop - start) (beVal (bytesAt bytes start stop)) = bytesAt bytes start stop := by
  have h := beBytes_beVal (bytesAt bytes start stop)
  rwa [bytesAt_length hl] at h

theorem decode_header {bytes : Bytes} {s : ManifestBackupShard}
    (h : decodeManifestBackupShard bytes = .ok s) : header s ++ s.data = bytes := by
  rw [decodeManifestBackupShard] at h
  split at h
  · cases h
  next hlong =>
  split at h
  · cases h
  next hmagic =>
  simp only at h
  split at h
  · cases h
  split at h
  · cases h
  split at h
  · cases h
  next hdata =>
  cases h
  have hhead : MS_HEADER = 46 := rfl
  rw [not_or, not_not, not_not] at hmagic
  rw [not_not] at hdata
  have hversion : beBytes 8 (beVal (bytesAt bytes 9 17)) = bytesAt bytes 9 17 :=
    beBytes_bytesAt bytes 9 17 (by omega)
  have hindex : beBytes 1 (beVal (bytesAt bytes 17 18)) = bytesAt bytes 17 18 :=
    beBytes_bytesAt bytes 17 18 (by omega)
  have hshardLen : beBytes 4 (beVal (bytesAt bytes 18 22)) = bytesAt bytes 18 22 :=
    beBytes_bytesAt bytes 18 22 (by omega)
  have hblobLen : beBytes 8 (beVal (bytesAt bytes 22 30)) = bytesAt bytes 22 30 :=
    beBytes_bytesAt bytes 22 30 (by omega)
  have hfront : bytes.take MS_HEADER = bytesAt bytes 0 8 ++ bytesAt bytes 8 9 ++ bytesAt bytes 9 17 ++
      bytesAt bytes 17 18 ++ bytesAt bytes 18 22 ++ bytesAt bytes 22 30 ++ bytesAt bytes 30 MS_HEADER := by
    rw [take_bytesAt bytes (by omega : 30 ≤ MS_HEADER), take_bytesAt bytes (by omega : 22 ≤ 30),
      take_bytesAt bytes (by omega : 18 ≤ 22), take_bytesAt bytes (by omega : 17 ≤ 18),
      take_bytesAt bytes (by omega : 9 ≤ 17), take_bytesAt bytes (by omega : 8 ≤ 9),
      take_bytesAt bytes (by omega : 0 ≤ 8), List.take_zero, List.nil_append]
  simp only [header, hdata, hversion, hindex, hshardLen, hblobLen]
  rw [← hmagic.1, ← hmagic.2, ← hfront, List.take_append_drop]

/-! ### Both directions -/

variable {K : Type} {P : Prims K}

/-- Each envelope of a blob decodes as the version, its index, the blob's length and hash and the
shard of that index. Whatever the bytes, the parser returns without a panic, and an envelope it
accepts is the header of its fields and its data. -/
theorem envelope_faithful (hr : RsRestores P) (hz : RsSizes P) (hb : Blake3Len P) :
    (∀ (version : UInt64) (blob : Bytes), blob ≠ [] → shardLen blob.length < 2 ^ 32 →
      ∃ shards envelopes, encode P blob = .ok shards ∧
        encodeManifestBackupShards P version.toNat blob = .ok envelopes ∧
        envelopes.length = TOTAL_SHARDS ∧ shards.length = TOTAL_SHARDS ∧
        ∀ i envelope, envelopes[i]? = some envelope → ∃ shard, shards[i]? = some shard ∧
          decodeChecked envelope = .ok ⟨version.toNat, i, blob.length, blobHash P blob, shard⟩) ∧
    ∀ bytes : Bytes, decodeChecked bytes ≠ .error .panic ∧
      ∀ s, decodeChecked bytes = .ok s → header s ++ s.data = bytes := by
  refine ⟨fun version blob hne hlen => ?_, fun bytes => ⟨decodeChecked_noPanic bytes, fun s hs => ?_⟩⟩
  · obtain ⟨recovery, hrec, -, -⟩ := hr (dataShards blob) _ (dataShards_length blob)
      (dataShards_mem_length blob) (shardLen_pos _) (shardLen_dvd _)
    have henc : encode P blob = .ok (dataShards blob ++ recovery) := by
      rw [encode, hrec, orFail_some, ok_bind]
      rfl
    obtain ⟨h14, hsize⟩ := encode_shards hr hz henc
    generalize dataShards blob ++ recovery = shards at henc h14 hsize
    refine ⟨shards, shards.zipIdx.map fun x => envelope P version.toNat blob x.1 x.2, henc, ?_, ?_, h14,
      fun i e he => ?_⟩
    · rw [encodeManifestBackupShards, henc]
      rfl
    · rw [List.length_map, List.length_zipIdx, h14]
    · rw [List.getElem?_map, List.getElem?_zipIdx, Nat.zero_add] at he
      obtain ⟨⟨shard, j⟩, hshard, rfl⟩ := Option.map_eq_some_iff.mp he
      obtain ⟨shard', hget, heq⟩ := Option.map_eq_some_iff.mp hshard
      cases heq
      have hi : i < TOTAL_SHARDS := by
        rw [← h14]
        exact (List.getElem?_eq_some_iff.mp hget).1
      have hblob := le_mul_shardLen blob.length
      simp only [DATA_SHARDS] at hblob
      have hshardLen : shard.length < 2 ^ 32 := hsize shard (List.mem_of_getElem? hget) ▸ hlen
      have hpos : blob.length ≠ 0 := fun hzero => hne (List.length_eq_zero_iff.mp hzero)
      refine ⟨shard, hget, ?_⟩
      rw [decodeChecked_eq, decode_envelope P hb version.toNat_lt hi (by omega) hshardLen, if_neg hpos]
  · rw [decodeChecked_eq] at hs
    exact decode_header hs

/-- The primitives of the samples meet the three assumptions. -/
theorem oneByte_faithful : RsRestores (markPrims [1]) ∧ RsSizes (markPrims [1]) ∧ Blake3Len (markPrims [1]) ∧
    ∃ envelopes, encodeManifestBackupShards (markPrims [1]) (7 : UInt64).toNat [1] = .ok envelopes ∧
      envelopes.length = TOTAL_SHARDS := by
  have hr := markPrims_restores [1]
  have hz := markPrims_sizes [1]
  have hb := markPrims_len [1]
  obtain ⟨_, envelopes, -, henc, hlen, -⟩ :=
    (envelope_faithful hr hz hb).1 7 [1] (List.cons_ne_nil _ _) (by decide)
  exact ⟨hr, hz, hb, envelopes, henc, hlen⟩

end P2pnas.Store.Envelopes
