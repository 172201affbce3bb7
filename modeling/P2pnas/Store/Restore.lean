import P2pnas.Core.Reconstruct
import P2pnas.Lib.Tally
import P2pnas.Store.Backup

/-!
# Reading a manifest backup back (`backup.rs:406-441`, `444-593`)

Envelopes come from peers that are free to answer with anything. They are decoded, the geometry
is put to the vote, the shards that agree fill their slots, and the blob is rebuilt, if need be
leaving out one shard after the other. The hash in the envelopes decides which attempt counts.
-/

namespace P2pnas.Store.Restore
open P2pnas.Lib.Frames P2pnas.Lib.Strings P2pnas.Lib.Tally P2pnas.Core.Base P2pnas.Core.Crypto
open P2pnas.Core.Erasure P2pnas.Store.Session P2pnas.Store.Backup

def MS_HEADER : ℕ := 8 + 1 + 8 + 1 + 4 + 8 + BLOB_HASH_LEN
def MB_HEADER : ℕ := 8 + 1 + 8 + PEER_ID_LEN + 8

/-- `bytes[start..stop]` of a string that is long enough. -/
def bytesAt (bytes : Bytes) (start stop : ℕ) : Bytes := (bytes.drop start).take (stop - start)

/-- `ManifestBackupShard`. -/
structure ManifestBackupShard where
  version : ℕ
  shardIndex : ℕ
  blobLen : ℕ
  blobHash : Bytes
  data : Bytes
  deriving DecidableEq, Repr

/-- What the vote is about. -/
def ManifestBackupShard.key (s : ManifestBackupShard) : ℕ × Bytes := (s.blobLen, s.blobHash)

def decodeManifestBackupShard (bytes : Bytes) : Outcome StoreError ManifestBackupShard :=
  if bytes.length < MS_HEADER then fail (backupError "backup shard too short")
  else if bytesAt bytes 0 8 ≠ MS_MAGIC ∨ bytesAt bytes 8 9 ≠ [MS_FORMAT] then
    fail (backupError "not a p2pnas manifest backup shard")
  else
    let shardIndex := beVal (bytesAt bytes 17 18)
    if TOTAL_SHARDS ≤ shardIndex then fail (backupError "backup shard index out of range")
    else
      let shardLen := beVal (bytesAt bytes 18 22)
      let blobLen := beVal (bytesAt bytes 22 30)
      if blobLen = 0 then fail (backupError "backup shard declares an empty blob")
      else if (bytes.drop MS_HEADER).length ≠ shardLen then
        fail (backupError "backup shard length mismatch")
      else .ok {
        version := beVal (bytesAt bytes 9 17)
        shardIndex := shardIndex
        blobLen := blobLen
        blobHash := bytesAt bytes 30 MS_HEADER
        data := bytes.drop MS_HEADER }

/-- The slots being filled: the shards, the length they must have (0 until the first) and how
many there are. -/
structure Slots where
  present : List (Option Bytes)
  shardLen : ℕ
  kept : ℕ
  deriving DecidableEq, Repr

def Slots.empty : Slots := ⟨List.replicate TOTAL_SHARDS none, 0, 0⟩

/-- One round of the loop that keeps the shards of the elected geometry. -/
def fillSlot (key : ℕ × Bytes) (st : Slots) (s : ManifestBackupShard) : Slots :=
  if TOTAL_SHARDS ≤ s.shardIndex ∨ s.key ≠ key then st
  else
    let len := if st.shardLen = 0 then s.data.length else st.shardLen
    if s.data.length ≠ len ∨ (slot st.present s.shardIndex).isSome then { st with shardLen := len }
    else ⟨st.present.set s.shardIndex (some s.data), len, st.kept + 1⟩

def fillSlots (key : ℕ × Bytes) (shards : List ManifestBackupShard) : Slots :=
  shards.foldl (fillSlot key) .empty

section
variable {K : Type} (P : Prims K)

/-- `try_rebuild`: an error of the decoder is no result, a panic stays one. -/
def tryRebuild (present : List (Option Bytes)) (blobLen : ℕ) (hash : Bytes) :
    Outcome StoreError (Option Bytes) :=
  match reconstruct P present blobLen with
  | .ok blob => .ok (if blobHash P blob = hash then some blob else none)
  | .error (.err _) => .ok none
  | .error .panic => .error .panic

/-- The loop that leaves out one held shard after the other. -/
def rebuildWithout (present : List (Option Bytes)) (blobLen : ℕ) (hash : Bytes) :
    List ℕ → Outcome StoreError (Option Bytes)
  | [] => .ok none
  | i :: is =>
    if (slot present i).isNone then rebuildWithout present blobLen hash is
    else do
      match ← tryRebuild P (present.set i none) blobLen hash with
      | some blob => return some blob
      | none => rebuildWithout present blobLen hash is

/-- With spare shards the corrupt one can be found. -/
def rebuildSpare (st : Slots) (blobLen : ℕ) (hash : Bytes) : Outcome StoreError (Option Bytes) :=
  if DATA_SHARDS < st.kept then
    rebuildWithout P st.present blobLen hash (List.range st.present.length)
  else .ok none

/-- The attempts on the filled slots. -/
def rebuildFrom (st : Slots) (blobLen : ℕ) (hash : Bytes) : Outcome StoreError Bytes := do
  match ← tryRebuild P st.present blobLen hash with
  | some blob => return blob
  | none =>
    let retry ← rebuildSpare P st blobLen hash
    orFail (backupError "manifest backup shards do not reconstruct a valid blob") retry

/-- `reassemble_manifest_backup`. -/
def reassembleManifestBackup (shards : List ManifestBackupShard) : Outcome StoreError Bytes :=
  if shards.length < DATA_SHARDS then fail (backupError "not enough backup shards to reconstruct")
  else do
    let ((blobLen, hash), _) ← orFail (backupError "no backup shards")
      (elect (tally (shards.map (·.key))))
    let st := fillSlots (blobLen, hash) shards
    if st.kept < DATA_SHARDS then
      fail (backupError "not enough consistent backup shards to reconstruct")
    else rebuildFrom P st blobLen hash

/-- `open_manifest_snapshot`. -/
def openManifestSnapshot (key : K) (peerId : Text) (version : ℕ) (blob : Bytes) :
    Outcome StoreError Bytes := do
  let plain ← wrapErr
    (fun _ => backupError "manifest backup failed authentication (wrong node key, wrong version, or corrupt)")
    (openRaw P (manifestBackupSealer P key peerId version) 0 blob)
  if plain.length < MB_HEADER then fail (backupError "manifest backup truncated")
  else if bytesAt plain 0 8 ≠ MB_MAGIC ∨ bytesAt plain 8 9 ≠ [MB_FORMAT] then
    fail (backupError "not a p2pnas manifest backup")
  else if beVal (bytesAt plain 9 17) ≠ version then
    fail (backupError "manifest backup belongs to another version")
  else if bytesAt plain 17 (17 + PEER_ID_LEN) ≠ utf8 peerId then
    fail (backupError "manifest backup belongs to another node")
  else if (plain.drop MB_HEADER).length ≠ beVal (bytesAt plain (17 + PEER_ID_LEN) MB_HEADER) then
    fail (backupError "manifest backup length mismatch")
  else return plain.drop MB_HEADER

/-! ### Round trips -/

theorem bytesAt_append (a b c : Bytes) {i j : ℕ} (hi : a.length = i) (hj : i + b.length = j) :
    bytesAt (a ++ (b ++ c)) i j = b := by
  have hlen : j - i = b.length := by omega
  rw [bytesAt, hlen, ← hi, List.drop_left, List.take_left]

theorem blobHash_length (hb : Blake3Len P) (blob : Bytes) : (blobHash P blob).length = 16 := by
  rw [blobHash, List.length_take, hb]
  rfl

theorem envelope_length (hb : Blake3Len P) (version : ℕ) (blob shard : Bytes) (i : ℕ) :
    (envelope P version blob shard i).length = 46 + shard.length := by
  have hmagic : MS_MAGIC.length = 8 := by decide
  simp only [envelope, List.length_append, List.length_singleton, beBytes_length, hmagic,
    blobHash_length P hb]

/-- The shards an envelope is made of come back. -/
theorem decode_envelope (hb : Blake3Len P) {version i : ℕ} {blob shard : Bytes}
    (hv : version < 2 ^ 64) (hi : i < TOTAL_SHARDS) (hblob : blob.length < 2 ^ 64)
    (hs : shard.length < 2 ^ 32) :
    decodeManifestBackupShard (envelope P version blob shard i) =
      if blob.length = 0 then fail (backupError "backup shard declares an empty blob")
      else .ok ⟨version, i, blob.length, blobHash P blob, shard⟩ := by
  have hmagic : MS_MAGIC.length = 8 := by decide
  have hhash := blobHash_length P hb blob
  have h14 : TOTAL_SHARDS = 14 := rfl
  have hhead : MS_HEADER = 46 := rfl
  have henv : envelope P version blob shard i = MS_MAGIC ++ ([MS_FORMAT] ++ (beBytes 8 version ++
      (beBytes 1 i ++ (beBytes 4 shard.length ++ (beBytes 8 blob.length ++ (blobHash P blob ++
        shard)))))) := by
    simp only [envelope, List.append_assoc]
  have hdrop : (envelope P version blob shard i).drop MS_HEADER = shard := by
    have hsplit : envelope P version blob shard i = (MS_MAGIC ++ [MS_FORMAT] ++ beBytes 8 version ++
        beBytes 1 i ++ beBytes 4 shard.length ++ beBytes 8 blob.length ++ blobHash P blob) ++ shard := rfl
    rw [hsplit]
    apply List.drop_left'
    simp only [List.length_append, List.length_singleton, beBytes_length, hmagic, hhash]
    rfl
  have hlen := envelope_length P hb version blob shard i
  have e1 : bytesAt (envelope P version blob shard i) 0 8 = MS_MAGIC := by
    rw [henv]
    exact bytesAt_append [] _ _ rfl (by rw [hmagic])
  have e2 : bytesAt (envelope P version blob shard i) 8 9 = [MS_FORMAT] := by
    rw [henv]
    exact bytesAt_append _ _ _ hmagic rfl
  have e3 : bytesAt (envelope P version blob shard i) 9 17 = beBytes 8 version := by
    rw [henv, ← List.append_assoc]
    exact bytesAt_append _ _ _ (by simp [hmagic]) (by rw [beBytes_length])
  have e4 : bytesAt (envelope P version blob shard i) 17 18 = beBytes 1 i := by
    rw [henv, ← List.append_assoc, ← List.append_assoc]
    exact bytesAt_append _ _ _ (by simp [hmagic, beBytes_length]) (by rw [beBytes_length])
  have e5 : bytesAt (envelope P version blob shard i) 18 22 = beBytes 4 shard.length := by
    rw [henv, ← List.append_assoc, ← List.append_assoc, ← List.append_assoc]
    exact bytesAt_append _ _ _ (by simp [hmagic, beBytes_length]) (by rw [beBytes_length])
  have e6 : bytesAt (envelope P version blob shard i) 22 30 = beBytes 8 blob.length := by
    rw [henv, ← List.append_assoc, ← List.append_assoc, ← List.append_assoc, ← List.append_assoc]
    exact bytesAt_append _ _ _ (by simp [hmagic, beBytes_length]) (by rw [beBytes_length])
  have e7 : bytesAt (envelope P version blob shard i) 30 MS_HEADER = blobHash P blob := by
    rw [henv, ← List.append_assoc, ← List.append_assoc, ← List.append_assoc, ← List.append_assoc,
      ← List.append_assoc]
    exact bytesAt_append _ _ _ (by simp [hmagic, beBytes_length]) (by rw [hhash]; rfl)
  have v3 : version % 256 ^ 8 = version := Nat.mod_eq_of_lt (by norm_num; omega)
  have v4 : i % 256 ^ 1 = i := Nat.mod_eq_of_lt (by norm_num; omega)
  have v5 : shard.length % 256 ^ 4 = shard.length := Nat.mod_eq_of_lt (by norm_num; omega)
  have v6 : blob.length % 256 ^ 8 = blob.length := Nat.mod_eq_of_lt (by norm_num; omega)
  rw [decodeManifestBackupShard, if_neg (by omega), e1, e2, e3, e4, e5, e6, e7, hdrop, beVal_beBytes,
    beVal_beBytes, beVal_beBytes, beVal_beBytes, v3, v4, v5, v6]
  simp only [ne_eq, not_true_eq_false, or_self, if_false]
  rw [if_neg (by omega)]

end

/-! ### Filling the slots -/

theorem slot_set (present : List (Option Bytes)) (i j : ℕ) (o : Option Bytes) :
    slot (present.set i o) j = if i = j ∧ i < present.length then o else slot present j := by
  rw [slot, slot, List.getElem?_set]
  by_cases hij : i = j
  · subst hij
    by_cases hi : i < present.length
    · simp [hi]
    · simp [hi]
  · simp [hij]

theorem countP_set_some {present : List (Option Bytes)} {i : ℕ} (hi : i < present.length)
    (hnone : slot present i = none) (b : Bytes) :
    (present.set i (some b)).countP Option.isSome = present.countP Option.isSome + 1 := by
  have hget : present[i] = none := by
    rw [slot, List.getElem?_eq_getElem hi] at hnone
    exact hnone
  rw [List.countP_set hi, hget]
  simp

/-- A shard that takes part in the slots of a geometry with its true length. -/
def Fits (key : ℕ × Bytes) (len : ℕ) (s : ManifestBackupShard) : Prop :=
  s.key = key ∧ s.shardIndex < TOTAL_SHARDS ∧ s.data.length = len

/-- The slots after the shards `done`: the length is unset or true, every slot holds a shard of
the geometry at its index, and a shard of the true length has its slot filled. -/
structure Filled (key : ℕ × Bytes) (len : ℕ) (done : List ManifestBackupShard) (st : Slots) : Prop where
  slots : st.present.length = TOTAL_SHARDS
  kept : st.kept = st.present.countP Option.isSome
  source : ∀ i b, slot st.present i = some b → ∃ s ∈ done, s.key = key ∧ s.shardIndex = i ∧ s.data = b
  length : st.shardLen = 0 ∨ st.shardLen = len
  measured : (∃ s ∈ done, Fits key len s) → st.shardLen = len
  taken : ∀ s ∈ done, Fits key len s → (slot st.present s.shardIndex).isSome

theorem slot_empty (i : ℕ) : slot Slots.empty.present i = none := by
  rw [slot, Slots.empty]
  by_cases hi : i < TOTAL_SHARDS
  · rw [List.getElem?_replicate_of_lt hi]
    rfl
  · rw [List.getElem?_eq_none (by rw [List.length_replicate]; omega)]
    rfl

theorem filled_nil (key : ℕ × Bytes) (len : ℕ) : Filled key len [] .empty where
  slots := List.length_replicate ..
  kept := by decide
  source i b h := by
    rw [slot_empty] at h
    cases h
  length := .inl rfl
  measured := by
    rintro ⟨s, hs, -⟩
    exact (List.not_mem_nil hs).elim
  taken s hs := (List.not_mem_nil hs).elim

/-- A shard sets the length to a false one only if it is the first of its geometry. -/
def Harmless (key : ℕ × Bytes) (len : ℕ) (done : List ManifestBackupShard) (s : ManifestBackupShard) :
    Prop :=
  s.key = key → s.shardIndex < TOTAL_SHARDS → s.data.length = 0 ∨ s.data.length = len ∨
    ∃ g ∈ done, Fits key len g

theorem Filled.snoc {key : ℕ × Bytes} {len : ℕ} (hpos : 0 < len) {done : List ManifestBackupShard}
    {st : Slots} (h : Filled key len done st) {s : ManifestBackupShard}
    (hs : Harmless key len done s) : Filled key len (done ++ [s]) (fillSlot key st s) := by
  have hback : ∀ i b, slot st.present i = some b →
      ∃ x ∈ done ++ [s], x.key = key ∧ x.shardIndex = i ∧ x.data = b := by
    intro i b hb
    obtain ⟨x, hx, hrest⟩ := h.source i b hb
    exact ⟨x, List.mem_append_left _ hx, hrest⟩
  unfold fillSlot
  split
  · next hout =>
    have hnot : ¬ Fits key len s := fun hf => hout.elim (fun hle => by have := hf.2.1; omega)
      fun hk => hk hf.1
    refine ⟨h.slots, h.kept, hback, h.length, ?_, ?_⟩
    · rintro ⟨x, hx, hf⟩
      rcases List.mem_append.mp hx with hx | hx
      · exact h.measured ⟨x, hx, hf⟩
      · rw [List.mem_singleton.mp hx] at hf
        exact absurd hf hnot
    · intro x hx hf
      rcases List.mem_append.mp hx with hx | hx
      · exact h.taken x hx hf
      · rw [List.mem_singleton.mp hx] at hf
        exact absurd hf hnot
  · next hin =>
    rw [not_or, not_not] at hin
    obtain ⟨hidx, hkey⟩ := hin
    have hidx' : s.shardIndex < TOTAL_SHARDS := by omega
    -- the length after this shard
    generalize hlen' : (if st.shardLen = 0 then s.data.length else st.shardLen) = len'
    have hlength : len' = 0 ∨ len' = len := by
      rw [← hlen']
      split
      · next hzero =>
        rcases hs hkey hidx' with h0 | hl | ⟨g, hg, hf⟩
        · exact .inl h0
        · exact .inr hl
        · have := h.measured ⟨g, hg, hf⟩
          omega
      · exact h.length
    have hmeasured : (∃ x ∈ done ++ [s], Fits key len x) → len' = len := by
      rintro ⟨x, hx, hf⟩
      rw [← hlen']
      rcases List.mem_append.mp hx with hx | hx
      · have := h.measured ⟨x, hx, hf⟩
        rw [if_neg (by omega), this]
      · rw [List.mem_singleton.mp hx] at hf
        split
        · exact hf.2.2
        · next hne => exact h.length.resolve_left hne
    simp only
    split
    · next hdrop =>
      refine ⟨h.slots, h.kept, hback, hlength, hmeasured, ?_⟩
      intro x hx hf
      have hl := hmeasured ⟨x, hx, hf⟩
      rcases List.mem_append.mp hx with hx | hx
      · exact h.taken x hx hf
      · rw [List.mem_singleton.mp hx] at hf ⊢
        rcases hdrop with hne | hsome
        · exact absurd (hf.2.2.trans hl.symm) hne
        · exact hsome
    · next hput =>
      rw [not_or, not_not, Bool.not_eq_true, Option.isSome_eq_false_iff, Option.isNone_iff_eq_none] at hput
      have hlt : s.shardIndex < st.present.length := by rw [h.slots]; exact hidx'
      refine ⟨by rw [List.length_set]; exact h.slots, ?_, ?_, hlength, hmeasured, ?_⟩
      · rw [countP_set_some hlt hput.2, h.kept]
      · intro i b hb
        rw [slot_set] at hb
        split at hb
        · next hi =>
          cases hb
          exact ⟨s, List.mem_append_right _ (List.mem_singleton_self s), hkey, hi.1, rfl⟩
        · exact hback i b hb
      · intro x hx hf
        rw [slot_set]
        split
        · rfl
        · next hi =>
          rcases List.mem_append.mp hx with hx | hx
          · exact h.taken x hx hf
          · rw [List.mem_singleton.mp hx] at hi
            exact absurd ⟨rfl, hlt⟩ hi

/-- Shards of the true length, or of none, are harmless anywhere. -/
theorem Filled.append {key : ℕ × Bytes} {len : ℕ} (hpos : 0 < len) {xs : List ManifestBackupShard}
    (hxs : ∀ s ∈ xs, s.key = key → s.data.length = len) {done : List ManifestBackupShard} {st : Slots}
    (h : Filled key len done st) : Filled key len (done ++ xs) (xs.foldl (fillSlot key) st) := by
  induction xs generalizing done st with
  | nil => simpa using h
  | cons x xs ih =>
    have hx : Harmless key len done x := fun hk _ => .inr (.inl (hxs x (List.mem_cons_self ..) hk))
    have hrest := ih (fun s hs => hxs s (List.mem_cons_of_mem _ hs)) (h.snoc hpos hx)
    rw [List.append_assoc, List.singleton_append] at hrest
    exact hrest

/-- Distinct filled slots are counted. -/
theorem length_le_countP {present : List (Option Bytes)} (hlen : present.length = TOTAL_SHARDS)
    {is : List ℕ} (hn : is.Nodup) (h : ∀ i ∈ is, (slot present i).isSome) :
    is.length ≤ present.countP Option.isSome := by
  have hcount : present.countP Option.isSome =
      ((List.range TOTAL_SHARDS).filter fun i => (slot present i).isSome).length := by
    conv_lhs => rw [present_eq_map present, hlen]
    rw [List.countP_map, List.countP_eq_length_filter]
    rfl
  rw [hcount]
  apply List.Subperm.length_le
  apply List.subperm_of_subset hn
  intro i hi
  rw [List.mem_filter, List.mem_range]
  refine ⟨?_, h i hi⟩
  by_contra hge
  have hsome := h i hi
  rw [slot, List.getElem?_eq_none (by omega)] at hsome
  cases hsome

/-! ### Genuine shards -/

section
variable {K : Type} {P : Prims K}

/-- Decoded from one of the envelopes. -/
def Genuine (envelopes : List Bytes) (s : ManifestBackupShard) : Prop :=
  ∃ e ∈ envelopes, decodeManifestBackupShard e = .ok s

/-- The vote a blob's own shards cast. -/
def blobKey (P : Prims K) (blob : Bytes) : ℕ × Bytes := (blob.length, blobHash P blob)

theorem encodeManifestBackupShards_eq_ok {version : ℕ} {blob : Bytes} {envelopes : List Bytes}
    (h : encodeManifestBackupShards P version blob = .ok envelopes) :
    ∃ shards, encode P blob = .ok shards ∧
      envelopes = shards.zipIdx.map fun s => envelope P version blob s.1 s.2 := by
  rw [encodeManifestBackupShards] at h
  obtain ⟨shards, hs, hret⟩ := bind_eq_ok h
  cases hret
  exact ⟨shards, wrapErr_eq_ok hs, rfl⟩

theorem encode_shards (hr : RsRestores P) (hz : RsSizes P) {blob : Bytes} {shards : List Bytes}
    (h : encode P blob = .ok shards) : shards.length = TOTAL_SHARDS ∧
      ∀ s ∈ shards, s.length = shardLen blob.length := by
  obtain ⟨recovery, henc, rfl⟩ := encode_eq_ok P h
  obtain ⟨recovery', henc', hfour, -⟩ := hr (dataShards blob) _ (dataShards_length blob)
    (dataShards_mem_length blob) (shardLen_pos _) (shardLen_dvd _)
  cases henc.symm.trans henc'
  refine ⟨by rw [List.length_append, dataShards_length, hfour]; rfl, ?_⟩
  intro s hs
  rcases List.mem_append.mp hs with hs | hs
  · exact dataShards_mem_length blob s hs
  · exact hz.encode _ _ _ (dataShards_length blob) (dataShards_mem_length blob) henc s hs

/-- A genuine shard votes for its blob and carries the shard of its index. -/
theorem Genuine.spec (hr : RsRestores P) (hz : RsSizes P) (hb : Blake3Len P) {version : ℕ}
    (hv : version < 2 ^ 64) {blob : Bytes} (hlen : shardLen blob.length < 2 ^ 32)
    {shards : List Bytes} (henc : encode P blob = .ok shards) {s : ManifestBackupShard}
    (hs : Genuine (shards.zipIdx.map fun x => envelope P version blob x.1 x.2) s) :
    s.version = version ∧ Fits (blobKey P blob) (shardLen blob.length) s ∧
      shards[s.shardIndex]? = some s.data := by
  obtain ⟨h14, hsize⟩ := encode_shards hr hz henc
  obtain ⟨e, he, hdec⟩ := hs
  obtain ⟨⟨shard, i⟩, hx, rfl⟩ := List.mem_map.mp he
  have hget : shards[i]? = some shard := List.mem_zipIdx_iff_getElem?.mp hx
  have hi : i < TOTAL_SHARDS := by
    rw [← h14]
    exact (List.getElem?_eq_some_iff.mp hget).1
  have hshard : shard.length = shardLen blob.length := hsize shard (List.mem_of_getElem? hget)
  have hblob := le_mul_shardLen blob.length
  simp only [DATA_SHARDS] at hblob
  rw [decode_envelope P hb hv hi (by omega) (hshard ▸ hlen)] at hdec
  split at hdec
  · cases hdec
  · cases hdec
    exact ⟨rfl, ⟨rfl, hi, hshard⟩, hget⟩

variable (P) in
/-- The call once a geometry is elected. -/
theorem reassemble_elected {l : List ManifestBackupShard} (hl : DATA_SHARDS ≤ l.length)
    {blobLen : ℕ} {hash : Bytes} {n : ℕ} (he : elect (tally (l.map (·.key))) = some ((blobLen, hash), n)) :
    reassembleManifestBackup P l =
      if (fillSlots (blobLen, hash) l).kept < DATA_SHARDS then
        fail (backupError "not enough consistent backup shards to reconstruct")
      else rebuildFrom P (fillSlots (blobLen, hash) l) blobLen hash := by
  rw [reassembleManifestBackup, if_neg (by omega), he]
  rfl

/-- The slots of a geometry all of whose shards are genuine count them. -/
theorem Filled.kept_eq {key : ℕ × Bytes} {len : ℕ} {l : List ManifestBackupShard} {st : Slots}
    (h : Filled key len l st) (hl : ∀ s ∈ l, s.key = key → Fits key len s)
    (hdistinct : (l.map (·.shardIndex)).Nodup) : st.kept = l.countP (·.key = key) := by
  have hsub : ((l.filter (·.key = key)).map (·.shardIndex)).Nodup :=
    hdistinct.sublist (List.filter_sublist.map _)
  rw [h.kept, List.countP_eq_length_filter (l := l)]
  apply le_antisymm
  · -- every filled slot comes from a shard of its own
    have hcount : st.present.countP Option.isSome =
        ((List.range TOTAL_SHARDS).filter fun i => (slot st.present i).isSome).length := by
      conv_lhs => rw [present_eq_map st.present, h.slots]
      rw [List.countP_map, List.countP_eq_length_filter]
      rfl
    rw [hcount, ← List.length_map (f := ManifestBackupShard.shardIndex)]
    apply List.Subperm.length_le
    apply List.subperm_of_subset (List.nodup_range.filter _)
    intro i hi
    obtain ⟨b, hb⟩ := Option.isSome_iff_exists.mp (List.mem_filter.mp hi).2
    obtain ⟨s, hs, hkey, rfl, -⟩ := h.source i b hb
    exact List.mem_map_of_mem (List.mem_filter.mpr ⟨hs, by simpa using hkey⟩)
  · rw [← List.length_map (f := ManifestBackupShard.shardIndex)]
    apply length_le_countP h.slots hsub
    intro i hi
    obtain ⟨s, hs, rfl⟩ := List.mem_map.mp hi
    obtain ⟨hmem, hkey⟩ := List.mem_filter.mp hs
    exact h.taken s hmem (hl s hmem (by simpa using hkey))

/-- Ten genuine shards rebuild the blob. -/
theorem tryRebuild_held (hr : RsRestores P) {blob : Bytes} {shards : List Bytes}
    {present : List (Option Bytes)} (henc : encode P blob = .ok shards) (hh : Held shards present)
    (hten : DATA_SHARDS ≤ present.countP Option.isSome) :
    tryRebuild P present blob.length (blobHash P blob) = .ok (some blob) := by
  rw [tryRebuild, reconstruct_held P hr henc hh hten]
  simp

/-- When all shards of the elected geometry are genuine, the call gives their blob if there are
ten of them. -/
theorem reassemble_uniform (hr : RsRestores P) {blob : Bytes} {shards : List Bytes}
    (henc : encode P blob = .ok shards) {l : List ManifestBackupShard} (hl : DATA_SHARDS ≤ l.length)
    (hdistinct : (l.map (·.shardIndex)).Nodup)
    (hgen : ∀ s ∈ l, s.key = blobKey P blob → Fits (blobKey P blob) (shardLen blob.length) s ∧
      shards[s.shardIndex]? = some s.data) {n : ℕ}
    (he : elect (tally (l.map (·.key))) = some (blobKey P blob, n)) :
    reassembleManifestBackup P l =
      if l.countP (·.key = blobKey P blob) < DATA_SHARDS then
        fail (backupError "not enough consistent backup shards to reconstruct")
      else .ok blob := by
  have hst : Filled (blobKey P blob) (shardLen blob.length) l (fillSlots (blobKey P blob) l) :=
    (filled_nil (blobKey P blob) (shardLen blob.length)).append (shardLen_pos _)
      fun s hs hk => (hgen s hs hk).1.2.2
  have hkept := hst.kept_eq (fun s hs hk => (hgen s hs hk).1) hdistinct
  rw [reassemble_elected P hl he, ← hkept]
  change (if (fillSlots (blobKey P blob) l).kept < DATA_SHARDS then _ else _) = _
  split
  · rfl
  · next hmost =>
    have hheld : Held shards (fillSlots (blobKey P blob) l).present := by
      refine ⟨hst.slots, fun i b hb => ?_⟩
      obtain ⟨s, hs, hkey, rfl, rfl⟩ := hst.source i b hb
      exact (hgen s hs hkey).2
    have hten : DATA_SHARDS ≤ (fillSlots (blobKey P blob) l).present.countP Option.isSome := by
      rw [← hst.kept]
      exact Nat.le_of_not_lt hmost
    have hfirst := tryRebuild_held hr henc hheld hten
    change rebuildFrom P (fillSlots (blobKey P blob) l) blob.length (blobHash P blob) = .ok blob
    unfold rebuildFrom
    rw [hfirst]
    rfl

/-! ### The snapshot -/

/-- A sealed snapshot opens under the same node and day. -/
theorem openManifestSnapshot_seal (ha : AeadOpens P) {key : K} {peerId : Text} {version : ℕ}
    {snapshot blob : Bytes} (hv : version < 2 ^ 64) (hs : snapshot.length < 2 ^ 64)
    (h : sealManifestSnapshot P key peerId version snapshot = .ok blob) :
    openManifestSnapshot P key peerId version blob = .ok snapshot := by
  rw [sealManifestSnapshot] at h
  split at h
  · cases h
  · next hid =>
    rw [not_not] at hid
    have hseal : P.sealInPlace (manifestBackupSealer P key peerId version) (nonceFor 0) []
        (snapshotFrame peerId version snapshot) = some blob := orFail_eq_ok (wrapErr_eq_ok h)
    have hopen := ha _ _ _ _ _ hseal
    have hmagic : MB_MAGIC.length = 8 := by decide
    have hpeer : (utf8 peerId).length = 32 := hid
    have hframe : snapshotFrame peerId version snapshot = MB_MAGIC ++ ([MB_FORMAT] ++
        (beBytes 8 version ++ (utf8 peerId ++ (beBytes 8 snapshot.length ++ snapshot)))) := by
      simp only [snapshotFrame, List.append_assoc]
    have hlen : (snapshotFrame peerId version snapshot).length = 57 + snapshot.length := by
      rw [hframe]
      simp only [List.length_append, List.length_singleton, beBytes_length, hmagic, hpeer]
      omega
    have hdrop : (snapshotFrame peerId version snapshot).drop MB_HEADER = snapshot := by
      rw [snapshotFrame]
      apply List.drop_left'
      simp only [List.length_append, List.length_singleton, beBytes_length, hmagic, hpeer]
      rfl
    have e1 : bytesAt (snapshotFrame peerId version snapshot) 0 8 = MB_MAGIC := by
      rw [hframe]
      exact bytesAt_append [] _ _ rfl (by rw [hmagic])
    have e2 : bytesAt (snapshotFrame peerId version snapshot) 8 9 = [MB_FORMAT] := by
      rw [hframe]
      exact bytesAt_append _ _ _ hmagic rfl
    have e3 : bytesAt (snapshotFrame peerId version snapshot) 9 17 = beBytes 8 version := by
      rw [hframe, ← List.append_assoc]
      exact bytesAt_append _ _ _ (by simp [hmagic]) (by rw [beBytes_length])
    have e4 : bytesAt (snapshotFrame peerId version snapshot) 17 (17 + PEER_ID_LEN) = utf8 peerId := by
      rw [hframe, ← List.append_assoc, ← List.append_assoc]
      exact bytesAt_append _ _ _ (by simp [hmagic, beBytes_length]) (by rw [hpeer]; rfl)
    have e5 : bytesAt (snapshotFrame peerId version snapshot) (17 + PEER_ID_LEN) MB_HEADER =
        beBytes 8 snapshot.length := by
      rw [hframe, ← List.append_assoc, ← List.append_assoc, ← List.append_assoc]
      exact bytesAt_append _ _ _ (by simp [hmagic, beBytes_length, hpeer]; rfl)
        (by rw [beBytes_length]; rfl)
    have v3 : version % 256 ^ 8 = version := Nat.mod_eq_of_lt (by norm_num; omega)
    have v5 : snapshot.length % 256 ^ 8 = snapshot.length := Nat.mod_eq_of_lt (by norm_num; omega)
    have hhead : MB_HEADER = 57 := rfl
    have hraw : openRaw P (manifestBackupSealer P key peerId version) 0 blob =
        .ok (snapshotFrame peerId version snapshot) := by
      rw [openRaw, openWithAad, hopen, orFail_some]
    rw [openManifestSnapshot, hraw]
    simp only [wrapErr, ok_bind]
    rw [if_neg (by omega), e1, e2, e3, e4, e5, hdrop, beVal_beBytes, beVal_beBytes, v3, v5]
    simp only [ne_eq, not_true_eq_false, or_self, if_false]
    rfl

end

end P2pnas.Store.Restore
