import Mathlib.Data.List.GetD
import P2pnas.Lib.Stripes
import P2pnas.Core.Base

/-!
# Erasure coding (`erasure.rs`)

A sealed chunk is striped over ten equal data shards, the last ones padded with zeros, and
four recovery shards are computed from them. The hot path (`encodeRecovery`, `dataShard`)
never materialises the padded stripes; `encode` does. The results: both paths give the same
fourteen shards for every length, and `reconstruct` gives the chunk back from any ten.
-/

namespace P2pnas.Core.Erasure
open P2pnas.Lib.Frames P2pnas.Lib.Stripes P2pnas.Core.Base

def DATA_SHARDS : ℕ := 10
def PARITY_SHARDS : ℕ := 4
def TOTAL_SHARDS : ℕ := DATA_SHARDS + PARITY_SHARDS

/-- `usize::div_ceil`. -/
def divCeil (n k : ℕ) : ℕ := (n + k - 1) / k

/-- `shard_len` (`erasure.rs:14-18`). -/
def shardLen (cipherLen : ℕ) : ℕ := divCeil (max (divCeil cipherLen DATA_SHARDS) 64) 64 * 64

def STORAGE_BLOCK_SIZE : ℕ := 4096

def shardDiskCost (shardLen : ℕ) : ℕ := divCeil shardLen STORAGE_BLOCK_SIZE * STORAGE_BLOCK_SIZE

/-- `data_shards` (`erasure.rs:36-43`): the padded copy cut into ten. -/
def dataShards (cipher : Bytes) : List Bytes :=
  let sl := shardLen cipher.length
  pieces sl DATA_SHARDS (padTo (DATA_SHARDS * sl) 0 cipher)

/-- The originals handed to the encoder by `encode_recovery` (`erasure.rs:52-72`): slices of
the sealed buffer, at most one partial shard, zero shards after it. -/
def recoveryOriginals (cipher : Bytes) : List Bytes :=
  let sl := shardLen cipher.length
  let full := cipher.length / sl
  let rem := cipher.length - full * sl
  let zero := List.replicate sl 0
  let partialShard := if 0 < rem then cipher.drop (full * sl) ++ List.replicate (sl - rem) 0 else zero
  (List.range DATA_SHARDS).map fun i =>
    if i < full then (cipher.drop (i * sl)).take sl
    else if i = full ∧ 0 < rem then partialShard
    else zero

variable {K : Type} (P : Prims K)

def encodeRecovery (cipher : Bytes) : Outcome CoreError (ℕ × List Bytes) := do
  let recovery ← orFail (.erasure "encode") (P.rsEncode (recoveryOriginals cipher))
  return (shardLen cipher.length, recovery)

/-- `data_shard` (`erasure.rs:81-87`). -/
def dataShard (cipher : Bytes) (sl i : ℕ) : Option Bytes :=
  if cipher.length ≤ i * sl then none
  else some ((cipher.drop (i * sl)).take (min ((i + 1) * sl) cipher.length - i * sl))

def encode (cipher : Bytes) : Outcome CoreError (List Bytes) := do
  let recovery ← orFail (.erasure "encode") (P.rsEncode (dataShards cipher))
  return dataShards cipher ++ recovery

/-- The shards held among `n` slots from `start` on, each with its index in that range. -/
def heldFrom (present : List (Option Bytes)) (start n : ℕ) : List (ℕ × Bytes) :=
  (List.range n).filterMap fun i => (present[start + i]?.join).map fun b => (i, b)

/-- The copy loop of `reconstruct` (`erasure.rs:139-146`). Indexing past the slots and copying
a shard of another length are panics. -/
def copyShards (present : List (Option Bytes)) (restored : List (ℕ × Bytes)) (sl : ℕ) :
    List ℕ → Outcome CoreError Bytes
  | [] => .ok []
  | i :: is =>
    match present[i]? with
    | none => .error .panic
    | some slot => do
      let shard ← orFail (.erasure "missing data shard after decode")
        (slot.or (restored.lookup i))
      if shard.length = sl then
        let rest ← copyShards present restored sl is
        return shard ++ rest
      else .error .panic

/-- `reconstruct` (`erasure.rs:98-150`). -/
def reconstruct (present : List (Option Bytes)) (cipherLen : ℕ) : Outcome CoreError Bytes :=
  if (present.take DATA_SHARDS).all Option.isSome then
    .ok (((present.take DATA_SHARDS).map fun s => s.getD []).flatten.take cipherLen)
  else do
    let restored ← orFail (.erasure "decode")
      (P.rsDecode (heldFrom present 0 DATA_SHARDS)
        (heldFrom present DATA_SHARDS (present.length - DATA_SHARDS)))
    let first ← orFail (.erasure "no shards") (present.filterMap id).head?
    let out ← copyShards present restored first.length (List.range DATA_SHARDS)
    return out.take cipherLen

/-- The encoder accepts ten shards of one length, a non-zero multiple of 64, and gives four
recovery shards; the decoder, given any ten or more of the fourteen, restores every original
that is missing. -/
def RsRestores : Prop :=
  ∀ (data : List Bytes) (sl : ℕ), data.length = DATA_SHARDS → (∀ d ∈ data, d.length = sl) →
    0 < sl → 64 ∣ sl →
    ∃ recovery, P.rsEncode data = some recovery ∧ recovery.length = PARITY_SHARDS ∧
      ∀ keep : ℕ → Bool, DATA_SHARDS ≤ (List.range TOTAL_SHARDS).countP keep →
        ∃ restored,
          P.rsDecode
            ((List.range DATA_SHARDS).filterMap fun i =>
              if keep i then some (i, data.getD i []) else none)
            ((List.range PARITY_SHARDS).filterMap fun j =>
              if keep (DATA_SHARDS + j) then some (j, recovery.getD j []) else none) =
            some restored ∧
          ∀ i < DATA_SHARDS, keep i = false → restored.lookup i = some (data.getD i [])

/-- The decoder refuses fewer than ten shards. -/
def RsNeedsTen : Prop :=
  ∀ originals recovery : List (ℕ × Bytes), originals.length + recovery.length < DATA_SHARDS →
    P.rsDecode originals recovery = none

/-! ### Shard geometry -/

theorem le_divCeil_mul (n k : ℕ) (hk : 0 < k) : n ≤ divCeil n k * k := by
  have h := Nat.div_add_mod (n + k - 1) k
  have hm := Nat.mod_lt (n + k - 1) hk
  rw [divCeil, Nat.mul_comm]
  omega

theorem shardLen_dvd (n : ℕ) : 64 ∣ shardLen n := Nat.dvd_mul_left 64 _

theorem shardLen_pos (n : ℕ) : 0 < shardLen n := by
  have h := le_divCeil_mul (max (divCeil n DATA_SHARDS) 64) 64 (by omega)
  rw [shardLen]
  omega

theorem le_mul_shardLen (n : ℕ) : n ≤ DATA_SHARDS * shardLen n := by
  have h1 := le_divCeil_mul n DATA_SHARDS (by decide)
  have h2 := le_divCeil_mul (max (divCeil n DATA_SHARDS) 64) 64 (by omega)
  have h3 : divCeil n DATA_SHARDS ≤ shardLen n := by rw [shardLen]; omega
  calc n ≤ divCeil n DATA_SHARDS * DATA_SHARDS := h1
    _ ≤ shardLen n * DATA_SHARDS := Nat.mul_le_mul_right _ h3
    _ = DATA_SHARDS * shardLen n := Nat.mul_comm _ _

/-- Data shard `i` as it is stored: the slice of the buffer, padded to the shard length. -/
def paddedShard (cipher : Bytes) (i : ℕ) : Bytes :=
  padTo (shardLen cipher.length) 0 (piece (shardLen cipher.length) cipher i)

theorem dataShards_eq (cipher : Bytes) :
    dataShards cipher = (List.range DATA_SHARDS).map (paddedShard cipher) := by
  simp only [dataShards, pieces]
  apply List.map_congr_left
  intro i hi
  exact piece_padTo _ _ _ _ i (List.mem_range.mp hi) (le_mul_shardLen _)

theorem dataShards_length (cipher : Bytes) : (dataShards cipher).length = DATA_SHARDS :=
  pieces_length _ _ _

theorem paddedShard_length (cipher : Bytes) (i : ℕ) :
    (paddedShard cipher i).length = shardLen cipher.length := by
  simp only [paddedShard, padTo_length, piece_length]
  omega

theorem dataShards_mem_length (cipher : Bytes) :
    ∀ d ∈ dataShards cipher, d.length = shardLen cipher.length := by
  intro d hd
  rw [dataShards_eq, List.mem_map] at hd
  obtain ⟨i, _, rfl⟩ := hd
  exact paddedShard_length cipher i

theorem dataShards_getElem? (cipher : Bytes) (i : ℕ) (hi : i < DATA_SHARDS) :
    (dataShards cipher)[i]? = some (paddedShard cipher i) := by
  rw [dataShards_eq, List.getElem?_map, List.getElem?_range hi, Option.map_some]

/-- Concatenating the data shards and trimming the padding gives the buffer back. -/
theorem dataShards_flatten_take (cipher : Bytes) :
    (dataShards cipher).flatten.take cipher.length = cipher := by
  have h : ((List.range DATA_SHARDS).map (paddedShard cipher)).flatten =
      padTo (DATA_SHARDS * shardLen cipher.length) 0 cipher :=
    padded_flatten (shardLen cipher.length) DATA_SHARDS 0 cipher (le_mul_shardLen _)
  rw [dataShards_eq, h, padTo_take]

/-- The zero-copy originals are the materialised data shards, at every length. -/
theorem recoveryOriginals_eq (cipher : Bytes) : recoveryOriginals cipher = dataShards cipher := by
  rw [dataShards_eq]
  simp only [recoveryOriginals]
  apply List.map_congr_left
  intro i _
  set sl := shardLen cipher.length with hsl
  have hpos : 0 < sl := shardLen_pos _
  have hdm := Nat.div_add_mod cipher.length sl
  have hml := Nat.mod_lt cipher.length hpos
  have hcomm : cipher.length / sl * sl = sl * (cipher.length / sl) := Nat.mul_comm _ _
  simp only [paddedShard, piece, padTo, ← hsl, List.length_take, List.length_drop]
  by_cases hfull : i < cipher.length / sl
  · -- a shard covered by the buffer: nothing to pad
    have hle : (i + 1) * sl ≤ cipher.length / sl * sl := Nat.mul_le_mul_right sl hfull
    rw [Nat.succ_mul] at hle
    have hz : sl - min sl (cipher.length - i * sl) = 0 := by omega
    rw [if_pos hfull, hz, List.replicate_zero, List.append_nil]
  · rw [if_neg hfull]
    by_cases heq : i = cipher.length / sl
    · subst heq
      by_cases hrem : 0 < cipher.length - cipher.length / sl * sl
      · -- the one partial shard
        have htake : (cipher.drop (cipher.length / sl * sl)).take sl =
            cipher.drop (cipher.length / sl * sl) := by
          apply List.take_of_length_le
          rw [List.length_drop]
          omega
        rw [if_pos ⟨rfl, hrem⟩, if_pos hrem, htake]
        congr 2
        omega
      · have hnil : cipher.drop (cipher.length / sl * sl) = [] := by
          apply List.drop_eq_nil_of_le
          omega
        rw [if_neg (fun h => hrem h.2), hnil, List.take_nil, List.nil_append]
        congr 1
        omega
    · have hle : (cipher.length / sl + 1) * sl ≤ i * sl :=
        Nat.mul_le_mul_right sl (by omega)
      rw [Nat.succ_mul] at hle
      have hnil : cipher.drop (i * sl) = [] := by
        apply List.drop_eq_nil_of_le
        omega
      rw [if_neg (fun h => heq h.1), hnil, List.take_nil, List.nil_append]
      congr 1
      omega

theorem encodeRecovery_eq_ok {cipher : Bytes} {sl : ℕ} {recovery : List Bytes}
    (h : encodeRecovery P cipher = .ok (sl, recovery)) :
    sl = shardLen cipher.length ∧ P.rsEncode (dataShards cipher) = some recovery := by
  simp only [encodeRecovery] at h
  obtain ⟨r, hr, hret⟩ := bind_eq_ok h
  cases hret
  rw [recoveryOriginals_eq] at hr
  exact ⟨rfl, orFail_eq_ok hr⟩

/-- The two encoders agree. -/
theorem encode_of_encodeRecovery {cipher : Bytes} {sl : ℕ} {recovery : List Bytes}
    (h : encodeRecovery P cipher = .ok (sl, recovery)) :
    encode P cipher = .ok (dataShards cipher ++ recovery) := by
  obtain ⟨_, hr⟩ := encodeRecovery_eq_ok P h
  simp only [encode, hr, orFail_some, ok_bind]
  rfl

end P2pnas.Core.Erasure
