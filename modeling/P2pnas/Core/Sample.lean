import P2pnas.Core.Pipeline

/-!
# Library calls that meet the assumptions

The results below assume properties of HKDF, AES-GCM, zstd, Reed-Solomon and BLAKE3. Here is
one computable instance that has them, so the assumptions hold together and concrete runs of
the program can be evaluated: keys are terms, sealing appends an empty tag, every recovery
shard carries the whole stripe, and the digest of a short text is the text.
-/

namespace P2pnas.Core.Sample
open P2pnas.Lib.Frames P2pnas.Lib.Stripes P2pnas.Core.Base P2pnas.Core.Erasure

/-- Keys as terms: a derived key remembers how it was derived. -/
inductive Key where
  | node
  | derived (salt : Bytes) (key : Key) (info : Bytes)
  deriving DecidableEq, Repr

def sealSample (_ : Key) (_ _ plain : Bytes) : Option Bytes := some (plain ++ List.replicate 16 0)

def openSample (_ : Key) (_ _ cipher : Bytes) : Option Bytes :=
  if 16 ≤ cipher.length then some (cipher.take (cipher.length - 16)) else none

def rsEncodeSample (data : List Bytes) : Option (List Bytes) :=
  some (List.replicate PARITY_SHARDS data.flatten)

def rsDecodeSample (originals recovery : List (ℕ × Bytes)) : Option (List (ℕ × Bytes)) :=
  if originals.length + recovery.length < DATA_SHARDS then none
  else match recovery with
    | [] => some []
    | (_, r) :: _ =>
      some ((List.range DATA_SHARDS).map fun i => (i, piece (r.length / DATA_SHARDS) r i))

/-- A 32-byte digest: a text of up to fifteen bytes is told apart by its length and bytes, a
longer one only when it is among `known`. -/
def digestSample (known : List Bytes) (b : Bytes) : Bytes :=
  if b.length ≤ 14 then padTo 32 0 (0 :: UInt8.ofNat b.length :: b)
  else match known.idxOf? b with
    | some i => padTo 32 0 [1, UInt8.ofNat i]
    | none => padTo 32 0 [2]

def sample (known : List Bytes) : Prims Key where
  hkdf := .derived
  sealInPlace := sealSample
  openInPlace := openSample
  zstdEncode := fun _ b => some (b ++ [0])
  zstdDecode := fun b => some b.dropLast
  entropyAtLeast := fun _ => false
  rsEncode := rsEncodeSample
  rsDecode := rsDecodeSample
  blake3 := digestSample known

theorem sample_aead (known : List Bytes) : AeadOpens (sample known) := by
  intro k n a p c h
  cases h
  change openSample k n a (p ++ List.replicate 16 0) = some p
  simp [openSample]

theorem sample_zstd (known : List Bytes) : ZstdInverts (sample known) := by
  intro level b c h
  cases h
  exact congrArg some List.dropLast_concat

theorem sample_hkdf (known : List Bytes) : HkdfSeparates (sample known) := by
  intro s k i s' k' i' h
  cases h
  exact ⟨rfl, rfl, rfl⟩

theorem sample_needsTen (known : List Bytes) : RsNeedsTen (sample known) := by
  intro originals recovery h
  exact if_pos h

/-- A window of equal shards laid end to end is a shard. -/
theorem piece_flatten {data : List Bytes} {sl : ℕ} (hd : ∀ d ∈ data, d.length = sl) (i : ℕ)
    (hi : i < data.length) : piece sl data.flatten i = data.getD i [] := by
  induction data generalizing i with
  | nil => simp at hi
  | cons d data ih =>
    have hlen : d.length = sl := hd d (List.mem_cons_self ..)
    cases i with
    | zero => simp [piece, ← hlen]
    | succ i =>
      have hrest := ih (fun e he => hd e (List.mem_cons_of_mem _ he)) i
        (by rw [List.length_cons] at hi; omega)
      have hdrop : (i + 1) * sl = d.length + i * sl := by rw [Nat.succ_mul, hlen, Nat.add_comm]
      have hnil : d.drop (d.length + i * sl) = [] := List.drop_eq_nil_of_le (by omega)
      rw [List.getD_cons_succ, ← hrest, piece, piece, hdrop, List.flatten_cons, List.drop_append,
        hnil, List.nil_append, Nat.add_sub_cancel_left]

theorem flatten_length {data : List Bytes} {sl : ℕ} (hd : ∀ d ∈ data, d.length = sl) :
    data.flatten.length = data.length * sl := by
  rw [List.length_flatten, List.map_congr_left hd, List.map_const', List.sum_replicate_nat]

theorem lookup_map_range (g : ℕ → Bytes) (n i : ℕ) (hi : i < n) :
    ((List.range n).map fun j => (j, g j)).lookup i = some (g i) := by
  induction n with
  | zero => omega
  | succ n ih =>
    rw [List.range_succ, List.map_append, List.lookup_append]
    by_cases h : i < n
    · rw [ih h, Option.some_or]
    · have hin : i = n := by omega
      subst hin
      have hnone : ((List.range i).map fun j => (j, g j)).lookup i = none := by
        rw [List.lookup_eq_none_iff]
        intro p hp
        obtain ⟨j, hj, rfl⟩ := List.mem_map.mp hp
        have hlt := List.mem_range.mp hj
        simp only [ne_eq, bne_iff_ne]
        omega
      rw [hnone, Option.none_or]
      simp

theorem sample_rs (known : List Bytes) : RsRestores (sample known) := by
  intro data sl hlen hd hpos _
  refine ⟨_, rfl, List.length_replicate .., ?_⟩
  intro keep hkeep
  have hdata : data.flatten.length / DATA_SHARDS = sl := by
    rw [flatten_length hd, hlen, Nat.mul_comm]
    exact Nat.mul_div_cancel _ (by decide)
  have hcount : ∀ (n : ℕ) (g : ℕ → ℕ × Bytes) (k : ℕ → Bool),
      ((List.range n).filterMap fun i => if k i then some (g i) else none).length =
        (List.range n).countP k := by
    intro n g k
    rw [List.length_filterMap_eq_countP]
    apply List.countP_congr
    intro i _
    cases k i <;> simp
  have hsplit : (List.range TOTAL_SHARDS).countP keep = (List.range DATA_SHARDS).countP keep +
      (List.range PARITY_SHARDS).countP (fun j => keep (DATA_SHARDS + j)) := by
    have h : List.range TOTAL_SHARDS =
        List.range DATA_SHARDS ++ (List.range PARITY_SHARDS).map (DATA_SHARDS + ·) := by decide
    rw [h, List.countP_append, List.countP_map]
    rfl
  have hten : ¬ ((List.range DATA_SHARDS).filterMap fun i =>
        if keep i then some (i, data.getD i []) else none).length +
      ((List.range PARITY_SHARDS).filterMap fun j => if keep (DATA_SHARDS + j) then
        some (j, (List.replicate PARITY_SHARDS data.flatten).getD j []) else none).length <
      DATA_SHARDS := by
    rw [hcount DATA_SHARDS (fun i => (i, data.getD i [])) keep, hcount PARITY_SHARDS
      (fun j => (j, (List.replicate PARITY_SHARDS data.flatten).getD j []))
      (fun j => keep (DATA_SHARDS + j))]
    omega
  simp only [sample, rsDecodeSample, if_neg hten]
  cases hrec : (List.range PARITY_SHARDS).filterMap fun j => if keep (DATA_SHARDS + j) then
      some (j, (List.replicate PARITY_SHARDS data.flatten).getD j []) else none with
  | nil =>
    -- no recovery shard: all ten originals are held
    refine ⟨[], rfl, fun i hi hno => ?_⟩
    rw [hrec, hcount DATA_SHARDS (fun i => (i, data.getD i [])) keep, List.length_nil] at hten
    have hall : (List.range DATA_SHARDS).countP keep = (List.range DATA_SHARDS).length := by
      have hle := List.countP_le_length (p := keep) (l := List.range DATA_SHARDS)
      rw [List.length_range] at hle ⊢
      omega
    have hki := List.countP_eq_length.mp hall i (List.mem_range.mpr hi)
    rw [hno] at hki
    cases hki
  | cons jr rest =>
    obtain ⟨j, r⟩ := jr
    have hr : r = data.flatten := by
      have hmem : (j, r) ∈ (List.range PARITY_SHARDS).filterMap fun j =>
          if keep (DATA_SHARDS + j) then
            some (j, (List.replicate PARITY_SHARDS data.flatten).getD j []) else none := by
        rw [hrec]
        exact List.mem_cons_self ..
      obtain ⟨j', hj', heq⟩ := List.mem_filterMap.mp hmem
      split at heq
      · have hlt := List.mem_range.mp hj'
        have h2 := (Prod.mk.inj (Option.some.inj heq)).2
        rw [List.getD_eq_getElem?_getD, List.getElem?_replicate_of_lt hlt, Option.getD_some] at h2
        exact h2.symm
      · cases heq
    refine ⟨_, rfl, fun i hi _ => ?_⟩
    rw [hr, hdata, lookup_map_range _ _ _ hi, piece_flatten hd i (by rw [hlen]; exact hi)]

/-- The first two bytes of a digest tell the known strings apart from each other and from all
others. -/
theorem digestSample_inj {known : List Bytes} (hlong : ∀ s ∈ known, 14 < s.length)
    (hfew : known.length ≤ 256) {s b : Bytes} (hs : s ∈ known)
    (h : (digestSample known b).take 16 = (digestSample known s).take 16) : b = s := by
  have hbound : ∀ {t : Bytes} {i : ℕ}, known.idxOf? t = some i → i < 256 ∧ known[i]? = some t := by
    intro t i hi
    obtain ⟨hlt, hget, _⟩ := List.idxOf?_eq_some_iff.mp hi
    exact ⟨by omega, by rw [List.getElem?_eq_getElem hlt, hget]⟩
  obtain ⟨i, hi⟩ := Option.isSome_iff_exists.mp (List.isSome_idxOf?.mpr hs)
  have hds : digestSample known s = padTo 32 0 [1, UInt8.ofNat i] := by
    rw [digestSample, if_neg (Nat.not_le.mpr (hlong s hs)), hi]
  rw [hds] at h
  have h0 := congrArg (·[0]?) h
  have h1 := congrArg (·[1]?) h
  unfold digestSample at h0 h1
  split at h0
  · simp [padTo] at h0
  · rename_i hlen
    rw [if_neg hlen] at h1
    cases hj : known.idxOf? b with
    | none => simp [hj, padTo] at h0
    | some j =>
      simp only [hj, padTo, List.cons_append, List.take_succ_cons, List.getElem?_cons_succ,
        List.getElem?_cons_zero, Option.some.injEq] at h1
      obtain ⟨hj256, hgetj⟩ := hbound hj
      obtain ⟨hi256, hgeti⟩ := hbound hi
      have hnat := congrArg UInt8.toNat h1
      rw [UInt8.toNat_ofNat', UInt8.toNat_ofNat', Nat.mod_eq_of_lt hj256,
        Nat.mod_eq_of_lt hi256] at hnat
      rw [hnat, hgeti] at hgetj
      exact (Option.some.inj hgetj).symm

end P2pnas.Core.Sample
