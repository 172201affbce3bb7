import Mathlib.FieldTheory.Finite.GaloisField
import Mathlib.LinearAlgebra.Lagrange
import P2pnas.Core.Reconstruct

/-!
# A code of ten shards out of fourteen

The assumptions on the Reed-Solomon library are met by interpolation over the field of 256
elements: column by column the ten data bytes are the values of a polynomial of degree below
ten at ten points, and the recovery bytes are its values at four more. Any ten values determine
it.
-/

namespace P2pnas.Core.Mds
open P2pnas.Lib.Frames P2pnas.Core.Base P2pnas.Core.Erasure Polynomial

abbrev Field256 := GaloisField 2 8

theorem card_field256 : Nat.card Field256 = 256 := by
  rw [GaloisField.card 2 8 (by norm_num)]
  norm_num

/-- Bytes as field elements. -/
noncomputable def ofByte : Byte ≃ Field256 :=
  Equiv.trans ⟨UInt8.toFin, UInt8.ofFin, fun _ => rfl, fun _ => rfl⟩
    (Finite.equivFinOfCardEq card_field256).symm

/-- The point shard `i` is evaluated at. -/
noncomputable def point (i : ℕ) : Field256 := ofByte (UInt8.ofNat i)

theorem point_injOn {s : Finset ℕ} (hs : ∀ i ∈ s, i < TOTAL_SHARDS) : Set.InjOn point s := by
  intro i hi j hj h
  have hbyte := ofByte.injective h
  have h1 := hs i hi
  have h2 := hs j hj
  have hmod := congrArg UInt8.toNat hbyte
  simp only [UInt8.toNat_ofNat', TOTAL_SHARDS, DATA_SHARDS, PARITY_SHARDS] at hmod h1 h2
  omega

/-- The polynomial of column `c`. -/
noncomputable def column (data : List Bytes) (c : ℕ) : Field256[X] :=
  Lagrange.interpolate (Finset.range DATA_SHARDS) point fun i => ofByte ((data.getD i []).getD c 0)

/-- Shard `k` of the code. -/
noncomputable def codeShard (data : List Bytes) (sl k : ℕ) : Bytes :=
  (List.range sl).map fun c => ofByte.symm ((column data c).eval (point k))

theorem range_points : ∀ i ∈ Finset.range DATA_SHARDS, i < TOTAL_SHARDS := by
  intro i hi
  exact Nat.lt_of_lt_of_le (Finset.mem_range.mp hi) (by decide)

theorem codeShard_length (data : List Bytes) (sl k : ℕ) : (codeShard data sl k).length = sl := by
  rw [codeShard, List.length_map, List.length_range]

theorem ofByte_codeShard (data : List Bytes) {sl c : ℕ} (hc : c < sl) (k : ℕ) :
    ofByte ((codeShard data sl k).getD c 0) = (column data c).eval (point k) := by
  have h : (codeShard data sl k).getD c 0 = ofByte.symm ((column data c).eval (point k)) := by
    rw [codeShard, List.getD_eq_getElem?_getD, List.getElem?_map, List.getElem?_range hc]
    rfl
  rw [h, Equiv.apply_symm_apply]

/-- The first ten shards are the data. -/
theorem codeShard_data {data : List Bytes} {sl i : ℕ} (hi : i < DATA_SHARDS)
    (hlen : (data.getD i []).length = sl) : codeShard data sl i = data.getD i [] := by
  apply List.ext_getElem?
  intro c
  by_cases hc : c < sl
  · have heval : (column data c).eval (point i) = ofByte ((data.getD i []).getD c 0) :=
      Lagrange.eval_interpolate_at_node _ (point_injOn range_points) (Finset.mem_range.mpr hi)
    rw [codeShard, List.getElem?_map, List.getElem?_range hc, Option.map_some, heval,
      Equiv.symm_apply_apply, List.getD_eq_getElem?_getD,
      List.getElem?_eq_getElem (by rw [hlen]; exact hc)]
    rfl
  · rw [List.getElem?_eq_none (by rw [codeShard_length]; omega),
      List.getElem?_eq_none (by rw [hlen]; omega)]

/-- Ten values of a column determine it. -/
theorem column_eq (data : List Bytes) (c : ℕ) {s : Finset ℕ} (hs : ∀ i ∈ s, i < TOTAL_SHARDS)
    (hten : DATA_SHARDS ≤ s.card) {r : ℕ → Field256}
    (hr : ∀ k ∈ s, r k = (column data c).eval (point k)) :
    Lagrange.interpolate s point r = column data c := by
  symm
  apply Lagrange.eq_interpolate_of_eval_eq _ (point_injOn hs)
  · have hdeg : (column data c).degree < (Finset.range DATA_SHARDS).card :=
      Lagrange.degree_interpolate_lt _ (point_injOn range_points)
    rw [Finset.card_range] at hdeg
    exact lt_of_lt_of_le hdeg (by exact_mod_cast hten)
  · intro k hk
    exact (hr k hk).symm

/-! ### The codec -/

noncomputable def rsEncodeMds (data : List Bytes) : Option (List Bytes) :=
  some ((List.range PARITY_SHARDS).map fun j =>
    codeShard data (data.headD []).length (DATA_SHARDS + j))

/-- The shards given, under their index in the code. -/
def given (originals recovery : List (ℕ × Bytes)) : List (ℕ × Bytes) :=
  originals ++ recovery.map fun p => (DATA_SHARDS + p.1, p.2)

/-- Shard `i` restored from the shards given. -/
noncomputable def restoreShard (known : List (ℕ × Bytes)) (sl i : ℕ) : Bytes :=
  (List.range sl).map fun c => ofByte.symm ((Lagrange.interpolate (known.map Prod.fst).toFinset point
    fun k => ofByte (((known.lookup k).getD []).getD c 0)).eval (point i))

noncomputable def rsDecodeMds (originals recovery : List (ℕ × Bytes)) : Option (List (ℕ × Bytes)) :=
  let known := given originals recovery
  let sl := (known.headD (0, [])).2.length
  if known.length < DATA_SHARDS ∨ ¬ ∀ p ∈ known, p.2.length = sl then none
  else some (((List.range DATA_SHARDS).filter fun i => i ∉ originals.map Prod.fst).map fun i =>
    (i, restoreShard known sl i))

theorem lookup_map_self (g : ℕ → Bytes) (l : List ℕ) (k : ℕ) :
    (l.map fun i => (i, g i)).lookup k = if k ∈ l then some (g k) else none := by
  induction l with
  | nil => rfl
  | cons i l ih =>
    rw [List.map_cons, List.lookup_cons]
    by_cases hk : k = i
    · simp [hk]
    · have hbeq : (k == i) = false := by simpa using hk
      simp [hbeq, hk, ih]

section
variable {data : List Bytes} {sl : ℕ} {keep : ℕ → Bool}

theorem getD_length (hlen : data.length = DATA_SHARDS) (hd : ∀ d ∈ data, d.length = sl) {i : ℕ}
    (hi : i < DATA_SHARDS) : (data.getD i []).length = sl := by
  rw [List.getD_eq_getElem?_getD, List.getElem?_eq_getElem (by omega)]
  exact hd _ (List.getElem_mem _)

variable (keep) in
/-- The kept shards, as the decoder is given them. -/
theorem given_kept (hlen : data.length = DATA_SHARDS) (hd : ∀ d ∈ data, d.length = sl) :
    given
      ((List.range DATA_SHARDS).filterMap fun i =>
        if keep i then some (i, data.getD i []) else none)
      ((List.range PARITY_SHARDS).filterMap fun j => if keep (DATA_SHARDS + j) then
        some (j, ((List.range PARITY_SHARDS).map fun j => codeShard data sl (DATA_SHARDS + j)).getD j [])
        else none) =
      ((List.range TOTAL_SHARDS).filter keep).map fun k => (k, codeShard data sl k) := by
  have hsplit : List.range TOTAL_SHARDS =
      List.range DATA_SHARDS ++ (List.range PARITY_SHARDS).map (DATA_SHARDS + ·) := by decide
  have hfilter : ∀ (l : List ℕ) (g : ℕ → ℕ × Bytes),
      (l.filterMap fun i => if keep i then some (g i) else none) = (l.filter keep).map g := by
    intro l g
    induction l with
    | nil => rfl
    | cons i l ih => cases hk : keep i <;> simp [hk, ih]
  rw [hsplit, List.filter_append, List.map_append, given]
  congr 1
  · rw [hfilter]
    apply List.map_congr_left
    intro i hi
    have hlt := List.mem_range.mp (List.mem_filter.mp hi).1
    rw [codeShard_data hlt (getD_length hlen hd hlt)]
  · rw [← hfilter, List.filterMap_map, List.map_filterMap]
    apply List.filterMap_congr
    intro j hj
    have hlt := List.mem_range.mp hj
    simp only [Function.comp_apply]
    by_cases hk : keep (DATA_SHARDS + j) = true
    · simp [hk, List.getD_eq_getElem?_getD, List.getElem?_range hlt]
    · simp [hk]

/-- Ten kept shards restore every data shard. -/
theorem restoreShard_kept (hlen : data.length = DATA_SHARDS) (hd : ∀ d ∈ data, d.length = sl)
    (hten : DATA_SHARDS ≤ (List.range TOTAL_SHARDS).countP keep) {i : ℕ} (hi : i < DATA_SHARDS) :
    restoreShard (((List.range TOTAL_SHARDS).filter keep).map fun k => (k, codeShard data sl k)) sl i =
      data.getD i [] := by
  rw [← codeShard_data hi (getD_length hlen hd hi), restoreShard, codeShard]
  apply List.map_congr_left
  intro c hc
  have hkeys : (((List.range TOTAL_SHARDS).filter keep).map fun k => (k, codeShard data sl k)).map
      Prod.fst = (List.range TOTAL_SHARDS).filter keep := by
    rw [List.map_map]
    exact List.map_id _
  rw [hkeys, column_eq data c]
  · intro k hk
    exact List.mem_range.mp (List.mem_filter.mp (List.mem_toFinset.mp hk)).1
  · rw [List.toFinset_card_of_nodup (List.nodup_range.filter _), ← List.countP_eq_length_filter]
    exact hten
  · intro k hk
    have hmem : k ∈ (List.range TOTAL_SHARDS).filter keep := List.mem_toFinset.mp hk
    rw [lookup_map_self, if_pos hmem, Option.getD_some,
      ofByte_codeShard data (List.mem_range.mp hc)]

end

/-- The primitives with this codec. -/
noncomputable def withMds {K : Type} (P : Prims K) : Prims K :=
  { P with rsEncode := rsEncodeMds, rsDecode := rsDecodeMds }

theorem withMds_restores {K : Type} (P : Prims K) : RsRestores (withMds P) := by
  intro data sl hlen hd _ _
  have hhead : (data.headD []).length = sl := by
    cases data with
    | nil => cases hlen
    | cons d rest => exact hd d (List.mem_cons_self ..)
  refine ⟨_, rfl, by rw [List.length_map, List.length_range], ?_⟩
  intro keep hten
  rw [hhead]
  simp only [withMds, rsDecodeMds, given_kept keep hlen hd]
  have hcount : DATA_SHARDS ≤
      (((List.range TOTAL_SHARDS).filter keep).map fun k => (k, codeShard data sl k)).length := by
    rw [List.length_map, ← List.countP_eq_length_filter]
    exact hten
  have hsize : ∀ p ∈ ((List.range TOTAL_SHARDS).filter keep).map fun k => (k, codeShard data sl k),
      p.2.length = sl := by
    intro p hp
    obtain ⟨k, -, rfl⟩ := List.mem_map.mp hp
    exact codeShard_length data sl k
  generalize hknown : ((List.range TOTAL_SHARDS).filter keep).map
    (fun k => (k, codeShard data sl k)) = known at hcount hsize
  have hfirst : (known.headD (0, [])).2.length = sl := by
    cases known with
    | nil => exact absurd hcount (by decide)
    | cons p rest => exact hsize p (List.mem_cons_self ..)
  rw [hfirst, if_neg (by rw [not_or, not_not]; exact ⟨by omega, hsize⟩)]
  refine ⟨_, rfl, fun i hi hno => ?_⟩
  have hmiss : i ∈ (List.range DATA_SHARDS).filter fun i => i ∉ ((List.range DATA_SHARDS).filterMap
      fun i => if keep i then some (i, data.getD i []) else none).map Prod.fst := by
    rw [List.mem_filter, List.mem_range]
    refine ⟨hi, ?_⟩
    simp only [decide_eq_true_eq, List.mem_map, List.mem_filterMap, not_exists, not_and]
    rintro p ⟨j, -, hj⟩ rfl
    split at hj
    · next hk =>
      cases hj
      rw [hno] at hk
      cases hk
    · cases hj
  rw [lookup_map_self, if_pos hmiss, ← hknown, restoreShard_kept hlen hd hten hi]

theorem withMds_sizes {K : Type} (P : Prims K) : RsSizes (withMds P) where
  encode data recovery sl hlen hd h r hr := by
    have hhead : (data.headD []).length = sl := by
      cases data with
      | nil => cases hlen
      | cons d rest => exact hd d (List.mem_cons_self ..)
    cases h
    obtain ⟨j, -, rfl⟩ := List.mem_map.mp hr
    rw [codeShard_length, hhead]
  decode originals recovery restored _ h := by
    simp only [withMds, rsDecodeMds] at h
    split at h
    · cases h
    · next hok =>
      rw [not_or, not_not] at hok
      cases h
      refine ⟨((given originals recovery).headD (0, [])).2.length, ?_, ?_⟩
      · intro p hp
        rcases List.mem_append.mp hp with hp | hp
        · exact hok.2 p (List.mem_append_left _ hp)
        · exact hok.2 (DATA_SHARDS + p.1, p.2) (List.mem_append_right _ (List.mem_map_of_mem hp))
      · intro p hp
        obtain ⟨i, -, rfl⟩ := List.mem_map.mp hp
        rw [restoreShard, List.length_map, List.length_range]

end P2pnas.Core.Mds
