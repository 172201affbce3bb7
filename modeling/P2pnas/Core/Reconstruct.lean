import P2pnas.Core.Erasure

/-!
# Any ten shards give the chunk back

`reconstruct` has a concatenation path and a decode path. Both are followed here for slots
that hold nothing but genuine shards: the chunk comes back from every set of ten or more,
and below ten the call is an error, never a wrong answer.
-/

namespace P2pnas.Core.Erasure
open P2pnas.Lib.Frames P2pnas.Lib.Stripes P2pnas.Core.Base

variable {K : Type} (P : Prims K)

/-- Slot `i`, empty past the end. -/
def slot (present : List (Option Bytes)) (i : ℕ) : Option Bytes := present[i]?.join

theorem present_eq_map (present : List (Option Bytes)) :
    present = (List.range present.length).map (slot present) := by
  apply List.ext_getElem?
  intro i
  rw [List.getElem?_map]
  by_cases hi : i < present.length
  · rw [List.getElem?_range hi, Option.map_some, slot, List.getElem?_eq_getElem hi]
    rfl
  · rw [List.getElem?_eq_none (by omega),
      List.getElem?_eq_none (by rw [List.length_range]; omega), Option.map_none]

/-- The slots hold only shards of the list `shards`, each at its own index. -/
structure Held (shards : List Bytes) (present : List (Option Bytes)) : Prop where
  slots : present.length = TOTAL_SHARDS
  genuine : ∀ i b, slot present i = some b → shards[i]? = some b

section
variable {shards : List Bytes} {present : List (Option Bytes)}

theorem Held.present_eq (hh : Held shards present) :
    present = (List.range TOTAL_SHARDS).map (slot present) := by
  rw [← hh.slots]
  exact present_eq_map present

theorem Held.countP (hh : Held shards present) :
    (List.range TOTAL_SHARDS).countP (fun i => (slot present i).isSome) =
      present.countP Option.isSome := by
  conv_rhs => rw [hh.present_eq]
  rw [List.countP_map]
  rfl

theorem Held.take_eq (hh : Held shards present) :
    present.take DATA_SHARDS = (List.range DATA_SHARDS).map (slot present) := by
  conv_lhs => rw [hh.present_eq]
  rw [← List.map_take]
  rfl

end

/-- The fourteen shards of a chunk: the ten padded stripes, then the recovery shards. -/
theorem encode_eq_ok {cipher : Bytes} {shards : List Bytes} (h : encode P cipher = .ok shards) :
    ∃ recovery, P.rsEncode (dataShards cipher) = some recovery ∧
      shards = dataShards cipher ++ recovery := by
  simp only [encode] at h
  obtain ⟨r, hr, hret⟩ := bind_eq_ok h
  cases hret
  exact ⟨r, orFail_eq_ok hr, rfl⟩

section
variable {cipher : Bytes} {recovery : List Bytes} {present : List (Option Bytes)}

theorem slot_data (hh : Held (dataShards cipher ++ recovery) present) (i : ℕ)
    (hi : i < DATA_SHARDS) (b : Bytes) (hs : slot present i = some b) : b = paddedShard cipher i := by
  have h := hh.genuine i b hs
  rw [List.getElem?_append_left (by rw [dataShards_length]; exact hi),
    dataShards_getElem? cipher i hi] at h
  exact (Option.some.inj h).symm

theorem slot_recovery (hh : Held (dataShards cipher ++ recovery) present) (j : ℕ) (b : Bytes)
    (hs : slot present (DATA_SHARDS + j) = some b) : recovery[j]? = some b := by
  have h := hh.genuine _ b hs
  rw [List.getElem?_append_right (by rw [dataShards_length]; omega), dataShards_length,
    Nat.add_sub_cancel_left] at h
  exact h

theorem dataShards_getD (i : ℕ) (hi : i < DATA_SHARDS) :
    (dataShards cipher).getD i [] = paddedShard cipher i := by
  rw [List.getD_eq_getElem?_getD, dataShards_getElem? cipher i hi, Option.getD_some]

theorem heldFrom_data (hh : Held (dataShards cipher ++ recovery) present) :
    heldFrom present 0 DATA_SHARDS = (List.range DATA_SHARDS).filterMap fun i =>
      if (slot present i).isSome then some (i, (dataShards cipher).getD i []) else none := by
  apply List.filterMap_congr
  intro i hi
  have hlt := List.mem_range.mp hi
  rw [Nat.zero_add]
  cases hs : slot present i with
  | none =>
    have h : present[i]?.join = none := hs
    simp only [h, Option.map_none, Option.isSome_none, Bool.false_eq_true, if_false]
  | some b =>
    have h : present[i]?.join = some b := hs
    simp only [h, Option.map_some, Option.isSome_some, if_true, dataShards_getD i hlt,
      slot_data hh i hlt b hs]

theorem heldFrom_recovery (hh : Held (dataShards cipher ++ recovery) present) :
    heldFrom present DATA_SHARDS (present.length - DATA_SHARDS) =
      (List.range PARITY_SHARDS).filterMap fun j =>
        if (slot present (DATA_SHARDS + j)).isSome then some (j, recovery.getD j []) else none := by
  have hn : present.length - DATA_SHARDS = PARITY_SHARDS := by rw [hh.slots]; rfl
  rw [hn]
  apply List.filterMap_congr
  intro j _
  cases hs : slot present (DATA_SHARDS + j) with
  | none =>
    have h : present[DATA_SHARDS + j]?.join = none := hs
    simp only [h, Option.map_none, Option.isSome_none, Bool.false_eq_true, if_false]
  | some b =>
    have h : present[DATA_SHARDS + j]?.join = some b := hs
    simp only [h, Option.map_some, Option.isSome_some, if_true, List.getD_eq_getElem?_getD,
      slot_recovery hh j b hs, Option.getD_some]

/-- Ten of fourteen include a data shard, so the first shard held has the stripe length. -/
theorem first_held (hh : Held (dataShards cipher ++ recovery) present)
    (hten : DATA_SHARDS ≤ present.countP Option.isSome) :
    ∃ b, (present.filterMap id).head? = some b ∧ b.length = shardLen cipher.length := by
  have hsplit : List.range TOTAL_SHARDS =
      List.range DATA_SHARDS ++ (List.range PARITY_SHARDS).map (DATA_SHARDS + ·) := by decide
  have hcount := hh.countP
  rw [hsplit, List.countP_append] at hcount
  have hfour := List.countP_le_length (p := fun i => (slot present i).isSome)
    (l := (List.range PARITY_SHARDS).map (DATA_SHARDS + ·))
  simp only [List.length_map, List.length_range] at hfour
  have hsome : 0 < (List.range DATA_SHARDS).countP fun i => (slot present i).isSome := by
    simp only [DATA_SHARDS, PARITY_SHARDS] at *
    omega
  obtain ⟨i, hi, hsi⟩ := List.countP_pos_iff.mp hsome
  have hpres : present.filterMap id = (List.range DATA_SHARDS).filterMap (slot present) ++
      ((List.range PARITY_SHARDS).map (DATA_SHARDS + ·)).filterMap (slot present) := by
    conv_lhs => rw [hh.present_eq, hsplit]
    rw [List.filterMap_map, List.filterMap_append]
    rfl
  obtain ⟨b, hb⟩ := Option.isSome_iff_exists.mp hsi
  have hmem : b ∈ (List.range DATA_SHARDS).filterMap (slot present) :=
    List.mem_filterMap.mpr ⟨i, hi, hb⟩
  cases hl : (List.range DATA_SHARDS).filterMap (slot present) with
  | nil => rw [hl] at hmem; cases hmem
  | cons c cs =>
    refine ⟨c, by rw [hpres, hl]; rfl, ?_⟩
    have hc : c ∈ (List.range DATA_SHARDS).filterMap (slot present) := by
      rw [hl]
      exact List.mem_cons_self ..
    obtain ⟨j, hj, hsj⟩ := List.mem_filterMap.mp hc
    rw [slot_data hh j (List.mem_range.mp hj) c hsj, paddedShard_length]

/-- The copy loop writes every data shard, present or restored, in its place. -/
theorem copyShards_ok (hh : Held (dataShards cipher ++ recovery) present)
    (restored : List (ℕ × Bytes))
    (hrest : ∀ i < DATA_SHARDS, (slot present i).isSome = false →
      restored.lookup i = some (paddedShard cipher i)) (is : List ℕ)
    (his : ∀ i ∈ is, i < DATA_SHARDS) :
    copyShards present restored (shardLen cipher.length) is =
      .ok (is.map (paddedShard cipher)).flatten := by
  induction is with
  | nil => rfl
  | cons i is ih =>
    have hi : i < DATA_SHARDS := his i (List.mem_cons_self ..)
    have htail := ih (fun j hj => his j (List.mem_cons_of_mem _ hj))
    have hlt : i < present.length := by
      rw [hh.slots]
      simp only [TOTAL_SHARDS]
      omega
    have hget : present[i]? = some (slot present i) := by
      rw [slot, List.getElem?_eq_getElem hlt]
      rfl
    have hval : (slot present i).or (restored.lookup i) = some (paddedShard cipher i) := by
      cases hs : slot present i with
      | none =>
        rw [Option.none_or]
        exact hrest i hi (by rw [hs]; rfl)
      | some b => rw [Option.some_or, slot_data hh i hi b hs]
    rw [copyShards, hget]
    simp only [hval, orFail_some, ok_bind, paddedShard_length, if_true, htail, List.map_cons,
      List.flatten_cons]
    rfl

theorem fast_path (hh : Held (dataShards cipher ++ recovery) present)
    (hall : (present.take DATA_SHARDS).all Option.isSome = true) :
    (present.take DATA_SHARDS).map (fun s => s.getD []) = dataShards cipher := by
  rw [hh.take_eq, List.map_map, dataShards_eq]
  apply List.map_congr_left
  intro i hi
  rw [hh.take_eq] at hall
  have hs := List.all_eq_true.mp hall _ (List.mem_map_of_mem hi)
  obtain ⟨b, hb⟩ := Option.isSome_iff_exists.mp hs
  simp only [Function.comp_apply, hb, Option.getD_some]
  exact slot_data hh i (List.mem_range.mp hi) b hb

end

/-- Every set of ten or more genuine shards reconstructs the chunk. -/
theorem reconstruct_held (hr : RsRestores P) {cipher : Bytes} {shards : List Bytes}
    {present : List (Option Bytes)} (he : encode P cipher = .ok shards)
    (hh : Held shards present) (hten : DATA_SHARDS ≤ present.countP Option.isSome) :
    reconstruct P present cipher.length = .ok cipher := by
  obtain ⟨recovery, henc, rfl⟩ := encode_eq_ok P he
  rw [reconstruct]
  split
  · rename_i hall
    rw [fast_path hh hall, dataShards_flatten_take]
  · obtain ⟨recovery', henc', _, hdec⟩ := hr (dataShards cipher) _ (dataShards_length cipher)
      (dataShards_mem_length cipher) (shardLen_pos _) (shardLen_dvd _)
    have hsame : recovery' = recovery := Option.some.inj (henc'.symm.trans henc)
    subst hsame
    obtain ⟨restored, hres, hmiss⟩ := hdec (fun i => (slot present i).isSome) (by
      rw [hh.countP]
      exact hten)
    obtain ⟨first, hfirst, hlen⟩ := first_held hh hten
    have hcopy := copyShards_ok hh restored (fun i hi hno => by
      rw [hmiss i hi hno, dataShards_getD i hi]) (List.range DATA_SHARDS)
      (fun i hi => List.mem_range.mp hi)
    rw [heldFrom_data hh, heldFrom_recovery hh, hres, hfirst]
    simp only [orFail_some, ok_bind, hlen, hcopy]
    rw [← dataShards_eq, dataShards_flatten_take]
    rfl

/-- Fewer than ten shards, one data shard missing: an error. -/
theorem reconstruct_few (hn : RsNeedsTen P) {present : List (Option Bytes)} (n : ℕ)
    (hlen : present.length = TOTAL_SHARDS) (hfew : present.countP Option.isSome < DATA_SHARDS) :
    reconstruct P present n = fail (.erasure "decode") := by
  have hall : (present.take DATA_SHARDS).all Option.isSome = false := by
    apply Bool.eq_false_iff.mpr
    intro h
    have hc : (present.take DATA_SHARDS).countP Option.isSome = DATA_SHARDS := by
      rw [List.countP_eq_length.mpr (List.all_eq_true.mp h), List.length_take, hlen]
      rfl
    have hle := (List.take_sublist DATA_SHARDS present).countP_le (p := Option.isSome)
    omega
  have hheld : ∀ (start k : ℕ), (heldFrom present start k).length =
      (List.range k).countP (fun i => (slot present (start + i)).isSome) := by
    intro start k
    rw [heldFrom, List.length_filterMap_eq_countP]
    apply List.countP_congr
    intro i _
    simp only [slot, Option.isSome_map]
  have hsum : (heldFrom present 0 DATA_SHARDS).length +
      (heldFrom present DATA_SHARDS (present.length - DATA_SHARDS)).length < DATA_SHARDS := by
    rw [hheld, hheld, hlen]
    have hcount : (List.range TOTAL_SHARDS).countP (fun i => (slot present i).isSome) =
        present.countP Option.isSome := by
      conv_rhs => rw [present_eq_map present, hlen]
      rw [List.countP_map]
      rfl
    have hsplit : List.range TOTAL_SHARDS = (List.range DATA_SHARDS).map (0 + ·) ++
        (List.range (TOTAL_SHARDS - DATA_SHARDS)).map (DATA_SHARDS + ·) := by decide
    rw [hsplit, List.countP_append, List.countP_map, List.countP_map] at hcount
    simp only [Function.comp_def] at hcount
    omega
  rw [reconstruct, hall, if_neg (by decide), hn _ _ hsum]
  rfl

/-- Recovery shards are as long as the data shards; the decoder takes shards of one length only
and restores shards of that length. -/
structure RsSizes : Prop where
  encode : ∀ (data recovery : List Bytes) (sl : ℕ), data.length = DATA_SHARDS →
    (∀ d ∈ data, d.length = sl) → P.rsEncode data = some recovery → ∀ r ∈ recovery, r.length = sl
  decode : ∀ originals recovery restored : List (ℕ × Bytes), originals.length < DATA_SHARDS →
    P.rsDecode originals recovery = some restored →
      ∃ n, (∀ p ∈ originals ++ recovery, p.2.length = n) ∧ ∀ p ∈ restored, p.2.length = n

theorem heldFrom_mem {present : List (Option Bytes)} {start n i : ℕ} {b : Bytes} (hi : i < n)
    (h : slot present (start + i) = some b) : (i, b) ∈ heldFrom present start n :=
  List.mem_filterMap.mpr ⟨i, List.mem_range.mpr hi, by
    have h' : present[start + i]?.join = some b := h
    rw [h']
    rfl⟩

/-- What is held is handed to the decoder, as a data shard or as a recovery shard. -/
theorem heldFrom_of_slot {present : List (Option Bytes)} {i : ℕ} {b : Bytes}
    (h : slot present i = some b) : ∃ p ∈ heldFrom present 0 DATA_SHARDS ++
      heldFrom present DATA_SHARDS (present.length - DATA_SHARDS), p.2 = b := by
  by_cases hi : i < DATA_SHARDS
  · exact ⟨(i, b), List.mem_append_left _ (heldFrom_mem hi (by rw [Nat.zero_add]; exact h)), rfl⟩
  · have hlt : i < present.length := by
      by_contra hge
      rw [slot, List.getElem?_eq_none (by omega)] at h
      cases h
    have hsum : DATA_SHARDS + (i - DATA_SHARDS) = i := by omega
    exact ⟨(i - DATA_SHARDS, b), List.mem_append_right _
      (heldFrom_mem (by omega) (by rw [hsum]; exact h)), rfl⟩

theorem mem_of_lookup {i : ℕ} {b : Bytes} {l : List (ℕ × Bytes)} (h : l.lookup i = some b) :
    (i, b) ∈ l := by
  obtain ⟨l₁, l₂, rfl, -⟩ := List.lookup_eq_some_iff.mp h
  exact List.mem_append_right _ (List.mem_cons_self ..)

theorem copyShards_not_panic {present : List (Option Bytes)} {restored : List (ℕ × Bytes)} {n : ℕ}
    (hheld : ∀ i b, slot present i = some b → b.length = n)
    (hrest : ∀ p ∈ restored, p.2.length = n) (is : List ℕ) (his : ∀ i ∈ is, i < present.length) :
    copyShards present restored n is ≠ .error .panic := by
  induction is with
  | nil => intro h; cases h
  | cons i is ih =>
    have hi := his i (List.mem_cons_self ..)
    have htail := ih fun j hj => his j (List.mem_cons_of_mem _ hj)
    have hget : present[i]? = some (slot present i) := by
      rw [slot, List.getElem?_eq_getElem hi]
      rfl
    rw [copyShards, hget]
    simp only
    cases hv : (slot present i).or (restored.lookup i) with
    | none => intro h; cases h
    | some shard =>
      have hlen : shard.length = n := by
        cases hs : slot present i with
        | some b =>
          rw [hs, Option.some_or] at hv
          cases hv
          exact hheld i _ hs
        | none =>
          rw [hs, Option.none_or] at hv
          exact hrest _ (mem_of_lookup hv)
      simp only [orFail_some, ok_bind, hlen, if_true]
      cases hc : copyShards present restored n is with
      | ok rest => intro h; cases h
      | error e =>
        intro h
        cases h
        exact htail hc

/-- With a decoder that checks lengths the copy never runs out of its slice. -/
theorem reconstruct_not_panic (hz : RsSizes P) {present : List (Option Bytes)}
    (hlen : present.length = TOTAL_SHARDS) (n : ℕ) : reconstruct P present n ≠ .error .panic := by
  rw [reconstruct]
  split
  · intro h; cases h
  · next hall =>
    have hfew : (heldFrom present 0 DATA_SHARDS).length < DATA_SHARDS := by
      have hle : (heldFrom present 0 DATA_SHARDS).length = (List.range DATA_SHARDS).countP
          fun i => (slot present i).isSome := by
        rw [heldFrom, List.length_filterMap_eq_countP]
        apply List.countP_congr
        intro i _
        simp only [slot, Option.isSome_map, Nat.zero_add]
      rw [hle]
      have hbound := List.countP_le_length (p := fun i => (slot present i).isSome)
        (l := List.range DATA_SHARDS)
      rw [List.length_range] at hbound
      refine lt_of_le_of_ne hbound ?_
      intro heq
      apply hall
      have hevery := List.countP_eq_length.mp (heq.trans (List.length_range ..).symm)
      have htake : present.take DATA_SHARDS = (List.range DATA_SHARDS).map (slot present) := by
        conv_lhs => rw [present_eq_map present, hlen]
        rw [← List.map_take]
        rfl
      rw [htake, List.all_map, List.all_eq_true]
      exact hevery
    cases hdec : P.rsDecode (heldFrom present 0 DATA_SHARDS)
        (heldFrom present DATA_SHARDS (present.length - DATA_SHARDS)) with
    | none => intro h; cases h
    | some restored =>
      obtain ⟨m, hin, hout⟩ := hz.decode _ _ _ hfew hdec
      have hheld : ∀ i b, slot present i = some b → b.length = m := by
        intro i b hb
        obtain ⟨p, hp, rfl⟩ := heldFrom_of_slot hb
        exact hin p hp
      cases hfirst : (present.filterMap id).head? with
      | none => intro h; cases h
      | some first =>
        have hflen : first.length = m := by
          have hmem : first ∈ present.filterMap id := List.mem_of_mem_head? hfirst
          obtain ⟨o, ho, rfl⟩ := List.mem_filterMap.mp hmem
          obtain ⟨i, hi, hget⟩ := List.mem_iff_getElem.mp ho
          refine hheld i first ?_
          rw [slot, List.getElem?_eq_getElem hi, hget]
          rfl
        have hcopy := copyShards_not_panic hheld hout (List.range DATA_SHARDS) (fun i hi => by
          rw [hlen]
          exact Nat.lt_of_lt_of_le (List.mem_range.mp hi) (by decide))
        simp only [orFail_some, ok_bind, hflen]
        cases hc : copyShards present restored m (List.range DATA_SHARDS) with
        | ok out => intro h; cases h
        | error e =>
          intro h
          cases h
          exact hcopy hc

end P2pnas.Core.Erasure
