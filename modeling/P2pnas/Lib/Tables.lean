import Mathlib.Algebra.BigOperators.Group.List.Basic
import Mathlib.Algebra.Ring.Int.Defs
import Mathlib.Data.Int.Basic
import Mathlib.Data.List.Nodup

/-!
# Keyed tables

A table is the list of its rows in insertion order; a key is a function of the row and is
unique when the keys of the rows are. The lemmas say what the three writing statements do
to uniqueness and membership.
-/

namespace P2pnas.Lib.Tables

variable {ρ κ : Type}

/-- `UPDATE … SET … WHERE sel`. -/
def update (sel : ρ → Bool) (set : ρ → ρ) (rows : List ρ) : List ρ :=
  rows.map fun r => if sel r then set r else r

theorem update_map {β : Type} (key : ρ → β) (sel : ρ → Bool) (set : ρ → ρ)
    (hkey : ∀ r, key (set r) = key r) (rows : List ρ) :
    (update sel set rows).map key = rows.map key := by
  simp only [update, List.map_map]
  apply List.map_congr_left
  intro r _
  simp only [Function.comp_apply]
  split
  · exact hkey r
  · rfl

theorem mem_update {sel : ρ → Bool} {set : ρ → ρ} {rows : List ρ} {r : ρ} :
    r ∈ update sel set rows ↔
      ∃ r₀ ∈ rows, (sel r₀ = true ∧ r = set r₀) ∨ (sel r₀ = false ∧ r = r₀) := by
  simp only [update, List.mem_map]
  constructor
  · rintro ⟨r₀, hr₀, h⟩
    refine ⟨r₀, hr₀, ?_⟩
    cases hs : sel r₀ with
    | false => rw [hs] at h; exact .inr ⟨rfl, h.symm⟩
    | true => rw [hs] at h; exact .inl ⟨rfl, h.symm⟩
  · rintro ⟨r₀, hr₀, ⟨hs, rfl⟩ | ⟨hs, rfl⟩⟩
    · exact ⟨r₀, hr₀, by rw [hs]; rfl⟩
    · exact ⟨r, hr₀, by rw [hs]; rfl⟩

theorem update_none {sel : ρ → Bool} {set : ρ → ρ} {rows : List ρ}
    (h : ∀ r ∈ rows, sel r = false) : update sel set rows = rows := by
  refine (List.map_congr_left fun r hr => ?_).trans (List.map_id rows)
  rw [h r hr]
  rfl

/-- Two updates of one table agree when they agree on every row. -/
theorem update_eq_iff {sel sel' : ρ → Bool} {set set' : ρ → ρ} {rows : List ρ} :
    update sel set rows = update sel' set' rows ↔
      ∀ r ∈ rows, (if sel r then set r else r) = if sel' r then set' r else r :=
  List.map_inj_left

theorem nodup_concat {key : ρ → κ} {rows : List ρ} {r : ρ} (hn : (rows.map key).Nodup)
    (hr : key r ∉ rows.map key) : ((rows ++ [r]).map key).Nodup := by
  rw [List.map_append, List.map_cons, List.map_nil]
  apply List.Nodup.append hn (List.nodup_singleton _)
  intro k hk hk'
  rw [List.mem_singleton] at hk'
  exact hr (hk' ▸ hk)

theorem nodup_filter {key : ρ → κ} {rows : List ρ} (p : ρ → Bool) (hn : (rows.map key).Nodup) :
    ((rows.filter p).map key).Nodup :=
  hn.sublist (List.filter_sublist.map key)

theorem eq_of_key {key : ρ → κ} {rows : List ρ} (hn : (rows.map key).Nodup) {r r' : ρ}
    (hr : r ∈ rows) (hr' : r' ∈ rows) (hk : key r = key r') : r = r' :=
  List.inj_on_of_nodup_map hn hr hr' hk

/-- An update of one row keeps a key unique exactly when no other row has the new key. -/
theorem nodup_update_one {key : ρ → κ} {sel : ρ → Bool} {set : ρ → ρ} {rows : List ρ} {r : ρ}
    (hn : (rows.map key).Nodup) (hr : r ∈ rows) (hsel : ∀ q ∈ rows, sel q = true ↔ q = r) :
    ((update sel set rows).map key).Nodup ↔ ∀ q ∈ rows, q ≠ r → key q ≠ key (set r) := by
  have hrow : ∀ q ∈ rows, q ≠ r → sel q = false := by
    intro q hq hne
    cases hs : sel q with
    | false => rfl
    | true => exact absurd ((hsel q hq).mp hs) hne
  have hself : sel r = true := (hsel r hr).mpr rfl
  rw [update, List.map_map, List.nodup_map_iff_inj_on (List.Nodup.of_map key hn)]
  constructor
  · intro hinj q hq hne heq
    refine hne (hinj q hq r hr ?_)
    simp only [Function.comp_apply, hrow q hq hne, hself, if_true, Bool.false_eq_true, if_false]
    exact heq
  · intro hfree x hx y hy heq
    by_cases hxr : x = r
    · by_cases hyr : y = r
      · rw [hxr, hyr]
      · subst hxr
        simp only [Function.comp_apply, hrow y hy hyr, hself, if_true, Bool.false_eq_true,
          if_false] at heq
        exact absurd heq.symm (hfree y hy hyr)
    · by_cases hyr : y = r
      · subst hyr
        simp only [Function.comp_apply, hrow x hx hxr, hself, if_true, Bool.false_eq_true,
          if_false] at heq
        exact absurd heq (hfree x hx hxr)
      · simp only [Function.comp_apply, hrow x hx hxr, hrow y hy hyr, Bool.false_eq_true,
          if_false] at heq
        exact eq_of_key hn hx hy heq

/-- A lookup by key finds the one row that has it. -/
theorem find?_eq_some {key : ρ → κ} {rows : List ρ} (hn : (rows.map key).Nodup) {p : ρ → Bool}
    {r : ρ} (hr : r ∈ rows) (hp : p r = true) (hsel : ∀ r', p r' = true → key r' = key r) :
    rows.find? p = some r := by
  cases h : rows.find? p with
  | none =>
    have hno := List.find?_eq_none.mp h r hr
    exact absurd hp hno
  | some r' =>
    have hk := hsel r' (List.find?_some h)
    rw [eq_of_key hn (List.mem_of_find?_eq_some h) hr hk]

/-! ### Rows by key -/

section Keyed
variable [DecidableEq κ] (key : ρ → κ)

def lookup (k : κ) (rows : List ρ) : Option ρ := rows.find? fun r => key r = k

/-- `INSERT … ON CONFLICT DO UPDATE`. -/
def upsert (r : ρ) (rows : List ρ) : List ρ :=
  if key r ∈ rows.map key then update (fun q => key q = key r) (fun _ => r) rows else rows ++ [r]

/-- `DELETE … WHERE key = k`. -/
def remove (k : κ) (rows : List ρ) : List ρ := rows.filter fun r => key r ≠ k

theorem lookup_eq_none {k : κ} {rows : List ρ} : lookup key k rows = none ↔ k ∉ rows.map key := by
  simp only [lookup, List.find?_eq_none, decide_eq_true_eq, List.mem_map, not_exists, not_and]

theorem upsert_map_of_mem {r : ρ} {rows : List ρ} (h : key r ∈ rows.map key) :
    (upsert key r rows).map key = rows.map key := by
  rw [upsert, if_pos h, update, List.map_map]
  apply List.map_congr_left
  intro q _
  simp only [Function.comp_apply, decide_eq_true_eq]
  split
  · rename_i hq
    exact hq.symm
  · rfl

theorem mem_upsert {r q : ρ} {rows : List ρ} (h : q ∈ upsert key r rows) : q = r ∨ q ∈ rows := by
  unfold upsert at h
  split at h
  · obtain ⟨p, hp, ⟨_, rfl⟩ | ⟨_, rfl⟩⟩ := mem_update.mp h
    · exact .inl rfl
    · exact .inr hp
  · rcases List.mem_append.mp h with h | h
    · exact .inr h
    · exact .inl (List.mem_singleton.mp h)

theorem nodup_upsert {rows : List ρ} (hn : (rows.map key).Nodup) (r : ρ) :
    ((upsert key r rows).map key).Nodup := by
  by_cases h : key r ∈ rows.map key
  · rw [upsert_map_of_mem key h]
    exact hn
  · rw [upsert, if_neg h]
    exact nodup_concat hn h

theorem nodup_remove {rows : List ρ} (hn : (rows.map key).Nodup) (k : κ) :
    ((remove key k rows).map key).Nodup := nodup_filter _ hn

theorem lookup_upsert {rows : List ρ} (r : ρ) (k : κ) :
    lookup key k (upsert key r rows) = if k = key r then some r else lookup key k rows := by
  by_cases h : key r ∈ rows.map key
  · have hmap : ∀ q : ρ, key (if decide (key q = key r) = true then r else q) = key q := by
      intro q
      split
      · rename_i hq
        exact (of_decide_eq_true hq).symm
      · rfl
    rw [upsert, if_pos h, lookup, update, List.find?_map]
    simp only [Function.comp_def, hmap]
    by_cases hk : k = key r
    · subst hk
      obtain ⟨q, hq, hqk⟩ := List.mem_map.mp h
      cases hf : rows.find? fun x => decide (key x = key r) with
      | none => exact absurd (decide_eq_true hqk) (List.find?_eq_none.mp hf q hq)
      | some q' =>
        have hq' := List.find?_some hf
        rw [Option.map_some, if_pos hq', if_pos rfl]
    · rw [if_neg hk]
      cases hf : rows.find? fun x => decide (key x = k) with
      | none => rw [lookup, hf]; rfl
      | some q' =>
        have hsel := List.find?_some hf
        have hq' : key q' = k := of_decide_eq_true hsel
        rw [lookup, hf, Option.map_some, if_neg (by simpa [hq'] using hk)]
  · rw [upsert, if_neg h, lookup, List.find?_append, List.find?_singleton]
    by_cases hk : k = key r
    · subst hk
      have hno : rows.find? (fun x => decide (key x = key r)) = none :=
        (lookup_eq_none key).mpr h
      rw [hno, if_pos rfl, Option.none_or, if_pos (decide_eq_true rfl)]
    · rw [if_neg hk, if_neg (by simpa using Ne.symm hk), Option.or_none, lookup]

theorem lookup_remove {rows : List ρ} (k k' : κ) :
    lookup key k' (remove key k rows) = if k' = k then none else lookup key k' rows := by
  by_cases hk : k' = k
  · subst hk
    rw [if_pos rfl, lookup_eq_none]
    intro hm
    obtain ⟨q, hq, hqk⟩ := List.mem_map.mp hm
    exact of_decide_eq_true (List.mem_filter.mp hq).2 hqk
  · rw [if_neg hk, lookup, remove, List.find?_filter, lookup]
    congr 1
    funext q
    by_cases hq : key q = k'
    · simp [hq, hk]
    · simp [hq]

theorem lookup_update {rows : List ρ} {set : ρ → ρ} (hset : ∀ q, key (set q) = key q) (k k' : κ) :
    lookup key k' (update (fun q => key q = k) set rows) =
      if k' = k then (lookup key k' rows).map set else lookup key k' rows := by
  have hsel : ((fun q => decide (key q = k')) ∘ fun q => if decide (key q = k) then set q else q) =
      fun q => decide (key q = k') := by
    funext q
    simp only [Function.comp_apply]
    split
    · rw [hset]
    · rfl
  simp only [lookup, update, List.find?_map, hsel]
  cases hf : rows.find? fun q => decide (key q = k') with
  | none =>
    split
    · rfl
    · rfl
  | some q =>
    have hsel' := List.find?_some hf
    have hq : key q = k' := of_decide_eq_true hsel'
    simp only [hq, Option.map_some, decide_eq_true_eq]
    split
    · rfl
    · rfl

/-- An update that leaves the key alone rewrites what the lookup finds. -/
theorem lookup_update_map {sel : ρ → Bool} {set : ρ → ρ} (hset : ∀ q, key (set q) = key q) (k : κ)
    (rows : List ρ) : lookup key k (update sel set rows) =
      (lookup key k rows).map fun q => if sel q then set q else q := by
  have hsel : ((fun q => decide (key q = k)) ∘ fun q => if sel q then set q else q) =
      fun q => decide (key q = k) := by
    funext q
    simp only [Function.comp_apply]
    split
    · rw [hset]
    · rfl
  rw [lookup, update, List.find?_map, hsel, lookup]

/-- Where the keys are distinct, a filter acts on what the lookup finds. -/
theorem lookup_filter {rows : List ρ} (hn : (rows.map key).Nodup) (p : ρ → Bool) (k : κ) :
    lookup key k (rows.filter p) = (lookup key k rows).filter p := by
  induction rows with
  | nil => rfl
  | cons r rows ih =>
    rw [List.map_cons, List.nodup_cons] at hn
    have hrest := ih hn.2
    by_cases hk : key r = k
    · have hnone : lookup key k rows = none := (lookup_eq_none key).mpr (hk ▸ hn.1)
      rw [hnone] at hrest
      by_cases hp : p r = true
      · simp [lookup, hp, hk, Option.filter]
      · rw [List.filter_cons_of_neg hp, hrest]
        simp [lookup, hp, hk, Option.filter]
    · by_cases hp : p r = true
      · simp only [lookup, List.filter_cons_of_pos hp, List.find?_cons, hk, decide_false] at hrest ⊢
        exact hrest
      · rw [List.filter_cons_of_neg hp, hrest]
        simp [lookup, hk]

theorem lookup_concat {rows : List ρ} {r : ρ} (h : key r ∉ rows.map key) (k : κ) :
    lookup key k (rows ++ [r]) = if k = key r then some r else lookup key k rows := by
  rw [← lookup_upsert key r k, upsert, if_neg h]

/-- The sum of a column. -/
def sumOf (g : ρ → ℤ) (rows : List ρ) : ℤ := (rows.map g).sum

theorem sumOf_remove (g : ρ → ℤ) {rows : List ρ} (hn : (rows.map key).Nodup) (k : κ) :
    sumOf g (remove key k rows) = sumOf g rows - ((lookup key k rows).map g).getD 0 := by
  induction rows with
  | nil => rfl
  | cons q rows ih =>
    rw [List.map_cons, List.nodup_cons] at hn
    have hih := ih hn.2
    simp only [sumOf, remove, lookup] at hih ⊢
    by_cases hq : key q = k
    · subst hq
      have hnone : rows.find? (fun r => decide (key r = key q)) = none :=
        (lookup_eq_none key).mpr hn.1
      rw [hnone] at hih
      simp only [List.filter_cons, List.find?_cons, ne_eq, not_true_eq_false, decide_false,
        decide_true, Bool.false_eq_true, if_false, Option.map_none, Option.getD_none,
        Option.map_some, Option.getD_some, List.map_cons, List.sum_cons] at hih ⊢
      rw [hih]
      omega
    · simp only [List.filter_cons, List.find?_cons, ne_eq, hq, not_false_eq_true, decide_true,
        decide_false, if_true, List.map_cons, List.sum_cons] at hih ⊢
      rw [hih]
      omega

/-- An update of the row at a key replaces what that row counts. -/
theorem sumOf_update (g : ρ → ℤ) (set : ρ → ρ) {rows : List ρ} (hn : (rows.map key).Nodup) (k : κ) :
    sumOf g (update (fun r => key r = k) set rows) =
      sumOf g rows + ((lookup key k rows).map fun r => g (set r) - g r).getD 0 := by
  induction rows with
  | nil => rfl
  | cons q rows ih =>
    have hq := List.nodup_cons.mp (by simpa only [List.map_cons] using hn)
    have hrest := ih hq.2
    simp only [sumOf, update, lookup, List.map_cons, List.sum_cons, List.find?_cons] at hrest ⊢
    by_cases hk : key q = k
    · have hnone : lookup key k rows = none := (lookup_eq_none key).mpr (hk ▸ hq.1)
      simp only [lookup] at hnone
      rw [hnone] at hrest
      simp only [hk, decide_true, if_true, Option.map_some, Option.getD_some] at hrest ⊢
      simp only [Option.map_none, Option.getD_none] at hrest
      omega
    · simp only [hk, decide_false, Bool.false_eq_true, if_false] at hrest ⊢
      omega

theorem sumOf_upsert (g : ρ → ℤ) {rows : List ρ} (hn : (rows.map key).Nodup) (r : ρ) :
    sumOf g (upsert key r rows) = sumOf g rows - ((lookup key (key r) rows).map g).getD 0 + g r := by
  by_cases h : key r ∈ rows.map key
  · rw [upsert, if_pos h]
    induction rows with
    | nil => cases h
    | cons q rows ih =>
      rw [List.map_cons, List.nodup_cons] at hn
      by_cases hq : key q = key r
      · -- the row replaced; no later row has its key
        have hrest : update (fun x => decide (key x = key r)) (fun _ => r) rows = rows := by
          rw [update]
          conv_rhs => rw [← List.map_id rows]
          apply List.map_congr_left
          intro x hx
          have hne : key x ≠ key r := by
            intro he
            exact hn.1 (hq ▸ he ▸ List.mem_map_of_mem hx)
          simp [hne]
        have hcons : update (fun x => decide (key x = key r)) (fun _ => r) (q :: rows) =
            r :: update (fun x => decide (key x = key r)) (fun _ => r) rows := by
          simp [update, hq]
        rw [hcons, hrest, lookup, List.find?_cons, decide_eq_true hq]
        simp only [sumOf, List.map_cons, List.sum_cons, Option.map_some, Option.getD_some]
        omega
      · have hmem : key r ∈ rows.map key := by
          rcases List.mem_cons.mp h with he | he
          · exact absurd he.symm hq
          · exact he
        have hih := ih hn.2 hmem
        have hcons : update (fun x => decide (key x = key r)) (fun _ => r) (q :: rows) =
            q :: update (fun x => decide (key x = key r)) (fun _ => r) rows := by
          simp [update, hq]
        have hfind : lookup key (key r) (q :: rows) = lookup key (key r) rows := by
          simp [lookup, hq]
        rw [hcons, hfind]
        simp only [sumOf, List.map_cons, List.sum_cons] at hih ⊢
        rw [hih]
        omega
  · rw [upsert, if_neg h, (lookup_eq_none key).mpr h]
    simp only [sumOf, List.map_append, List.map_cons, List.map_nil, List.sum_append,
      List.sum_singleton, Option.map_none, Option.getD_none]
    omega

end Keyed

end P2pnas.Lib.Tables
