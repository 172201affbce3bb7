import Mathlib.Algebra.BigOperators.Group.Finset.Piecewise
import Mathlib.Data.List.Count
import Mathlib.Data.List.Induction
import Mathlib.Data.List.Nodup

/-!
# Counting votes

Items counted by a key add up over the keys. Votes are tallied in order of first appearance; of the entries with the highest count the last
is elected. A key that is counted more often than all other votes together is elected.
-/

namespace P2pnas.Lib.Tally

variable {κ : Type} [DecidableEq κ]

/-- The counts by key add up to the number of items. -/
theorem sum_countP {α : Type} (key : α → κ) {xs : List α} {keys : Finset κ}
    (h : ∀ x ∈ xs, key x ∈ keys) :
    ∑ k ∈ keys, xs.countP (fun x => key x = k) = xs.length := by
  induction xs with
  | nil => exact Finset.sum_const_zero
  | cons x xs ih =>
    have hcons : ∀ k, (x :: xs).countP (fun x => key x = k) =
        xs.countP (fun x => key x = k) + if key x = k then 1 else 0 := by
      intro k
      rw [List.countP_cons]
      simp only [decide_eq_true_eq]
    rw [Finset.sum_congr rfl fun k _ => hcons k, Finset.sum_add_distrib,
      ih fun y hy => h y (List.mem_cons_of_mem x hy), Finset.sum_ite_eq,
      if_pos (h x (List.mem_cons_self ..)), List.length_cons]

/-- One more vote for a key. -/
def vote (k : κ) : List (κ × ℕ) → List (κ × ℕ)
  | [] => [(k, 1)]
  | (k', n) :: rest => if k' = k then (k', n + 1) :: rest else (k', n) :: vote k rest

def tally (ks : List κ) : List (κ × ℕ) := ks.foldl (fun t k => vote k t) []

/-- `max_by_key` on the counts: the last of the maximal entries. -/
def elect (t : List (κ × ℕ)) : Option (κ × ℕ) :=
  t.foldl (fun best x => match best with
    | none => some x
    | some b => if x.2 < b.2 then some b else some x) none

omit [DecidableEq κ] in
theorem foldl_elect {t : List (κ × ℕ)} {b : κ × ℕ} :
    ∃ x, t.foldl (fun best x => match best with
      | none => some x
      | some b => if x.2 < b.2 then some b else some x) (some b) = some x ∧
      x ∈ b :: t ∧ ∀ y ∈ b :: t, y.2 ≤ x.2 := by
  induction t generalizing b with
  | nil => exact ⟨b, rfl, List.mem_cons_self .., by simp⟩
  | cons a t ih =>
    simp only [List.foldl_cons]
    split
    · next hlt =>
      obtain ⟨x, hx, hmem, hmax⟩ := ih (b := b)
      have hbx := hmax b (List.mem_cons_self ..)
      refine ⟨x, hx, ?_, ?_⟩
      · rcases List.mem_cons.mp hmem with rfl | hmem
        · exact List.mem_cons_self ..
        · exact List.mem_cons_of_mem _ (List.mem_cons_of_mem _ hmem)
      · intro y hy
        rcases List.mem_cons.mp hy with rfl | hy
        · exact hbx
        · rcases List.mem_cons.mp hy with rfl | hy
          · omega
          · exact hmax y (List.mem_cons_of_mem _ hy)
    · next hge =>
      obtain ⟨x, hx, hmem, hmax⟩ := ih (b := a)
      have hax := hmax a (List.mem_cons_self ..)
      refine ⟨x, hx, List.mem_cons_of_mem _ hmem, ?_⟩
      intro y hy
      rcases List.mem_cons.mp hy with rfl | hy
      · omega
      · exact hmax y hy

omit [DecidableEq κ] in
/-- The elected entry is one of the tally and has the highest count. -/
theorem elect_spec {t : List (κ × ℕ)} (h : t ≠ []) :
    ∃ x, elect t = some x ∧ x ∈ t ∧ ∀ y ∈ t, y.2 ≤ x.2 := by
  cases t with
  | nil => exact absurd rfl h
  | cons a t => exact foldl_elect

theorem vote_keys (k : κ) (t : List (κ × ℕ)) :
    (vote k t).map Prod.fst = if k ∈ t.map Prod.fst then t.map Prod.fst else t.map Prod.fst ++ [k] := by
  induction t with
  | nil => rfl
  | cons x t ih =>
    rw [vote]
    by_cases hx : x.1 = k
    · simp [hx]
    · have hx' : k ≠ x.1 := fun h => hx h.symm
      simp only [hx, if_false, List.map_cons, ih, List.mem_cons, hx', false_or]
      split <;> rfl

theorem vote_nodup {k : κ} {t : List (κ × ℕ)} (hn : (t.map Prod.fst).Nodup) :
    ((vote k t).map Prod.fst).Nodup := by
  rw [vote_keys]
  split
  · exact hn
  · next hk =>
    rw [List.nodup_append]
    refine ⟨hn, List.nodup_singleton k, ?_⟩
    intro a ha b hb hab
    rw [List.mem_singleton.mp hb] at hab
    exact hk (hab ▸ ha)

theorem mem_vote {k : κ} {t : List (κ × ℕ)} (hn : (t.map Prod.fst).Nodup) {x : κ × ℕ}
    (h : x ∈ vote k t) : (x.1 ≠ k ∧ x ∈ t) ∨ (∃ n, (k, n) ∈ t ∧ x = (k, n + 1)) ∨
      (k ∉ t.map Prod.fst ∧ x = (k, 1)) := by
  induction t with
  | nil => exact .inr (.inr ⟨List.not_mem_nil, List.mem_singleton.mp h⟩)
  | cons y t ih =>
    obtain ⟨hy, hrest⟩ := List.nodup_cons.mp hn
    rw [vote] at h
    split at h
    · next hk =>
      rcases List.mem_cons.mp h with rfl | h
      · exact .inr (.inl ⟨y.2, by rw [← hk]; exact List.mem_cons_self .., by rw [← hk]⟩)
      · refine .inl ⟨?_, List.mem_cons_of_mem _ h⟩
        rintro rfl
        exact hy (hk ▸ List.mem_map_of_mem h)
    · next hk =>
      rcases List.mem_cons.mp h with rfl | h
      · exact .inl ⟨hk, List.mem_cons_self ..⟩
      · rcases ih hrest h with ⟨h1, h2⟩ | ⟨n, h1, h2⟩ | ⟨h1, h2⟩
        · exact .inl ⟨h1, List.mem_cons_of_mem _ h2⟩
        · exact .inr (.inl ⟨n, List.mem_cons_of_mem _ h1, h2⟩)
        · refine .inr (.inr ⟨?_, h2⟩)
          rw [List.map_cons, List.mem_cons, not_or]
          exact ⟨fun h => hk h.symm, h1⟩

/-- Each key has one entry, and its count is the number of its votes. -/
structure Counts (ks : List κ) (t : List (κ × ℕ)) : Prop where
  nodup : (t.map Prod.fst).Nodup
  count : ∀ x ∈ t, x.2 = ks.count x.1
  covers : ∀ k ∈ ks, k ∈ t.map Prod.fst

theorem Counts.vote {ks : List κ} {t : List (κ × ℕ)} (h : Counts ks t) (k : κ) :
    Counts (ks ++ [k]) (vote k t) where
  nodup := vote_nodup h.nodup
  count x hx := by
    rw [List.count_append, List.count_singleton]
    rcases mem_vote h.nodup hx with ⟨hk, hx⟩ | ⟨n, hn, rfl⟩ | ⟨hk, rfl⟩
    · rw [h.count x hx, if_neg (by simpa using fun e => hk e.symm), Nat.add_zero]
    · simp [← h.count (k, n) hn]
    · have hzero : ks.count k = 0 := List.count_eq_zero.mpr fun hmem => hk (h.covers k hmem)
      simp [hzero]
  covers k' hk' := by
    rw [vote_keys]
    rcases List.mem_append.mp hk' with hk' | hk'
    · split
      · exact h.covers k' hk'
      · exact List.mem_append_left _ (h.covers k' hk')
    · rw [List.mem_singleton.mp hk']
      split
      · next hk => exact hk
      · exact List.mem_append_right _ (List.mem_singleton_self k)

theorem tally_counts (ks : List κ) : Counts ks (tally ks) := by
  induction ks using List.reverseRecOn with
  | nil => exact ⟨List.nodup_nil, by simp [tally], by simp⟩
  | append_singleton ks k ih =>
    have h : tally (ks ++ [k]) = vote k (tally ks) := by
      simp only [tally, List.foldl_append, List.foldl_cons, List.foldl_nil]
    rw [h]
    exact ih.vote k

/-- Only keys that were voted for are elected. -/
theorem elect_mem {ks : List κ} (h : ks ≠ []) : ∃ k n, elect (tally ks) = some (k, n) ∧ k ∈ ks := by
  have hc := tally_counts ks
  obtain ⟨k₀, hk₀⟩ := List.exists_mem_of_ne_nil ks h
  obtain ⟨x₀, hx₀, hkey⟩ := List.mem_map.mp (hc.covers k₀ hk₀)
  obtain ⟨⟨k, n⟩, helect, hin, hmax⟩ := elect_spec (t := tally ks) (List.ne_nil_of_mem hx₀)
  refine ⟨k, n, helect, ?_⟩
  have hle := hmax x₀ hx₀
  rw [hc.count _ hx₀, hc.count _ hin, hkey] at hle
  have hpos : 0 < ks.count k₀ := List.count_pos_iff.mpr hk₀
  exact List.count_pos_iff.mp (Nat.lt_of_lt_of_le hpos hle)

/-- The key with the most votes is elected. -/
theorem elect_tally {ks : List κ} {k : κ} (hk : k ∈ ks)
    (h : ∀ k' ≠ k, ks.countP (· = k') < ks.countP (· = k)) : ∃ n, elect (tally ks) = some (k, n) := by
  have hc := tally_counts ks
  obtain ⟨⟨k₀, n₀⟩, hmem, hkey⟩ := List.mem_map.mp (hc.covers k hk)
  obtain rfl : k₀ = k := hkey
  obtain ⟨⟨k', n⟩, helect, hin, hmax⟩ := elect_spec (t := tally ks) (List.ne_nil_of_mem hmem)
  have hle := hmax _ hmem
  rw [hc.count _ hmem, hc.count _ hin] at hle
  by_cases hk' : k' = k₀
  · exact ⟨n, by rw [helect, hk']⟩
  · have hlt : ks.count k' < ks.count k₀ := h k' hk'
    simp only at hle
    omega

/-! ### Who is elected -/

/-- The key has the most votes; among keys with as many it is the last to appear. -/
def Elected (ks : List κ) (k : κ) : Prop :=
  k ∈ ks ∧ ∀ k' ∈ ks, ks.count k' ≤ ks.count k ∧ (ks.count k' = ks.count k → ks.idxOf k' ≤ ks.idxOf k)

instance (ks : List κ) (k : κ) : Decidable (Elected ks k) :=
  inferInstanceAs (Decidable (_ ∧ ∀ k' ∈ ks, _))

omit [DecidableEq κ] in
theorem foldl_elect_last {t : List (κ × ℕ)} {b x : κ × ℕ}
    (h : t.foldl (fun best x => match best with
      | none => some x
      | some b => if x.2 < b.2 then some b else some x) (some b) = some x) :
    ∃ l r, b :: t = l ++ x :: r ∧ (∀ y ∈ l, y.2 ≤ x.2) ∧ ∀ y ∈ r, y.2 < x.2 := by
  induction t generalizing b with
  | nil =>
    cases h
    exact ⟨[], [], rfl, nofun, nofun⟩
  | cons a t ih =>
    simp only [List.foldl_cons] at h
    split at h
    · next hlt =>
      obtain ⟨l, r, heq, hl, hr⟩ := ih h
      rcases l with _ | ⟨b', l⟩
      · obtain ⟨rfl, rfl⟩ := List.cons.inj heq
        refine ⟨[], a :: t, rfl, nofun, fun y hy => ?_⟩
        rcases List.mem_cons.mp hy with rfl | hy
        · exact hlt
        · exact hr y hy
      · obtain ⟨rfl, rfl⟩ := List.cons.inj heq
        have hb := hl b (List.mem_cons_self ..)
        refine ⟨b :: a :: l, r, rfl, fun y hy => ?_, hr⟩
        rcases List.mem_cons.mp hy with rfl | hy
        · exact hb
        · rcases List.mem_cons.mp hy with rfl | hy
          · omega
          · exact hl y (List.mem_cons_of_mem _ hy)
    · next hge =>
      obtain ⟨l, r, heq, hl, hr⟩ := ih h
      refine ⟨b :: l, r, by rw [heq, List.cons_append], fun y hy => ?_, hr⟩
      rcases List.mem_cons.mp hy with rfl | hy
      · rcases l with _ | ⟨a', l⟩
        · obtain ⟨rfl, -⟩ := List.cons.inj heq
          omega
        · obtain ⟨rfl, -⟩ := List.cons.inj heq
          have ha := hl a (List.mem_cons_self ..)
          omega
      · exact hl y hy

/-- The entries stand in the order in which their keys first appear. -/
theorem tally_order (ks : List κ) : (∀ k ∈ (tally ks).map Prod.fst, k ∈ ks) ∧
    ((tally ks).map Prod.fst).Pairwise fun a b => ks.idxOf a < ks.idxOf b := by
  induction ks using List.reverseRecOn with
  | nil => exact ⟨nofun, List.Pairwise.nil⟩
  | append_singleton ks k ih =>
    obtain ⟨hin, hpair⟩ := ih
    have hvote : tally (ks ++ [k]) = vote k (tally ks) := by
      simp only [tally, List.foldl_append, List.foldl_cons, List.foldl_nil]
    have hpair' : ((tally ks).map Prod.fst).Pairwise
        fun a b => (ks ++ [k]).idxOf a < (ks ++ [k]).idxOf b := by
      refine hpair.imp_of_mem fun {a b} ha hb hlt => ?_
      rw [List.idxOf_append_of_mem (hin a ha), List.idxOf_append_of_mem (hin b hb)]
      exact hlt
    rw [hvote, vote_keys]
    split
    · exact ⟨fun a ha => List.mem_append_left _ (hin a ha), hpair'⟩
    · next hnew =>
      refine ⟨fun a ha => ?_, List.pairwise_append.mpr ⟨hpair', List.pairwise_singleton .., ?_⟩⟩
      · rcases List.mem_append.mp ha with ha | ha
        · exact List.mem_append_left _ (hin a ha)
        · exact List.mem_append_right _ ha
      · intro a ha b hb
        have hk : k ∉ ks := fun hk => hnew ((tally_counts ks).covers k hk)
        rw [List.mem_singleton.mp hb, List.idxOf_append_of_mem (hin a ha), List.idxOf_append_of_notMem hk]
        exact Nat.lt_add_right _ (List.idxOf_lt_length_of_mem (hin a ha))

/-- The key that is elected, by the votes alone. -/
theorem elect_iff {ks : List κ} {k : κ} : (∃ n, elect (tally ks) = some (k, n)) ↔ Elected ks k := by
  have hc := tally_counts ks
  obtain ⟨-, hpair⟩ := tally_order ks
  have hforth : ∀ k n, elect (tally ks) = some (k, n) → Elected ks k := by
    intro k n helect
    have hne : ks ≠ [] := by
      rintro rfl
      cases helect
    obtain ⟨k₀, n₀, helect₀, hmem⟩ := elect_mem hne
    cases helect₀.symm.trans helect
    refine ⟨hmem, fun k' hk' => ?_⟩
    obtain ⟨⟨k₁, n'⟩, hin, hkey⟩ := List.mem_map.mp (hc.covers k' hk')
    obtain rfl : k₁ = k' := hkey
    obtain ⟨l, r, heq, hl, hr⟩ : ∃ l r, tally ks = l ++ (k, n) :: r ∧ (∀ y ∈ l, y.2 ≤ n) ∧ ∀ y ∈ r, y.2 < n := by
      cases ht : tally ks with
      | nil =>
        rw [ht] at helect
        cases helect
      | cons b t =>
        rw [ht] at helect
        exact foldl_elect_last helect
    have hn : n = ks.count k := hc.count (k, n) (heq ▸ List.mem_append_right _ (List.mem_cons_self ..))
    have hn' : n' = ks.count k₁ := hc.count (k₁, n') hin
    rw [heq, List.map_append, List.map_cons] at hpair
    obtain ⟨-, -, hbefore⟩ := List.pairwise_append.mp hpair
    rw [heq] at hin
    rcases List.mem_append.mp hin with hin | hin
    · have hle : n' ≤ n := hl _ hin
      exact ⟨by omega, fun _ => Nat.le_of_lt
        (hbefore k₁ (List.mem_map_of_mem hin) k (List.mem_cons_self ..))⟩
    · rcases List.mem_cons.mp hin with hin | hin
      · cases hin
        exact ⟨le_refl _, fun _ => le_refl _⟩
      · have hlt : n' < n := hr _ hin
        exact ⟨by omega, fun hsame => absurd hsame (by omega)⟩
  constructor
  · rintro ⟨n, helect⟩
    exact hforth k n helect
  · rintro ⟨hk, hmost⟩
    obtain ⟨k', n, helect, hk'⟩ := elect_mem (List.ne_nil_of_mem hk)
    obtain ⟨-, hmost'⟩ := hforth k' n helect
    obtain ⟨h₁, h₂⟩ := hmost k' hk'
    obtain ⟨h₁', h₂'⟩ := hmost' k hk
    have hcount : ks.count k' = ks.count k := Nat.le_antisymm h₁ h₁'
    have hidx : ks.idxOf k = ks.idxOf k' := Nat.le_antisymm (h₂' hcount.symm) (h₂ hcount)
    have hsame : k = k' := (List.idxOf_inj hk).mp hidx
    exact ⟨n, by rw [hsame, helect]⟩

end P2pnas.Lib.Tally
