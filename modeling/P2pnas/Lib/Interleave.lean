import Mathlib.Algebra.BigOperators.Group.List.Basic
import Mathlib.Algebra.Order.BigOperators.Group.List
import Mathlib.Algebra.Order.Group.Int
import Mathlib.Algebra.Ring.Int.Defs
import P2pnas.Lib.Runs

/-!
# Calls that run next to each other

A call in progress is a local state; the calls share one global state. A label starts a call
or lets the call at a position take its next atomic step, which may be its last. What each
call still owes the global state is summed over the calls in progress: a step changes the
sum by what it does to the one call that moved.
-/

namespace P2pnas.Lib.Interleave

variable {σ τ ι ε : Type}

/-- The shared state and the calls in progress. -/
structure Sys (σ τ : Type) where
  shared : σ
  procs : List τ

/-- A call starts, or the call at position `k` moves, the environment choosing `e`. -/
inductive Label (ι ε : Type) where
  | start (i : ι)
  | move (k : ℕ) (e : ε)

/-- The call at position `k` goes on as `o`, or is over. -/
def put (procs : List τ) (k : ℕ) : Option τ → List τ
  | some t => procs.set k t
  | none => procs.eraseIdx k

section
variable (enter : ι → σ → σ × τ) (advance : ε → σ → τ → σ × Option τ)

def step (s : Sys σ τ) : Label ι ε → Sys σ τ
  | .start i => ⟨(enter i s.shared).1, s.procs ++ [(enter i s.shared).2]⟩
  | .move k e =>
    match s.procs[k]? with
    | none => s
    | some t => ⟨(advance e s.shared t).1, put s.procs k (advance e s.shared t).2⟩

theorem step_move {s : Sys σ τ} {k : ℕ} {t : τ} (h : s.procs[k]? = some t) (e : ε) :
    step enter advance s (.move k e) =
      ⟨(advance e s.shared t).1, put s.procs k (advance e s.shared t).2⟩ := by
  simp only [step, h]

/-- An invariant is kept when starting a call and one step of any call keep it. -/
theorem step_keeps {I : Sys σ τ → Prop} {ok : Sys σ τ → Label ι ε → Prop}
    (hstart : ∀ s i, I s → ok s (.start i) →
      I ⟨(enter i s.shared).1, s.procs ++ [(enter i s.shared).2]⟩)
    (hmove : ∀ s k t e, I s → s.procs[k]? = some t → ok s (.move k e) →
      I ⟨(advance e s.shared t).1, put s.procs k (advance e s.shared t).2⟩)
    (s : Sys σ τ) (a : Label ι ε) (hs : I s) (ha : ok s a) : I (step enter advance s a) := by
  cases a with
  | start i => exact hstart s i hs ha
  | move k e =>
    cases ht : s.procs[k]? with
    | none =>
      have hsame : step enter advance s (.move k e) = s := by simp only [step, ht]
      rw [hsame]
      exact hs
    | some t =>
      rw [step_move enter advance ht]
      exact hmove s k t e hs ht ha

end

/-! ### What a step does to the list of calls -/

theorem mem_of_mem_put {procs : List τ} {k : ℕ} {o : Option τ} {t : τ} (h : t ∈ put procs k o) :
    t ∈ procs ∨ o = some t := by
  cases o with
  | none => exact .inl (List.mem_of_mem_eraseIdx h)
  | some t' =>
    rcases List.mem_or_eq_of_mem_set h with h | h
    · exact .inl h
    · exact .inr (by rw [h])

/-- A property of every call survives when it holds of the call that moved. -/
theorem forall_put {Q : τ → Prop} {procs : List τ} (h : ∀ t ∈ procs, Q t) {k : ℕ} {o : Option τ}
    (ho : ∀ t, o = some t → Q t) : ∀ t ∈ put procs k o, Q t := by
  intro t ht
  rcases mem_of_mem_put ht with hold | hnew
  · exact h t hold
  · exact ho t hnew

/-- The sum of a measure over the calls in progress. -/
def total (m : τ → ℤ) (procs : List τ) : ℤ := (procs.map m).sum

@[simp] theorem total_nil (m : τ → ℤ) : total m [] = 0 := rfl

theorem total_start (m : τ → ℤ) (procs : List τ) (t : τ) :
    total m (procs ++ [t]) = total m procs + m t := by
  simp only [total, List.map_append, List.map_cons, List.map_nil, List.sum_append,
    List.sum_singleton]

/-- Only the call that moved counts. -/
theorem total_put (m : τ → ℤ) {procs : List τ} {k : ℕ} {t : τ} (h : procs[k]? = some t)
    (o : Option τ) : total m (put procs k o) = total m procs - m t + (o.map m).getD 0 := by
  obtain ⟨hk, rfl⟩ := List.getElem?_eq_some_iff.mp h
  have hkm : k < (procs.map m).length := by rw [List.length_map]; exact hk
  cases o with
  | none =>
    have hsum := List.add_sum_eraseIdx hkm fun a _ => AddCommute.all _ a
    rw [List.getElem_map] at hsum
    simp only [total, put, Option.map_none, Option.getD_none, ← hsum, List.eraseIdx_map]
    omega
  | some t' =>
    have hsum := List.sum_set' (procs.map m) k (m t')
    rw [dif_pos hkm, List.getElem_map] at hsum
    simp only [total, put, Option.map_some, Option.getD_some, List.map_set, hsum]
    omega

theorem total_nonneg {m : τ → ℤ} {procs : List τ} (hm : ∀ t ∈ procs, 0 ≤ m t) :
    0 ≤ total m procs := by
  refine List.sum_nonneg fun x hx => ?_
  obtain ⟨t, ht, rfl⟩ := List.mem_map.mp hx
  exact hm t ht

/-- A measure that is nowhere negative is at least what one call contributes. -/
theorem le_total {m : τ → ℤ} {procs : List τ} (hm : ∀ t ∈ procs, 0 ≤ m t) {t : τ}
    (h : t ∈ procs) : m t ≤ total m procs := by
  refine List.single_le_sum (fun x hx => ?_) (m t) (List.mem_map_of_mem h)
  obtain ⟨b, hb, rfl⟩ := List.mem_map.mp hx
  exact hm b hb

end P2pnas.Lib.Interleave
