import Mathlib.Data.List.Count

/-!
# Budgets per window

A budget lets `cap` charges through in a window of `width`; the first charge after the window
has passed opens the next one. The budget is kept as the start of the window and the number of
charges in it, and covers the moments at which something was let through.
-/

namespace P2pnas.Lib.Budget

variable {cap width : ℕ}

/-- The window that a charge at `now` falls into. -/
def windowAt (width : ℕ) (slot : Option (ℕ × ℕ)) (now : ℕ) : ℕ × ℕ :=
  let slot := slot.getD (now, 0)
  if width < now - slot.1 then (now, 0) else slot

/-- One charge, and whether it is let through. -/
def charge (cap width : ℕ) (slot : Option (ℕ × ℕ)) (now : ℕ) : (ℕ × ℕ) × Bool :=
  let slot := windowAt width slot now
  if cap ≤ slot.2 then (slot, false) else ((slot.1, slot.2 + 1), true)

/-- Nothing was let through after the window, and in it no more than was charged. -/
structure Spans (cap width : ℕ) (slot : ℕ × ℕ) (times : List ℕ) : Prop where
  capped : slot.2 ≤ cap
  ended : ∀ t ∈ times, t ≤ slot.1 + width
  counted : times.countP (fun t => slot.1 ≤ t) ≤ slot.2

/-- What was let through is covered by the window, if there is one. -/
def Covers (cap width : ℕ) (slot : Option (ℕ × ℕ)) (times : List ℕ) : Prop :=
  match slot with
  | none => times = []
  | some w => Spans cap width w times

theorem Covers.windowAt {slot : Option (ℕ × ℕ)} {times : List ℕ} (h : Covers cap width slot times)
    (now : ℕ) : Spans cap width (windowAt width slot now) times ∧
      now ≤ (Budget.windowAt width slot now).1 + width := by
  cases slot with
  | none =>
    have hnil : times = [] := h
    have hw : Budget.windowAt width none now = (now, 0) := by
      simp only [Budget.windowAt, Option.getD_none, ite_self]
    rw [hw, hnil]
    refine ⟨⟨Nat.zero_le _, fun t ht => absurd ht List.not_mem_nil, ?_⟩, by omega⟩
    exact Nat.le_of_eq List.countP_nil
  | some w =>
    have hs : Spans cap width w times := h
    unfold Budget.windowAt
    simp only [Option.getD_some]
    split
    · next hlate =>
      -- what was let through before ended with the last window
      refine ⟨⟨Nat.zero_le _, fun t ht => ?_, ?_⟩, Nat.le_add_right _ _⟩
      · have := hs.ended t ht
        show t ≤ now + width
        omega
      · show times.countP (fun t => now ≤ t) ≤ 0
        rw [Nat.le_zero, List.countP_eq_zero]
        intro t ht hnow
        have := hs.ended t ht
        have := of_decide_eq_true hnow
        omega
    · next hin =>
      refine ⟨hs, ?_⟩
      omega

/-- A charge behind which nothing is let through. -/
theorem Covers.charge {slot : Option (ℕ × ℕ)} {times : List ℕ} (h : Covers cap width slot times)
    (now : ℕ) : Covers cap width (some (charge cap width slot now).1) times := by
  obtain ⟨hs, -⟩ := h.windowAt now
  unfold Budget.charge
  dsimp only
  split
  · exact hs
  · refine ⟨by dsimp only; omega, hs.ended, ?_⟩
    have := hs.counted
    dsimp only
    omega

/-- A charge behind which something is let through at that moment. -/
theorem Covers.spend {slot : Option (ℕ × ℕ)} {times : List ℕ} (h : Covers cap width slot times)
    {now : ℕ} (hlet : (Budget.charge cap width slot now).2 = true) :
    Covers cap width (some (Budget.charge cap width slot now).1) (now :: times) := by
  obtain ⟨hs, hnow⟩ := h.windowAt now
  unfold Budget.charge at hlet ⊢
  dsimp only at hlet ⊢
  split
  · next hfull =>
    rw [if_pos hfull] at hlet
    cases hlet
  · refine ⟨by dsimp only; omega, fun t ht => ?_, ?_⟩
    · rcases List.mem_cons.mp ht with rfl | ht
      · exact hnow
      · exact hs.ended t ht
    · have := hs.counted
      dsimp only
      rw [List.countP_cons]
      split
      · omega
      · omega

/-- No window of the length of the budget has more than `cap`. -/
theorem Spans.bounded {slot : ℕ × ℕ} {times : List ℕ} (h : Spans cap width slot times) :
    times.countP (fun t => slot.1 ≤ t && t ≤ slot.1 + width) ≤ cap := by
  have hmono : times.countP (fun t => slot.1 ≤ t && t ≤ slot.1 + width) ≤
      times.countP (fun t => slot.1 ≤ t) := by
    apply List.countP_mono_left
    intro t _ ht
    exact (Bool.and_eq_true _ _ ▸ ht).1
  have := h.counted
  have := h.capped
  omega

end P2pnas.Lib.Budget
