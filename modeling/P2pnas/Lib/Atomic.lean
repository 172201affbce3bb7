import P2pnas.Lib.Runs

/-!
# Atomic calls and their histories

A call is atomic for an abstract effect when it has the whole effect or none, and has it when it
is acknowledged. A run of atomic calls is a history of the abstract machine in which some of the
unacknowledged calls did not happen.
-/

namespace P2pnas.Lib.Atomic
open P2pnas.Lib.Runs

variable {σ α χ : Type}

/-- From `x` to `z` by the listed calls, each with its acknowledgement: an acknowledged call
happened, another may have. -/
inductive History (spec : α → χ → χ → Prop) : χ → List (α × Bool) → χ → Prop where
  | nil (x : χ) : History spec x [] x
  | happened {x y z : χ} {a : α} {as : List (α × Bool)} (acked : Bool) (h : spec a x y)
      (rest : History spec y as z) : History spec x ((a, acked) :: as) z
  | dropped {x z : χ} {a : α} {as : List (α × Bool)} (rest : History spec x as z) :
      History spec x ((a, false) :: as) z

/-! ### Runs of atomic calls -/

section
variable (step : σ → α → σ) (acked : σ → α → Bool)

/-- The calls of a run with their acknowledgements. -/
def answers : σ → List α → List (α × Bool)
  | _, [] => []
  | s, a :: as => (a, acked s a) :: answers (step s a) as

/-- The call has its whole effect or none, and its effect when it is acknowledged. -/
def AllOrNothing (abs : σ → χ) (spec : α → χ → χ → Prop) (s : σ) (a : α) : Prop :=
  spec a (abs s) (abs (step s a)) ∨ acked s a = false ∧ abs (step s a) = abs s

variable {step acked} {abs : σ → χ} {spec : α → χ → χ → Prop}

theorem run_history {I : σ → Prop} (hkeep : ∀ s a, I s → I (step s a))
    (hatomic : ∀ s a, I s → AllOrNothing step acked abs spec s a) {s : σ} (hs : I s) (as : List α) :
    History spec (abs s) (answers step acked s as) (abs (run step s as)) := by
  induction as generalizing s with
  | nil => exact .nil _
  | cons a as ih =>
    have hrest := ih (hkeep s a hs)
    rcases hatomic s a hs with h | ⟨hno, h⟩
    · exact .happened _ h hrest
    · rw [h] at hrest
      rw [answers, hno]
      exact .dropped hrest

end

end P2pnas.Lib.Atomic
