import Mathlib.Logic.Basic

/-!
# Programs that ask a state which moves

A program asks one question after another, and each answer may come from another state. What it ends
with is then a fact about all answers that it may get. `Ends` demands of a program that every question
it asks is a proper one and that, under whatever allowed answers, it fails or ends with a value as
wanted; what it was told so far is noted on the way.
-/

namespace P2pnas.Lib.Dialogue

/-- A program that ends with an outcome or asks `q` and goes on with the answer. -/
inductive Prog (Q : Type) (A : Q → Type) (ε α : Type) where
  | done (o : Except ε α)
  | ask (q : Q) (k : A q → Prog Q A ε α)

variable {Q : Type} {A : Q → Type} {ε α β τ : Type}

namespace Prog

def bind : Prog Q A ε α → (α → Prog Q A ε β) → Prog Q A ε β
  | .done (.ok a), g => g a
  | .done (.error e), _ => .done (.error e)
  | .ask q k, g => .ask q fun a => (k a).bind g

instance : Monad (Prog Q A ε) where
  pure a := .done (.ok a)
  bind := Prog.bind

/-- What is proper to ask, what may come back, and what is noted of it. -/
structure Rules (Q : Type) (A : Q → Type) (τ : Type) where
  proper : Q → Prop
  allowed : (q : Q) → A q → Prop
  note : τ → (q : Q) → A q → τ

def Ends (r : Rules Q A τ) (post : τ → α → Prop) : τ → Prog Q A ε α → Prop
  | t, .done (.ok a) => post t a
  | _, .done (.error _) => True
  | t, .ask q k => r.proper q ∧ ∀ a, r.allowed q a → Ends r post (r.note t q a) (k a)

variable {r : Rules Q A τ} {post post' : τ → α → Prop} {t : τ}

theorem Ends.mono {x : Prog Q A ε α} (h : Ends r post t x) (hpost : ∀ t a, post t a → post' t a) :
    Ends r post' t x := by
  induction x generalizing t with
  | done o =>
    cases o with
    | error e => trivial
    | ok a => exact hpost t a h
  | ask q k ih => exact ⟨h.1, fun a ha => ih a (h.2 a ha)⟩

theorem ends_bind {post : τ → β → Prop} {x : Prog Q A ε α} {g : α → Prog Q A ε β}
    (h : Ends r (fun t a => Ends r post t (g a)) t x) : Ends r post t (x >>= g) := by
  change Ends r post t (x.bind g)
  induction x generalizing t with
  | done o =>
    cases o with
    | error e => trivial
    | ok a => exact h
  | ask q k ih => exact ⟨h.1, fun a ha => ih a (h.2 a ha)⟩

theorem ends_pure {a : α} (h : post t a) : Ends r post t (pure a : Prog Q A ε α) := h

end Prog

end P2pnas.Lib.Dialogue
