import Mathlib.Data.List.Basic

/-!
# Procedures whose steps may not work

A procedure changes a state in named steps. The environment settles of every step whether it
works, returns an error or ends the process; a step that did not work may have done a part. How a
procedure ends is told by the steps it makes: by the first of them that does not work.
-/

namespace P2pnas.Lib.Steps

variable {σ ε ι α β : Type}

/-- What becomes of a step, with what it did of its work otherwise (`none`: nothing). -/
inductive Fate where
  | works
  | fails (part : Option ℕ)
  | stops (part : Option ℕ)
  deriving DecidableEq, Repr

/-- The step did not work and left this part. -/
def Fate.Broke (f : Fate) (k : Option ℕ) : Prop := f = .fails k ∨ f = .stops k

instance (f : Fate) (k : Option ℕ) : Decidable (f.Broke k) := inferInstanceAs (Decidable (_ ∨ _))

theorem Fate.Broke.not_works {f : Fate} {k : Option ℕ} (h : f.Broke k) : f ≠ .works := by
  rintro rfl
  rcases h with h | h
  · cases h
  · cases h

theorem Fate.Broke.unique {f : Fate} {k k' : Option ℕ} (h : f.Broke k) (h' : f.Broke k') :
    k = k' := by
  rcases h with rfl | rfl
  · rcases h' with h' | h'
    · exact Fate.fails.inj h'
    · cases h'
  · rcases h' with h' | h'
    · cases h'
    · exact Fate.stops.inj h'

inductive End (ε α : Type) where
  | ok (a : α)
  | err (e : ε)
  | stopped
  deriving DecidableEq, Repr

def Proc (σ ε α : Type) := σ → End ε α × σ

def Proc.bind (p : Proc σ ε α) (f : α → Proc σ ε β) : Proc σ ε β := fun s =>
  match p s with
  | (.ok a, s') => f a s'
  | (.err e, s') => (.err e, s')
  | (.stopped, s') => (.stopped, s')

instance : Monad (Proc σ ε) where
  pure a := fun s => (.ok a, s)
  bind := Proc.bind

def raise (e : ε) : Proc σ ε α := fun s => (.err e, s)

/-- A value read from the state, or an error. -/
def readOr (e : ε) (f : σ → Option α) : Proc σ ε α := fun s =>
  match f s with
  | some a => (.ok a, s)
  | none => (.err e, s)

def modify (f : σ → σ) : Proc σ ε Unit := fun s => (.ok (), f s)

/-- One step. -/
def attempt (fate : ι → Fate) (step : ι) (e : ε) (effect : σ → σ) (part : Option ℕ → σ → σ) :
    Proc σ ε Unit := fun s =>
  match fate step with
  | .works => (.ok (), effect s)
  | .fails k => (.err e, part k s)
  | .stops k => (.stopped, part k s)

/-- What becomes of the first of the steps that does not work. -/
def trouble (fate : ι → Fate) : List ι → Fate
  | [] => .works
  | i :: is =>
    match fate i with
    | .works => trouble fate is
    | .fails k => .fails k
    | .stops k => .stops k

section
variable {fate : ι → Fate}

theorem trouble_append (xs ys : List ι) :
    trouble fate (xs ++ ys) = match trouble fate xs with
      | .works => trouble fate ys
      | .fails k => .fails k
      | .stops k => .stops k := by
  induction xs with
  | nil => rfl
  | cons x xs ih =>
    rw [List.cons_append, trouble, trouble]
    cases fate x with
    | works => exact ih
    | fails k => rfl
    | stops k => rfl

end

/-! ### How a procedure ends -/

/-- It returns a value, which with the state left is in `R`. -/
def Returns (R : α → σ → Prop) (r : End ε α) (s : σ) : Prop := ∃ a, r = .ok a ∧ R a s

def Errs (r : End ε α) (_ : σ) : Prop := ∃ e, r = .err e

/-- From `s` the procedure makes these steps and then ends as `Q` says. -/
def Makes (fate : ι → Fate) (steps : List ι) (p : Proc σ ε α) (s : σ)
    (Q : End ε α → σ → Prop) : Prop :=
  match trouble fate steps with
  | .works => Q (p s).1 (p s).2
  | .fails _ => ∃ e, (p s).1 = .err e
  | .stops _ => (p s).1 = .stopped

section
variable {fate : ι → Fate} {s : σ}

theorem bind_apply (p : Proc σ ε α) (f : α → Proc σ ε β) (s : σ) :
    (p >>= f) s = match p s with
      | (.ok a, s') => f a s'
      | (.err e, s') => (.err e, s')
      | (.stopped, s') => (.stopped, s') := rfl

/-- A sequence goes on from the value of its first part, or ends as that part does. -/
theorem bind_cases (p : Proc σ ε α) (f : α → Proc σ ε β) (s : σ) :
    (∃ a, (p s).1 = .ok a ∧ (p >>= f) s = f a (p s).2) ∨
      (∃ e, (p s).1 = .err e ∧ (p >>= f) s = (.err e, (p s).2)) ∨
        (p s).1 = .stopped ∧ (p >>= f) s = (.stopped, (p s).2) := by
  rw [bind_apply]
  rcases p s with ⟨a | e | _, s'⟩
  · exact .inl ⟨a, rfl, rfl⟩
  · exact .inr (.inl ⟨e, rfl, rfl⟩)
  · exact .inr (.inr ⟨rfl, rfl⟩)

theorem bind_of_ok {p : Proc σ ε α} {a : α} {s' : σ} (f : α → Proc σ ε β) (h : p s = (.ok a, s')) :
    (p >>= f) s = f a s' := by
  rw [bind_apply, h]

/-- A part that does not come through is the end of the whole. -/
theorem bind_of_not_ok {p : Proc σ ε α} (f : α → Proc σ ε β) (h : ∀ a, (p s).1 ≠ .ok a) :
    ((p >>= f) s).2 = (p s).2 ∧ ∀ b, ((p >>= f) s).1 ≠ .ok b := by
  rcases bind_cases p f s with ⟨a, ha, -⟩ | ⟨e, -, heq⟩ | ⟨-, heq⟩
  · exact absurd ha (h a)
  · rw [heq]
    exact ⟨rfl, fun _ => nofun⟩
  · rw [heq]
    exact ⟨rfl, fun _ => nofun⟩

theorem attempt_cases (step : ι) (e : ε) (effect : σ → σ) (part : Option ℕ → σ → σ) (s : σ) :
    (fate step = .works ∧ attempt fate step e effect part s = (.ok (), effect s)) ∨
      ∃ k, (fate step).Broke k ∧ (attempt fate step e effect part s).2 = part k s ∧
        ∀ a, (attempt fate step e effect part s).1 ≠ .ok a := by
  unfold P2pnas.Lib.Steps.attempt
  cases fate step with
  | works => exact .inl ⟨rfl, rfl⟩
  | fails k => exact .inr ⟨k, .inl rfl, rfl, fun _ => nofun⟩
  | stops k => exact .inr ⟨k, .inr rfl, rfl, fun _ => nofun⟩

theorem Makes.pure (a : α) :
    Makes fate [] (Pure.pure a : Proc σ ε α) s (Returns fun b s' => b = a ∧ s' = s) :=
  ⟨a, rfl, rfl, rfl⟩

theorem Makes.modify (f : σ → σ) :
    Makes fate [] (modify f : Proc σ ε Unit) s (Returns fun _ s' => s' = f s) :=
  ⟨(), rfl, rfl⟩

theorem Makes.readOr {f : σ → Option α} {a : α} (e : ε) (h : f s = some a) :
    Makes fate [] (readOr e f) s (Returns fun b s' => b = a ∧ s' = s) := by
  refine ⟨a, ?_, rfl, ?_⟩
  · simp only [P2pnas.Lib.Steps.readOr, h]
  · simp only [P2pnas.Lib.Steps.readOr, h]

theorem Makes.attempt (step : ι) (e : ε) (effect : σ → σ) (part : Option ℕ → σ → σ) :
    Makes fate [step] (attempt fate step e effect part) s (Returns fun _ s' => s' = effect s) := by
  unfold Makes P2pnas.Lib.Steps.attempt
  rw [trouble]
  cases fate step with
  | works => exact ⟨(), rfl, rfl⟩
  | fails k => exact ⟨e, rfl⟩
  | stops k => rfl

theorem Makes.mono {xs : List ι} {p : Proc σ ε α} {Q Q' : End ε α → σ → Prop}
    (h : Makes fate xs p s Q) (himp : ∀ r s', Q r s' → Q' r s') : Makes fate xs p s Q' := by
  unfold Makes at h ⊢
  cases hx : trouble fate xs with
  | works => rw [hx] at h; exact himp _ _ h
  | fails k => rw [hx] at h; exact h
  | stops k => rw [hx] at h; exact h

theorem Makes.bind {xs ys : List ι} {p : Proc σ ε α} {f : α → Proc σ ε β} {R : α → σ → Prop}
    {Q : End ε β → σ → Prop} (hp : Makes fate xs p s (Returns R))
    (hf : ∀ a s', R a s' → Makes fate ys (f a) s' Q) : Makes fate (xs ++ ys) (p >>= f) s Q := by
  unfold Makes at hp ⊢
  rw [trouble_append, bind_apply]
  rcases hr : p s with ⟨r, s'⟩
  rw [hr] at hp
  cases hx : trouble fate xs with
  | works =>
    rw [hx] at hp
    obtain ⟨a, rfl, ha⟩ := hp
    exact hf a s' ha
  | fails k =>
    rw [hx] at hp
    obtain ⟨e, rfl⟩ := hp
    exact ⟨e, rfl⟩
  | stops k =>
    rw [hx] at hp
    cases hp
    rfl

/-- What follows an error is not reached. -/
theorem Makes.bind_errs {xs : List ι} {p : Proc σ ε α} (hp : Makes fate xs p s Errs)
    (f : α → Proc σ ε β) : Makes fate xs (p >>= f) s Errs := by
  unfold Makes at hp ⊢
  rw [bind_apply]
  rcases hr : p s with ⟨r, s'⟩
  rw [hr] at hp
  cases hx : trouble fate xs with
  | works =>
    rw [hx] at hp
    obtain ⟨e, rfl⟩ := hp
    exact ⟨e, rfl⟩
  | fails k =>
    rw [hx] at hp
    obtain ⟨e, rfl⟩ := hp
    exact ⟨e, rfl⟩
  | stops k =>
    rw [hx] at hp
    cases hp
    rfl

/-! ### What a procedure keeps -/

/-- However it ends; what it returns is in `R`. -/
def Keeps (I : σ → Prop) (R : α → Prop) (p : Proc σ ε α) : Prop :=
  ∀ s, I s → I (p s).2 ∧ ∀ a, (p s).1 = .ok a → R a

variable {I : σ → Prop} {R : α → Prop}

theorem Keeps.pure {a : α} (ha : R a) : Keeps I R (Pure.pure a : Proc σ ε α) :=
  fun _ h => ⟨h, fun _ hb => End.ok.inj hb ▸ ha⟩

theorem Keeps.readOr {f : σ → Option α} (e : ε) (hf : ∀ s a, I s → f s = some a → R a) :
    Keeps I R (readOr e f) := by
  intro s h
  unfold P2pnas.Lib.Steps.readOr
  cases hs : f s with
  | some a => exact ⟨h, fun b hb => End.ok.inj hb ▸ hf s a h hs⟩
  | none => exact ⟨h, fun _ => nofun⟩

theorem Keeps.modify {f : σ → σ} (hf : ∀ s, I s → I (f s)) :
    Keeps I (fun _ => True) (modify f : Proc σ ε Unit) :=
  fun s h => ⟨hf s h, fun _ _ => trivial⟩

theorem Keeps.attempt {step : ι} {e : ε} {effect : σ → σ} {part : Option ℕ → σ → σ}
    (heffect : ∀ s, I s → I (effect s)) (hpart : ∀ k s, I s → I (part k s)) :
    Keeps I (fun _ => True) (attempt fate step e effect part) := by
  intro s h
  unfold P2pnas.Lib.Steps.attempt
  cases fate step with
  | works => exact ⟨heffect s h, fun _ _ => trivial⟩
  | fails k => exact ⟨hpart k s h, fun _ _ => trivial⟩
  | stops k => exact ⟨hpart k s h, fun _ _ => trivial⟩

theorem Keeps.bind {Q : β → Prop} {p : Proc σ ε α} {f : α → Proc σ ε β} (hp : Keeps I R p)
    (hf : ∀ a, R a → Keeps I Q (f a)) : Keeps I Q (p >>= f) := by
  intro s h
  obtain ⟨hI, hR⟩ := hp s h
  rcases bind_cases p f s with ⟨a, ha, heq⟩ | ⟨e, -, heq⟩ | ⟨-, heq⟩
  · rw [heq]
    exact hf a (hR a ha) _ hI
  · rw [heq]
    exact ⟨hI, fun _ => nofun⟩
  · rw [heq]
    exact ⟨hI, fun _ => nofun⟩

end

end P2pnas.Lib.Steps
