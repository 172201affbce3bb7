import Mathlib.Data.List.Basic

/-!
# Runs of a transition system

A run is a finite sequence of labelled steps. What holds at the start and is kept by every
step that meets a side condition holds after every run all of whose steps meet it; where a
step keeps it only under the condition, and what is lost stays lost, the converse holds too.
The side condition is checked in the state before the step.
-/

namespace P2pnas.Lib.Runs

variable {σ α : Type}

/-- The state after a list of steps. -/
def run (step : σ → α → σ) : σ → List α → σ := List.foldl step

/-- Every step of the run meets the condition in the state before it. -/
def AllMeet (step : σ → α → σ) (ok : σ → α → Prop) : σ → List α → Prop
  | _, [] => True
  | s, a :: as => ok s a ∧ AllMeet step ok (step s a) as

instance AllMeet.decidable (step : σ → α → σ) (ok : σ → α → Prop) [∀ s a, Decidable (ok s a)] :
    ∀ s as, Decidable (AllMeet step ok s as)
  | _, [] => .isTrue trivial
  | s, a :: as =>
    have := AllMeet.decidable step ok (step s a) as
    inferInstanceAs (Decidable (ok s a ∧ AllMeet step ok (step s a) as))

/-- A condition on the labels alone joins the condition on the steps. -/
theorem AllMeet.and_forall {step : σ → α → σ} {ok : σ → α → Prop} {Q : α → Prop} {s : σ}
    {as : List α} (h : AllMeet step ok s as) (hQ : ∀ a ∈ as, Q a) :
    AllMeet step (fun s a => ok s a ∧ Q a) s as := by
  induction as generalizing s with
  | nil => trivial
  | cons a as ih =>
    exact ⟨⟨h.1, hQ a (List.mem_cons_self ..)⟩, ih h.2 fun b hb => hQ b (List.mem_cons_of_mem _ hb)⟩

/-- Two conditions met by every step are met together. -/
theorem AllMeet.and {step : σ → α → σ} {ok ok' : σ → α → Prop} {s : σ} {as : List α}
    (h : AllMeet step ok s as) (h' : AllMeet step ok' s as) :
    AllMeet step (fun s a => ok s a ∧ ok' s a) s as := by
  induction as generalizing s with
  | nil => trivial
  | cons a as ih => exact ⟨⟨h.1, h'.1⟩, ih h.2 h'.2⟩

theorem AllMeet.mono {step : σ → α → σ} {ok ok' : σ → α → Prop} {s : σ} {as : List α}
    (h : AllMeet step ok s as) (himp : ∀ s a, ok s a → ok' s a) : AllMeet step ok' s as := by
  induction as generalizing s with
  | nil => trivial
  | cons a as ih => exact ⟨himp s a h.1, ih h.2⟩

theorem allMeet_of_forall {step : σ → α → σ} {Q : α → Prop} {s : σ} {as : List α}
    (hQ : ∀ a ∈ as, Q a) : AllMeet step (fun _ a => Q a) s as := by
  induction as generalizing s with
  | nil => trivial
  | cons a as ih => exact ⟨hQ a (List.mem_cons_self ..), ih fun b hb => hQ b (List.mem_cons_of_mem _ hb)⟩

theorem allMeet_prefix {step : σ → α → σ} {ok : σ → α → Prop} {s : σ} {before after : List α}
    (h : AllMeet step ok s (before ++ after)) : AllMeet step ok s before := by
  induction before generalizing s with
  | nil => trivial
  | cons b before ih => exact ⟨h.1, ih h.2⟩

/-- The step in the middle of a run meets the condition where it is taken. -/
theorem allMeet_middle {step : σ → α → σ} {ok : σ → α → Prop} {s : σ} {before after : List α} {a : α}
    (h : AllMeet step ok s (before ++ a :: after)) : ok (run step s before) a := by
  induction before generalizing s with
  | nil => exact h.1
  | cons b before ih => exact ih h.2

theorem run_invariant {step : σ → α → σ} {ok : σ → α → Prop} {I : σ → Prop}
    (hstep : ∀ s a, I s → ok s a → I (step s a)) {s : σ} (h₀ : I s) {as : List α}
    (h : AllMeet step ok s as) : I (run step s as) := by
  induction as generalizing s with
  | nil => exact h₀
  | cons a as ih => exact ih (hstep s a h₀ h.1) h.2

theorem run_iff {step : σ → α → σ} {ok : σ → α → Prop} {I : σ → Prop}
    (hstep : ∀ s a, I s → (I (step s a) ↔ ok s a)) (hback : ∀ s a, I (step s a) → I s) {s : σ}
    (h₀ : I s) (as : List α) : I (run step s as) ↔ AllMeet step ok s as := by
  have hlost : ∀ (as : List α) (s : σ), I (run step s as) → I s := by
    intro as
    induction as with
    | nil => exact fun s h => h
    | cons a as ih => exact fun s h => hback s a (ih _ h)
  induction as generalizing s with
  | nil => exact ⟨fun _ => trivial, fun _ => h₀⟩
  | cons a as ih =>
    constructor
    · intro h
      have h₁ : I (step s a) := hlost as _ h
      exact ⟨(hstep s a h₀).mp h₁, (ih h₁).mp h⟩
    · rintro ⟨hok, hrest⟩
      exact (ih ((hstep s a h₀).mpr hok)).mpr hrest

/-- What every step keeps exactly under the condition holds in all states of a run exactly when
it holds in the first and all steps meet the condition. -/
theorem run_prefix_iff {step : σ → α → σ} {ok : σ → α → Prop} {I : σ → Prop}
    (hstep : ∀ s a, I s → (I (step s a) ↔ ok s a)) (s : σ) (as : List α) :
    (∀ before, before <+: as → I (run step s before)) ↔ I s ∧ AllMeet step ok s as := by
  induction as generalizing s with
  | nil =>
    constructor
    · intro h
      exact ⟨h [] List.nil_prefix, trivial⟩
    · rintro ⟨h, -⟩ before hb
      rw [List.prefix_nil.mp hb]
      exact h
  | cons a as ih =>
    constructor
    · intro h
      have h₀ : I s := h [] List.nil_prefix
      have hrest := (ih (step s a)).mp fun before hb => h (a :: before) (List.cons_prefix_cons.mpr ⟨rfl, hb⟩)
      exact ⟨h₀, (hstep s a h₀).mp hrest.1, hrest.2⟩
    · rintro ⟨h₀, hok, hrest⟩ before hb
      cases before with
      | nil => exact h₀
      | cons b before =>
        obtain ⟨rfl, hb'⟩ := List.cons_prefix_cons.mp hb
        exact (ih (step s b)).mpr ⟨(hstep s b h₀).mpr hok, hrest⟩ before hb'

end P2pnas.Lib.Runs
