import Mathlib.Data.List.Sort
import Mathlib.Data.List.Perm.Basic

/-!
# A sliding window of tasks

Tasks start in order, at most `n` run at once, any running one may finish next, and each
that finishes lets the next one start. When nothing runs any more every task has finished
exactly once, so sorting the finished tasks by their number gives the tasks back in order.
-/

namespace P2pnas.Lib.Window

variable {τ : Type}

structure Pool (τ : Type) where
  queue : List τ
  running : List τ
  finished : List τ

/-- Start the next task, when there is one. -/
def Pool.spawn (p : Pool τ) : Pool τ :=
  match p.queue with
  | [] => p
  | t :: rest => { p with queue := rest, running := p.running ++ [t] }

def Pool.spawnN : ℕ → Pool τ → Pool τ
  | 0, p => p
  | n + 1, p => p.spawn.spawnN n

def Pool.start (n : ℕ) (tasks : List τ) : Pool τ :=
  Pool.spawnN n { queue := tasks, running := [], finished := [] }

/-- One running task finishes, in whatever place it is, and the next one starts. -/
inductive Pool.Step : Pool τ → Pool τ → Prop where
  | finish (p : Pool τ) (before after : List τ) (t : τ) (h : p.running = before ++ t :: after) :
      Step p
        (Pool.spawn { p with running := before ++ after, finished := p.finished ++ [t] })

/-- A run to the point where nothing is left running. -/
inductive Pool.Drains : Pool τ → List τ → Prop where
  | done (p : Pool τ) (h : p.running = []) : Drains p p.finished
  | step {p q : Pool τ} {out : List τ} : Step p q → Drains q out → Drains p out

/-- The window is full while tasks wait. -/
def Pool.Full (n : ℕ) (p : Pool τ) : Prop := p.queue = [] ∨ p.running.length = n

theorem spawn_perm (p : Pool τ) : (p.spawn.queue ++ p.spawn.running ++ p.spawn.finished).Perm
    (p.queue ++ p.running ++ p.finished) := by
  unfold Pool.spawn
  split
  · exact .refl _
  · rename_i t rest h
    rw [h]
    simp only
    apply List.Perm.append_right
    rw [← List.append_assoc, List.cons_append]
    exact List.perm_append_singleton t (rest ++ p.running)

theorem spawn_length (p : Pool τ) :
    (p.queue = [] ∧ p.spawn = p) ∨ p.spawn.running.length = p.running.length + 1 := by
  unfold Pool.spawn
  split
  · rename_i h
    exact .inl ⟨h, rfl⟩
  · exact .inr (by simp)

theorem spawnN_perm (n : ℕ) (p : Pool τ) :
    ((Pool.spawnN n p).queue ++ (Pool.spawnN n p).running ++ (Pool.spawnN n p).finished).Perm
      (p.queue ++ p.running ++ p.finished) := by
  induction n generalizing p with
  | zero => exact .refl _
  | succ n ih => exact (ih p.spawn).trans (spawn_perm p)

theorem spawnN_full (n : ℕ) (p : Pool τ) : (Pool.spawnN n p).Full (p.running.length + n) := by
  induction n generalizing p with
  | zero => exact .inr rfl
  | succ n ih =>
    have h := ih p.spawn
    rcases spawn_length p with ⟨hq, hs⟩ | hl
    · left
      have hnil : ∀ (m : ℕ), (Pool.spawnN m p).queue = [] := by
        intro m
        induction m with
        | zero => exact hq
        | succ m ihm => rw [Pool.spawnN, hs]; exact ihm
      exact hnil (n + 1)
    · rw [hl] at h
      have hn : p.running.length + 1 + n = p.running.length + (n + 1) := by omega
      rw [← hn]
      exact h

theorem step_perm {p q : Pool τ} (h : Pool.Step p q) :
    (q.queue ++ q.running ++ q.finished).Perm (p.queue ++ p.running ++ p.finished) := by
  obtain ⟨before, after, t, hrun⟩ := h
  refine (spawn_perm _).trans ?_
  simp only [hrun, List.append_assoc]
  apply List.Perm.append_left
  apply List.Perm.append_left
  rw [← List.append_assoc, List.cons_append]
  exact List.perm_append_singleton t (after ++ p.finished)

theorem step_full {n : ℕ} {p q : Pool τ} (hp : p.Full n) (h : Pool.Step p q) : q.Full n := by
  obtain ⟨before, after, t, hrun⟩ := h
  set r : Pool τ := { p with running := before ++ after, finished := p.finished ++ [t] } with hr
  rcases spawn_length r with ⟨hq, hs⟩ | hl
  · left
    rw [hs]
    exact hq
  · right
    rw [hl]
    rcases hp with hq | hn
    · -- an empty queue cannot have spawned
      unfold Pool.spawn at hl
      have hqr : r.queue = [] := hq
      rw [hqr] at hl
      simp at hl
    · rw [← hn, hrun]
      simp [hr]
      omega

/-- When a window of at least one task has drained, every task has finished once. -/
theorem drains_perm {n : ℕ} (hn : 0 < n) {p : Pool τ} {out : List τ} (hp : p.Full n)
    (h : p.Drains out) : out.Perm (p.queue ++ p.running ++ p.finished) := by
  induction h with
  | done p hrun =>
    have hq : p.queue = [] := by
      rcases hp with hq | hlen
      · exact hq
      · rw [hrun] at hlen
        simp at hlen
        omega
    rw [hq, hrun]
    exact .refl _
  | step hs _ ih => exact (ih (step_full hp hs)).trans (step_perm hs)

theorem start_drains_perm {n : ℕ} (hn : 0 < n) {tasks out : List τ}
    (h : (Pool.start n tasks).Drains out) : out.Perm tasks := by
  have hfull : (Pool.start n tasks).Full n := by
    have hf := spawnN_full n ({ queue := tasks, running := [], finished := [] } : Pool τ)
    simpa [Pool.start] using hf
  have hp := drains_perm hn hfull h
  have hs := spawnN_perm n ({ queue := tasks, running := [], finished := [] } : Pool τ)
  simp only [List.append_nil] at hs
  exact hp.trans hs

/-- Sorting by a number that the tasks have in increasing order restores their order. -/
theorem sort_of_perm {key : τ → ℕ} {tasks out : List τ} (hp : out.Perm tasks)
    (hk : tasks.Pairwise fun a b => key a < key b) :
    out.insertionSort (fun a b => key a ≤ key b) = tasks := by
  have hperm := (List.perm_insertionSort (fun a b => key a ≤ key b) out).trans hp
  have hsorted : (out.insertionSort fun a b => key a ≤ key b).Pairwise fun a b => key a ≤ key b := by
    have ht : IsTrans τ (fun a b => key a ≤ key b) := ⟨fun _ _ _ => Nat.le_trans⟩
    have htot : Std.Total (fun a b : τ => key a ≤ key b) := ⟨fun _ _ => Nat.le_total _ _⟩
    exact List.pairwise_insertionSort _ _
  apply hperm.eq_of_pairwise ?_ hsorted (hk.imp (fun h => Nat.le_of_lt h))
  intro a b ha hb hab hba
  -- distinct tasks have distinct numbers
  have hnd : (tasks.map key).Nodup := by
    rw [List.Nodup, List.pairwise_map]
    exact hk.imp (fun h => Nat.ne_of_lt h)
  exact List.inj_on_of_nodup_map hnd (hperm.subset ha) hb (Nat.le_antisymm hab hba)

end P2pnas.Lib.Window
