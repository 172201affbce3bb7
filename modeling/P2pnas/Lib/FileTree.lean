import Mathlib.Data.List.Infix

/-!
# File trees

A tree of directories and files, a path being the names from the top. Directories are made along a
path, files written, read and removed below existing directories. Each operation leaves every path
alone that it does not name.
-/

namespace P2pnas.Lib.FileTree

inductive Node (β : Type) where
  | dir
  | file (content : β)
  deriving DecidableEq, Repr

/-- What stands at each path. -/
def Tree (ν β : Type) := List ν → Option (Node β)

/-- Why an operation is refused: nothing is there, or something else stands in its way. -/
inductive Refusal where
  | notFound
  | other
  deriving DecidableEq, Repr

variable {ν β : Type}

/-- A file above the path makes it no path at all. -/
def blocked (t : Tree ν β) (p : List ν) : Bool := (List.range p.length).any fun i =>
  match t (p.take i) with
  | some (.file _) => true
  | _ => false

def readFile (t : Tree ν β) (p : List ν) : Except Refusal β :=
  match t p with
  | some (.file content) => .ok content
  | some .dir => .error .other
  | none => .error (if blocked t p then .other else .notFound)

/-- Everything that is there is in a directory. -/
structure Rooted (t : Tree ν β) : Prop where
  top : t [] = some .dir
  parent : ∀ p n, t (p ++ [n]) ≠ none → t p = some .dir

section
variable {t : Tree ν β} {p : List ν}

/-- No file is above a path whose ancestors are directories or missing. -/
theorem blocked_eq_false (h : ∀ q r, q ++ r = p → r ≠ [] → ∀ b, t q ≠ some (.file b)) : blocked t p = false := by
  rw [blocked, List.any_eq_false]
  intro i hi hfile
  rw [List.mem_range] at hi
  have hrest : p.drop i ≠ [] := by
    rw [ne_eq, List.drop_eq_nil_iff]
    omega
  have hno := h (p.take i) (p.drop i) (List.take_append_drop i p) hrest
  cases hq : t (p.take i) with
  | none => simp [hq] at hfile
  | some node =>
    cases node with
    | dir => simp [hq] at hfile
    | file b => exact hno b hq

end

/-! ### Changes -/

variable [DecidableEq ν]

def Tree.set (t : Tree ν β) (p : List ν) (n : Option (Node β)) : Tree ν β := fun q => if q = p then n else t q

@[simp] theorem Tree.set_same (t : Tree ν β) (p : List ν) (n : Option (Node β)) : t.set p n p = n := if_pos rfl

theorem Tree.set_other (t : Tree ν β) {p q : List ν} (n : Option (Node β)) (h : q ≠ p) : t.set p n q = t q :=
  if_neg h

/-- `create_dir_all` of the names below `top`: whether it came through, and the tree it leaves. -/
def makeDirs (t : Tree ν β) (top : List ν) : List ν → Bool × Tree ν β
  | [] => (true, t)
  | n :: rest =>
    match t (top ++ [n]) with
    | none => makeDirs (t.set (top ++ [n]) (some .dir)) (top ++ [n]) rest
    | some .dir => makeDirs t (top ++ [n]) rest
    | some (.file _) => (false, t)

/-- A file goes into an existing directory, over no directory. -/
def writeFile (t : Tree ν β) (p : List ν) (content : β) : Option (Tree ν β) :=
  match t p.dropLast, t p with
  | some .dir, some .dir => none
  | some .dir, _ => some (t.set p (some (.file content)))
  | _, _ => none

def removeFile (t : Tree ν β) (p : List ν) : Except Refusal (Tree ν β) :=
  match t p with
  | some (.file _) => .ok (t.set p none)
  | some .dir => .error .other
  | none => .error (if blocked t p then .other else .notFound)

section
variable {t : Tree ν β}

/-- Only missing paths along the way become directories. -/
theorem makeDirs_at (top rest : List ν) (q : List ν) : (makeDirs t top rest).2 q = t q ∨
    t q = none ∧ (makeDirs t top rest).2 q = some .dir ∧ ∃ r s, r ++ s = rest ∧ r ≠ [] ∧ q = top ++ r := by
  induction rest generalizing t top with
  | nil => exact .inl rfl
  | cons n rest ih =>
    have hdeep : (∃ r s, r ++ s = rest ∧ r ≠ [] ∧ q = top ++ [n] ++ r) →
        ∃ r s, r ++ s = n :: rest ∧ r ≠ [] ∧ q = top ++ r := by
      rintro ⟨r, s, hrs, -, hq⟩
      exact ⟨n :: r, s, by rw [List.cons_append, hrs], List.cons_ne_nil _ _, by simp [hq]⟩
    cases hn : t (top ++ [n]) with
    | none =>
      simp only [makeDirs, hn]
      rcases @ih (t.set (top ++ [n]) (some .dir)) (top ++ [n]) with h | ⟨h₀, h₁, h₂⟩
      · by_cases hq : q = top ++ [n]
        · subst hq
          rw [Tree.set_same] at h
          exact .inr ⟨hn, h, [n], rest, rfl, List.cons_ne_nil _ _, rfl⟩
        · rw [Tree.set_other t _ hq] at h
          exact .inl h
      · have hq : q ≠ top ++ [n] := by
          rintro rfl
          rw [Tree.set_same] at h₀
          cases h₀
        rw [Tree.set_other t _ hq] at h₀
        exact .inr ⟨h₀, h₁, hdeep h₂⟩
    | some node =>
      cases node with
      | dir =>
        simp only [makeDirs, hn]
        rcases @ih t (top ++ [n]) with h | ⟨h₀, h₁, h₂⟩
        · exact .inl h
        · exact .inr ⟨h₀, h₁, hdeep h₂⟩
      | file b =>
        simp only [makeDirs, hn]
        exact .inl trivial

theorem makeDirs_dir {top rest : List ν} (htop : t top = some .dir) (hok : (makeDirs t top rest).1 = true) :
    (makeDirs t top rest).2 (top ++ rest) = some .dir := by
  induction rest generalizing t top with
  | nil => simpa [makeDirs] using htop
  | cons n rest ih =>
    rw [List.append_cons]
    cases hn : t (top ++ [n]) with
    | none =>
      simp only [makeDirs, hn] at hok ⊢
      exact ih (Tree.set_same t _ _) hok
    | some node =>
      cases node with
      | dir =>
        simp only [makeDirs, hn] at hok ⊢
        exact ih hn hok
      | file b => simp [makeDirs, hn] at hok

/-- Where no file is in the way all directories are made. -/
theorem makeDirs_ok {top rest : List ν}
    (h : ∀ r s, r ++ s = rest → r ≠ [] → ∀ b, t (top ++ r) ≠ some (.file b)) :
    (makeDirs t top rest).1 = true := by
  induction rest generalizing t top with
  | nil => rfl
  | cons n rest ih =>
    have hdown : ∀ r s, r ++ s = rest → ∀ b, t (top ++ [n] ++ r) ≠ some (.file b) := by
      intro r s hrs b
      rw [List.append_assoc]
      exact h (n :: r) s (by rw [List.cons_append, hrs]) (List.cons_ne_nil n r) b
    cases hn : t (top ++ [n]) with
    | none =>
      simp only [makeDirs, hn]
      refine ih fun r s hrs hr b => ?_
      rw [Tree.set_other t _ fun heq => hr (by simpa using heq)]
      exact hdown r s hrs b
    | some node =>
      cases node with
      | dir =>
        simp only [makeDirs, hn]
        exact ih fun r s hrs _ => hdown r s hrs
      | file b => exact absurd hn (h [n] rest rfl (List.cons_ne_nil n []) b)

/-! ### The tree stays a tree -/

theorem Rooted.set {p : List ν} {n : ν} {node : Node β} (h : Rooted t) (hdir : t p = some .dir)
    (hleaf : node = .dir ∨ t (p ++ [n]) ≠ some .dir) : Rooted (t.set (p ++ [n]) (some node)) where
  top := by rw [Tree.set_other t _ (by simp), h.top]
  parent q m hq := by
    have hq' : t q = some .dir := by
      by_cases hqm : q ++ [m] = p ++ [n]
      · have hqp := (List.append_inj' hqm rfl).1
        rw [hqp, hdir]
      · rw [Tree.set_other t _ hqm] at hq
        exact h.parent q m hq
    by_cases hqp : q = p ++ [n]
    · subst hqp
      rw [Tree.set_same]
      rcases hleaf with rfl | hno
      · rfl
      · exact absurd hq' hno
    · rw [Tree.set_other t _ hqp, hq']

theorem Rooted.makeDirs {top rest : List ν} (h : Rooted t) (htop : t top = some .dir) :
    Rooted (makeDirs t top rest).2 := by
  induction rest generalizing t top with
  | nil => exact h
  | cons n rest ih =>
    cases hn : t (top ++ [n]) with
    | none =>
      simp only [FileTree.makeDirs, hn]
      exact ih (h.set htop (.inl rfl)) (Tree.set_same t _ _)
    | some node =>
      cases node with
      | dir =>
        simp only [FileTree.makeDirs, hn]
        exact ih h hn
      | file b =>
        simp only [FileTree.makeDirs, hn]
        exact h

theorem Rooted.set_none {p : List ν} {b : β} (h : Rooted t) (hfile : t p = some (.file b)) :
    Rooted (t.set p none) where
  top := by
    have hp : [] ≠ p := by
      rintro rfl
      rw [h.top] at hfile
      cases hfile
    rw [Tree.set_other t _ hp, h.top]
  parent q m hq := by
    by_cases hqm : q ++ [m] = p
    · rw [hqm, Tree.set_same] at hq
      exact absurd rfl hq
    · rw [Tree.set_other t _ hqm] at hq
      have hdir := h.parent q m hq
      have hqp : q ≠ p := by
        rintro rfl
        rw [hdir] at hfile
        cases hfile
      rw [Tree.set_other t _ hqp, hdir]

end

end P2pnas.Lib.FileTree
