import Mathlib.Data.List.Basic
import Mathlib.Tactic.Linarith

/-!
# Programs that ask for memory

A program is followed with the sizes, in bytes, that it asks the allocator for. A request past the
largest size that an allocation can have ends it in the way `full`. A vector grows as it is pushed to,
by doubling; one of known capacity asks once.

What a bound on the requests needs is a rule for each construct: a program that stays within the bound
returns what the program without the requests returns.
-/

namespace P2pnas.Lib.Requests

variable {σ α β : Type}

structure Traced (σ α : Type) where
  out : Except σ α
  requests : List ℕ

instance : Monad (Traced σ) where
  pure a := ⟨.ok a, []⟩
  bind x f :=
    match x.out with
    | .ok a => ⟨(f a).out, x.requests ++ (f a).requests⟩
    | .error e => ⟨.error e, x.requests⟩

/-- A step that asks for nothing. -/
def lift (o : Except σ α) : Traced σ α := ⟨o, []⟩

/-- `isize::MAX`. -/
def LARGEST : ℕ := 2 ^ 63 - 1

/-- One allocation of `n` bytes. -/
def request (full : σ) (n : ℕ) : Traced σ Unit :=
  ⟨if n ≤ LARGEST then .ok () else .error full, [n]⟩

/-- The capacity of a vector that `n` pushes filled from empty. -/
def pushedCap : ℕ → ℕ
  | 0 => 0
  | n + 1 => if n < pushedCap n then pushedCap n else max (2 * pushedCap n) 4

/-- `push` on such a vector of `len` elements of `size` bytes. -/
def push (full : σ) (size len : ℕ) : Traced σ Unit :=
  if len < pushedCap len then pure () else request full (size * max (2 * pushedCap len) 4)

/-- `n` pushes on an empty vector. -/
def pushes (full : σ) (size : ℕ) : ℕ → Traced σ Unit
  | 0 => pure ()
  | n + 1 => do
    pushes full size n
    push full size n

/-- `extend_from_slice` of one string after the other, by their lengths, on a vector of `len` bytes
that has room for `cap`. -/
def extendAll (full : σ) (len cap : ℕ) : List ℕ → Traced σ Unit
  | [] => pure ()
  | n :: ns =>
    if len + n ≤ cap then extendAll full (len + n) cap ns
    else do
      let grown := max (2 * cap) (max (len + n) 8)
      request full grown
      extendAll full (len + n) grown ns

/-- The program does what `o` does, does not end in the way `bad`, and asks for at most `bound`. -/
structure Stays (bad : σ) (bound : ℕ) (x : Traced σ α) (o : Except σ α) : Prop where
  out : x.out = o
  fine : o ≠ .error bad
  small : ∀ n ∈ x.requests, n ≤ bound

section
variable {bad full : σ} {bound : ℕ}

theorem Stays.pure (a : α) : Stays bad bound (pure a) (.ok a) := ⟨rfl, nofun, nofun⟩

theorem Stays.lift {o : Except σ α} (h : o ≠ .error bad) : Stays bad bound (lift o) o := ⟨rfl, h, nofun⟩

theorem Stays.bind {x : Traced σ α} {o : Except σ α} {f : α → Traced σ β} {g : α → Except σ β}
    (h : Stays bad bound x o) (hf : ∀ a, o = .ok a → Stays bad bound (f a) (g a)) :
    Stays bad bound (x >>= f) (o >>= g) := by
  obtain ⟨out, requests⟩ := x
  obtain ⟨rfl, hfine, hsmall⟩ := h
  rcases out with e | a
  · exact ⟨rfl, fun h => hfine (congrArg Except.error (Except.error.inj h)), hsmall⟩
  · obtain ⟨hout, hfine', hsmall'⟩ := hf a rfl
    refine ⟨hout, hfine', fun n hn => ?_⟩
    rcases List.mem_append.mp hn with hn | hn
    · exact hsmall n hn
    · exact hsmall' n hn

/-- A step whose value nothing reads. -/
theorem Stays.seq {x : Traced σ Unit} {f : Unit → Traced σ β} {o : Except σ β} (h : Stays bad bound x (.ok ()))
    (hf : Stays bad bound (f ()) o) : Stays bad bound (x >>= f) o :=
  Stays.bind (g := fun _ => o) h fun _ _ => hf

theorem request_stays {n : ℕ} (h : n ≤ bound) (hl : n ≤ LARGEST) : Stays bad bound (request full n) (.ok ()) :=
  ⟨if_pos hl, nofun, fun m hm => by rwa [List.mem_singleton.mp hm]⟩

theorem pushedCap_le_of_full {n : ℕ} (h : ¬n < pushedCap n) : pushedCap n ≤ n := Nat.not_lt.mp h

theorem push_stays {size len : ℕ} (h : size * max (2 * len) 4 ≤ bound) (hl : size * max (2 * len) 4 ≤ LARGEST) :
    Stays bad bound (push full size len) (.ok ()) := by
  unfold push
  split
  · exact Stays.pure ()
  · next hfull =>
    have hcap := pushedCap_le_of_full hfull
    have hle : size * max (2 * pushedCap len) 4 ≤ size * max (2 * len) 4 :=
      Nat.mul_le_mul_left _ (by omega)
    exact request_stays (hle.trans h) (hle.trans hl)

theorem pushes_stays {size n : ℕ} (h : size * max (2 * n) 4 ≤ bound) (hl : size * max (2 * n) 4 ≤ LARGEST) :
    Stays bad bound (pushes full size n) (.ok ()) := by
  induction n with
  | zero => exact Stays.pure ()
  | succ n ih =>
    have hle : size * max (2 * n) 4 ≤ size * max (2 * (n + 1)) 4 := Nat.mul_le_mul_left _ (by omega)
    exact Stays.seq (ih (hle.trans h) (hle.trans hl)) (push_stays (hle.trans h) (hle.trans hl))

/-- What a vector grows to is at most twice what is put into it. -/
theorem extendAll_stays (total : ℕ) (h : max (2 * total) 8 ≤ bound) (hl : max (2 * total) 8 ≤ LARGEST)
    (ns : List ℕ) {len cap : ℕ} (htotal : len + ns.sum ≤ total) :
    Stays bad bound (extendAll full len cap ns) (.ok ()) := by
  induction ns generalizing len cap with
  | nil => exact Stays.pure ()
  | cons n ns ih =>
    rw [List.sum_cons] at htotal
    rw [extendAll]
    split
    · next hroom => exact ih (by omega)
    · next hgrow =>
      have hsize : max (2 * cap) (max (len + n) 8) ≤ max (2 * total) 8 := by omega
      exact Stays.seq (request_stays (hsize.trans h) (hsize.trans hl)) (ih (by omega))

/-! ### Requests that are made -/

theorem mem_requests_bind {x : Traced σ α} {f : α → Traced σ β} {n : ℕ} (h : n ∈ x.requests) :
    n ∈ (x >>= f).requests := by
  obtain ⟨out, requests⟩ := x
  rcases out with e | a
  · exact h
  · exact List.mem_append_left _ h

theorem mem_requests_then {x : Traced σ α} {f : α → Traced σ β} {a : α} {n : ℕ} (hx : x.out = .ok a)
    (h : n ∈ (f a).requests) : n ∈ (x >>= f).requests := by
  obtain ⟨out, requests⟩ := x
  cases hx
  exact List.mem_append_right _ h

theorem out_bind {x : Traced σ α} {f : α → Traced σ β} {a : α} (hx : x.out = .ok a) :
    (x >>= f).out = (f a).out := by
  obtain ⟨out, requests⟩ := x
  cases hx
  rfl

theorem out_bind_error {x : Traced σ α} {f : α → Traced σ β} {e : σ} (hx : x.out = .error e) :
    (x >>= f).out = .error e := by
  obtain ⟨out, requests⟩ := x
  cases hx
  rfl

end

end P2pnas.Lib.Requests
