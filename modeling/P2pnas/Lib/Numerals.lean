import Mathlib.Data.Nat.Notation
import P2pnas.Lib.Strings

/-!
# Numerals in front of a text

A reader takes the longest run of digits of a radix, within a bound on their number and on the
value, and gives back what follows. What `Nat.toDigits` writes is read back as the number, provided
that no further digit follows.
-/

namespace P2pnas.Lib.Numerals
open P2pnas.Lib.Strings

/-- `c.to_digit(radix)`, up to radix 16. -/
def toDigit (radix : ℕ) (c : Char) : Option ℕ := (hexValue c).filter (· < radix)

/-- The digits at the front of a text, and what follows them. -/
def spanDigits (radix : ℕ) : Text → List ℕ × Text
  | [] => ([], [])
  | c :: s =>
    match toDigit radix c with
    | some d => (d :: (spanDigits radix s).1, (spanDigits radix s).2)
    | none => ([], c :: s)

def value (radix : ℕ) (ds : List ℕ) : ℕ := ds.foldl (fun n d => n * radix + d) 0

/-- A number below `bound`, of at most `maxDigits` digits where that is given. -/
def readNumber (radix : ℕ) (maxDigits : Option ℕ) (allowZeroPrefix : Bool) (bound : ℕ) (s : Text) :
    Option (ℕ × Text) :=
  let ds := (spanDigits radix s).1
  if ds = [] then none
  else if maxDigits.any (· < ds.length) then none
  else if !allowZeroPrefix && ds.head? = some 0 && 1 < ds.length then none
  else if value radix ds < bound then some (value radix ds, (spanDigits radix s).2)
  else none

/-- No digit stands at the front. -/
def NoDigit (radix : ℕ) (s : Text) : Prop := ∀ c ∈ s.head?, toDigit radix c = none

variable {radix : ℕ}

theorem toDigit_digitChar {d : ℕ} (hr : radix ≤ 16) (hd : d < radix) :
    toDigit radix d.digitChar = some d := by
  have key : ∀ e < 16, hexValue e.digitChar = some e := by decide
  rw [toDigit, key d (by omega), Option.filter_some, if_pos (decide_eq_true hd)]

theorem value_concat (ds : List ℕ) (d : ℕ) : value radix (ds ++ [d]) = value radix ds * radix + d := by
  rw [value, List.foldl_append]
  rfl

/-- What `Nat.toDigits` writes: digits of the radix with the value, and a zero at the front only for
zero. -/
theorem toDigits_eq_map (hr : 1 < radix) (n : ℕ) : ∃ ds : List ℕ, Nat.toDigits radix n = ds.map Nat.digitChar ∧
    (∀ d ∈ ds, d < radix) ∧ value radix ds = n ∧ (ds.head? = some 0 → ds.length = 1) := by
  induction n using Nat.base_induction radix hr with
  | single m hm =>
    refine ⟨[m], ?_, ?_, ?_, fun _ => rfl⟩
    · rw [Nat.toDigits_of_lt_base hm]
      rfl
    · intro d hd
      rw [List.mem_singleton.mp hd]
      exact hm
    · show 0 * radix + m = m
      rw [Nat.zero_mul, Nat.zero_add]
  | digit m k hk hm ih =>
    obtain ⟨ds, htext, hlt, hval, hzero⟩ := ih
    have hne : ds ≠ [] := by
      rintro rfl
      exact Nat.toDigits_ne_nil htext
    refine ⟨ds ++ [k], ?_, ?_, ?_, ?_⟩
    · rw [← Nat.toDigits_append_toDigits hr hm hk, htext, Nat.toDigits_of_lt_base hk, List.map_append]
      rfl
    · intro d hd
      rcases List.mem_append.mp hd with hd | hd
      · exact hlt d hd
      · rw [List.mem_singleton.mp hd]
        exact hk
    · rw [value_concat, hval, Nat.mul_comm]
    · intro h
      rw [List.head?_append_of_ne_nil ds hne] at h
      -- a single zero would be the digits of zero
      obtain ⟨d, rfl⟩ := List.length_eq_one_iff.mp (hzero h)
      have hm0 : 0 = m := by
        rw [← hval, Option.some.inj h]
        exact (Nat.zero_mul radix).symm
      omega

theorem spanDigits_map {ds : List ℕ} {rest : Text} (hr : radix ≤ 16) (hds : ∀ d ∈ ds, d < radix)
    (hrest : NoDigit radix rest) : spanDigits radix (ds.map Nat.digitChar ++ rest) = (ds, rest) := by
  induction ds with
  | nil =>
    cases rest with
    | nil => rfl
    | cons c rest =>
      rw [List.map_nil, List.nil_append, spanDigits, hrest c rfl]
  | cons d ds ih =>
    have hd := toDigit_digitChar hr (hds d List.mem_cons_self)
    rw [List.map_cons, List.cons_append, spanDigits, hd, ih fun e he => hds e (List.mem_cons_of_mem d he)]

/-- A number is read back, with or without a prefix of zeros allowed. -/
theorem readNumber_toDigits {maxDigits : Option ℕ} {allowZeroPrefix : Bool} {bound n : ℕ} {rest : Text}
    (hr : 1 < radix) (hr' : radix ≤ 16) (hmax : ∀ k ∈ maxDigits, (Nat.toDigits radix n).length ≤ k)
    (hn : n < bound) (hrest : NoDigit radix rest) :
    readNumber radix maxDigits allowZeroPrefix bound (Nat.toDigits radix n ++ rest) = some (n, rest) := by
  obtain ⟨ds, htext, hlt, hval, hzero⟩ := toDigits_eq_map hr n
  have hne : ds ≠ [] := by
    rintro rfl
    exact Nat.toDigits_ne_nil htext
  have hshort : maxDigits.any (· < ds.length) = false := by
    cases hk : maxDigits with
    | none => rfl
    | some k =>
      have hle := hmax k hk
      rw [htext, List.length_map] at hle
      exact decide_eq_false (by omega)
  have hplain : (!allowZeroPrefix && ds.head? = some 0 && 1 < ds.length) = false := by
    by_cases hz : ds.head? = some 0
    · rw [hzero hz]
      simp
    · simp [hz]
  rw [readNumber, htext, spanDigits_map hr' hlt hrest, if_neg hne, if_neg (by simp [hshort]),
    if_neg (by simp [hplain]), hval, if_pos hn]

/-- What is left of a text behind a number does not depend on the bounds. -/
theorem readNumber_rest {maxDigits : Option ℕ} {allowZeroPrefix : Bool} {bound n : ℕ} {s rest : Text}
    (h : readNumber radix maxDigits allowZeroPrefix bound s = some (n, rest)) :
    rest = (spanDigits radix s).2 := by
  rw [readNumber] at h
  split at h
  · cases h
  split at h
  · cases h
  split at h
  · cases h
  split at h
  · cases h
    rfl
  · cases h

end P2pnas.Lib.Numerals
