import Mathlib.Data.List.Basic
import Mathlib.Tactic.Ring

/-!
# Cutting a list into equal pieces

`piece k l i` is the `i`-th window of `k` elements (short or empty at the end of the
list), `pieces` the first `n` windows. Concatenating the windows gives the list back, and
padding commutes with cutting: the windows of a padded list are the padded windows.
-/

namespace P2pnas.Lib.Stripes

variable {α : Type*}

/-- The `i`-th window of `k` elements. -/
def piece (k : ℕ) (l : List α) (i : ℕ) : List α := (l.drop (i * k)).take k

/-- The first `n` windows of `k` elements. -/
def pieces (k n : ℕ) (l : List α) : List (List α) := (List.range n).map (piece k l)

/-- Right padding to `n` elements (a longer list is left alone). -/
def padTo (n : ℕ) (z : α) (l : List α) : List α := l ++ List.replicate (n - l.length) z

@[simp] theorem pieces_length (k n : ℕ) (l : List α) : (pieces k n l).length = n := by
  simp only [pieces, List.length_map, List.length_range]

@[simp] theorem piece_length (k : ℕ) (l : List α) (i : ℕ) :
    (piece k l i).length = min k (l.length - i * k) := by
  simp only [piece, List.length_take, List.length_drop]

theorem pieces_flatten (k n : ℕ) (l : List α) : (pieces k n l).flatten = l.take (n * k) := by
  induction n with
  | zero => simp only [pieces, List.range_zero, List.map_nil, List.flatten_nil, Nat.zero_mul,
      List.take_zero]
  | succ n ih =>
    have hs : pieces k (n + 1) l = pieces k n l ++ [piece k l n] := by
      simp only [pieces, List.range_succ, List.map_append, List.map_cons, List.map_nil]
    rw [hs, List.flatten_append, ih, List.flatten_singleton, piece, Nat.succ_mul]
    exact (List.take_add).symm

@[simp] theorem padTo_length (n : ℕ) (z : α) (l : List α) :
    (padTo n z l).length = max n l.length := by
  simp only [padTo, List.length_append, List.length_replicate]
  omega

theorem padTo_take (n : ℕ) (z : α) (l : List α) : (padTo n z l).take l.length = l := by
  simp only [padTo, List.take_left']

/-- Padding a list to whole windows and cutting it is cutting it and padding the windows. -/
theorem piece_padTo (k n : ℕ) (z : α) (l : List α) (i : ℕ) (hi : i < n)
    (hl : l.length ≤ n * k) : piece k (padTo (n * k) z l) i = padTo k z (piece k l i) := by
  have hik : i * k + k ≤ n * k := by
    have h := Nat.mul_le_mul_right k (Nat.succ_le_of_lt hi)
    rw [Nat.succ_mul] at h
    exact h
  simp only [padTo, piece, List.drop_append, List.take_append, List.drop_replicate,
    List.take_replicate, List.length_drop, List.length_take]
  congr 2
  omega

/-- Concatenating the padded windows gives the padded list. -/
theorem padded_flatten (k n : ℕ) (z : α) (l : List α) (hl : l.length ≤ n * k) :
    ((List.range n).map fun i => padTo k z (piece k l i)).flatten = padTo (n * k) z l := by
  have hmap : ((List.range n).map fun i => padTo k z (piece k l i)) =
      pieces k n (padTo (n * k) z l) := by
    apply List.map_congr_left
    intro i hi
    exact (piece_padTo k n z l i (List.mem_range.mp hi) hl).symm
  rw [hmap, pieces_flatten]
  apply List.take_of_length_le
  rw [padTo_length]
  omega

/-- Windows that cover the list concatenate to it. -/
theorem pieces_flatten_of_le (k n : ℕ) (l : List α) (h : l.length ≤ n * k) :
    (pieces k n l).flatten = l := by
  rw [pieces_flatten, List.take_of_length_le h]

end P2pnas.Lib.Stripes
