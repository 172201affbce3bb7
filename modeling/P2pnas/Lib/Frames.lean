import Mathlib.Data.List.Basic
import Mathlib.Data.List.Induction
import Mathlib.Tactic.Ring
import Mathlib.Tactic.Linarith

/-!
# Byte strings, big-endian words and length-prefixed framing

The encodings that key derivations, authenticated headers and index trailers are built
from: fixed-width big-endian words and the frame `len ‖ part`. The results are the two
facts a format proof needs: a word of a given width determines its value, and a frame
determines both the part and whatever follows it.
-/

namespace P2pnas.Lib.Frames

abbrev Byte := UInt8
abbrev Bytes := List Byte

/-- Big-endian digits of `n`, exactly `w` bytes (the value is taken modulo `256 ^ w`). -/
def beBytes : ℕ → ℕ → Bytes
  | 0, _ => []
  | w + 1, n => beBytes w (n / 256) ++ [UInt8.ofNat (n % 256)]

/-- Value of a big-endian byte string. -/
def beVal (bs : Bytes) : ℕ := bs.foldl (fun acc b => acc * 256 + b.toNat) 0

@[simp] theorem beBytes_length (w n : ℕ) : (beBytes w n).length = w := by
  induction w generalizing n with
  | zero => rfl
  | succ w ih => simp only [beBytes, List.length_append, ih, List.length_singleton]

theorem beVal_snoc (bs : Bytes) (b : Byte) : beVal (bs ++ [b]) = beVal bs * 256 + b.toNat := by
  simp only [beVal, List.foldl_append, List.foldl_cons, List.foldl_nil]

theorem beVal_beBytes (w n : ℕ) : beVal (beBytes w n) = n % 256 ^ w := by
  induction w generalizing n with
  | zero => simp only [beBytes, beVal, List.foldl_nil, pow_zero, Nat.mod_one]
  | succ w ih =>
    have hb : (UInt8.ofNat (n % 256)).toNat = n % 256 := by
      rw [UInt8.toNat_ofNat']
      omega
    rw [beBytes, beVal_snoc, ih, hb, pow_succ', Nat.mod_mul]
    ring

/-- A word that fits its width is determined by its bytes. -/
theorem beBytes_inj {w n m : ℕ} (hn : n < 256 ^ w) (hm : m < 256 ^ w)
    (h : beBytes w n = beBytes w m) : n = m := by
  have hv := congrArg beVal h
  rw [beVal_beBytes, beVal_beBytes, Nat.mod_eq_of_lt hn, Nat.mod_eq_of_lt hm] at hv
  exact hv

theorem beVal_lt (bs : Bytes) : beVal bs < 256 ^ bs.length := by
  induction bs using List.reverseRecOn with
  | nil => exact Nat.one_pos
  | append_singleton bs b ih =>
    have hb := b.toNat_lt
    rw [beVal_snoc, List.length_append, List.length_singleton, pow_succ]
    omega

/-- A byte string is the word of its value. -/
theorem beBytes_beVal (bs : Bytes) : beBytes bs.length (beVal bs) = bs := by
  induction bs using List.reverseRecOn with
  | nil => rfl
  | append_singleton bs b ih =>
    have hb := b.toNat_lt
    have hdiv : (beVal bs * 256 + b.toNat) / 256 = beVal bs := by omega
    have hmod : (beVal bs * 256 + b.toNat) % 256 = b.toNat := by omega
    rw [beVal_snoc, List.length_append, List.length_singleton, beBytes, hdiv, hmod, ih, UInt8.ofNat_toNat]

/-- `len(part) ‖ part`, the length written on `w` bytes. -/
def lp (w : ℕ) (part : Bytes) : Bytes := beBytes w part.length ++ part

/-- The frames of `parts`, in order. -/
def lpConcat (w : ℕ) (parts : List Bytes) : Bytes := parts.flatMap (lp w)

@[simp] theorem lpConcat_nil (w : ℕ) : lpConcat w [] = [] := rfl

@[simp] theorem lpConcat_cons (w : ℕ) (p : Bytes) (ps : List Bytes) :
    lpConcat w (p :: ps) = lp w p ++ lpConcat w ps := rfl

/-- A frame at the front of a byte string determines the part and the rest. -/
theorem lp_append_inj {w : ℕ} {a b x y : Bytes} (ha : a.length < 256 ^ w)
    (hb : b.length < 256 ^ w) (h : lp w a ++ x = lp w b ++ y) : a = b ∧ x = y := by
  simp only [lp, List.append_assoc] at h
  have hlen : (beBytes w a.length).length = (beBytes w b.length).length := by
    simp only [beBytes_length]
  obtain ⟨hword, hrest⟩ := List.append_inj h hlen
  have hab : a.length = b.length := beBytes_inj ha hb hword
  exact List.append_inj hrest hab

/-- Framed lists are equal only part by part, whatever their lengths. -/
theorem lpConcat_inj {w : ℕ} (hw : 0 < w) {ps qs : List Bytes} (hp : ∀ p ∈ ps, p.length < 256 ^ w)
    (hq : ∀ q ∈ qs, q.length < 256 ^ w) (h : lpConcat w ps = lpConcat w qs) : ps = qs := by
  have hpos : ∀ (p : Bytes) (rest : List Bytes), lpConcat w (p :: rest) ≠ [] := by
    intro p rest hnil
    have hlen := congrArg List.length hnil
    rw [lpConcat_cons, lp, List.length_append, List.length_append, beBytes_length, List.length_nil] at hlen
    omega
  induction ps generalizing qs with
  | nil =>
    cases qs with
    | nil => rfl
    | cons q qs => exact absurd h.symm (hpos q qs)
  | cons p ps ih =>
    cases qs with
    | nil => exact absurd h (hpos p ps)
    | cons q qs =>
      rw [lpConcat_cons, lpConcat_cons] at h
      obtain ⟨hpq, hrest⟩ := lp_append_inj (hp p (List.mem_cons_self ..)) (hq q (List.mem_cons_self ..)) h
      rw [hpq, ih (fun r hr => hp r (List.mem_cons_of_mem _ hr))
        (fun r hr => hq r (List.mem_cons_of_mem _ hr)) hrest]

/-! ### Little-endian lengths -/

/-- The low `w` bytes of `n`, least significant first. -/
def leBytes (w n : ℕ) : Bytes := (beBytes w n).reverse

/-- `len(part) ‖ part`, the length written little-endian on `w` bytes. -/
def lpLe (w : ℕ) (part : Bytes) : Bytes := leBytes w part.length ++ part

theorem lpLe_append_inj {w : ℕ} {a b x y : Bytes} (ha : a.length < 256 ^ w)
    (hb : b.length < 256 ^ w) (h : lpLe w a ++ x = lpLe w b ++ y) : a = b ∧ x = y := by
  simp only [lpLe, leBytes, List.append_assoc] at h
  have hlen : (beBytes w a.length).reverse.length = (beBytes w b.length).reverse.length := by
    simp only [List.length_reverse, beBytes_length]
  obtain ⟨hword, hrest⟩ := List.append_inj h hlen
  have hab : a.length = b.length := beBytes_inj ha hb (List.reverse_inj.mp hword)
  exact List.append_inj hrest hab

end P2pnas.Lib.Frames
