import P2pnas.Core.Base
import P2pnas.Dht.Table

/-!
# The text of a node id (`dht.rs:233-246`)

An id is written as forty hexadecimal digits. It is read two bytes at a time, each slice by the
integer parser of the standard library: a slice that cuts a character is refused, and so is what the
parser refuses. The parser takes a plus sign in front of its digits.
-/

namespace P2pnas.Dht.IdText
open P2pnas.Lib.Frames P2pnas.Lib.Strings P2pnas.Core.Base
open P2pnas.Dht.Table hiding unhex

/-! ### Slices and numbers -/

/-- `&s[..n]`; `none` past the end or inside a character. -/
def sliceTo : Text → ℕ → Option Text
  | _, 0 => some []
  | [], _ + 1 => none
  | c :: s, n + 1 => if c.utf8Size ≤ n + 1 then (sliceTo s (n + 1 - c.utf8Size)).map (c :: ·) else none

/-- `str::get(from..to)`. -/
def get (s : Text) (start stop : ℕ) : Option Text := (sliceFrom s start).bind (sliceTo · (stop - start))

/-- The digits behind a value so far, which has to stay below 256. -/
def parseDigits : ℕ → Text → Option ℕ
  | acc, [] => some acc
  | acc, c :: s =>
    match hexValue c with
    | some v => if acc * 16 + v < 256 then parseDigits (acc * 16 + v) s else none
    | none => none

/-- `u8::from_str_radix(_, 16)`: a plus sign or none, then at least one digit. -/
def u8FromStrRadix (s : Text) : Option Byte :=
  let digits := match s with
    | '+' :: rest => rest
    | _ => s
  if digits.isEmpty then none else (parseDigits 0 digits).map UInt8.ofNat

def unhex (s : Text) : Option NodeId :=
  if byteLen s = ID_LEN * 2 then
    match collect (fun i => (get s (i * 2) (i * 2 + 2)).bind u8FromStrRadix) (List.range ID_LEN) with
    | some bs => if h : bs.length = ID_LEN then some ⟨bs, h⟩ else none
    | none => none
  else none

/-! ### Digits -/

section
variable {c d : Char} {v : ℕ}

theorem hexValue_ascii (h : hexValue c = some v) : c.toNat < 128 := by
  simp only [hexValue, Bool.and_eq_true, decide_eq_true_eq, Char.le_def, UInt32.le_iff_toNat_le] at h
  change c.val.toNat < 128
  split at h
  · next hr => exact Nat.lt_of_le_of_lt hr.2 (by decide)
  · split at h
    · next hr => exact Nat.lt_of_le_of_lt hr.2 (by decide)
    · split at h
      · next hr => exact Nat.lt_of_le_of_lt hr.2 (by decide)
      · cases h

/-- A digit has its value below sixteen and is written back in lower case. -/
theorem hexValue_spec (h : hexValue c = some v) :
    v < 16 ∧ hexDigit v = c.toLower ∧ isHexDigit c = true := by
  have key : ∀ m : Fin 128, ∀ v ∈ hexValue (Char.ofNat m.val),
      v < 16 ∧ hexDigit v = (Char.ofNat m.val).toLower ∧ isHexDigit (Char.ofNat m.val) = true := by
    decide
  have hc := key ⟨c.toNat, hexValue_ascii h⟩ v
  rw [Char.ofNat_toNat] at hc
  exact hc h

theorem hexValue_isSome : (hexValue c).isSome = true ↔ isHexDigit c = true := by
  constructor
  · intro h
    obtain ⟨v, hv⟩ := Option.isSome_iff_exists.mp h
    exact (hexValue_spec hv).2.2
  · intro h
    have hc : c.toNat < 128 := by
      simp only [isHexDigit, Bool.or_eq_true, Bool.and_eq_true, decide_eq_true_eq, Char.le_def,
        UInt32.le_iff_toNat_le] at h
      change c.val.toNat < 128
      rcases h with (h | h) | h <;> exact Nat.lt_of_le_of_lt h.2 (by decide)
    have key : ∀ m : Fin 128, isHexDigit (Char.ofNat m.val) = true →
        (hexValue (Char.ofNat m.val)).isSome = true := by
      decide
    have hd := key ⟨c.toNat, hc⟩
    rw [Char.ofNat_toNat] at hd
    exact hd h

theorem utf8Size_of_digit (h : hexValue c = some v) : c.utf8Size = 1 :=
  Char.utf8Size_eq_one_iff.mpr (by
    have hc := hexValue_ascii h
    rw [UInt32.le_iff_toNat_le]
    exact Nat.le_of_lt_succ hc)

theorem hexValue_wide (h : c.utf8Size ≠ 1) : hexValue c = none := by
  cases hv : hexValue c with
  | none => rfl
  | some v => exact absurd (utf8Size_of_digit hv) h

theorem fromStrRadix_wide (h : c.utf8Size ≠ 1 ∨ d.utf8Size ≠ 1) : fromStrRadix c d = none := by
  rcases h with h | h
  · have hc : c ≠ '+' := fun hc => h (by rw [hc]; rfl)
    rw [fromStrRadix, if_neg hc, hexValue_wide h]
  · rw [fromStrRadix, hexValue_wide h]
    cases hexValue c <;> exact ite_self none

end

/-! ### A slice a byte -/

section
variable {c d : Char} {s t : Text} {n k : ℕ}

theorem sliceFrom_cons (c : Char) (s : Text) (k : ℕ) :
    sliceFrom (c :: s) (c.utf8Size + k) = sliceFrom s k := by
  obtain ⟨m, hm⟩ : ∃ m, c.utf8Size + k = m + 1 := ⟨c.utf8Size + k - 1, by
    have hc := Char.utf8Size_pos c
    omega⟩
  rw [hm, sliceFrom, if_pos (by omega)]
  congr 1
  omega

theorem get_shift (hc : c.utf8Size = 1) (hd : d.utf8Size = 1) (k : ℕ) :
    get (c :: d :: s) (k + 2) (k + 2 + 2) = get s k (k + 2) := by
  have h1 := sliceFrom_cons c (d :: s) (k + 1)
  have h2 := sliceFrom_cons d s k
  rw [hc, show 1 + (k + 1) = k + 2 from by omega] at h1
  rw [hd, Nat.add_comm 1 k] at h2
  rw [get, get, h1, h2, Nat.add_sub_cancel_left, Nat.add_sub_cancel_left]

theorem get_head (hc : c.utf8Size = 1) (hd : d.utf8Size = 1) : get (c :: d :: s) 0 2 = some [c, d] := by
  simp [get, sliceFrom, sliceTo, hc, hd]

/-- The standard parser on two digits, or on a plus sign and a digit. -/
theorem u8FromStrRadix_pair (c d : Char) : u8FromStrRadix [c, d] = fromStrRadix c d := by
  by_cases hc : c = '+'
  · subst hc
    cases hd : hexValue d with
    | none => simp [u8FromStrRadix, fromStrRadix, parseDigits, hd]
    | some v =>
      have hv := (hexValue_spec hd).1
      simp [u8FromStrRadix, fromStrRadix, parseDigits, hd, show v < 256 by omega]
  · rw [fromStrRadix, if_neg hc, u8FromStrRadix]
    · cases hv : hexValue c with
      | none => simp [parseDigits, hv]
      | some v =>
        cases hw : hexValue d with
        | none => simp [parseDigits, hv, hw]
        | some w =>
          have hv' := (hexValue_spec hv).1
          have hw' := (hexValue_spec hw).1
          simp [parseDigits, hv, hw, show v < 256 by omega, show v * 16 + w < 256 by omega]
    · intro rest h
      exact hc (List.cons.inj h).1

/-- A slice whose first character is no single byte gives nothing. -/
theorem get_first (hc : c.utf8Size ≠ 1) : (get (c :: s) 0 2).bind u8FromStrRadix = none := by
  have hpos := Char.utf8Size_pos c
  by_cases h2 : c.utf8Size = 2
  · have hplus : c ≠ '+' := fun h => hc (by rw [h]; rfl)
    have hu : u8FromStrRadix [c] = none := by
      rw [u8FromStrRadix]
      · simp [parseDigits, hexValue_wide hc]
      · intro rest h
        exact hplus (List.cons.inj h).1
    simpa [get, sliceFrom, sliceTo, h2] using hu
  · have hwide : ¬ c.utf8Size ≤ 2 := by omega
    simp [get, sliceFrom, sliceTo, hwide]

theorem get_second (hc : c.utf8Size = 1) (hd : d.utf8Size ≠ 1) : get (c :: d :: s) 0 2 = none := by
  have hpos := Char.utf8Size_pos d
  have hwide : ¬ d.utf8Size ≤ 1 := by omega
  simp [get, sliceFrom, sliceTo, hc, hwide]

/-- The slices two bytes at a time are the characters two at a time, or one of them is refused. -/
theorem collect_slices (hs : byteLen s = 2 * n) :
    collect (fun i => (get s (i * 2) (i * 2 + 2)).bind u8FromStrRadix) (List.range n) = unhexPairs s := by
  induction n generalizing s with
  | zero =>
    cases s with
    | nil => rfl
    | cons c s =>
      have hc := Char.utf8Size_pos c
      rw [byteLen_cons] at hs
      omega
  | succ n ih =>
    rw [List.range_succ_eq_map, collect, collect_map]
    cases s with
    | nil => cases hs
    | cons c s =>
      by_cases hc : c.utf8Size = 1
      · cases s with
        | nil =>
          have hb : byteLen [c] = 1 := by rw [byteLen_cons, hc]; rfl
          omega
        | cons d s =>
          by_cases hd : d.utf8Size = 1
          · rw [byteLen_cons, byteLen_cons] at hs
            have hshift :
                (fun i => (get (c :: d :: s) (Nat.succ i * 2) (Nat.succ i * 2 + 2)).bind u8FromStrRadix) =
                  fun i => (get s (i * 2) (i * 2 + 2)).bind u8FromStrRadix := by
              funext i
              rw [Nat.succ_mul, get_shift hc hd]
            rw [hshift, ih (s := s) (by omega), unhexPairs, Nat.zero_mul, Nat.zero_add, get_head hc hd,
              Option.bind_some, u8FromStrRadix_pair]
            cases fromStrRadix c d with
            | none => rfl
            | some b => cases unhexPairs s <;> rfl
          · rw [get_second hc hd, unhexPairs, fromStrRadix_wide (.inr hd)]
            rfl
      · rw [get_first hc]
        cases s with
        | nil => rfl
        | cons d s =>
          rw [unhexPairs, fromStrRadix_wide (.inl hc)]
          rfl

/-- The reader by slices is the reader by pairs of characters. -/
theorem unhex_eq (s : Text) : unhex s = Table.unhex s := by
  rw [unhex, Table.unhex]
  split
  · next h =>
    rw [collect_slices (by rw [h, Nat.mul_comm])]
    cases unhexPairs s <;> rfl
  · rfl

end

/-! ### What is read -/

/-- Two hexadecimal digits, or a plus sign and one. -/
def IsPair (c d : Char) : Prop := (c = '+' ∨ isHexDigit c = true) ∧ isHexDigit d = true

def Paired : Text → Prop
  | [] => True
  | [_] => False
  | c :: d :: s => IsPair c d ∧ Paired s

/-- Forty hexadecimal digits. -/
def HexDigits (s : Text) : Prop := s.length = ID_LEN * 2 ∧ ∀ c ∈ s, isHexDigit c = true

/-- Twenty pairs, at least one of them of a plus sign and a digit. -/
def Signed (s : Text) : Prop := s.length = ID_LEN * 2 ∧ Paired s ∧ '+' ∈ s

/-- The text is read as an id if and only if it is forty digits, and the id is written as they are, in
lower case. -/
def Canonical (s : Text) : Prop :=
  ((∃ id, unhex s = some id) ↔ HexDigits s) ∧ ∀ id, unhex s = some id → hex id = s.map Char.toLower

section
variable {c d : Char} {s : Text} {bs : Bytes} {b : Byte}

theorem fromStrRadix_isSome : (fromStrRadix c d).isSome = true ↔ IsPair c d := by
  rw [fromStrRadix, IsPair, ← hexValue_isSome, ← hexValue_isSome]
  by_cases hc : c = '+'
  · simp [hc]
  · rw [if_neg hc]
    cases hexValue c <;> cases hexValue d <;> simp [hc]

/-- Every pair is read, whatever the others are. -/
theorem unhexPairs_isSome : (unhexPairs s).isSome = true ↔ Paired s := by
  induction s using Paired.induct with
  | case1 => simp [unhexPairs, Paired]
  | case2 c => simp [unhexPairs, Paired]
  | case3 c d s ih =>
    rw [unhexPairs, Paired, ← ih, ← fromStrRadix_isSome]
    cases fromStrRadix c d <;> cases unhexPairs s <;> simp

theorem unhexPairs_length (h : unhexPairs s = some bs) : s.length = 2 * bs.length := by
  induction s using Paired.induct generalizing bs with
  | case1 =>
    cases h
    rfl
  | case2 c => cases h
  | case3 c d s ih =>
    rw [unhexPairs] at h
    split at h
    · next b cs hb hcs =>
      cases h
      have hl := ih hcs
      simp only [List.length_cons, hl]
      omega
    · cases h

theorem isHexDigit_utf8Size (h : isHexDigit c = true) : c.utf8Size = 1 := by
  obtain ⟨v, hv⟩ := Option.isSome_iff_exists.mp (hexValue_isSome.mpr h)
  exact utf8Size_of_digit hv

theorem paired_byteLen (h : Paired s) : byteLen s = s.length := by
  induction s using Paired.induct with
  | case1 => rfl
  | case2 c => exact h.elim
  | case3 c d s ih =>
    obtain ⟨⟨hc, hd⟩, hs⟩ := h
    have hc1 : c.utf8Size = 1 := by
      rcases hc with rfl | hc
      · rfl
      · exact isHexDigit_utf8Size hc
    rw [byteLen_cons, byteLen_cons, ih hs, hc1, isHexDigit_utf8Size hd]
    simp only [List.length_cons]
    omega

theorem unhex_isSome : (∃ id, unhex s = some id) ↔ s.length = ID_LEN * 2 ∧ Paired s := by
  rw [unhex_eq, Table.unhex]
  constructor
  · rintro ⟨id, h⟩
    split at h
    · next hb =>
      split at h
      · next bs hbs =>
        have hp : Paired s := unhexPairs_isSome.mp (by rw [hbs]; rfl)
        exact ⟨by rw [← paired_byteLen hp, hb], hp⟩
      · cases h
    · cases h
  · rintro ⟨hl, hp⟩
    obtain ⟨bs, hbs⟩ := Option.isSome_iff_exists.mp (unhexPairs_isSome.mpr hp)
    have hlen : bs.length = ID_LEN := by
      have h2 := unhexPairs_length hbs
      omega
    rw [if_pos ((paired_byteLen hp).trans hl), hbs]
    exact ⟨⟨bs, hlen⟩, dif_pos hlen⟩

/-- Two digits are written back in lower case. -/
theorem fromStrRadix_digits (hc : c ≠ '+') (h : fromStrRadix c d = some b) :
    [hexDigit (b.toNat / 16), hexDigit (b.toNat % 16)] = [c.toLower, d.toLower] := by
  rw [fromStrRadix, if_neg hc] at h
  split at h
  · next v w hv hw =>
    cases h
    obtain ⟨hv16, hvd, -⟩ := hexValue_spec hv
    obtain ⟨hw16, hwd, -⟩ := hexValue_spec hw
    have hb : (UInt8.ofNat (v * 16 + w)).toNat = v * 16 + w := by
      rw [UInt8.toNat_ofNat']
      exact Nat.mod_eq_of_lt (by omega)
    have hhi : (v * 16 + w) / 16 = v := by omega
    have hlo : (v * 16 + w) % 16 = w := by omega
    rw [hb, hhi, hlo, hvd, hwd]
  · cases h

theorem hexEncode_unhexPairs (h : unhexPairs s = some bs) (hs : '+' ∉ s) :
    hexEncode bs = s.map Char.toLower := by
  induction s using Paired.induct generalizing bs with
  | case1 =>
    cases h
    rfl
  | case2 c => cases h
  | case3 c d s ih =>
    rw [unhexPairs] at h
    split at h
    · next b cs hb hcs =>
      cases h
      have hpair := fromStrRadix_digits (fun hc => hs (by rw [hc]; exact List.mem_cons_self ..)) hb
      have hrest := ih hcs fun hm => hs (List.mem_cons_of_mem _ (List.mem_cons_of_mem _ hm))
      rw [hexEncode, List.flatMap_cons, hpair, ← hexEncode, hrest]
      rfl
    · cases h

theorem hex_unhex {id : NodeId} (h : unhex s = some id) (hs : '+' ∉ s) : hex id = s.map Char.toLower := by
  rw [unhex_eq, Table.unhex] at h
  split at h
  · split at h
    · next bs hbs =>
      split at h
      · cases h
        exact hexEncode_unhexPairs hbs hs
      · cases h
    · cases h
  · cases h

theorem paired_digits (h : Paired s) (hs : '+' ∉ s) : ∀ c ∈ s, isHexDigit c = true := by
  induction s using Paired.induct with
  | case1 => exact fun c hc => absurd hc List.not_mem_nil
  | case2 c => exact h.elim
  | case3 c d s ih =>
    obtain ⟨⟨hc, hd⟩, hp⟩ := h
    have hplus : c ≠ '+' := fun hc => hs (by rw [hc]; exact List.mem_cons_self ..)
    have hrest := ih hp fun hm => hs (List.mem_cons_of_mem _ (List.mem_cons_of_mem _ hm))
    exact List.forall_mem_cons.mpr ⟨hc.resolve_left hplus, List.forall_mem_cons.mpr ⟨hd, hrest⟩⟩

theorem digits_paired {n : ℕ} (hl : s.length = n * 2) (h : ∀ c ∈ s, isHexDigit c = true) : Paired s := by
  induction n generalizing s with
  | zero =>
    rw [List.length_eq_zero_iff.mp (hl.trans (Nat.zero_mul 2))]
    trivial
  | succ n ih =>
    match s, hl with
    | [_], hl =>
      rw [List.length_singleton] at hl
      omega
    | c :: d :: s, hl =>
      obtain ⟨hc, h⟩ := List.forall_mem_cons.mp h
      obtain ⟨hd, h⟩ := List.forall_mem_cons.mp h
      rw [List.length_cons, List.length_cons] at hl
      exact ⟨⟨.inr hc, hd⟩, ih (by omega) h⟩

theorem hexDigits_iff : HexDigits s ↔ s.length = ID_LEN * 2 ∧ Paired s ∧ '+' ∉ s := by
  constructor
  · intro h
    exact ⟨h.1, digits_paired h.1 h.2, fun hm => absurd (h.2 _ hm) (by decide)⟩
  · intro h
    exact ⟨h.1, paired_digits h.2.1 h.2.2⟩

theorem unhexPairs_hexEncode (bs : Bytes) : unhexPairs (hexEncode bs) = some bs := by
  induction bs with
  | nil => rfl
  | cons b bs ih =>
    have hb := b.toNat_lt
    have hhi : hexValue (hexDigit (b.toNat / 16)) = some (b.toNat / 16) := hexValue_hexDigit (by omega)
    have hlo : hexValue (hexDigit (b.toNat % 16)) = some (b.toNat % 16) := hexValue_hexDigit (by omega)
    have hplus : hexDigit (b.toNat / 16) ≠ '+' := fun h => by
      rw [h] at hhi
      cases hhi
    have hval : b.toNat / 16 * 16 + b.toNat % 16 = b.toNat := by omega
    have hpair : fromStrRadix (hexDigit (b.toNat / 16)) (hexDigit (b.toNat % 16)) = some b := by
      rw [fromStrRadix, if_neg hplus, hhi, hlo]
      dsimp only
      rw [hval, UInt8.ofNat_toNat]
    have hstep : hexEncode (b :: bs) =
        hexDigit (b.toNat / 16) :: hexDigit (b.toNat % 16) :: hexEncode bs := rfl
    rw [hstep, unhexPairs, hpair, ih]

theorem unhex_hex (id : NodeId) : unhex (hex id) = some id := by
  have hpairs := unhexPairs_hexEncode id.bytes
  have hp : Paired (hex id) := unhexPairs_isSome.mp (by rw [hex, hpairs]; rfl)
  have hl : byteLen (hex id) = ID_LEN * 2 := by
    rw [paired_byteLen hp, hex, hexEncode_length, id.len, Nat.mul_comm]
  rw [unhex_eq, Table.unhex, if_pos hl, hex, hpairs]
  exact dif_pos id.len

end

/-- What `hex` writes is read back, and a text is read canonically unless it is twenty pairs with a plus
sign among them. -/
theorem unhex_canonical_iff (s : Text) :
    (∀ id, unhex (hex id) = some id) ∧ (Canonical s ↔ ¬ Signed s) := by
  refine ⟨unhex_hex, ?_, fun hns => ?_⟩
  · rintro ⟨hread, -⟩ ⟨hl, hp, hplus⟩
    exact (hexDigits_iff.mp (hread.mp (unhex_isSome.mpr ⟨hl, hp⟩))).2.2 hplus
  · have hnp : (∃ id, unhex s = some id) → '+' ∉ s := fun h hplus =>
      have hp := unhex_isSome.mp h
      hns ⟨hp.1, hp.2, hplus⟩
    refine ⟨⟨fun h => ?_, fun h => ?_⟩, fun id h => hex_unhex h (hnp ⟨id, h⟩)⟩
    · have hp := unhex_isSome.mp h
      exact hexDigits_iff.mpr ⟨hp.1, hp.2, hnp h⟩
    · have hd := hexDigits_iff.mp h
      exact unhex_isSome.mpr ⟨hd.1, hd.2.1⟩

/-- A sign and thirty-nine digits. -/
def signedZero : Text := '+' :: List.replicate 39 '0'

/-- The standard parser takes the sign: the text is the id of zeroes and is not forty digits. -/
theorem signedZero_accepted : ¬ Canonical signedZero := by
  intro h
  have hread : ∃ id, unhex signedZero = some id :=
    ⟨⟨List.replicate 20 0, by decide⟩, by decide +kernel⟩
  exact absurd ((h.1.mp hread).2 '+' (List.mem_cons_self ..)) (by decide)

end P2pnas.Dht.IdText
