import Mathlib.Data.Nat.Find
import Mathlib.Data.List.Lex
import P2pnas.Lib.Strings

/-!
# UTC stamps of RFC 3339

An instant of the years 0 to 9999 is written as its date, its time of day and what is left of the
second in 3, 6 or 9 digits, or none when nothing is left, always with the offset `+00:00`. Each field
is the quotient or the remainder of a division, or for the date a greatest start that is not past, so
an earlier instant has a lesser field before any greater one. Only the fraction has no fixed width;
where one stamp ends its fraction the offset begins, with a `+`, which is below `.` and the digits.
-/

namespace P2pnas.Lib.Rfc3339
open P2pnas.Lib.Frames P2pnas.Lib.Strings

/-! ### The calendar -/

def isLeap (y : ℕ) : Bool := y % 4 = 0 && (y % 100 ≠ 0 || y % 400 = 0)

/-- Days from the first day of year 0 to that of year `y`. -/
def yearStart (y : ℕ) : ℕ := 365 * y + (y + 3) / 4 - (y + 99) / 100 + (y + 399) / 400

def monthLens (leap : Bool) : List ℕ := [31, if leap then 29 else 28, 31, 30, 31, 30, 31, 31, 30, 31, 30, 31]

/-- Days from the first day of the year to that of the month, counted from 0. -/
def monthStart (leap : Bool) (m : ℕ) : ℕ := ((monthLens leap).take m).sum

/-- The year of a day that is counted from the first one of year 0. -/
def yearOf (day : ℕ) : ℕ := Nat.findGreatest (fun y => yearStart y ≤ day) 9999

/-- The month of a day that is counted from the first one of the year. -/
def monthOf (leap : Bool) (day : ℕ) : ℕ := Nat.findGreatest (fun m => monthStart leap m ≤ day) 11

/-! ### The text -/

/-- The lowest `w` decimal digits. -/
def digits : ℕ → ℕ → Text
  | 0, _ => []
  | w + 1, n => digits w (n / 10) ++ [Char.ofNat (48 + n % 10)]

def dateText (day : ℕ) : Text :=
  let y := yearOf day
  let dayOfYear := day - yearStart y
  let m := monthOf (isLeap y) dayOfYear
  digits 4 y ++ ['-'] ++ (digits 2 (m + 1) ++ ['-'] ++ digits 2 (dayOfYear - monthStart (isLeap y) m + 1))

/-- `b` behind `a`, the quotient and the remainder of a division by `k`. -/
def field (a : ℕ → Text) (sep : Char) (k n : ℕ) : Text := a (n / k) ++ [sep] ++ digits 2 (n % k)

/-- Date and time of a second that is counted from the first one of year 0. -/
def secondText : ℕ → Text := field (field (field dateText 'T' 24) ':' 60) ':' 60

/-- `SecondsFormat::AutoSi`. -/
def fractionText (nanos : ℕ) : Text :=
  if nanos = 0 then []
  else if nanos % 1000000 = 0 then '.' :: digits 3 (nanos / 1000000)
  else if nanos % 1000 = 0 then '.' :: digits 6 (nanos / 1000)
  else '.' :: digits 9 nanos

def OFFSET : Text := "+00:00".toList

/-- `to_rfc3339` of the nanoseconds since the first moment of year 0. -/
def stampText (n : ℕ) : Text := secondText (n / 1000000000) ++ (fractionText (n % 1000000000) ++ OFFSET)

/-! ### Order of texts -/

/-- The texts compare as their bytes do. -/
def Below (a b : Text) : Prop := utf8 a < utf8 b

/-- Of strings that begin with parts of one length, the parts decide, and the rest where they are
equal. -/
theorem append_lt_append {a a' b b' : Bytes} (hlen : a.length = a'.length) (h : a < a' ∨ a = a' ∧ b < b') :
    a ++ b < a' ++ b' := by
  induction a generalizing a' with
  | nil =>
    cases a' with
    | nil =>
      rcases h with h | ⟨-, h⟩
      · exact absurd h (List.not_lt_nil _)
      · exact h
    | cons x a' => cases hlen
  | cons x a ih =>
    cases a' with
    | nil => cases hlen
    | cons y a' =>
      rw [List.cons_append, List.cons_append, List.cons_lt_cons_iff]
      rcases h with h | ⟨heq, h⟩
      · rcases List.cons_lt_cons_iff.mp h with h | ⟨hxy, h⟩
        · exact .inl h
        · exact .inr ⟨hxy, ih (Nat.succ.inj hlen) (.inl h)⟩
      · obtain ⟨rfl, rfl⟩ := List.cons.inj heq
        exact .inr ⟨rfl, ih rfl (.inr ⟨rfl, h⟩)⟩

/-- As many bytes. -/
def SameLen (a b : Text) : Prop := byteLen a = byteLen b

theorem below_append {a a' b b' : Text} (hlen : SameLen a a') (h : Below a a' ∨ a = a' ∧ Below b b') :
    Below (a ++ b) (a' ++ b') := by
  rw [Below, utf8_append, utf8_append]
  refine append_lt_append hlen ?_
  rcases h with h | ⟨rfl, h⟩
  · exact .inl h
  · exact .inr ⟨rfl, h⟩

theorem below_append_left (a : Text) {b b' : Text} (h : Below b b') : Below (a ++ b) (a ++ b') :=
  below_append rfl (.inr ⟨rfl, h⟩)

/-! ### Digits -/

theorem utf8_digit : ∀ d < 10, utf8 [Char.ofNat (48 + d)] = [UInt8.ofNat (48 + d)] := by decide

theorem digits_byteLen (w n : ℕ) : byteLen (digits w n) = w := by
  induction w generalizing n with
  | zero => rfl
  | succ w ih =>
    have hd := utf8_digit (n % 10) (Nat.mod_lt _ (by decide))
    rw [byteLen, digits, utf8_append, List.length_append, hd, List.length_singleton]
    exact congrArg (· + 1) (ih (n / 10))

theorem digits_below {w a b : ℕ} (hab : a < b) (hb : b < 10 ^ w) : Below (digits w a) (digits w b) := by
  induction w generalizing a b with
  | zero => omega
  | succ w ih =>
    have hlen : SameLen (digits w (a / 10)) (digits w (b / 10)) := by
      rw [SameLen, digits_byteLen, digits_byteLen]
    have hb' : b / 10 < 10 ^ w := by
      rw [pow_succ] at hb
      omega
    refine below_append hlen ?_
    by_cases hq : a / 10 < b / 10
    · exact .inl (ih hq hb')
    · have heq : a / 10 = b / 10 := by omega
      refine .inr ⟨by rw [heq], ?_⟩
      rw [Below, utf8_digit _ (Nat.mod_lt _ (by decide)), utf8_digit _ (Nat.mod_lt _ (by decide)),
        List.cons_lt_cons_iff]
      left
      rw [UInt8.lt_iff_toNat_lt, UInt8.toNat_ofNat', UInt8.toNat_ofNat']
      omega

theorem digits_add (u v n : ℕ) : digits (u + v) n = digits u (n / 10 ^ v) ++ digits v (n % 10 ^ v) := by
  induction v generalizing n with
  | zero => rw [Nat.add_zero, pow_zero, Nat.div_one, digits, List.append_nil]
  | succ v ih =>
    have hdiv : n % 10 ^ (v + 1) / 10 = n / 10 % 10 ^ v := by
      rw [pow_succ', Nat.mod_mul_right_div_self]
    have hmod : n % 10 ^ (v + 1) % 10 = n % 10 := Nat.mod_mod_of_dvd n (Dvd.intro_left _ (pow_succ 10 v).symm)
    rw [← Nat.add_assoc, digits, ih (n / 10), digits, hdiv, hmod, Nat.div_div_eq_div_mul, ← pow_succ',
      List.append_assoc]

/-! ### Fields of fixed width -/

/-- Below `N` the texts have one width and rise. -/
structure Rising (w N : ℕ) (f : ℕ → Text) : Prop where
  width : ∀ n, byteLen (f n) = w
  below : ∀ a b, a < b → b < N → Below (f a) (f b)

theorem byteLen_append (a b : Text) : byteLen (a ++ b) = byteLen a + byteLen b := by
  rw [byteLen, utf8_append, List.length_append, byteLen, byteLen]

theorem Rising.field {w N : ℕ} {a : ℕ → Text} (h : Rising w N a) (sep : Char) {k : ℕ} (hpos : 0 < k)
    (hk : k ≤ 100) : Rising (w + byteLen [sep] + 2) (N * k) (field a sep k) := by
  refine ⟨fun n => ?_, fun m n hmn hn => ?_⟩
  · rw [Rfc3339.field, byteLen_append, byteLen_append, h.width, digits_byteLen]
  · have hlt : n / k < N := (Nat.div_lt_iff_lt_mul hpos).mpr hn
    have hlen : SameLen (a (m / k) ++ [sep]) (a (n / k) ++ [sep]) := by
      rw [SameLen, byteLen_append, byteLen_append, h.width, h.width]
    refine below_append hlen ?_
    rcases Nat.lt_or_eq_of_le (Nat.div_le_div_right (c := k) (Nat.le_of_lt hmn)) with hq | hq
    · left
      exact below_append (by rw [SameLen, h.width, h.width]) (.inl (h.below _ _ hq hlt))
    · right
      refine ⟨by rw [hq], digits_below ?_ ?_⟩
      · have hm := Nat.div_add_mod m k
        have hn' := Nat.div_add_mod n k
        rw [hq] at hm
        omega
      · have hr := Nat.mod_lt n hpos
        omega

/-! ### Dates -/

theorem yearStart_succ (y : ℕ) : yearStart (y + 1) = yearStart y + monthStart (isLeap y) 12 := by
  have hsum : ∀ leap, monthStart leap 12 = if leap then 366 else 365 := by decide
  -- a term of the sum grows in the year after a multiple
  have h4 : (y + 3) / 4 + (if y % 4 = 0 then 1 else 0) = y / 4 + 1 := by
    split
    · omega
    · omega
  have h100 : (y + 99) / 100 + (if y % 100 = 0 then 1 else 0) = y / 100 + 1 := by
    split
    · omega
    · omega
  have h400 : (y + 399) / 400 + (if y % 400 = 0 then 1 else 0) = y / 400 + 1 := by
    split
    · omega
    · omega
  have h4' : (y + 1 + 3) / 4 = y / 4 + 1 := by omega
  have h100' : (y + 1 + 99) / 100 = y / 100 + 1 := by omega
  have h400' : (y + 1 + 399) / 400 = y / 400 + 1 := by omega
  have hsmall : y / 100 ≤ y := Nat.div_le_self y 100
  have hfirst : y % 100 ≠ 0 → 0 < y := by omega
  have hmul100 : y % 100 = 0 → y % 4 = 0 := by omega
  have hmul400 : y % 400 = 0 → y % 100 = 0 := by omega
  rw [hsum, yearStart, yearStart, h4', h100', h400']
  generalize (y + 3) / 4 = a, (y + 99) / 100 = b, (y + 399) / 400 = c at h4 h100 h400 ⊢
  generalize y / 4 = a', y / 100 = b', y / 400 = c' at h4 h100 h400 hsmall ⊢
  by_cases d4 : y % 4 = 0
  · by_cases d100 : y % 100 = 0
    · by_cases d400 : y % 400 = 0
      · have hleap : isLeap y = true := by simp [isLeap, d4, d400]
        rw [hleap, if_pos rfl]
        rw [if_pos d4] at h4
        rw [if_pos d100] at h100
        rw [if_pos d400] at h400
        omega
      · have hleap : isLeap y = false := by simp [isLeap, d100, d400]
        rw [hleap, if_neg Bool.false_ne_true]
        rw [if_pos d4] at h4
        rw [if_pos d100] at h100
        rw [if_neg d400] at h400
        omega
    · have hleap : isLeap y = true := by simp [isLeap, d4, d100]
      have hpos := hfirst d100
      rw [hleap, if_pos rfl]
      rw [if_pos d4] at h4
      rw [if_neg d100] at h100
      rw [if_neg fun h => d100 (hmul400 h)] at h400
      omega
  · have hleap : isLeap y = false := by simp [isLeap, d4]
    have d100 : y % 100 ≠ 0 := fun h => d4 (hmul100 h)
    have hpos := hfirst d100
    rw [hleap, if_neg Bool.false_ne_true]
    rw [if_neg d4] at h4
    rw [if_neg d100] at h100
    rw [if_neg fun h => d100 (hmul400 h)] at h400
    omega

theorem yearOf_le (day : ℕ) : yearOf day ≤ 9999 ∧ yearStart (yearOf day) ≤ day :=
  ⟨Nat.findGreatest_le _, Nat.findGreatest_spec (P := fun y => yearStart y ≤ day) (Nat.zero_le _) (Nat.zero_le _)⟩

/-- A day lies before the next year. -/
theorem lt_nextYear {day : ℕ} (h : day < yearStart 10000) : day < yearStart (yearOf day + 1) := by
  by_cases hlast : yearOf day = 9999
  · rw [hlast]
    exact h
  · have hle := (yearOf_le day).1
    exact Nat.not_le.mp (Nat.findGreatest_is_greatest (P := fun y => yearStart y ≤ day)
      (Nat.lt_succ_self _) (by omega : yearOf day + 1 ≤ 9999))

theorem yearOf_mono {d d' : ℕ} (h : d ≤ d') : yearOf d ≤ yearOf d' :=
  Nat.le_findGreatest (yearOf_le d).1 ((yearOf_le d).2.trans h)

theorem monthOf_le (leap : Bool) (day : ℕ) :
    monthOf leap day ≤ 11 ∧ monthStart leap (monthOf leap day) ≤ day :=
  ⟨Nat.findGreatest_le _, Nat.findGreatest_spec (P := fun m => monthStart leap m ≤ day) (Nat.zero_le _) (Nat.zero_le _)⟩

theorem lt_nextMonth {leap : Bool} {day : ℕ} (h : day < monthStart leap 12) :
    day < monthStart leap (monthOf leap day + 1) := by
  by_cases hlast : monthOf leap day = 11
  · rw [hlast]
    exact h
  · have hle := (monthOf_le leap day).1
    exact Nat.not_le.mp (Nat.findGreatest_is_greatest (P := fun m => monthStart leap m ≤ day)
      (Nat.lt_succ_self _) (by omega : monthOf leap day + 1 ≤ 11))

theorem monthOf_mono (leap : Bool) {d d' : ℕ} (h : d ≤ d') : monthOf leap d ≤ monthOf leap d' :=
  Nat.le_findGreatest (monthOf_le leap d).1 ((monthOf_le leap d).2.trans h)

/-- Days of a month fit two digits. -/
theorem dayOfMonth_lt {leap : Bool} {day : ℕ} (h : day < monthStart leap 12) :
    day - monthStart leap (monthOf leap day) + 1 < 10 ^ 2 := by
  have hlen : ∀ leap, ∀ m < 12, monthStart leap (m + 1) ≤ monthStart leap m + 31 := by decide
  have hmonth := hlen leap (monthOf leap day) (by have := (monthOf_le leap day).1; omega)
  have hnext := lt_nextMonth h
  omega

theorem dateText_rising : Rising 10 (yearStart 10000) dateText := by
  refine ⟨fun n => ?_, fun d d' hdd hd => ?_⟩
  · simp only [dateText, byteLen_append, digits_byteLen]
    decide
  · have hy := yearOf_le d
    have hy' := yearOf_le d'
    have hin := lt_nextYear hd
    rw [yearStart_succ] at hin
    unfold dateText
    dsimp only
    refine below_append (by simp only [SameLen, byteLen_append, digits_byteLen]) ?_
    rcases Nat.lt_or_eq_of_le (yearOf_mono (Nat.le_of_lt hdd)) with hlt | heq
    · left
      exact below_append (by simp only [SameLen, digits_byteLen]) (.inl (digits_below hlt (by omega)))
    · right
      refine ⟨by rw [heq], ?_⟩
      rw [heq] at hy ⊢
      generalize isLeap (yearOf d') = leap at hin ⊢
      have hday : d - yearStart (yearOf d') < d' - yearStart (yearOf d') := by omega
      have hend : d' - yearStart (yearOf d') < monthStart leap 12 := by omega
      generalize d - yearStart (yearOf d') = e at hday ⊢
      generalize d' - yearStart (yearOf d') = e' at hday hend ⊢
      have hm := monthOf_le leap e
      have hm' := monthOf_le leap e'
      refine below_append (by simp only [SameLen, byteLen_append, digits_byteLen]) ?_
      rcases Nat.lt_or_eq_of_le (monthOf_mono leap (Nat.le_of_lt hday)) with hlt | heqm
      · left
        exact below_append (by simp only [SameLen, digits_byteLen])
          (.inl (digits_below (by omega) (by omega)))
      · right
        refine ⟨by rw [heqm], ?_⟩
        rw [heqm] at hm ⊢
        exact digits_below (by omega) (dayOfMonth_lt hend)

theorem secondText_rising : Rising 19 (yearStart 10000 * 24 * 60 * 60) secondText :=
  ((dateText_rising.field 'T' (by decide) (by decide)).field ':' (by decide) (by decide)).field ':'
    (by decide) (by decide)

/-! ### Fractions -/

/-- What is left of a second is written in `w` of nine digits, the others being zero. -/
theorem fraction_width {n : ℕ} (h : n ≠ 0) :
    ∃ w ≤ 9, 10 ^ (9 - w) ∣ n ∧ fractionText n = '.' :: digits w (n / 10 ^ (9 - w)) := by
  unfold fractionText
  rw [if_neg h]
  split
  · next h3 => exact ⟨3, by decide, Nat.dvd_of_mod_eq_zero h3, rfl⟩
  · split
    · next h6 => exact ⟨6, by decide, Nat.dvd_of_mod_eq_zero h6, rfl⟩
    · exact ⟨9, le_refl _, one_dvd _, by rw [Nat.sub_self, pow_zero, Nat.div_one]⟩

/-- More digits begin with the fewer ones. -/
theorem digits_cut {w w' : ℕ} (hw : w ≤ w') (hw' : w' ≤ 9) (n : ℕ) : digits w' (n / 10 ^ (9 - w')) =
    digits w (n / 10 ^ (9 - w)) ++ digits (w' - w) (n / 10 ^ (9 - w') % 10 ^ (w' - w)) := by
  have hsplit : w' = w + (w' - w) := by omega
  have hpow : 10 ^ (9 - w') * 10 ^ (w' - w) = 10 ^ (9 - w) := by
    rw [← pow_add]
    congr 1
    omega
  conv_lhs => rw [hsplit, digits_add]
  rw [← hsplit, Nat.div_div_eq_div_mul, hpow]

/-- The offset is below every further digit. -/
theorem offset_below (v m : ℕ) (x : Text) (h : 0 < v) : Below OFFSET (digits v m ++ x) := by
  have hsplit : v = 1 + (v - 1) := by omega
  have hfirst : digits 1 (m / 10 ^ (v - 1)) = [Char.ofNat (48 + m / 10 ^ (v - 1) % 10)] := rfl
  have hoffset : utf8 OFFSET = 43 :: utf8 "00:00".toList := by decide
  have hmod : m / 10 ^ (v - 1) % 10 < 10 := Nat.mod_lt _ (by decide)
  rw [hsplit, digits_add, hfirst, Below, List.append_assoc, utf8_append, utf8_digit _ hmod, hoffset,
    List.singleton_append, List.cons_lt_cons_iff]
  left
  rw [UInt8.lt_iff_toNat_lt, UInt8.toNat_ofNat']
  have h43 : (43 : UInt8).toNat = 43 := rfl
  omega

theorem fraction_below {a b : ℕ} (hab : a < b) (hb : b < 10 ^ 9) :
    Below (fractionText a ++ OFFSET) (fractionText b ++ OFFSET) := by
  obtain ⟨w', hw', hdvd', hb'⟩ := fraction_width (Nat.ne_of_gt (Nat.zero_lt_of_lt hab))
  have hlt : ∀ w ≤ 9, 10 ^ (9 - w) ∣ b → a / 10 ^ (9 - w) < b / 10 ^ (9 - w) := fun w _ hdvd =>
    Nat.div_lt_div_of_lt_of_dvd hdvd hab
  have hbound : ∀ w ≤ 9, b / 10 ^ (9 - w) < 10 ^ w := by
    intro w hw
    refine (Nat.div_lt_iff_lt_mul (Nat.pow_pos (by decide))).mpr ?_
    rw [← pow_add, Nat.add_sub_cancel' hw]
    exact hb
  by_cases hzero : a = 0
  · have hplus : utf8 OFFSET = 43 :: utf8 "00:00".toList := by decide
    have hdot : ∀ x : Text, utf8 ('.' :: x) = 46 :: utf8 x := fun x => rfl
    have hnone : fractionText a = [] := by rw [hzero]; rfl
    rw [hnone, hb', List.nil_append, List.cons_append, Below, hdot, hplus, List.cons_lt_cons_iff]
    exact .inl (by decide)
  · obtain ⟨w, hw, -, ha'⟩ := fraction_width hzero
    rw [ha', hb']
    suffices hpast : Below (digits w (a / 10 ^ (9 - w)) ++ OFFSET) (digits w' (b / 10 ^ (9 - w')) ++ OFFSET) from
      below_append_left ['.'] hpast
    rcases Nat.lt_or_ge w w' with hww | hww
    · -- the digits that both have, then the offset against the next digit
      rw [digits_cut (Nat.le_of_lt hww) hw' b, List.append_assoc]
      refine below_append (by rw [SameLen, digits_byteLen, digits_byteLen]) ?_
      rcases Nat.lt_or_eq_of_le (Nat.div_le_div_right (c := 10 ^ (9 - w)) (Nat.le_of_lt hab)) with hq | hq
      · exact .inl (digits_below hq (hbound w hw))
      · exact .inr ⟨by rw [hq], offset_below _ _ _ (by omega)⟩
    · rw [digits_cut hww hw a, List.append_assoc]
      exact below_append (by rw [SameLen, digits_byteLen, digits_byteLen])
        (.inl (digits_below (hlt w' hw' hdvd') (hbound w' hw')))

/-! ### Stamps -/

/-- Nanoseconds of the years 0 to 9999. -/
def SPAN : ℕ := yearStart 10000 * 24 * 60 * 60 * 1000000000

theorem stampText_below {a b : ℕ} (hab : a < b) (hb : b < SPAN) : Below (stampText a) (stampText b) := by
  have hsec : b / 1000000000 < yearStart 10000 * 24 * 60 * 60 :=
    (Nat.div_lt_iff_lt_mul (by decide)).mpr hb
  refine below_append (by rw [SameLen, secondText_rising.width, secondText_rising.width]) ?_
  rcases Nat.lt_or_eq_of_le (Nat.div_le_div_right (c := 1000000000) (Nat.le_of_lt hab)) with hq | hq
  · exact .inl (secondText_rising.below _ _ hq hsec)
  · refine .inr ⟨by rw [hq], fraction_below ?_ (Nat.mod_lt _ (by decide))⟩
    omega

/-- Stamps sort like the instants they stand for. -/
theorem stampText_lt_iff {a b : ℕ} (ha : a < SPAN) (hb : b < SPAN) :
    Below (stampText a) (stampText b) ↔ a < b := by
  constructor
  · intro h
    by_contra hge
    rcases Nat.lt_or_eq_of_le (Nat.not_lt.mp hge) with hlt | heq
    · exact List.lt_asymm h (stampText_below hlt ha)
    · rw [heq] at h
      exact List.lt_irrefl _ h
  · exact fun h => stampText_below h hb

theorem stampText_inj {a b : ℕ} (ha : a < SPAN) (hb : b < SPAN) (h : stampText a = stampText b) : a = b := by
  rcases Nat.lt_trichotomy a b with hlt | heq | hlt
  · have hbelow := stampText_below hlt hb
    rw [h] at hbelow
    exact absurd hbelow (List.lt_irrefl _)
  · exact heq
  · have hbelow := stampText_below hlt ha
    rw [h] at hbelow
    exact absurd hbelow (List.lt_irrefl _)

end P2pnas.Lib.Rfc3339
