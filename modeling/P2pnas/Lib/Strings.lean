import Mathlib.Data.List.Infix
import P2pnas.Lib.Frames

/-!
# Text as sequences of characters

A string of the program is modelled by its characters; its bytes are their UTF-8 encodings.
Two operations work on bytes and not on characters and are given with the behaviour they
have in the language and the database: a slice `&s[n..]` at a byte offset, which fails when
the offset is not a character boundary, and SQL `LIKE` with its default meaning (`%` any
run of characters, `_` one character, ASCII letters compared without case).
-/

namespace P2pnas.Lib.Strings
open P2pnas.Lib.Frames

abbrev Text := List Char

-- by name, so that a membership test carries no proof of its own
instance (priority := 1100) : LawfulBEq Text := inferInstance
instance (priority := 1100) : LawfulBEq (Text × Text) := inferInstance

/-- UTF-8 bytes of a text. -/
def utf8 (t : Text) : Bytes := t.flatMap String.utf8EncodeChar

theorem utf8_injective : Function.Injective utf8 := by
  intro s t h
  have he : s.utf8Encode = t.utf8Encode := by
    simp only [List.utf8Encode]
    exact congrArg List.toByteArray h
  have hd := congrArg ByteArray.utf8Decode? he
  rw [List.utf8Decode?_utf8Encode, List.utf8Decode?_utf8Encode] at hd
  have ha := Option.some.inj hd
  exact congrArg Array.toList ha

/-- `String::from_utf8`; `none` on bytes that no text has. -/
def fromUtf8 (bs : Bytes) : Option Text := (ByteArray.utf8Decode? bs.toByteArray).map Array.toList

theorem fromUtf8_utf8 (t : Text) : fromUtf8 (utf8 t) = some t := by
  have he : (utf8 t).toByteArray = t.utf8Encode := rfl
  rw [fromUtf8, he, List.utf8Decode?_utf8Encode, Option.map_some, List.toList_toArray]

theorem utf8_fromUtf8 {bs : Bytes} {t : Text} (h : fromUtf8 bs = some t) : utf8 t = bs := by
  obtain ⟨cs, hcs, rfl⟩ := Option.map_eq_some_iff.mp h
  have hget := ByteArray.utf8Encode_get_utf8Decode? (b := bs.toByteArray) (h := by rw [hcs]; rfl)
  have hbytes := congrArg (fun b : ByteArray => b.data.toList) hget
  simpa [hcs, List.utf8Encode, utf8] using hbytes

theorem utf8_append (s t : Text) : utf8 (s ++ t) = utf8 s ++ utf8 t := by
  simp only [utf8, List.flatMap_append]

/-- `s.len()`: the length in bytes. -/
def byteLen (s : Text) : ℕ := (utf8 s).length

theorem byteLen_cons (c : Char) (s : Text) : byteLen (c :: s) = c.utf8Size + byteLen s := by
  simp only [byteLen, utf8, List.flatMap_cons, List.length_append, String.length_utf8EncodeChar]

/-- `&s[n..]`; `none` where the slice panics (past the end, or inside a character). -/
def sliceFrom : Text → ℕ → Option Text
  | s, 0 => some s
  | [], _ + 1 => none
  | c :: s, n + 1 => if c.utf8Size ≤ n + 1 then sliceFrom s (n + 1 - c.utf8Size) else none

theorem sliceFrom_append (p q : Text) : sliceFrom (p ++ q) (byteLen p) = some q := by
  induction p with
  | nil => cases q <;> rfl
  | cons c p ih =>
    have hc := Char.utf8Size_pos c
    obtain ⟨k, hk⟩ : ∃ k, byteLen (c :: p) = k + 1 := ⟨byteLen (c :: p) - 1, by
      rw [byteLen_cons]; omega⟩
    have hb := byteLen_cons c p
    rw [hk] at hb ⊢
    rw [List.cons_append, sliceFrom, if_pos (by omega)]
    have hsub : k + 1 - c.utf8Size = byteLen p := by omega
    rw [hsub]
    exact ih

/-- `s.trim_matches(c)`. -/
def trimMatches (c : Char) (s : Text) : Text :=
  ((s.dropWhile (· = c)).reverse.dropWhile (· = c)).reverse

/-- `char::is_whitespace`: the characters with the Unicode property `White_Space`. -/
def isWhitespace (c : Char) : Bool :=
  (9 ≤ c.toNat && c.toNat ≤ 13) || c.toNat = 0x20 || c.toNat = 0x85 || c.toNat = 0xA0 ||
    c.toNat = 0x1680 || (0x2000 ≤ c.toNat && c.toNat ≤ 0x200A) || c.toNat = 0x2028 ||
    c.toNat = 0x2029 || c.toNat = 0x202F || c.toNat = 0x205F || c.toNat = 0x3000

/-- `s.trim()`. -/
def trim (s : Text) : Text :=
  ((s.dropWhile isWhitespace).reverse.dropWhile isWhitespace).reverse

/-- `s.split(c)`: the maximal runs between separators, one more than there are separators. -/
def splitOn (c : Char) : Text → List Text
  | [] => [[]]
  | d :: s => if d = c then [] :: splitOn c s else
      match splitOn c s with
      | [] => [[d]]
      | r :: rs => (d :: r) :: rs

/-- Lower-case hexadecimal digit of a nibble. -/
def hexDigit (n : ℕ) : Char := if n < 10 then Char.ofNat (48 + n) else Char.ofNat (87 + n)

/-- `hex::encode`. -/
def hexEncode (bs : Bytes) : Text :=
  bs.flatMap fun b => [hexDigit (b.toNat / 16), hexDigit (b.toNat % 16)]

theorem hexEncode_length (bs : Bytes) : (hexEncode bs).length = 2 * bs.length := by
  induction bs with
  | nil => rfl
  | cons b bs ih =>
    simp only [hexEncode, List.flatMap_cons, List.length_append, List.length_cons,
      List.length_nil] at ih ⊢
    omega

theorem hexDigit_inj {m n : ℕ} (hm : m < 16) (hn : n < 16) (h : hexDigit m = hexDigit n) : m = n := by
  have key : ∀ a b : Fin 16, hexDigit a.val = hexDigit b.val → a = b := by decide
  exact congrArg Fin.val (key ⟨m, hm⟩ ⟨n, hn⟩ h)

theorem hexEncode_inj {bs cs : Bytes} (h : hexEncode bs = hexEncode cs) : bs = cs := by
  induction bs generalizing cs with
  | nil =>
    have hl := congrArg List.length h
    rw [hexEncode_length, hexEncode_length, List.length_nil] at hl
    exact (List.length_eq_zero_iff.mp (by omega)).symm
  | cons b bs ih =>
    cases cs with
    | nil =>
      have hl := congrArg List.length h
      rw [hexEncode_length, hexEncode_length, List.length_nil, List.length_cons] at hl
      omega
    | cons c cs =>
      simp only [hexEncode, List.flatMap_cons, List.cons_append, List.nil_append,
        List.cons.injEq] at h ih
      obtain ⟨hhi, hlo, hrest⟩ := h
      have hb := b.toNat_lt
      have hc := c.toNat_lt
      have h1 := hexDigit_inj (by omega) (by omega) hhi
      have h2 := hexDigit_inj (by omega) (by omega) hlo
      have hbc : b = c := UInt8.toNat_inj.mp (by omega)
      rw [hbc, ih hrest]

/-- `char::is_ascii_hexdigit`. -/
def isHexDigit (c : Char) : Bool :=
  ('0' ≤ c && c ≤ '9') || ('a' ≤ c && c ≤ 'f') || ('A' ≤ c && c ≤ 'F')

/-- The value of a hexadecimal digit, either case. -/
def hexValue (c : Char) : Option ℕ :=
  if '0' ≤ c && c ≤ '9' then some (c.toNat - 48)
  else if 'a' ≤ c && c ≤ 'f' then some (c.toNat - 87)
  else if 'A' ≤ c && c ≤ 'F' then some (c.toNat - 55)
  else none

/-- `hex::decode`: `none` on an odd length or on a character that is no digit. -/
def hexDecode : Text → Option Bytes
  | [] => some []
  | [_] => none
  | c :: d :: s =>
    match hexValue c, hexValue d, hexDecode s with
    | some hi, some lo, some bs => some (UInt8.ofNat (hi * 16 + lo) :: bs)
    | _, _, _ => none

theorem hexValue_hexDigit {n : ℕ} (h : n < 16) : hexValue (hexDigit n) = some n := by
  have key : ∀ m : Fin 16, hexValue (hexDigit m.val) = some m.val := by decide
  exact key ⟨n, h⟩

theorem hexDecode_hexEncode (bs : Bytes) : hexDecode (hexEncode bs) = some bs := by
  induction bs with
  | nil => rfl
  | cons b bs ih =>
    have hb := b.toNat_lt
    have hstep : hexEncode (b :: bs) = hexDigit (b.toNat / 16) :: hexDigit (b.toNat % 16) :: hexEncode bs := rfl
    have hval : b.toNat / 16 * 16 + b.toNat % 16 = b.toNat := by omega
    rw [hstep, hexDecode, hexValue_hexDigit (by omega), hexValue_hexDigit (by omega), ih]
    dsimp only
    rw [hval, UInt8.ofNat_toNat]

/-! ### SQL `LIKE` -/

/-- `%` against a text: the rest of the pattern matches some suffix. -/
def likeAny (rest : Text → Bool) : Text → Bool
  | [] => rest []
  | c :: s => rest (c :: s) || likeAny rest s

/-- The characters of a pattern against the characters of a text; ASCII letters match in either case. -/
def likeChars : Text → Text → Bool
  | [], s => s.isEmpty
  | '%' :: p, s => likeAny (likeChars p) s
  | '_' :: p, s => match s with
    | [] => false
    | _ :: s => likeChars p s
  | c :: p, s => match s with
    | [] => false
    | d :: s => c.toLower == d.toLower && likeChars p s

def NUL : Char := Char.ofNat 0

/-- A text up to its first NUL. -/
def cString (s : Text) : Text := s.takeWhile (· ≠ NUL)

/-- `s LIKE pattern`, default collation and no escape character; both end at their first NUL. -/
def like (pattern s : Text) : Bool := likeChars (cString pattern) (cString s)

theorem cString_append (p s : Text) : cString (p ++ s) = if NUL ∈ p then cString p else p ++ cString s := by
  unfold cString
  induction p with
  | nil => rfl
  | cons c p ih =>
    by_cases hc : c = NUL
    · simp [hc]
    · have hne : ¬ NUL = c := fun h => hc h.symm
      simp only [List.cons_append, List.takeWhile_cons, hc, ne_eq, not_false_eq_true, decide_true, if_true, ih,
        List.mem_cons, hne, false_or]
      split
      · rfl
      · rfl

theorem likeAny_true (rest : Text → Bool) (a s : Text) (h : rest s = true) :
    likeAny rest (a ++ s) = true := by
  induction a with
  | nil =>
    cases s with
    | nil => exact h
    | cons c s => simp only [List.nil_append, likeAny, h, Bool.true_or]
  | cons c a ih => simp only [List.cons_append, likeAny, ih, Bool.or_true]

theorem like_any_all (s : Text) : like ['%'] s = true := by
  have h := likeAny_true (likeChars []) (cString s) [] rfl
  rw [List.append_nil] at h
  exact h

/-- A pattern character matches itself, wildcard or not, so a pattern matches every text
that starts with the same characters and whose rest the rest of the pattern matches. -/
theorem likeChars_append (p pat s : Text) (h : likeChars pat s = true) : likeChars (p ++ pat) (p ++ s) = true := by
  induction p with
  | nil => exact h
  | cons c p ih =>
    simp only [List.cons_append]
    unfold likeChars
    split
    · simp_all
    · rename_i heq
      obtain ⟨rfl, rfl⟩ := List.cons.inj heq
      exact likeAny_true _ ['%'] _ ih
    · rename_i heq
      obtain ⟨rfl, rfl⟩ := List.cons.inj heq
      exact ih
    · rename_i heq
      obtain ⟨rfl, rfl⟩ := List.cons.inj heq
      simp only [BEq.rfl, ih, Bool.and_self]

theorem like_append (p pat s : Text) (h : like pat s = true) : like (p ++ pat) (p ++ s) = true := by
  unfold like at h ⊢
  rw [cString_append, cString_append]
  split
  · have hself := likeChars_append (cString p) [] [] rfl
    rwa [List.append_nil] at hself
  · exact likeChars_append p _ _ h

end P2pnas.Lib.Strings
