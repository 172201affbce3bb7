import P2pnas.Dht.Overlay
import P2pnas.Lib.Numerals

/-!
# Addresses as texts

What the standard library writes for an IP address, and what it reads as an IP address and as a
socket address. An IPv6 address leaves out its first longest run of zero segments, a run of one
apart, and is written with an IPv4 tail when it is an IPv4-mapped one. In front of a port it stands
in brackets; a socket address without them is an IPv4 one.
-/

namespace P2pnas.Dht.AddrText
open P2pnas.Lib.Strings P2pnas.Lib.Numerals P2pnas.Dht.Table P2pnas.Dht.Overlay

/-! ### Writing -/

def showV4 (a b c d : UInt8) : Text :=
  Nat.toDigits 10 a.toNat ++ '.' :: (Nat.toDigits 10 b.toNat ++ '.' ::
    (Nat.toDigits 10 c.toNat ++ '.' :: Nat.toDigits 10 d.toNat))

/-- A run of zero segments. -/
structure Span where
  start : ℕ
  len : ℕ

/-- The longest run so far, the first of its length, and the one that reaches up to here. -/
def extendSpan (spans : Span × Span) (segment : UInt16 × ℕ) : Span × Span :=
  if segment.1 = 0 then
    let current : Span := ⟨if spans.2.len = 0 then segment.2 else spans.2.start, spans.2.len + 1⟩
    (if spans.1.len < current.len then current else spans.1, current)
  else (spans.1, ⟨0, 0⟩)

def longestZeroes (segments : List UInt16) : Span :=
  (segments.zipIdx.foldl extendSpan (⟨0, 0⟩, ⟨0, 0⟩)).1

/-- `fmt_subslice`. -/
def showSegments : List UInt16 → Text
  | [] => []
  | first :: tail => Nat.toDigits 16 first.toNat ++ tail.flatMap fun segment => ':' :: Nat.toDigits 16 segment.toNat

def showV6 (segments : List UInt16) : Text :=
  let zeroes := longestZeroes segments
  if 1 < zeroes.len then
    showSegments (segments.take zeroes.start) ++ "::".toList ++
      showSegments (segments.drop (zeroes.start + zeroes.len))
  else showSegments segments

/-- `Display` of an IP address. -/
def showIp : IpAddr → Text
  | .v4 a b c d => showV4 a b c d
  | .v6 0 0 0 0 0 0xffff ab cd =>
    "::ffff:".toList ++ showV4 (ab >>> 8).toUInt8 ab.toUInt8 (cd >>> 8).toUInt8 cd.toUInt8
  | .v6 s₀ s₁ s₂ s₃ s₄ s₅ s₆ s₇ => showV6 [s₀, s₁, s₂, s₃, s₄, s₅, s₆, s₇]

/-! ### Reading

A reader gives what it read and the text behind it, or fails and leaves the text to the next one. -/

def readGivenChar (c : Char) : Text → Option Text
  | d :: s => if d = c then some s else none
  | [] => none

/-- `read_separator`: every item but the first one stands behind a separator. -/
def readSeparator {α : Type} (sep : Char) (index : ℕ) (inner : Text → Option (α × Text)) (s : Text) :
    Option (α × Text) :=
  if 0 < index then (readGivenChar sep s).bind inner else inner s

def readOctet (s : Text) : Option (UInt8 × Text) :=
  (readNumber 10 (some 3) false 256 s).map fun r => (UInt8.ofNat r.1, r.2)

def readIpv4 (s : Text) : Option ((UInt8 × UInt8 × UInt8 × UInt8) × Text) := do
  let (a, s) ← readOctet s
  let (b, s) ← readSeparator '.' 1 readOctet s
  let (c, s) ← readSeparator '.' 2 readOctet s
  let (d, s) ← readSeparator '.' 3 readOctet s
  return ((a, b, c, d), s)

def readGroup (s : Text) : Option (UInt16 × Text) :=
  (readNumber 16 (some 4) true 65536 s).map fun r => (UInt16.ofNat r.1, r.2)

/-- `u16::from_be_bytes`. -/
def fromBeBytes (hi lo : UInt8) : UInt16 := UInt16.ofNat (hi.toNat * 256 + lo.toNat)

/-- Groups from index `i` on, and whether an IPv4 address ended them; that takes up two groups. -/
def readGroups (i : ℕ) : ℕ → Text → List UInt16 × Bool × Text
  | 0, s => ([], false, s)
  | left + 1, s =>
    match if 0 < left then readSeparator ':' i readIpv4 s else none with
    | some ((a, b, c, d), s) => ([fromBeBytes a b, fromBeBytes c d], true, s)
    | none =>
      match readSeparator ':' i readGroup s with
      | some (group, s) =>
        let (groups, isV4, s) := readGroups (i + 1) left s
        (group :: groups, isV4, s)
      | none => ([], false, s)

def readIpv6 (s : Text) : Option (List UInt16 × Text) :=
  let (head, headIpv4, s) := readGroups 0 8 s
  if head.length = 8 then some (head, s)
  else if headIpv4 then none
  else do
    let s ← readGivenChar ':' s
    let s ← readGivenChar ':' s
    let (tail, _, s) := readGroups 0 (8 - (head.length + 1)) s
    return (head ++ List.replicate (8 - head.length - tail.length) 0 ++ tail, s)

def ofSegments : List UInt16 → Option IpAddr
  | [s₀, s₁, s₂, s₃, s₄, s₅, s₆, s₇] => some (.v6 s₀ s₁ s₂ s₃ s₄ s₅ s₆ s₇)
  | _ => none

def readIpv6Addr (s : Text) : Option (IpAddr × Text) := do
  let (segments, s) ← readIpv6 s
  let ip ← ofSegments segments
  return (ip, s)

def readIpv4Addr (s : Text) : Option (IpAddr × Text) :=
  (readIpv4 s).map fun r => (.v4 r.1.1 r.1.2.1 r.1.2.2.1 r.1.2.2.2, r.2)

def readScopeId (s : Text) : Option (UInt32 × Text) := do
  let s ← readGivenChar '%' s
  let (id, s) ← readNumber 10 none true (2 ^ 32) s
  return (UInt32.ofNat id, s)

def readPort (s : Text) : Option (UInt16 × Text) := do
  let s ← readGivenChar ':' s
  let (port, s) ← readNumber 10 none true 65536 s
  return (UInt16.ofNat port, s)

def readSocketAddrV4 (s : Text) : Option (SocketAddr × Text) := do
  let (ip, s) ← readIpv4Addr s
  let (port, s) ← readPort s
  return (⟨ip, port, 0, 0⟩, s)

def readSocketAddrV6 (s : Text) : Option (SocketAddr × Text) := do
  let s ← readGivenChar '[' s
  let (ip, s) ← readIpv6Addr s
  let (scopeId, s) := (readScopeId s).getD (0, s)
  let s ← readGivenChar ']' s
  let (port, s) ← readPort s
  return (⟨ip, port, 0, scopeId⟩, s)

/-- `parse_with`: the whole text is read. -/
def parseWith {α : Type} (read : Text → Option (α × Text)) (s : Text) : Option α :=
  match read s with
  | some (x, []) => some x
  | _ => none

/-- `str::parse::<IpAddr>`. -/
def parseIp : Text → Option IpAddr := parseWith fun s => (readIpv4Addr s).orElse fun _ => readIpv6Addr s

/-- `str::parse::<SocketAddr>`. -/
def parseSocketAddr : Text → Option SocketAddr :=
  parseWith fun s => (readSocketAddrV4 s).orElse fun _ => readSocketAddrV6 s

/-! ### IPv4 is read back -/

theorem noDigit_cons {c : Char} (s : Text) (h : toDigit 10 c = none) : NoDigit 10 (c :: s) := by
  intro d hd
  rw [← Option.some.inj hd]
  exact h

theorem noDigit_nil : NoDigit 10 [] := fun _ h => nomatch h

theorem readOctet_digits (a : UInt8) {rest : Text} (hrest : NoDigit 10 rest) :
    readOctet (Nat.toDigits 10 a.toNat ++ rest) = some (a, rest) := by
  have hlt : a.toNat < 256 := a.toNat_lt
  have hlen : (Nat.toDigits 10 a.toNat).length ≤ 3 :=
    (Nat.length_toDigits_le_iff (by decide) (by decide)).mpr (by omega)
  have hread : readNumber 10 (some 3) false 256 (Nat.toDigits 10 a.toNat ++ rest) = some (a.toNat, rest) :=
    readNumber_toDigits (by decide) (by decide) (fun k hk => Option.some.inj hk ▸ hlen) hlt hrest
  rw [readOctet, hread, Option.map_some, UInt8.ofNat_toNat]

theorem readSeparator_behind {α : Type} (sep : Char) (i : ℕ) (inner : Text → Option (α × Text)) (s : Text) :
    readSeparator sep (i + 1) inner (sep :: s) = inner s := by
  rw [readSeparator, if_pos (Nat.succ_pos i), readGivenChar, if_pos rfl, Option.bind_some]

theorem readIpv4_showV4 (a b c d : UInt8) {rest : Text} (hrest : NoDigit 10 rest) :
    readIpv4 (showV4 a b c d ++ rest) = some ((a, b, c, d), rest) := by
  have hdot : ∀ s, NoDigit 10 ('.' :: s) := fun s => noDigit_cons s (by decide)
  have ha := readOctet_digits a (hdot (Nat.toDigits 10 b.toNat ++ '.' :: (Nat.toDigits 10 c.toNat ++ '.' ::
    (Nat.toDigits 10 d.toNat ++ rest))))
  have hb := readOctet_digits b (hdot (Nat.toDigits 10 c.toNat ++ '.' :: (Nat.toDigits 10 d.toNat ++ rest)))
  have hc := readOctet_digits c (hdot (Nat.toDigits 10 d.toNat ++ rest))
  have hd := readOctet_digits d hrest
  have htext : showV4 a b c d ++ rest = Nat.toDigits 10 a.toNat ++ '.' :: (Nat.toDigits 10 b.toNat ++ '.' ::
      (Nat.toDigits 10 c.toNat ++ '.' :: (Nat.toDigits 10 d.toNat ++ rest))) := by
    simp only [showV4, List.append_assoc, List.cons_append]
  rw [readIpv4, htext, ha]
  simp only [Option.bind_eq_bind, Option.bind_some, readSeparator_behind, hb, hc, hd]
  rfl

theorem readPort_digits (port : UInt16) : readPort (':' :: Nat.toDigits 10 port.toNat) = some (port, []) := by
  have hread : readNumber 10 none true 65536 (Nat.toDigits 10 port.toNat ++ []) = some (port.toNat, []) :=
    readNumber_toDigits (by decide) (by decide) (fun k hk => nomatch hk) port.toNat_lt noDigit_nil
  rw [List.append_nil] at hread
  rw [readPort, readGivenChar, if_pos rfl]
  simp only [Option.bind_eq_bind, Option.bind_some, hread, UInt16.ofNat_toNat]
  rfl

/-- An IPv4 address with its port is read as the two. -/
theorem parseSocketAddr_showV4 (a b c d : UInt8) (port : UInt16) :
    parseSocketAddr (showV4 a b c d ++ ':' :: Nat.toDigits 10 port.toNat) = some (.new (.v4 a b c d) port) := by
  have hip := readIpv4_showV4 a b c d (noDigit_cons (Nat.toDigits 10 port.toNat) (c := ':') (by decide))
  have hread : readSocketAddrV4 (showV4 a b c d ++ ':' :: Nat.toDigits 10 port.toNat) =
      some (.new (.v4 a b c d) port, []) := by
    rw [readSocketAddrV4, readIpv4Addr, hip]
    simp only [Option.bind_eq_bind, Option.bind_some, Option.map_some, readPort_digits]
    rfl
  rw [parseSocketAddr, parseWith, hread]
  rfl

/-! ### IPv6 without brackets is not -/

/-- A colon comes before any dot, and no bracket stands in front. -/
def ColonFirst (s : Text) : Prop := ∃ p q, s = p ++ ':' :: q ∧ '.' ∉ p ∧ '[' ∉ p

theorem ColonFirst.append {s : Text} (h : ColonFirst s) (r : Text) : ColonFirst (s ++ r) := by
  obtain ⟨p, q, rfl, hdot, hbracket⟩ := h
  exact ⟨p, q ++ r, by rw [List.append_assoc, List.cons_append], hdot, hbracket⟩

theorem colonFirst_cons (q : Text) : ColonFirst (':' :: q) := ⟨[], q, rfl, List.not_mem_nil, List.not_mem_nil⟩

theorem digits_plain (n : ℕ) : '.' ∉ Nat.toDigits 16 n ∧ '[' ∉ Nat.toDigits 16 n := by
  obtain ⟨ds, htext, hlt, -, -⟩ := toDigits_eq_map (by decide : 1 < 16) n
  have key : ∀ d < 16, d.digitChar ≠ '.' ∧ d.digitChar ≠ '[' := by decide
  rw [htext]
  constructor
  · intro h
    obtain ⟨d, hd, heq⟩ := List.mem_map.mp h
    exact (key d (hlt d hd)).1 heq
  · intro h
    obtain ⟨d, hd, heq⟩ := List.mem_map.mp h
    exact (key d (hlt d hd)).2 heq

theorem showSegments_colon (segments : List UInt16) (q : Text) :
    ColonFirst (showSegments segments ++ ':' :: q) := by
  cases segments with
  | nil => exact colonFirst_cons q
  | cons first tail =>
    obtain ⟨hdot, hbracket⟩ := digits_plain first.toNat
    rw [showSegments, List.append_assoc]
    cases tail with
    | nil => exact ⟨_, _, rfl, hdot, hbracket⟩
    | cons second tail => exact ⟨_, _, rfl, hdot, hbracket⟩

theorem showSegments_two (first second : UInt16) (tail : List UInt16) :
    ColonFirst (showSegments (first :: second :: tail)) := by
  obtain ⟨hdot, hbracket⟩ := digits_plain first.toNat
  exact ⟨_, _, rfl, hdot, hbracket⟩

theorem showV6_colon (first second : UInt16) (tail : List UInt16) :
    ColonFirst (showV6 (first :: second :: tail)) := by
  rw [showV6]
  split
  · rw [List.append_assoc]
    exact showSegments_colon _ _
  · exact showSegments_two first second tail

theorem showIp_colon (s₀ s₁ s₂ s₃ s₄ s₅ s₆ s₇ : UInt16) :
    ColonFirst (showIp (.v6 s₀ s₁ s₂ s₃ s₄ s₅ s₆ s₇)) := by
  unfold showIp
  split
  · next h => cases h
  · exact colonFirst_cons _
  · next h =>
    cases h
    exact showV6_colon _ _ _

theorem readGivenChar_cons {c d : Char} (s : Text) (h : c ≠ d) : readGivenChar d (c :: s) = none := if_neg h

theorem ColonFirst.readGivenChar {s : Text} (h : ColonFirst s) :
    readGivenChar '.' s = none ∧ readGivenChar '[' s = none := by
  obtain ⟨p, q, rfl, hdot, hbracket⟩ := h
  cases p with
  | nil => exact ⟨readGivenChar_cons q (by decide), readGivenChar_cons q (by decide)⟩
  | cons c p =>
    have hd : c ≠ '.' := fun h => hdot (h ▸ List.mem_cons_self)
    have hb : c ≠ '[' := fun h => hbracket (h ▸ List.mem_cons_self)
    exact ⟨readGivenChar_cons _ hd, readGivenChar_cons _ hb⟩

/-- The digits at the front end before the colon. -/
theorem ColonFirst.spanDigits {s : Text} (h : ColonFirst s) : ColonFirst (spanDigits 10 s).2 := by
  obtain ⟨p, q, rfl, hdot, hbracket⟩ := h
  induction p with
  | nil => exact colonFirst_cons q
  | cons c p ih =>
    rw [List.cons_append, Lib.Numerals.spanDigits]
    cases toDigit 10 c with
    | none => exact ⟨c :: p, q, rfl, hdot, hbracket⟩
    | some d => exact ih (fun h => hdot (List.mem_cons_of_mem c h)) fun h => hbracket (List.mem_cons_of_mem c h)

theorem ColonFirst.readIpv4 {s : Text} (h : ColonFirst s) : readIpv4 s = none := by
  cases ho : readOctet s with
  | none =>
    rw [AddrText.readIpv4, ho]
    rfl
  | some r =>
    obtain ⟨⟨n, rest⟩, hn, rfl⟩ := Option.map_eq_some_iff.mp ho
    have hnext : readSeparator '.' 1 readOctet rest = none := by
      rw [readSeparator, if_pos Nat.one_pos, readNumber_rest hn, h.spanDigits.readGivenChar.1]
      rfl
    rw [AddrText.readIpv4, ho]
    simp only [Option.bind_eq_bind, Option.bind_some, hnext]
    rfl

/-- No socket address is read from it. -/
theorem ColonFirst.parseSocketAddr {s : Text} (h : ColonFirst s) : parseSocketAddr s = none := by
  have h4 : readSocketAddrV4 s = none := by
    rw [readSocketAddrV4, readIpv4Addr, h.readIpv4]
    rfl
  have h6 : readSocketAddrV6 s = none := by
    rw [readSocketAddrV6, h.readGivenChar.2]
    rfl
  rw [AddrText.parseSocketAddr, parseWith, h4, h6]
  rfl

end P2pnas.Dht.AddrText
