import P2pnas.Lib.Strings

/-!
# Codecs that read exactly what they write

A codec writes a value before anything else and reads it back off the front. It carries both halves
of its correctness: what was written is read back with the rest untouched, and whatever is accepted
is what the value read would be written as. Codecs are built from words by pairing, by options, by
restricting to another type and by a tag that chooses among several.
-/

namespace P2pnas.Lib.Codecs
open P2pnas.Lib.Frames P2pnas.Lib.Strings

structure Codec (α : Type) where
  write : α → Bytes
  read : Bytes → Option (α × Bytes)
  /-- The values there is room for. -/
  Fits : α → Prop
  read_write : ∀ a rest, Fits a → read (write a ++ rest) = some (a, rest)
  write_read : ∀ bs a rest, read bs = some (a, rest) → Fits a ∧ bs = write a ++ rest

variable {α β : Type}

namespace Codec

/-- Nothing, for a type of one value. -/
def unit : Codec Unit where
  write _ := []
  read bs := some ((), bs)
  Fits _ := True
  read_write _ _ _ := rfl
  write_read bs a rest h := by
    cases h
    exact ⟨trivial, rfl⟩

/-- The next `n` bytes. -/
def raw (n : ℕ) : Codec Bytes where
  write b := b
  read bs := if n ≤ bs.length then some (bs.take n, bs.drop n) else none
  Fits b := b.length = n
  read_write b rest h := by
    have hle : n ≤ (b ++ rest).length := by
      rw [List.length_append]
      omega
    rw [if_pos hle, List.take_left' h, List.drop_left' h]
  write_read bs a rest h := by
    by_cases hle : n ≤ bs.length
    · rw [if_pos hle] at h
      obtain ⟨rfl, rfl⟩ := Prod.mk.inj (Option.some.inj h)
      exact ⟨List.length_take_of_le hle, (List.take_append_drop n bs).symm⟩
    · rw [if_neg hle] at h
      cases h

/-- One after the other. -/
def pair (c : Codec α) (d : Codec β) : Codec (α × β) where
  write p := c.write p.1 ++ d.write p.2
  read bs := (c.read bs).bind fun x => (d.read x.2).map fun y => ((x.1, y.1), y.2)
  Fits p := c.Fits p.1 ∧ d.Fits p.2
  read_write p rest h := by
    rw [List.append_assoc, c.read_write p.1 _ h.1, Option.bind_some, d.read_write p.2 rest h.2]
    rfl
  write_read bs p rest h := by
    rw [Option.bind_eq_some_iff] at h
    obtain ⟨⟨a, mid⟩, hc, h⟩ := h
    rw [Option.map_eq_some_iff] at h
    obtain ⟨⟨b, rest'⟩, hd, hp⟩ := h
    obtain ⟨rfl, rfl⟩ := Prod.mk.inj hp
    obtain ⟨hfa, rfl⟩ := c.write_read _ _ _ hc
    obtain ⟨hfb, rfl⟩ := d.write_read _ _ _ hd
    exact ⟨⟨hfa, hfb⟩, (List.append_assoc ..).symm⟩

/-- The values of another type in the form of this one. -/
def refine (c : Codec α) (make : α → Option β) (fields : β → Option α)
    (fields_make : ∀ a b, c.Fits a → make a = some b → fields b = some a)
    (make_fields : ∀ b a, fields b = some a → make a = some b) : Codec β where
  write b := (fields b).elim [] c.write
  read bs := (c.read bs).bind fun x => (make x.1).map fun b => (b, x.2)
  Fits b := ∃ a, fields b = some a ∧ c.Fits a
  read_write b rest h := by
    obtain ⟨a, hb, ha⟩ := h
    rw [hb, Option.elim_some, c.read_write a rest ha, Option.bind_some, make_fields b a hb]
    rfl
  write_read bs b rest h := by
    rw [Option.bind_eq_some_iff] at h
    obtain ⟨⟨a, mid⟩, hc, h⟩ := h
    rw [Option.map_eq_some_iff] at h
    obtain ⟨b', hmake, hb⟩ := h
    obtain ⟨rfl, rfl⟩ := Prod.mk.inj hb
    obtain ⟨hfits, hbs⟩ := c.write_read _ _ _ hc
    have hfields := fields_make a b' hfits hmake
    exact ⟨⟨a, hfields, hfits⟩, by rw [hfields, Option.elim_some, hbs]⟩

/-- A value whose length or kind a first value tells. -/
def dep (c : Codec α) (d : α → Codec β) (key : β → α)
    (key_eq : ∀ a b, (d a).Fits b → key b = a) : Codec β where
  write b := c.write (key b) ++ (d (key b)).write b
  read bs := (c.read bs).bind fun x => (d x.1).read x.2
  Fits b := c.Fits (key b) ∧ (d (key b)).Fits b
  read_write b rest h := by
    rw [List.append_assoc, c.read_write _ _ h.1, Option.bind_some]
    exact (d (key b)).read_write b rest h.2
  write_read bs b rest h := by
    rw [Option.bind_eq_some_iff] at h
    obtain ⟨⟨a, mid⟩, hc, h⟩ := h
    obtain ⟨hfa, rfl⟩ := c.write_read _ _ _ hc
    obtain ⟨hfb, rfl⟩ := (d a).write_read _ _ _ h
    have hkey := key_eq a b hfb
    exact ⟨⟨hkey ▸ hfa, hkey ▸ hfb⟩, by rw [hkey, List.append_assoc]⟩

/-- A codec that accepts nothing. -/
def never : Codec α where
  write _ := []
  read _ := none
  Fits _ := False
  read_write _ _ h := h.elim
  write_read _ _ _ h := by cases h

end Codec

/-! ### Words -/

/-- The value of bytes whose least significant comes first. -/
def leVal (bs : Bytes) : ℕ := beVal bs.reverse

theorem leBytes_length (w n : ℕ) : (leBytes w n).length = w := by
  rw [leBytes, List.length_reverse, beBytes_length]

theorem leVal_leBytes {w n : ℕ} (h : n < 256 ^ w) : leVal (leBytes w n) = n := by
  rw [leVal, leBytes, List.reverse_reverse, beVal_beBytes, Nat.mod_eq_of_lt h]

theorem leBytes_leVal (bs : Bytes) : leBytes bs.length (leVal bs) = bs := by
  have h := beBytes_beVal bs.reverse
  rw [List.length_reverse] at h
  rw [leBytes, leVal, h, List.reverse_reverse]

theorem leVal_lt (bs : Bytes) : leVal bs < 256 ^ bs.length := by
  have h := beVal_lt bs.reverse
  rwa [List.length_reverse] at h

/-- An unsigned little-endian word of `w` bytes. -/
def word (w : ℕ) : Codec ℕ :=
  (Codec.raw w).refine (fun bs => some (leVal bs)) (fun n => if n < 256 ^ w then some (leBytes w n) else none)
    (by
      intro bs n hlen hn
      cases hn
      have hlen' : bs.length = w := hlen
      subst hlen'
      rw [if_pos (leVal_lt bs), leBytes_leVal])
    (by
      intro n bs h
      split at h
      · next hlt =>
        cases h
        rw [leVal_leBytes hlt]
      · cases h)

theorem word_fits {w n : ℕ} : (word w).Fits n ↔ n < 256 ^ w := by
  constructor
  · rintro ⟨bs, h, -⟩
    dsimp only at h
    split at h
    · assumption
    · cases h
  · intro h
    exact ⟨leBytes w n, if_pos h, leBytes_length w n⟩

theorem word_write {w n : ℕ} (h : n < 256 ^ w) : (word w).write n = leBytes w n := by
  change ((if n < 256 ^ w then some (leBytes w n) else none).elim [] fun b => b) = _
  rw [if_pos h]
  rfl

/-! ### Bytes and texts behind their length -/

def bytes (w : ℕ) : Codec Bytes := (word w).dep Codec.raw List.length fun _ _ h => h

theorem bytes_fits {w : ℕ} {b : Bytes} : (bytes w).Fits b ↔ b.length < 256 ^ w := by
  constructor
  · rintro ⟨h, -⟩
    exact word_fits.mp h
  · intro h
    exact ⟨word_fits.mpr h, rfl⟩

theorem bytes_write {w : ℕ} {b : Bytes} (h : b.length < 256 ^ w) : (bytes w).write b = lpLe w b := by
  change (word w).write b.length ++ b = _
  rw [word_write h, lpLe]

/-- UTF-8 behind its length; bytes that are none are refused. -/
def text (w : ℕ) : Codec Text :=
  (bytes w).refine fromUtf8 (fun t => some (utf8 t))
    (by
      intro b t _ h
      rw [utf8_fromUtf8 h])
    (by
      intro t b h
      cases h
      exact fromUtf8_utf8 t)

/-! ### Tags -/

/-- A word tells which of the codecs the rest is read with. -/
def tagged (w : ℕ) (cs : List (Codec α)) (tag : α → ℕ)
    (tag_eq : ∀ n c a, cs[n]? = some c → c.Fits a → tag a = n) : Codec α :=
  (word w).dep (fun n => cs[n]?.getD Codec.never) tag (by
    intro n a h
    cases hn : cs[n]? with
    | none =>
      rw [hn] at h
      exact False.elim h
    | some c =>
      rw [hn] at h
      exact tag_eq n c a hn h)

/-! ### What an encoding takes -/

/-- There is room for the value, and it takes `n` bytes. -/
def Codec.Spends (c : Codec α) (a : α) (n : ℕ) : Prop := c.Fits a ∧ (c.write a).length = n

theorem Codec.Spends.pair {c : Codec α} {d : Codec β} {a : α} {b : β} {m n : ℕ} (ha : c.Spends a m)
    (hb : d.Spends b n) : (c.pair d).Spends (a, b) (m + n) := by
  refine ⟨⟨ha.1, hb.1⟩, ?_⟩
  change (c.write a ++ d.write b).length = _
  rw [List.length_append, ha.2, hb.2]

theorem Codec.Spends.of_eq {c : Codec α} {a : α} {m n : ℕ} (h : c.Spends a m) (hmn : m = n) : c.Spends a n := hmn ▸ h

theorem refine_spends {c : Codec α} {make : α → Option β} {fields : β → Option α}
    {fields_make : ∀ a b, c.Fits a → make a = some b → fields b = some a}
    {make_fields : ∀ b a, fields b = some a → make a = some b} {a : α} {b : β} {n : ℕ} (hb : fields b = some a)
    (ha : c.Spends a n) : (c.refine make fields fields_make make_fields).Spends b n := by
  refine ⟨⟨a, hb, ha.1⟩, ?_⟩
  change ((fields b).elim [] c.write).length = n
  rw [hb]
  exact ha.2

theorem word_spends {w n : ℕ} (h : n < 256 ^ w) : (word w).Spends n w := by
  refine ⟨word_fits.mpr h, ?_⟩
  rw [word_write h, leBytes_length]

theorem bytes_spends {w : ℕ} {b : Bytes} (h : b.length < 256 ^ w) : (bytes w).Spends b (w + b.length) := by
  refine ⟨bytes_fits.mpr h, ?_⟩
  rw [bytes_write h, lpLe, List.length_append, leBytes_length]

theorem text_spends {w : ℕ} {t : Text} (h : byteLen t < 256 ^ w) : (text w).Spends t (w + byteLen t) :=
  refine_spends rfl (bytes_spends h)

theorem tagged_spends {w : ℕ} {cs : List (Codec α)} {tag : α → ℕ}
    {tag_eq : ∀ n c a, cs[n]? = some c → c.Fits a → tag a = n} {c : Codec α} {a : α} {n : ℕ}
    (hc : cs[tag a]? = some c) (htag : tag a < 256 ^ w) (ha : c.Spends a n) :
    (tagged w cs tag tag_eq).Spends a (w + n) := by
  have hget : cs[tag a]?.getD Codec.never = c := by rw [hc, Option.getD_some]
  refine ⟨⟨word_fits.mpr htag, ?_⟩, ?_⟩
  · dsimp only
    rw [hget]
    exact ha.1
  · change ((word w).write (tag a) ++ (cs[tag a]?.getD Codec.never).write a).length = _
    rw [hget, List.length_append, ha.2, (word_spends htag).2]

end P2pnas.Lib.Codecs
