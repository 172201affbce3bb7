import P2pnas.Lib.Frames

/-!
# Reading from the front of a string

A reader cuts fields off the front of what is left; a slice names a range by its ends. Both are
partial, and both are determined by the fields that stand next to each other: what was read, and
what follows it, concatenate to what was there.
-/

namespace P2pnas.Lib.Cursor
open P2pnas.Lib.Frames

variable {α : Type*}

/-- The first `n` elements and the rest; `none` when there are fewer. -/
def cut (n : ℕ) (cur : List α) : Option (List α × List α) :=
  if n ≤ cur.length then some (cur.take n, cur.drop n) else none

theorem cut_eq_some {n : ℕ} {cur head rest : List α} :
    cut n cur = some (head, rest) ↔ head.length = n ∧ cur = head ++ rest := by
  unfold cut
  constructor
  · intro h
    split at h
    · next hn =>
      cases h
      exact ⟨List.length_take_of_le hn, (List.take_append_drop n cur).symm⟩
    · cases h
  · rintro ⟨rfl, rfl⟩
    rw [if_pos (by rw [List.length_append]; omega), List.take_left, List.drop_left]

theorem cut_append (head rest : List α) : cut head.length (head ++ rest) = some (head, rest) :=
  cut_eq_some.mpr ⟨rfl, rfl⟩

/-- `l[start..stop]`; `none` when the ends are no range of the list. -/
def slice (l : List α) (start stop : ℕ) : Option (List α) :=
  if start ≤ stop ∧ stop ≤ l.length then some ((l.drop start).take (stop - start)) else none

theorem slice_eq_some {l mid : List α} {start stop : ℕ} : slice l start stop = some mid ↔
    ∃ before after, l = before ++ mid ++ after ∧ before.length = start ∧ start + mid.length = stop := by
  unfold slice
  constructor
  · intro h
    split at h
    · next hrange =>
      cases h
      obtain ⟨hss, hsl⟩ := hrange
      refine ⟨l.take start, l.drop stop, ?_, List.length_take_of_le (by omega), ?_⟩
      · have hstop : stop = start + (stop - start) := by omega
        rw [List.append_assoc]
        conv_rhs => rw [hstop, ← List.drop_drop]
        rw [Nat.add_sub_cancel_left, List.take_append_drop, List.take_append_drop]
      · rw [List.length_take, List.length_drop]
        omega
    · cases h
  · rintro ⟨before, after, rfl, rfl, rfl⟩
    have hlen : before.length + mid.length ≤ (before ++ mid ++ after).length := by
      rw [List.length_append, List.length_append]
      omega
    rw [if_pos ⟨by omega, hlen⟩, List.append_assoc, List.drop_left, Nat.add_sub_cancel_left, List.take_left]

theorem slice_isSome {l : List α} {start stop : ℕ} (h : start ≤ stop) (hl : stop ≤ l.length) :
    ∃ mid, slice l start stop = some mid ∧ mid.length = stop - start := by
  refine ⟨(l.drop start).take (stop - start), if_pos ⟨h, hl⟩, ?_⟩
  rw [List.length_take, List.length_drop]
  omega

/-- A big-endian word of exactly `w` bytes. -/
def word (w : ℕ) (bs : Bytes) : Option ℕ := if bs.length = w then some (beVal bs) else none

theorem word_eq_some {w n : ℕ} {bs : Bytes} : word w bs = some n ↔ bs = beBytes w n ∧ n < 256 ^ w := by
  unfold word
  constructor
  · intro h
    split at h
    · next hw =>
      cases h
      rw [← hw]
      exact ⟨(beBytes_beVal bs).symm, beVal_lt bs⟩
    · cases h
  · rintro ⟨rfl, hn⟩
    rw [if_pos (beBytes_length w n), beVal_beBytes, Nat.mod_eq_of_lt hn]

theorem word_beBytes {w n : ℕ} (h : n < 256 ^ w) : word w (beBytes w n) = some n :=
  word_eq_some.mpr ⟨rfl, h⟩

theorem word_isSome {w : ℕ} {bs : Bytes} (h : bs.length = w) : word w bs = some (beVal bs) := if_pos h

/-- `checked_sub`. -/
def checkedSub (a b : ℕ) : Option ℕ := if b ≤ a then some (a - b) else none

theorem checkedSub_eq_some {a b c : ℕ} : checkedSub a b = some c ↔ a = c + b := by
  unfold checkedSub
  split
  · rw [Option.some.injEq]
    omega
  · constructor
    · nofun
    · omega

end P2pnas.Lib.Cursor
