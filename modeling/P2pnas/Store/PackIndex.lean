import P2pnas.Lib.Cursor
import P2pnas.Store.Relaid
import P2pnas.Store.Shifts

/-!
# The index of a pack, read back (`service.rs:847-946`)

A pack closes with a record for each member, the length of these records and a magic. The parser
finds the index from the end, so what the members hold does not matter; the results are that it
gives back what was built, that it never reads past the bytes it has, and that an index it accepts
is the one its entries are written as.
-/

namespace P2pnas.Store.PackIndex
open P2pnas.Lib.Frames P2pnas.Lib.Strings P2pnas.Lib.Cursor P2pnas.Core P2pnas.Core.Base
open P2pnas.Store.Manifest P2pnas.Store.Session P2pnas.Store.Reading P2pnas.Store.Packing
open P2pnas.Store.Relaid P2pnas.Store.Shifts

/-- A member's place in a pack: `(file_id, offset, len)`. -/
abbrev PackIndexEntry := Text × ℕ × ℕ

def corrupt (what : String) : StoreError := .integrity ("pack trailer: ".toList ++ what.toList)

/-- `take`: `split_at` behind its guard. -/
def take (cur : Bytes) (n : ℕ) : Outcome StoreError (Option (Bytes × Bytes)) :=
  if cur.length < n then .ok none
  else do
    let split ← inBounds (cut n cur)
    return some split

/-- `read_index_entry` (`service.rs:921-932`). -/
def readIndexEntry (cur : Bytes) : Outcome StoreError (Option (PackIndexEntry × Bytes)) := do
  let some (idLen, cur) ← take cur 4 | return none
  let some idLen := word 4 idLen | return none
  let some (id, cur) ← take cur idLen | return none
  let some (off, cur) ← take cur 8 | return none
  let some off := word 8 off | return none
  let some (len, cur) ← take cur 8 | return none
  let some len := word 8 len | return none
  let some id := fromUtf8 id | return none
  return some ((id, off, len), cur)

/-! ### One record -/

/-- One record as `build_pack` writes it. -/
def indexRecord (e : PackIndexEntry) : Bytes := lp 4 (utf8 e.1) ++ beBytes 8 e.2.1 ++ beBytes 8 e.2.2

/-- The fields of a record have the widths of the format. -/
structure Fits (e : PackIndexEntry) : Prop where
  id : byteLen e.1 < 2 ^ 32
  offset : e.2.1 < 2 ^ 64
  len : e.2.2 < 2 ^ 64

/-- The records of a pack. -/
def indexOf (es : List PackIndexEntry) : Bytes := (es.map indexRecord).flatten

/-- The record at the front, with no partial step. -/
def entryAt (cur : Bytes) : Option (PackIndexEntry × Bytes) := do
  let (idLen, cur) ← cut 4 cur
  let idLen ← word 4 idLen
  let (id, cur) ← cut idLen cur
  let (off, cur) ← cut 8 cur
  let off ← word 8 off
  let (len, cur) ← cut 8 cur
  let len ← word 8 len
  let id ← fromUtf8 id
  return ((id, off, len), cur)

theorem take_eq (cur : Bytes) (n : ℕ) : take cur n = .ok (cut n cur) := by
  unfold take cut
  by_cases h : cur.length < n
  · rw [if_pos h, if_neg (Nat.not_le.mpr h)]
  · rw [if_neg h, if_pos (Nat.not_lt.mp h)]
    rfl

/-- Reading a record takes no step out of bounds. -/
theorem readIndexEntry_eq (cur : Bytes) : readIndexEntry cur = .ok (entryAt cur) := by
  simp only [readIndexEntry, entryAt, take_eq, ok_bind, Option.bind_eq_bind]
  rcases cut 4 cur with _ | ⟨idLen, cur⟩
  · rfl
  simp only [Option.bind_some]
  rcases word 4 idLen with _ | n
  · rfl
  simp only [Option.bind_some]
  rcases cut n cur with _ | ⟨id, cur⟩
  · rfl
  simp only [Option.bind_some]
  rcases cut 8 cur with _ | ⟨off, cur⟩
  · rfl
  simp only [Option.bind_some]
  rcases word 8 off with _ | o
  · rfl
  simp only [Option.bind_some]
  rcases cut 8 cur with _ | ⟨len, cur⟩
  · rfl
  simp only [Option.bind_some]
  rcases word 8 len with _ | l
  · rfl
  simp only [Option.bind_some]
  rcases fromUtf8 id with _ | t
  · rfl
  · rfl

/-- What a record read off the front is written as. -/
theorem entryAt_some {cur rest : Bytes} {e : PackIndexEntry} (h : entryAt cur = some (e, rest)) :
    cur = indexRecord e ++ rest ∧ Fits e := by
  obtain ⟨⟨idLen, c₁⟩, hidLen, h⟩ := Option.bind_eq_some_iff.mp h
  obtain ⟨n, hn, h⟩ := Option.bind_eq_some_iff.mp h
  obtain ⟨⟨id, c₂⟩, hid, h⟩ := Option.bind_eq_some_iff.mp h
  obtain ⟨⟨off, c₃⟩, hoff, h⟩ := Option.bind_eq_some_iff.mp h
  obtain ⟨o, ho, h⟩ := Option.bind_eq_some_iff.mp h
  obtain ⟨⟨len, c₄⟩, hlen, h⟩ := Option.bind_eq_some_iff.mp h
  obtain ⟨l, hl, h⟩ := Option.bind_eq_some_iff.mp h
  obtain ⟨t, ht, h⟩ := Option.bind_eq_some_iff.mp h
  cases h
  obtain ⟨-, rfl⟩ := cut_eq_some.mp hidLen
  obtain ⟨hidn, rfl⟩ := cut_eq_some.mp hid
  obtain ⟨-, rfl⟩ := cut_eq_some.mp hoff
  obtain ⟨-, rfl⟩ := cut_eq_some.mp hlen
  obtain ⟨rfl, hnlt⟩ := word_eq_some.mp hn
  obtain ⟨rfl, holt⟩ := word_eq_some.mp ho
  obtain ⟨rfl, hllt⟩ := word_eq_some.mp hl
  obtain rfl := utf8_fromUtf8 ht
  refine ⟨?_, ⟨?_, holt, hllt⟩⟩
  · simp only [indexRecord, Lib.Frames.lp, hidn, List.append_assoc]
  · rw [byteLen, hidn]
    exact hnlt

/-- A record is read back from the front of whatever follows it. -/
theorem entryAt_record {e : PackIndexEntry} (h : Fits e) (rest : Bytes) :
    entryAt (indexRecord e ++ rest) = some (e, rest) := by
  obtain ⟨t, o, l⟩ := e
  have hid : word 4 (beBytes 4 (utf8 t).length) = some (utf8 t).length := word_beBytes h.id
  have ho : word 8 (beBytes 8 o) = some o := word_beBytes h.offset
  have hl : word 8 (beBytes 8 l) = some l := word_beBytes h.len
  have hword : ∀ (w n : ℕ) (r : Bytes), cut w (beBytes w n ++ r) = some (beBytes w n, r) :=
    fun w n r => cut_eq_some.mpr ⟨beBytes_length w n, rfl⟩
  simp only [entryAt, indexRecord, Lib.Frames.lp, List.append_assoc, hword, cut_append, hid, ho, hl,
    fromUtf8_utf8, Option.bind_eq_bind, Option.bind_some, Option.pure_def]

theorem indexRecord_length (e : PackIndexEntry) : (indexRecord e).length = 20 + byteLen e.1 := by
  simp only [indexRecord, Lib.Frames.lp, List.length_append, beBytes_length, byteLen]
  omega

/-! ### The records of a pack -/

/-- The loop of `parse_pack_index`: a record is taken until nothing is left. -/
def readIndex (cur : Bytes) : Outcome StoreError (List PackIndexEntry) :=
  if cur.isEmpty then .ok []
  else match _hread : readIndexEntry cur with
    | .error stop => .error stop
    | .ok none => fail (corrupt "malformed index entry")
    | .ok (some (entry, rest)) => do
      let out ← readIndex rest
      return entry :: out
termination_by cur.length
decreasing_by
  rw [readIndexEntry_eq] at _hread
  obtain ⟨hcur, -⟩ := entryAt_some (Except.ok.inj _hread)
  rw [hcur, List.length_append, indexRecord_length]
  omega

theorem readIndex_nil : readIndex [] = .ok [] := by
  rw [readIndex]
  rfl

theorem readIndex_cons {cur : Bytes} (h : cur ≠ []) : readIndex cur = match entryAt cur with
    | none => fail (corrupt "malformed index entry")
    | some (entry, rest) => do
      let out ← readIndex rest
      return entry :: out := by
  have hne : ¬cur.isEmpty = true := fun he => h (List.isEmpty_iff.mp he)
  rw [readIndex, if_neg hne]
  split
  · next e hread =>
    rw [readIndexEntry_eq] at hread
    cases hread
  · next hread =>
    rw [readIndexEntry_eq] at hread
    rw [Except.ok.inj hread]
  · next entry rest hread =>
    rw [readIndexEntry_eq] at hread
    rw [Except.ok.inj hread]

theorem indexOf_cons (e : PackIndexEntry) (es : List PackIndexEntry) :
    indexOf (e :: es) = indexRecord e ++ indexOf es := by
  rw [indexOf, List.map_cons, List.flatten_cons, indexOf]

theorem readIndex_indexOf {es : List PackIndexEntry} (h : ∀ e ∈ es, Fits e) :
    readIndex (indexOf es) = .ok es := by
  induction es with
  | nil => exact readIndex_nil
  | cons e es ih =>
    have hne : indexRecord e ++ indexOf es ≠ [] := by
      intro hnil
      have hlen := congrArg List.length hnil
      rw [List.length_append, indexRecord_length, List.length_nil] at hlen
      omega
    rw [indexOf_cons, readIndex_cons hne, entryAt_record (h e (List.mem_cons_self ..))]
    simp only [ih fun a ha => h a (List.mem_cons_of_mem _ ha)]
    rfl

/-- The loop ends without a panic, and what it returns is written as the bytes it read. -/
theorem readIndex_spec (cur : Bytes) : readIndex cur ≠ .error .panic ∧
    ∀ es, readIndex cur = .ok es → cur = indexOf es ∧ ∀ e ∈ es, Fits e := by
  by_cases hne : cur = []
  · subst hne
    rw [readIndex_nil]
    refine ⟨nofun, fun es hes => ?_⟩
    cases hes
    exact ⟨rfl, nofun⟩
  rw [readIndex_cons hne]
  rcases he : entryAt cur with _ | ⟨e, rest⟩
  · exact ⟨nofun, nofun⟩
  obtain ⟨hcur, hfits⟩ := entryAt_some he
  have hlt : rest.length < cur.length := by
    rw [hcur, List.length_append, indexRecord_length]
    omega
  obtain ⟨hpanic, hok⟩ := readIndex_spec rest
  simp only
  rcases hrest : readIndex rest with stop | out
  · refine ⟨fun h => hpanic ?_, nofun⟩
    cases h
    exact hrest
  · refine ⟨nofun, fun es hes => ?_⟩
    cases hes
    obtain ⟨hout, hall⟩ := hok out hrest
    rw [indexOf_cons, ← hout]
    refine ⟨hcur, fun a ha => ?_⟩
    rcases List.mem_cons.mp ha with rfl | ha
    · exact hfits
    · exact hall a ha
termination_by cur.length

/-! ### The trailer -/

/-- `parse_pack_index` (`service.rs:895-917`): the length of the records and the magic stand at the
end. -/
def parsePackIndex (packPlain : Bytes) : Outcome StoreError (List PackIndexEntry) := do
  let magicAt ← orFail (corrupt "missing magic")
    ((checkedSub packPlain.length PACK_MAGIC.length).filter fun _ => PACK_MAGIC.isSuffixOf packPlain)
  let lenAt ← orFail (corrupt "truncated before index length") (checkedSub magicAt 4)
  let lenBytes ← inBounds (slice packPlain lenAt magicAt)
  let indexLen ← orFail (corrupt "bad index length") (word 4 lenBytes)
  let indexAt ← orFail (corrupt "index longer than the pack") (checkedSub lenAt indexLen)
  let cur ← inBounds (slice packPlain indexAt lenAt)
  readIndex cur

/-- A plaintext whose trailer lists `es`. -/
def packed (payload : Bytes) (es : List PackIndexEntry) : Bytes :=
  payload ++ indexOf es ++ beBytes 4 (indexOf es).length ++ PACK_MAGIC

/-- The trailer is found from the end, whatever the payload holds. -/
theorem parsePackIndex_packed {payload : Bytes} {es : List PackIndexEntry}
    (hlen : (indexOf es).length < 2 ^ 32) (hfits : ∀ e ∈ es, Fits e) :
    parsePackIndex (packed payload es) = .ok es := by
  have hmagic : checkedSub (packed payload es).length PACK_MAGIC.length =
      some (payload.length + (indexOf es).length + 4) := by
    refine checkedSub_eq_some.mpr ?_
    simp only [packed, List.length_append, beBytes_length]
  have hsuffix : PACK_MAGIC.isSuffixOf (packed payload es) = true :=
    List.isSuffixOf_iff_suffix.mpr ⟨_, rfl⟩
  have hlenAt : checkedSub (payload.length + (indexOf es).length + 4) 4 =
      some (payload.length + (indexOf es).length) := checkedSub_eq_some.mpr rfl
  have hword : slice (packed payload es) (payload.length + (indexOf es).length)
      (payload.length + (indexOf es).length + 4) = some (beBytes 4 (indexOf es).length) := by
    refine slice_eq_some.mpr ⟨payload ++ indexOf es, PACK_MAGIC, rfl, ?_, ?_⟩
    · rw [List.length_append]
    · rw [beBytes_length]
  have hlenWord : word 4 (beBytes 4 (indexOf es).length) = some (indexOf es).length := word_beBytes hlen
  have hindexAt : checkedSub (payload.length + (indexOf es).length) (indexOf es).length =
      some payload.length := checkedSub_eq_some.mpr rfl
  have hindex : slice (packed payload es) payload.length
      (payload.length + (indexOf es).length) = some (indexOf es) := by
    refine slice_eq_some.mpr ⟨payload, beBytes 4 (indexOf es).length ++ PACK_MAGIC, ?_, rfl, rfl⟩
    rw [packed, List.append_assoc _ (beBytes 4 _)]
  simp only [parsePackIndex, hmagic, Option.filter_some, hsuffix, if_true, orFail_some, ok_bind, hlenAt,
    hword, inBounds_some, hlenWord, hindexAt, hindex, readIndex_indexOf hfits]

/-- Whatever the bytes, no step of the parser is out of bounds; what it accepts is a payload with the
trailer of the entries returned. -/
theorem parsePackIndex_spec (packPlain : Bytes) : parsePackIndex packPlain ≠ .error .panic ∧
    ∀ es, parsePackIndex packPlain = .ok es → (∀ e ∈ es, Fits e) ∧
      (indexOf es).length < 2 ^ 32 ∧ ∃ payload, packPlain = packed payload es := by
  rw [parsePackIndex]
  rcases hmagic : (checkedSub packPlain.length PACK_MAGIC.length).filter
    fun _ => PACK_MAGIC.isSuffixOf packPlain with _ | magicAt
  · exact ⟨nofun, nofun⟩
  obtain ⟨hsub, hsuffix⟩ := Option.filter_eq_some_iff.mp hmagic
  obtain ⟨front, hfront⟩ := List.isSuffixOf_iff_suffix.mp hsuffix
  have hfrontLen : front.length = magicAt := by
    have hall := checkedSub_eq_some.mp hsub
    rw [← hfront, List.length_append] at hall
    exact Nat.add_right_cancel hall
  rw [orFail_some, ok_bind]
  rcases hlenAt : checkedSub magicAt 4 with _ | lenAt
  · exact ⟨nofun, nofun⟩
  have hlen := checkedSub_eq_some.mp hlenAt
  have hin : magicAt ≤ packPlain.length := by
    rw [checkedSub_eq_some.mp hsub]
    exact Nat.le_add_right ..
  obtain ⟨lenBytes, hslice, hwidth⟩ := slice_isSome (l := packPlain) (by omega : lenAt ≤ magicAt) hin
  have hword : word 4 lenBytes = some (beVal lenBytes) := word_isSome (by omega)
  rw [orFail_some, ok_bind, hslice, inBounds_some, ok_bind, hword, orFail_some, ok_bind]
  rcases hindexAt : checkedSub lenAt (beVal lenBytes) with _ | indexAt
  · exact ⟨nofun, nofun⟩
  have hindex := checkedSub_eq_some.mp hindexAt
  obtain ⟨cur, hcur, hcurLen⟩ := slice_isSome (l := packPlain) (by omega : indexAt ≤ lenAt) (by omega)
  rw [orFail_some, ok_bind, hcur, inBounds_some, ok_bind]
  obtain ⟨hpanic, hok⟩ := readIndex_spec cur
  refine ⟨hpanic, fun es hes => ?_⟩
  obtain ⟨rfl, hfits⟩ := hok es hes
  obtain ⟨before, after, hlast, hbefore, -⟩ := slice_eq_some.mp hslice
  obtain ⟨payload, rest, hfirst, hpayload, hstop⟩ := slice_eq_some.mp hcur
  have hval : beVal lenBytes = (indexOf es).length := by omega
  obtain ⟨hfrontEq, hafter⟩ : before ++ lenBytes = front ∧ after = PACK_MAGIC := by
    refine List.append_inj (hlast.symm.trans hfront.symm) ?_
    rw [List.length_append]
    omega
  obtain ⟨hbeforeEq, -⟩ : before = payload ++ indexOf es ∧ lenBytes ++ after = rest := by
    refine List.append_inj ((List.append_assoc ..).symm.trans (hlast.symm.trans hfirst)) ?_
    rw [List.length_append]
    omega
  have hword' := word_eq_some.mp hword
  rw [hval] at hword'
  refine ⟨hfits, hword'.2, payload, ?_⟩
  rw [packed, ← hbeforeEq, ← hword'.1, hfrontEq]
  exact hfront.symm

/-! ### What `build_pack` writes -/

/-- Ranges that follow each other from `start` to `stop`. -/
def Contiguous (start stop : ℕ) : List (ℕ × ℕ) → Prop
  | [] => start = stop
  | range :: ranges => range.1 = start ∧ Contiguous (start + range.2) stop ranges

/-- The rows of the index: each entry's id with its range. -/
def indexRows (entries : List PackEntry) (ranges : List (ℕ × ℕ)) : List PackIndexEntry :=
  entries.zipWith (fun e range => (e.fileId, range)) ranges

theorem packRanges_contiguous (start : ℕ) (entries : List PackEntry) :
    Contiguous start (start + (entries.map PackEntry.data).flatten.length) (packRanges start entries) := by
  induction entries generalizing start with
  | nil => rfl
  | cons e es ih =>
    refine ⟨rfl, ?_⟩
    rw [List.map_cons, List.flatten_cons, List.length_append, ← Nat.add_assoc]
    exact ih (start + e.data.length)

theorem packRanges_le (start : ℕ) (entries : List PackEntry) : ∀ range ∈ packRanges start entries,
    range.1 + range.2 ≤ start + (entries.map PackEntry.data).flatten.length := by
  induction entries generalizing start with
  | nil => nofun
  | cons e es ih =>
    intro range hrange
    rw [List.map_cons, List.flatten_cons, List.length_append]
    rcases List.mem_cons.mp hrange with rfl | hrange
    · simp only
      omega
    · have hle := ih (start + e.data.length) range hrange
      omega

theorem indexRecords_ok {entries : List PackEntry} {ranges : List (ℕ × ℕ)} {records : List Bytes}
    (h : collect (fun er : PackEntry × ℕ × ℕ => indexEntry er.1 er.2) (entries.zip ranges) = .ok records) :
    records = (indexRows entries ranges).map indexRecord ∧
      ∀ row ∈ indexRows entries ranges, byteLen row.1 < 2 ^ 32 := by
  induction entries generalizing ranges records with
  | nil =>
    cases h
    exact ⟨rfl, nofun⟩
  | cons e es ih =>
    rcases ranges with _ | ⟨range, ranges⟩
    · cases h
      exact ⟨rfl, nofun⟩
    obtain ⟨record, hrecord, h⟩ := bind_eq_ok h
    obtain ⟨rest, hrest, h⟩ := bind_eq_ok h
    cases h
    obtain ⟨rfl, hall⟩ := ih hrest
    simp only [indexEntry] at hrecord
    split at hrecord
    · next hid =>
      cases hrecord
      refine ⟨rfl, fun row hrow => ?_⟩
      rcases List.mem_cons.mp hrow with rfl | hrow
      · exact hid
      · exact hall row hrow
    · cases hrecord

theorem range_of_indexRows {entries : List PackEntry} {ranges : List (ℕ × ℕ)} {row : PackIndexEntry}
    (h : row ∈ indexRows entries ranges) : row.2 ∈ ranges := by
  induction entries generalizing ranges with
  | nil => cases h
  | cons e es ih =>
    rcases ranges with _ | ⟨range, ranges⟩
    · cases h
    rcases List.mem_cons.mp h with rfl | h
    · exact List.mem_cons_self ..
    · exact List.mem_cons_of_mem _ (ih h)

theorem buildPack_packed {entries : List PackEntry} {built : Bytes × List (ℕ × ℕ)}
    (h : buildPack entries = .ok built) (hmem : built.1.length < 2 ^ 63) :
    built.1 = packed (entries.map PackEntry.data).flatten (indexRows entries built.2) ∧
      (indexOf (indexRows entries built.2)).length < 2 ^ 32 ∧
      ∀ row ∈ indexRows entries built.2, Fits row := by
  obtain ⟨records, hrecords, h⟩ := bind_eq_ok h
  simp only at h
  split at h
  · next hshort =>
    cases h
    obtain ⟨rfl, hids⟩ := indexRecords_ok hrecords
    refine ⟨rfl, hshort, fun row hrow => ?_⟩
    have hrange := packRanges_le 0 entries row.2 (range_of_indexRows hrow)
    simp only [List.length_append] at hmem
    exact ⟨hids row hrow, by omega, by omega⟩
  · cases h

/-- A plaintext that `build_pack` returns parses as the entries' ids with their ranges, which follow
each other up to the index and hold the entries' data. Whatever the bytes, the parser ends without a
panic, and the entries it returns are written as the index it read. -/
theorem index_roundTrip :
    (∀ (entries : List PackEntry) (built : Bytes × List (ℕ × ℕ)), buildPack entries = .ok built →
      -- no allocation of the language is longer
      built.1.length < 2 ^ 63 →
      parsePackIndex built.1 = .ok (indexRows entries built.2) ∧
        built.2.length = entries.length ∧
        (∃ payload, built.1 = packed payload (indexRows entries built.2) ∧
          Contiguous 0 payload.length built.2) ∧
        ∀ er ∈ entries.zip built.2, ∀ member : FileRow, member.packOffset = some (er.2.1 : ℤ) →
          member.packLen = some (er.2.2 : ℤ) → memberSlice built.1 member = .ok er.1.data) ∧
    ∀ packPlain : Bytes, parsePackIndex packPlain ≠ .error .panic ∧
      ∀ es, parsePackIndex packPlain = .ok es →
        (indexOf es).length < 2 ^ 32 ∧ ∃ payload, packPlain = packed payload es := by
  refine ⟨fun entries built hbuilt hmem => ?_, fun packPlain => ?_⟩
  · obtain ⟨hpacked, hshort, hfits⟩ := buildPack_packed hbuilt hmem
    have hranges : built.2 = packRanges 0 entries := buildPack_ranges hbuilt
    obtain ⟨-, -, hbytes⟩ := buildPack_ok hbuilt
    refine ⟨?_, ?_, ⟨_, hpacked, ?_⟩, fun er her member hoff hlen => ?_⟩
    · conv_lhs => rw [hpacked]
      exact parsePackIndex_packed hshort hfits
    · rw [hranges]
      exact packRanges_length 0 entries
    · rw [hranges]
      have htiled := packRanges_contiguous 0 entries
      rwa [Nat.zero_add] at htiled
    · obtain ⟨hin, hdata⟩ := hbytes er her
      rw [memberSlice, hoff, hlen]
      simp only [if_pos hin, hdata]
  · obtain ⟨hpanic, hok⟩ := parsePackIndex_spec packPlain
    refine ⟨hpanic, fun es hes => ?_⟩
    obtain ⟨-, hshort, hpayload⟩ := hok es hes
    exact ⟨hshort, hpayload⟩

/-- Two members, the first of which holds the magic and the second nothing. -/
def imitation : List PackEntry := [⟨"a".toList, PACK_MAGIC⟩, ⟨"b".toList, []⟩]

def imitationRows : List PackIndexEntry := [("a".toList, 0, 8), ("b".toList, 8, 0)]

theorem imitation_roundTrip : buildPack imitation = .ok (packed PACK_MAGIC imitationRows, [(0, 8), (8, 0)]) ∧
    parsePackIndex (packed PACK_MAGIC imitationRows) = .ok imitationRows := by
  have hbuilt : buildPack imitation = .ok (packed PACK_MAGIC imitationRows, [(0, 8), (8, 0)]) := by
    decide +kernel
  exact ⟨hbuilt, (index_roundTrip.1 imitation _ hbuilt (by decide +kernel)).1⟩

end P2pnas.Store.PackIndex
