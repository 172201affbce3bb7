import P2pnas.Store.Rows
import P2pnas.Store.HiddenNames

/-!
# What packing and compaction do to the rows (`service.rs:857-1167`)

A transaction that packs or compacts gives every entry a range of a new container and leaves
all other rows, their chunks and their bytes as they are. Entries of a packing lose chunks of
their own; entries of a compaction move from the old container, which goes.
-/

namespace P2pnas.Store.Relaid
open P2pnas.Lib.Frames P2pnas.Lib.Strings P2pnas.Lib.Tables P2pnas.Core P2pnas.Core.Base
open P2pnas.Core.Crypto P2pnas.Core.Erasure P2pnas.Core.Pipeline P2pnas.Store.Manifest
open P2pnas.Store.Session P2pnas.Store.Reading P2pnas.Store.Service P2pnas.Store.Packing
open P2pnas.Store.Written P2pnas.Store.Roundtrip P2pnas.Store.Crashes P2pnas.Store.Edits
open P2pnas.Store.Rows P2pnas.Store.HiddenNames

/-- The path behind which a container hides. -/
def isContainer (r : FileRec) : Bool := PACK_PATH_PREFIX.isPrefixOf r.path

/-- A row that becomes the range of a container. -/
def placed (pk : Text) (range : ℕ × ℕ) (r : FileRec) : FileRec := { r with
  packId := some pk
  packOffset := some (range.1 : ℤ)
  packLen := some (range.2 : ℤ)
  chunkCount := 0
  storedBytes := 0 }

/-- An entry with its range. -/
abbrev Ranged := PackEntry × ℕ × ℕ

/-! ### Entries and their ranges -/

/-- No range of the list starts before the one in front of it ends. -/
theorem packRanges_rising (start : ℕ) (es : List PackEntry) :
    ((es.zip (packRanges start es)).Pairwise fun a b => a.2.1 + a.2.2 ≤ b.2.1) ∧
      ∀ er ∈ es.zip (packRanges start es), start ≤ er.2.1 := by
  induction es generalizing start with
  | nil => exact ⟨List.Pairwise.nil, fun er her => absurd her List.not_mem_nil⟩
  | cons e es ih =>
    obtain ⟨hpair, hin⟩ := ih (start + e.data.length)
    rw [packRanges, List.zip_cons_cons]
    refine ⟨List.pairwise_cons.mpr ⟨hin, hpair⟩, fun er her => ?_⟩
    rcases List.mem_cons.mp her with rfl | her
    · exact le_refl _
    · exact (Nat.le_add_right ..).trans (hin er her)

/-- The bytes of an entry at its range, whatever stands before and behind all of them. -/
theorem packRanges_bytes (before after : Bytes) (es : List PackEntry) :
    ∀ er ∈ es.zip (packRanges before.length es),
      er.2.1 + er.2.2 ≤ (before ++ (es.map PackEntry.data).flatten ++ after).length ∧
        ((before ++ (es.map PackEntry.data).flatten ++ after).drop er.2.1).take er.2.2 =
          er.1.data := by
  induction es generalizing before with
  | nil => nofun
  | cons e es ih =>
    intro er her
    rw [packRanges, List.zip_cons_cons] at her
    rcases List.mem_cons.mp her with rfl | her
    · refine ⟨?_, ?_⟩
      · simp only [List.map_cons, List.flatten_cons, List.length_append]
        omega
      · rw [List.append_assoc, List.drop_left, List.map_cons, List.flatten_cons, List.append_assoc,
          List.take_left]
    · have hrest := ih (before ++ e.data) er (by rw [List.length_append]; exact her)
      rw [List.map_cons, List.flatten_cons, ← List.append_assoc before]
      exact hrest

/-- Where the plaintext of a built pack holds its entries. -/
theorem buildPack_ok {es : List PackEntry} {built : Bytes × List (ℕ × ℕ)}
    (h : buildPack es = .ok built) :
    (es.zip built.2).map Prod.fst = es ∧
      ((es.zip built.2).Pairwise fun a b => a.2.1 + a.2.2 ≤ b.2.1) ∧
      ∀ er ∈ es.zip built.2, er.2.1 + er.2.2 ≤ built.1.length ∧
        (built.1.drop er.2.1).take er.2.2 = er.1.data := by
  obtain ⟨records, _, h⟩ := bind_eq_ok h
  simp only at h
  split at h
  · cases h
    refine ⟨List.map_fst_zip (le_of_eq (packRanges_length 0 es).symm), (packRanges_rising 0 es).1, ?_⟩
    rw [List.append_assoc, List.append_assoc]
    exact packRanges_bytes [] _ es
  · cases h

/-! ### Entries that move -/

/-- The entry's row was `q`'s range, or had chunks of its own, and is a range of `pk` now. -/
structure MovedOne (u pk : Text) (q : Option Text) (er : Ranged) (w w' : World) : Prop where
  row : ∃ r, rowOf w.db er.1.fileId = some r ∧ r.userId = u ∧ r.packId = q ∧
    ∀ g, rowOf w'.db g = if g = er.1.fileId then some (placed pk er.2 r) else rowOf w.db g
  own : ∀ f, f ≠ er.1.fileId → OwnSame f w w'

theorem packMember_moved {u pk : Text} {er : Ranged} {res : ℤ × List RemoteShard} {w w' : World}
    (h : packMember u pk er w = (.ok res, w')) : MovedOne u pk none er w w' := by
  obtain ⟨_, w₁, hq, h₁⟩ := bind_ok h
  obtain ⟨rfl, hdb₁, hst₁⟩ := query_ok hq
  obtain ⟨v, w₂, ho, h₂⟩ := bind_ok h₁
  obtain ⟨hrow, rfl⟩ := orThrow_ok ho
  obtain ⟨r, hr, hu, rfl⟩ := rowOf_getFile hrow
  split at h₂
  · cases h₂
  · next hcheck =>
    obtain ⟨_, w₃, hf, h₃⟩ := bind_ok h₂
    obtain ⟨-, hdb₃, hst₃⟩ := query_ok hf
    obtain ⟨_, w₄, hdel, h₄⟩ := bind_ok h₃
    obtain ⟨hdel, hst₄⟩ := stmt_ok hdel
    obtain ⟨_, w₅, hassign, h₅⟩ := bind_ok h₄
    obtain ⟨hassign, hst₅⟩ := stmt_ok hassign
    obtain ⟨-, rfl⟩ := pure_ok h₅
    have hnone : r.packId = none := by
      rw [Bool.or_eq_true, not_or, Bool.not_eq_true] at hcheck
      exact Option.not_isSome_iff_eq_none.mp (Bool.not_eq_true _ ▸ hcheck.1)
    have hdb₄ : w₄.db = deleteChunks w.db u er.1.fileId := by
      rw [← Option.some.inj hdel, hdb₃, hdb₁]
    have hr₄ : rowOf w₄.db er.1.fileId = some r := by
      rw [@rowOf_congr w.db w₄.db (by rw [hdb₄]; rfl)]
      exact hr
    refine ⟨⟨r, hr, hu, hnone, fun g => ?_⟩, fun f hf => ?_⟩
    · rw [rowOf_updateFiles hassign hr₄ hu, @rowOf_congr w.db w₄.db (by rw [hdb₄]; rfl)]
      rfl
    · have hgone : OwnSame f w w₄ := by
        refine ownSame_of_removed (p := fun c => !(c.fileId = er.1.fileId && w.db.files.any (isRow u er.1.fileId)))
          (by rw [hdb₄]; rfl) (by rw [hdb₄]; rfl) (by rw [hst₄, hst₃, hst₁]) fun c _ hcf => ?_
        rw [hcf, decide_eq_false hf]
        rfl
      have htab := updateFiles_some hassign
      exact hgone.trans (ownSame_of_tables (by rw [htab]) (by rw [htab]) hst₅)

theorem moveMember_moved {u old pk : Text} {er : Ranged} {w w' : World}
    (h : moveMember u old pk er w = (.ok (), w')) : MovedOne u pk (some old) er w w' := by
  obtain ⟨_, w₁, hq, h₁⟩ := bind_ok h
  obtain ⟨rfl, hdb₁, hst₁⟩ := query_ok hq
  obtain ⟨v, w₂, ho, h₂⟩ := bind_ok h₁
  obtain ⟨hrow, rfl⟩ := orThrow_ok ho
  obtain ⟨r, hr, hu, rfl⟩ := rowOf_getFile hrow
  split at h₂
  · cases h₂
  · next hcheck =>
    obtain ⟨hassign, hst₂⟩ := stmt_ok h₂
    have hold : r.packId = some old := by
      rw [Bool.or_eq_true, not_or, decide_eq_true_eq, not_not] at hcheck
      exact hcheck.1
    have hr₂ : rowOf w₂.db er.1.fileId = some r := by
      rw [hdb₁]
      exact hr
    have htab := updateFiles_some hassign
    refine ⟨⟨r, hr, hu, hold, fun g => ?_⟩, fun f _ => ?_⟩
    · rw [rowOf_updateFiles hassign hr₂ hu, hdb₁]
      rfl
    · exact ownSame_of_tables (by rw [htab, hdb₁]) (by rw [htab, hdb₁]) (hst₂.trans hst₁)

/-- All entries moved. -/
structure Moved (u pk : Text) (q : Option Text) (ers : List Ranged) (w w' : World) : Prop where
  ids : (ers.map fun er => er.1.fileId).Nodup
  rows : ∀ er ∈ ers, ∃ r, rowOf w.db er.1.fileId = some r ∧ r.userId = u ∧ r.packId = q ∧
    rowOf w'.db er.1.fileId = some (placed pk er.2 r)
  rest : ∀ g, g ∉ ers.map (fun er => er.1.fileId) → rowOf w'.db g = rowOf w.db g ∧ OwnSame g w w'

theorem ownSame_refl (f : Text) (w : World) : OwnSame f w w :=
  ownSame_of_store rfl fun _ _ => rfl

theorem collect_moved {β : Type} {u pk : Text} {q : Option Text} (hq : q ≠ some pk)
    {f : Ranged → Svc β} (hone : ∀ er w b w', f er w = (.ok b, w') → MovedOne u pk q er w w')
    {ers : List Ranged} {bs : List β} {w w' : World} (h : collect f ers w = (.ok bs, w')) :
    Moved u pk q ers w w' := by
  induction ers generalizing w bs with
  | nil =>
    obtain ⟨-, rfl⟩ := pure_ok h
    exact ⟨List.nodup_nil, nofun, fun g _ => ⟨rfl, ownSame_refl g w'⟩⟩
  | cons er ers ih =>
    obtain ⟨b, w₁, cs, hb, hcs, -⟩ := collect_cons_ok h
    obtain ⟨⟨r, hr, hu, hrq, hrows⟩, hown⟩ := hone er w b w₁ hb
    have hrest := ih hcs
    have hself : rowOf w₁.db er.1.fileId = some (placed pk er.2 r) := by rw [hrows, if_pos rfl]
    -- an id that comes twice would already be a range of the new container
    have hnot : er.1.fileId ∉ ers.map fun er => er.1.fileId := by
      intro hm
      obtain ⟨er', her', hid⟩ := List.mem_map.mp hm
      obtain ⟨r', hr', -, hq', -⟩ := hrest.rows er' her'
      rw [hid, hself] at hr'
      cases hr'
      exact hq hq'.symm
    refine ⟨?_, fun er' her' => ?_, fun g hg => ?_⟩
    · rw [List.map_cons]
      exact List.nodup_cons.mpr ⟨hnot, hrest.ids⟩
    · rcases List.mem_cons.mp her' with rfl | her'
      · exact ⟨r, hr, hu, hrq, by rw [(hrest.rest _ hnot).1, hself]⟩
      · obtain ⟨r', hr', hu', hq', hnew⟩ := hrest.rows er' her'
        have hne : er'.1.fileId ≠ er.1.fileId := fun heq => hnot (heq ▸ List.mem_map_of_mem her')
        rw [hrows, if_neg hne] at hr'
        exact ⟨r', hr', hu', hq', hnew⟩
    · rw [List.map_cons, List.mem_cons, not_or] at hg
      obtain ⟨hrow, hsame⟩ := hrest.rest g hg.2
      exact ⟨by rw [hrow, hrows, if_neg hg.1], (hown g hg.1).trans hsame⟩

/-- A row whose entry moves, or none does, is the same user's. -/
theorem collect_rows {β : Type} {u pk : Text} {q : Option Text} {f : Ranged → Svc β}
    (hone : ∀ er w b w', f er w = (.ok b, w') → MovedOne u pk q er w w') {ers : List Ranged}
    {bs : List β} {w w' : World} (h : collect f ers w = (.ok bs, w')) (g : Text) (r : FileRec)
    (hr : rowOf w.db g = some r) (hu : r.userId = u) : ∃ r', rowOf w'.db g = some r' ∧ r'.userId = u := by
  induction ers generalizing w bs r with
  | nil =>
    obtain ⟨-, rfl⟩ := pure_ok h
    exact ⟨r, hr, hu⟩
  | cons er ers ih =>
    obtain ⟨b, w₁, cs, hb, hcs, -⟩ := collect_cons_ok h
    obtain ⟨⟨q, -, hqu, -, hrows⟩, -⟩ := hone er w b w₁ hb
    by_cases hg : g = er.1.fileId
    · exact ih hcs (placed pk er.2 q) (by rw [hrows, if_pos hg]) hqu
    · exact ih hcs r (by rw [hrows, if_neg hg, hr]) hu

/-! ### The new container and the old one -/

section
variable {K : Type} {P : Prims K} {key : K}

/-- A container was inserted that reads as `plain`. -/
structure Inserted (P : Prims K) (key : K) (u pk : Text) (plain : Bytes) (w w' : World) : Prop where
  fresh : rowOf w.db pk = none
  row : ∃ c, rowOf w'.db pk = some c ∧ c.userId = u ∧ c.packId = none ∧ isContainer c = true ∧
    ownBytes P key w' c = .ok plain
  rest : ∀ g, g ≠ pk → rowOf w'.db g = rowOf w.db g ∧ OwnSame g w w'

theorem insertPackRow_inserted (hP : Restores P) {u pk : Text} {plain : Bytes} {now : Time} {n : ℤ}
    {w w' : World} (hu : Unused P {pk} w.db)
    (h : insertPackRow P key u pk plain now w = (.ok n, w')) : Inserted P key u pk plain w w' := by
  have hwrote := insertPackRow_wrote h
  rw [insertPackRow] at h
  obtain ⟨chunks, w₁, ho, h₁⟩ := bind_ok h
  obtain ⟨hproc, rfl⟩ := ofOutcome_ok ho
  obtain ⟨_, w₂, hins, h₂⟩ := bind_ok h₁
  obtain ⟨_, w₃, hwr, h₃⟩ := bind_ok h₂
  obtain ⟨-, rfl⟩ := pure_ok h₃
  obtain ⟨hins, hst⟩ := stmt_ok hins
  have hv2 := wrapErr_eq_ok hproc
  obtain ⟨hnew, htab⟩ := insertFile_some hins
  have hno : ∀ d ∈ w₂.db.chunks, d.fileId ≠ pk := by
    intro d hd hdm
    have hch : w₂.db.chunks = w₁.db.chunks := by rw [htab]
    rw [hch] at hd
    exact hnew (hdm ▸ w₁.db.constraints.chunkFiles d hd)
  have hstored := writeChunkRows_stored P (processV2_sized hv2) (processV2_ordered hv2) hno hwr
  have htables : w'.db.files = w₂.db.files ∧
      w'.db.chunks = w₂.db.chunks ++ chunks.map (chunkRowFor pk) ∧
      w'.db.shards = w₂.db.shards ++ chunks.flatMap (shardRows P pk) := by
    obtain ⟨us, w₄, hall, hret⟩ := bind_ok hwr
    obtain ⟨-, rfl⟩ := pure_ok hret
    obtain ⟨hf, -, hch, hsh, -, -⟩ := writeChunks_ok P (processV2_sized hv2) hall
    exact ⟨hf, hch, hsh⟩
  obtain ⟨hfiles, hchunks, hshards⟩ := htables
  set row := pushRow P u (packKey pk) pk plain now chunks pk with hrowdef
  have hrow : ∀ g, rowOf w₁.db pk = none ∧
      rowOf w'.db g = if g = pk then some row.toRec else rowOf w₁.db g := by
    intro g
    have hi := rowOf_insertFile hins g
    exact ⟨hi.1, (rowOf_congr hfiles g).trans hi.2⟩
  have hhidden : isContainer row.toRec = true := isPack_packKey pk
  have hreads : ownBytes P key w' row.toRec = .ok plain := by
    have hid : row.toRec.fileId = pk := rfl
    rw [ownBytes, hid]
    exact pullOwn_stored hP hv2 hstored row.toRec.view rfl rfl rfl rfl (Int.natCast_nonneg _)
  refine ⟨(hrow pk).1, ⟨row.toRec, by rw [(hrow pk).2, if_pos rfl], rfl, rfl, hhidden, hreads⟩,
    fun g hg => ⟨by rw [(hrow g).2, if_neg hg], ?_⟩⟩
  · refine @ownSame_of_written _ _ _ _ (chunks.map (chunkRowFor pk))
      (chunks.flatMap (shardRows P pk)) hg ?_ ?_ ?_ ?_ ?_
    · rw [hchunks, htab]
    · intro c hc
      obtain ⟨d, -, rfl⟩ := List.mem_map.mp hc
      rfl
    · rw [hshards, htab]
    · intro s hs
      obtain ⟨c, hc, hs⟩ := List.mem_flatMap.mp hs
      obtain ⟨i, -, rfl⟩ := List.mem_map.mp hs
      exact List.mem_map.mpr ⟨chunkRowFor pk c, List.mem_map_of_mem hc, rfl⟩
    · intro s hs
      exact hwrote.store s.fragmentId fun f hf => hu s hs f hf

/-- The row of one id is gone, with its chunks. -/
structure Dropped (old : Text) (w w' : World) : Prop where
  gone : rowOf w'.db old = none
  rest : ∀ g, g ≠ old → rowOf w'.db g = rowOf w.db g ∧ OwnSame g w w'

theorem purgeFileRow_dropped {u old : Text} {r : FileRec} {frags : List RemoteShard} {w w' : World}
    (hr : rowOf w.db old = some r) (hu : r.userId = u)
    (h : purgeFileRow u old w = (.ok frags, w')) : Dropped old w w' := by
  obtain ⟨fs, w₁, hq, h₁⟩ := bind_ok h
  obtain ⟨_, w₂, hdel, h₂⟩ := bind_ok h₁
  obtain ⟨-, rfl⟩ := pure_ok h₂
  obtain ⟨-, hdb, hst⟩ := query_ok hq
  obtain ⟨hdel, hst'⟩ := stmt_ok hdel
  have hdb' : w'.db = deleteFile w.db u old := by
    rw [← Option.some.inj hdel, hdb]
  refine ⟨by rw [hdb', rowOf_deleteFile hr hu, if_pos rfl], fun g hg => ⟨?_, ?_⟩⟩
  · rw [hdb', rowOf_deleteFile hr hu, if_neg hg]
  · refine ownSame_of_removed
      (p := fun c => c.fileId ∈ (w.db.files.filter fun r => !isRow u old r).map FileRec.fileId)
      (by rw [hdb']; rfl) (by rw [hdb']; rfl) (hst'.trans hst) fun c hc hcf => ?_
    obtain ⟨q, hq, hqid⟩ := List.mem_map.mp (w.db.constraints.chunkFiles c hc)
    refine decide_eq_true (List.mem_map.mpr ⟨q, List.mem_filter.mpr ⟨hq, ?_⟩, hqid⟩)
    have hne : q.fileId ≠ old := fun heq => hg (hcf.symm.trans (hqid.symm.trans heq))
    rw [isRow, decide_eq_false hne, Bool.and_false]
    rfl

end

end P2pnas.Store.Relaid
