import P2pnas.Store.Spared
import P2pnas.Store.Undelete

/-!
# A trashed file among other calls (`service.rs:275-371`)

Between its trash and its restore a row is out of reach of every call that does not name it, and so
is what it reads from. The two calls undo each other when the path of the file has no slash at its
ends and no row stands on the hidden names in between.
-/

namespace P2pnas.Store.Parked
open P2pnas.Lib.Frames P2pnas.Lib.Strings P2pnas.Lib.Tables P2pnas.Lib.Runs P2pnas.Core
open P2pnas.Core.Base P2pnas.Store.Manifest P2pnas.Store.Session P2pnas.Store.Reading P2pnas.Store.Service
open P2pnas.Store.Edits P2pnas.Store.Operations P2pnas.Store.Lifecycle P2pnas.Store.Rows
open P2pnas.Store.Crashes P2pnas.Store.Faultless P2pnas.Store.Shelves P2pnas.Store.Spared
open P2pnas.Store.Repacking P2pnas.Store.Migration P2pnas.Store.Undelete Relation

theorem takes_of_deletes {b : Db} {o : Op} {u g : Text} (h : o.Deletes b u g) : Takes b o g := by
  cases o with
  | purgeFile u' f => exact h.2
  | emptyTrash u' => exact h.2
  | purgeRetired policy t v =>
    obtain ⟨c, hc, -, hid⟩ := h
    exact ⟨c, hc, hid⟩
  | compactPack u' old survivors new now => exact .inl h.2
  | push | trash | trashPath | restore | rename | mkdir | packFiles | repackSmallFiles | setLocation =>
    exact h.elim

/-- The row is the same, or a packing or a compaction moved its bytes. -/
def Reassigned (x y : FileRec) : Prop :=
  y = x ∨ SameFile x y ∧ y.packId.isSome = true ∧ y.storedBytes = 0

theorem Reassigned.trans {x y z : FileRec} (h : Reassigned x y) (h' : Reassigned y z) : Reassigned x z := by
  rcases h' with rfl | ⟨hs', hp, hz⟩
  · exact h
  · rcases h with rfl | ⟨hs, -, -⟩
    · exact .inr ⟨hs', hp, hz⟩
    · exact .inr ⟨hs.trans hs', hp, hz⟩

theorem Reassigned.cols {x y : FileRec} (h : Reassigned x y) :
    y.fileId = x.fileId ∧ y.live = x.live := by
  rcases h with rfl | ⟨hs, -, -⟩
  · exact ⟨rfl, rfl⟩
  · rw [hs]
    exact ⟨rfl, rfl⟩

section
variable {K : Type} {P : Prims K} {key : K} {o : Op} {b db db' : Db} {x : FileRec}

/-- An edit reaches a row that is not live by its id alone. -/
theorem edit_parked (he : Edit P o b db db') (hx : x ∈ db.files) (hdead : x.live = false)
    (hno : ¬ Takes b o x.fileId) : ∃ y ∈ db'.files, Reassigned x y := by
  have hlive : ∀ r ∈ db.files, r.live = true → x.fileId ≠ r.fileId := by
    intro r hr hl heq
    obtain rfl := eq_of_key db.constraints.fileIds hx hr heq
    rw [hdead] at hl
    cases hl
  cases he with
  | insert row _ hins =>
    refine ⟨x, ?_, .inl rfl⟩
    rw [(insertFile_some hins).2]
    exact List.mem_append_left _ hx
  | chunk c hins =>
    refine ⟨x, ?_, .inl rfl⟩
    rw [(insertChunk_some hins).2]
    exact hx
  | shard s _ hins =>
    refine ⟨x, ?_, .inl rfl⟩
    rw [(insertShard_some hins).2]
    exact hx
  | trash r now _ hr hl _ h => exact ⟨x, trashFile_keeps h hx (hlive r hr hl), .inl rfl⟩
  | restore r path _ hr _ hsel h =>
    refine ⟨x, ?_, .inl rfl⟩
    rw [restoreFile] at h
    refine mem_updateFiles h hx (isRow_other fun heq => hno ?_)
    cases o with
    | restore u f newPath now => exact heq.trans hsel.2.1
    | _ => exact hsel.elim
  | repath r path _ hr hl _ h => exact ⟨x, updateFilePath_keeps h hx (hlive r hr hl), .inl rfl⟩
  | assign u f packId offset len h =>
    rw [assignToPack] at h
    have hfiles := updateFiles_some h
    cases hs : isRow u f x with
    | false => exact ⟨x, mem_updateFiles h hx hs, .inl rfl⟩
    | true =>
      refine ⟨{ x with
        packId := some packId
        packOffset := some offset
        packLen := some len
        chunkCount := 0
        storedBytes := 0 }, ?_, .inr ⟨rfl, rfl, rfl⟩⟩
      rw [hfiles]
      exact mem_update.mpr ⟨x, hx, .inl ⟨hs, rfl⟩⟩
  | delete u f hsel =>
    refine ⟨x, List.mem_filter.mpr ⟨hx, ?_⟩, .inl rfl⟩
    have hne : x.fileId ≠ f := fun heq => hno (heq ▸ takes_of_deletes hsel)
    rw [isRow_other hne]
    rfl
  | strip u f => exact ⟨x, hx, .inl rfl⟩
  | folders hf _ _ _ => exact ⟨x, hf ▸ hx, .inl rfl⟩
  | location frag location => exact ⟨x, hx, .inl rfl⟩

theorem op_parked {w : World} (o : Op) (hx : x ∈ w.db.files) (hdead : x.live = false)
    (hno : ¬ Takes w.db o x.fileId) : ∃ y ∈ (o.leaves P key w).db.files, Reassigned x y := by
  obtain ⟨mid, hmid, hrest⟩ := op_step P key o w
  have hxm : x ∈ mid.files := by
    rcases hmid with rfl | ⟨r, hr, now, hl, -, hset⟩
    · exact hx
    · unfold supersedeFile retireRow at hset
      refine mem_updateFiles hset hx ?_
      have hne : x.fileId ≠ r.fileId := by
        intro heq
        obtain rfl := eq_of_key w.db.constraints.fileIds hx hr heq
        rw [hdead] at hl
        cases hl
      rw [isRow_other hne, Bool.false_and]
  generalize (o.leaves P key w).db = db' at hrest
  induction hrest with
  | refl => exact ⟨x, hxm, .inl rfl⟩
  | tail _ he ih =>
    obtain ⟨y, hy, hxy⟩ := ih
    obtain ⟨hid, hl⟩ := hxy.cols
    obtain ⟨z, hz, hyz⟩ := edit_parked he hy (hl.trans hdead) (hid ▸ hno)
    exact ⟨z, hz, hxy.trans hyz⟩

/-- A member of a pack stores nothing of its own. -/
def Light (r : FileRec) : Prop := r.packId.isSome = true → r.storedBytes = 0

theorem light_of_cols {r q : FileRec} (h : Light r) (hp : q.packId = r.packId)
    (hs : q.storedBytes = r.storedBytes) : Light q := by
  rw [Light, hp, hs]
  exact h

theorem light_updated {sel : FileRec → Bool} {set : FileRec → FileRec}
    {hid : ∀ r, (set r).fileId = r.fileId} (h : updateFiles db sel set hid = some db')
    (hset : ∀ r, Light r → Light (set r)) (hI : ∀ r ∈ db.files, Light r) : ∀ q ∈ db'.files, Light q := by
  intro q hq
  rw [updateFiles_some h] at hq
  obtain ⟨r, hr, ⟨-, rfl⟩ | ⟨-, rfl⟩⟩ := mem_update.mp hq
  · exact hset r (hI r hr)
  · exact hI q hr

theorem light_retired {u f : Text} {c : Retire} {now : Time} (h : retireRow db u f c now = some db')
    (hI : ∀ r ∈ db.files, Light r) : ∀ q ∈ db'.files, Light q := by
  rw [retireRow] at h
  refine light_updated h (fun r hr => ?_) hI
  cases c <;> exact light_of_cols hr rfl rfl

theorem edit_light (he : Edit P o b db db') (hI : ∀ r ∈ db.files, Light r) :
    ∀ q ∈ db'.files, Light q := by
  intro q hq
  cases he with
  | insert row hrow hins =>
    rcases insertFile_mem hins hq with hold | rfl
    · exact hI q hold
    · have hpush : ∃ u path m data now chunks lineage,
          row = pushRow P u path m data now chunks lineage := by
        cases o with
        | push u path data m now =>
          obtain ⟨chunks, lineage, h⟩ := hrow
          exact ⟨u, path, m, data, now, chunks, lineage, h⟩
        | packFiles u entries m now | compactPack u old survivors m now =>
          obtain ⟨data, chunks, h⟩ := hrow
          exact ⟨u, _, m, data, now, chunks, _, h⟩
        | repackSmallFiles u mints now =>
          obtain ⟨i, data, chunks, h⟩ := hrow
          exact ⟨u, _, mints i, data, now, chunks, _, h⟩
        | _ => exact hrow.elim
      obtain ⟨u, path, m, data, now, chunks, lineage, rfl⟩ := hpush
      exact nofun
  | chunk c hins =>
    rw [(insertChunk_some hins).2] at hq
    exact hI q hq
  | shard s _ hins =>
    rw [(insertShard_some hins).2] at hq
    exact hI q hq
  | trash r now _ _ _ _ h => exact light_retired h hI q hq
  | restore r path _ _ _ _ h =>
    rw [restoreFile] at h
    exact light_updated h (fun r hr => light_of_cols hr rfl rfl) hI q hq
  | repath r path _ _ _ _ h =>
    rw [updateFilePath] at h
    exact light_updated h (fun r hr => light_of_cols hr rfl rfl) hI q hq
  | assign u f packId offset len h =>
    rw [assignToPack] at h
    exact light_updated h (fun _ _ _ => rfl) hI q hq
  | delete u f _ => exact hI q (List.mem_filter.mp hq).1
  | strip u f => exact hI q hq
  | folders hf _ _ _ => exact hI q (hf ▸ hq)
  | location frag location => exact hI q hq

end

section
variable {K : Type} (P : Prims K) (key : K)

theorem reached_light {w : World} (h : Reached P key w) : ∀ r ∈ w.db.files, Light r :=
  reached_invariant P key (I := fun db => ∀ r ∈ db.files, Light r)
    (fun _ hr => absurd hr List.not_mem_nil) (fun _ _ _ _ he hI => edit_light he hI)
    (fun _ _ _ ⟨_, _, _, _, _, hset⟩ hI => light_retired hset hI) h

theorem reached_step {w : World} (h : Reached P key w) (a : Op × List Event) :
    Reached P key (step P key w a) := by
  obtain ⟨as, rfl⟩ := h
  exact ⟨as ++ [a], List.foldl_append ..⟩

/-- A parked row is as it was after every run of calls that are not about it, whatever fails. -/
theorem run_parked {w : World} {x : FileRec} {F : Set Text} (hw : Reached P key w)
    (hx : x ∈ w.db.files) (hdead : x.live = false) (hF : x.fileId ∈ F) {as : List (Op × List Event)}
    (has : AllMeet (step P key) (fun w a => Spares P F w.db a.1) w as) :
    x ∈ (run (step P key) w as).db.files := by
  have hstep : ∀ w a, Reached P key w ∧ x ∈ w.db.files → Spares P F w.db a.1 →
      Reached P key (step P key w a) ∧ x ∈ (step P key w a).db.files := by
    rintro w a ⟨hw, hx⟩ hs
    refine ⟨reached_step P key hw a, ?_⟩
    obtain ⟨y, hy, hxy⟩ := @op_parked K P key x { w with script := a.2 } a.1 hx hdead
      (hs.taken _ hF)
    have htidy : Tidy P w.db := reached_tidy hw
    have hsame := (@op_same K P F { w with script := a.2 } key a.1 htidy hs).2
    rcases hxy with rfl | ⟨hfile, hp, hzero⟩
    · exact hy
    · -- the columns a pack assigns are the ones the row has
      have hid : y.fileId = x.fileId := by rw [hfile]
      have hcols := (hsame.rows _ hF).cols
      have hold : colsOf w.db x.fileId = some (readCols x.view) := colsOf_mem hx
      have hnew : colsOf (step P key w a).db x.fileId = some (readCols y.view) := hid ▸ colsOf_mem hy
      have heq : readCols y.view = readCols x.view :=
        Option.some.inj (hnew.symm.trans (hcols.trans hold))
      have hpack : y.packId = x.packId := congrArg ReadCols.packId heq
      have hlight : x.storedBytes = 0 := reached_light P key hw x hx (hpack ▸ hp)
      have hyx : y = x := by
        rw [hfile, hpack, hzero, ← hlight, show y.packOffset = x.packOffset from congrArg ReadCols.packOffset heq,
          show y.packLen = x.packLen from congrArg ReadCols.packLen heq,
          show y.chunkCount = x.chunkCount from congrArg ReadCols.chunkCount heq]
      exact hyx ▸ hy
  exact (run_invariant (I := fun w => Reached P key w ∧ x ∈ w.db.files) hstep ⟨hw, hx⟩ has).2

end

/-! ### There and back -/

/-- What a trash, calls on other files and a restore leave: `w` is before the trash, `w₂` before the
restore. -/
structure Undone {K : Type} (P : Prims K) (key : K) (r : FileRec) (now : Time) (w w₂ w₃ : World) : Prop where
  back : r ∈ w₃.db.files
  versioned : ∀ q ∈ w₂.db.files, q.userId = r.userId → q.path = r.path → q.fileId ≠ r.fileId →
    aside now q ∈ w₃.db.files
  kept : ∀ q ∈ w₂.db.files, q.fileId ≠ r.fileId → ¬ (q.userId = r.userId ∧ q.path = r.path) →
    q ∈ w₃.db.files
  noNew : ∀ y ∈ w₃.db.files, ∃ q ∈ w₂.db.files, q.fileId = y.fileId
  chunks : w₃.db.chunks = w₂.db.chunks
  shards : w₃.db.shards = w₂.db.shards
  store : w₃.store = w₂.store
  folders : ∀ d ∈ w₂.db.folders, d ∈ w₃.db.folders
  ancestors : ∀ d ∈ w₃.db.folders, d ∈ w₂.db.folders ∨ d ∈ folderRowsFor r.userId (dirname r.path)
  content : pulled P key w₃ r.userId r.fileId = pulled P key w r.userId r.fileId
  bytes : ∀ u f, pulled P key w₃ u f = pulled P key w₂ u f

/-- When they leave that: the path has no slash at its ends, the tombstone key of the file is free
when it is trashed, what stands at its path when it comes back can step aside, and the container of
a member still reads. -/
structure Undoable {K : Type} (P : Prims K) (key : K) (r : FileRec) (w w₂ : World) : Prop where
  trimmed : trimMatches slash r.path = r.path
  named : r.path ≠ []
  free : Free w.db r.userId (retiredKey r.fileId) r.fileId
  clear : ∀ q ∈ w₂.db.files, q.userId = r.userId → q.path = r.path → q.fileId ≠ r.fileId →
    q.live = true ∧ notPack q.path = true ∧
      ∀ z ∈ w₂.db.files, z.userId = r.userId → z.path ≠ retiredKey q.fileId
  packed : r.packId.isSome = true →
    pulled P key w₂ r.userId r.fileId = pulled P key w r.userId r.fileId

section
variable {w : World} {r : FileRec} {now : Time}

theorem target_parked (hnone : r.retiredPath = none) : target (parked now r) = trimMatches slash r.path := by
  simp only [target, parked, Retire.set, FileRec.view, hnone, Option.getD_none, Option.getD_some]

theorem revived_parked (hlive : r.live = true) (hnone : r.retiredPath = none)
    (hpath : trimMatches slash r.path = r.path) : revived (parked now r) = r := by
  obtain ⟨hd, hs⟩ := live_stamps hlive
  have htarget := (@target_parked r now hnone).trans hpath
  rw [revived, htarget]
  cases r
  cases hd
  cases hs
  cases hnone
  rfl

/-- A trash that comes through parks the row, and everything reads as before. -/
theorem trash_parks (now : Time) (hr : r ∈ w.db.files) (hlive : r.live = true)
    (hfree : Free w.db r.userId (retiredKey r.fileId) r.fileId) :
    (trash r.userId r.fileId now (faultless w)).1 = .ok (parked now r).view ∧
      parked now r ∈ (trash r.userId r.fileId now (faultless w)).2.db.files := by
  obtain ⟨db', hdb'⟩ := Option.isSome_iff_exists.mp
    ((@retireRow_isSome w.db r .deletedAt now hr (live_stamps hlive).1).mpr hfree)
  have htrash := @trash_live w.db w.store r now hr hlive
  rw [hdb'] at htrash
  have hupd := hdb'
  rw [retireRow] at hupd
  have hb := updateFiles_became hr (@retire_iff w.db r .deletedAt hr (live_stamps hlive).1) hupd
  have hmem : parked now r ∈ db'.files := (hb.files _).mpr (.inr rfl)
  have hget : getFile db' r.userId r.fileId = some (parked now r).view := getFile_rowOf (rowOf_mem hmem) rfl
  rw [show faultless w = ⟨w.db, w.store, []⟩ from rfl, htrash]
  dsimp only
  rw [hget]
  exact ⟨rfl, hmem⟩

/-- A trash that returns its row found its tombstone key free. -/
theorem free_of_trash (hr : r ∈ w.db.files) (hlive : r.live = true) {v : FileRow}
    (h : (trash r.userId r.fileId now (faultless w)).1 = .ok v) :
    Free w.db r.userId (retiredKey r.fileId) r.fileId := by
  refine (@retireRow_isSome w.db r .deletedAt now hr (live_stamps hlive).1).mp ?_
  have htrash := @trash_live w.db w.store r now hr hlive
  rw [show faultless w = ⟨w.db, w.store, []⟩ from rfl, htrash] at h
  cases hset : retireRow w.db r.userId r.fileId .deletedAt now with
  | some db' => rfl
  | none =>
    rw [hset] at h
    cases h

end

section
variable {K : Type} (P : Prims K) (key : K)

/-- Neither a trash nor a restore changes what any file reads. -/
theorem shelved_pulled {w : World} {α : Type} {x : Svc α} (ht : Tidy P w.db)
    (hx : Moves (Touches P ∅ ∅) x) (u f : Text) :
    pulled P key (x (faultless w)).2 u f = pulled P key w u f := by
  have hsame : Same Set.univ (faultless w) (x (faultless w)).2 :=
    (@shelved_same K P (faultless w) _ _ ht hx).2
  exact @pulled_same K P _ (faultless w) _ key u f ht hsame (Set.mem_univ _) fun _ _ _ _ => Set.mem_univ _

/-- A file reads the same after a call on stamps and paths and any calls that spare it and its
container. -/
theorem run_pulled {w : World} {α : Type} {x : Svc α} {r : FileRec} {as : List (Op × List Event)}
    (ht : Tidy P w.db) (hx : Moves (Touches P ∅ ∅) x) (hr : r ∈ w.db.files)
    (has : AllMeet (step P key) (fun w a => Spares P {r.fileId} w.db a.1) (x (faultless w)).2 as)
    (hpack : ∀ p, r.packId = some p →
      AllMeet (step P key) (fun w a => Spares P {p} w.db a.1) (x (faultless w)).2 as) :
    pulled P key (run (step P key) (x (faultless w)).2 as) r.userId r.fileId =
      pulled P key w r.userId r.fileId := by
  have hspared : AllMeet (step P key) (fun w a => Spares P {g | g = r.fileId ∨ r.packId = some g} w.db a.1)
      (x (faultless w)).2 as := by
    cases hp : r.packId with
    | none =>
      refine has.mono fun _ _ h => .of_forall fun g hg => ?_
      rcases hg with rfl | hg
      · exact h
      · cases hg
    | some p =>
      refine (has.and (hpack p hp)).mono fun _ _ h => .of_forall fun g hg => ?_
      rcases hg with rfl | hg
      · exact h.1
      · exact Option.some.inj hg ▸ h.2
  obtain ⟨ht₁, hsame₁⟩ := @shelved_same K P (faultless w) _ _ ht hx
  have hsame := (@run_same K P _ _ key as ht₁ hspared).2
  have hall : Same {g | g = r.fileId ∨ r.packId = some g} (faultless w) (run (step P key) (x (faultless w)).2 as) :=
    Same.trans ⟨fun g _ => hsame₁.rows g (Set.mem_univ g), fun g _ => hsame₁.bytes g (Set.mem_univ g)⟩ hsame
  refine @pulled_same K P _ (faultless w) _ key r.userId r.fileId ht hall (.inl rfl) fun v hv p hp => ?_
  have hrow : getFile w.db r.userId r.fileId = some r.view := getFile_rowOf (rowOf_mem hr) rfl
  obtain rfl := Option.some.inj (hrow.symm.trans hv)
  exact .inr hp

section
variable {w w₂ : World} {r : FileRec} {now : Time}

/-- The restore of a parked row, by the path that the row had. -/
theorem restore_parked (now' : Time) (hparked : parked now r ∈ w₂.db.files) (hnone : r.retiredPath = none) :
    restore r.userId r.fileId none now' (faultless w₂) =
      if (trimMatches slash r.path).isEmpty then (fail .notFound, faultless w₂)
      else match restored w₂.db (parked now r) now' with
        | some db' => (orFail .notFound (getFile db' r.userId r.fileId), ⟨db', w₂.store, []⟩)
        | none => (fail .sqlite, faultless w₂) := by
  rw [← @target_parked r now hnone]
  exact @restore_dead w₂.db w₂.store (parked now r) now' hparked (parked_dead now r)

/-- A restore that returns and brings the row back as it was found the target of the row clear, and
that is its path. -/
theorem restore_parked_ok {now' : Time} {v : FileRow} (hparked : parked now r ∈ w₂.db.files)
    (hnone : r.retiredPath = none) (h : (restore r.userId r.fileId none now' (faultless w₂)).1 = .ok v)
    (hback : r ∈ (restore r.userId r.fileId none now' (faultless w₂)).2.db.files) :
    trimMatches slash r.path = r.path ∧ r.path ≠ [] ∧ Clears w₂.db (parked now r) := by
  rw [restore_parked now' hparked hnone] at h hback
  by_cases hempty : (trimMatches slash r.path).isEmpty = true
  · rw [if_pos hempty] at h
    cases h
  rw [if_neg hempty] at h hback
  cases hres : restored w₂.db (parked now r) now' with
  | none =>
    rw [hres] at h
    cases h
  | some db₃ =>
    rw [hres] at hback
    have hundel := restored_undeleted hparked hres
    have heq : revived (parked now r) = r := eq_of_key db₃.constraints.fileIds hundel.back hback rfl
    refine ⟨(@target_parked r now hnone).symm.trans (congrArg FileRec.path heq), fun hnil => hempty ?_,
      (restored_isSome now' hparked).mp (by rw [hres, Option.isSome_some])⟩
    rw [hnil]
    rfl

/-- What a restore of the parked row leaves when its target is its path and clear. -/
theorem restore_parked_back (now' : Time) (hparked : parked now r ∈ w₂.db.files) (hlive : r.live = true)
    (hnone : r.retiredPath = none) (h : Undoable P key r w w₂) :
    ∃ db₃, restore r.userId r.fileId none now' (faultless w₂) = (.ok r.view, ⟨db₃, w₂.store, []⟩) ∧
      r ∈ db₃.files ∧ Undeleted (parked now r) now' w₂.db db₃ := by
  have htarget : target (parked now r) = r.path := (target_parked hnone).trans h.trimmed
  have hclear : Clears w₂.db (parked now r) := fun q hq hat =>
    h.clear q hq hat.1 (hat.2.1.trans htarget) hat.2.2
  obtain ⟨db₃, hres⟩ := Option.isSome_iff_exists.mp ((restored_isSome now' hparked).mpr hclear)
  have hundel := restored_undeleted hparked hres
  have hback : r ∈ db₃.files := by
    have hrev := hundel.back
    rwa [revived_parked hlive hnone h.trimmed] at hrev
  have hget : getFile db₃ r.userId r.fileId = some r.view := getFile_rowOf (rowOf_mem hback) rfl
  have hempty : (trimMatches slash r.path).isEmpty = false := by
    rw [h.trimmed, List.isEmpty_eq_false_iff]
    exact h.named
  refine ⟨db₃, ?_, hback, hundel⟩
  rw [restore_parked now' hparked hnone, hempty, if_neg Bool.false_ne_true, hres]
  dsimp only
  rw [hget]
  rfl

end

/-- In every reached manifest, with any calls on other files in between and whatever fails in these:
trash and restore of a live file undo each other exactly when the condition holds. Its last part is so
when the calls spare the container too. -/
theorem restore_undoes_iff {w w₂ : World} (hw : Reached P key w) {r : FileRec} (hr : r ∈ w.db.files)
    (hlive : r.live = true) (now now' : Time) (as : List (Op × List Event))
    (has : AllMeet (step P key) (fun w a => Spares P {r.fileId} w.db a.1)
      (trash r.userId r.fileId now (faultless w)).2 as)
    (hrun : run (step P key) (trash r.userId r.fileId now (faultless w)).2 as = w₂) :
    (((trash r.userId r.fileId now (faultless w)).1 = .ok (parked now r).view ∧
      (restore r.userId r.fileId none now' (faultless w₂)).1 = .ok r.view ∧
      Undone P key r now' w w₂ (restore r.userId r.fileId none now' (faultless w₂)).2) ↔
    Undoable P key r w w₂) ∧
    ((∀ p, r.packId = some p → AllMeet (step P key) (fun w a => Spares P {p} w.db a.1)
      (trash r.userId r.fileId now (faultless w)).2 as) →
      pulled P key w₂ r.userId r.fileId = pulled P key w r.userId r.fileId) := by
  have hnone : r.retiredPath = none := (reached_filed P key hw r hr).current hlive
  have hw₁ : Reached P key (trash r.userId r.fileId now (faultless w)).2 :=
    reached_step P key hw (.trash r.userId r.fileId now, [])
  have htidy₂ : Tidy P w₂.db := hrun ▸ (run_same (reached_tidy hw₁) has).1
  have hpass : parked now r ∈ (trash r.userId r.fileId now (faultless w)).2.db.files →
      parked now r ∈ w₂.db.files := fun hmem =>
    hrun ▸ run_parked P key hw₁ hmem (parked_dead now r) (Set.mem_singleton _) has
  have hread₁ : (∀ p, r.packId = some p → AllMeet (step P key) (fun w a => Spares P {p} w.db a.1)
      (trash r.userId r.fileId now (faultless w)).2 as) →
      pulled P key w₂ r.userId r.fileId = pulled P key w r.userId r.fileId := fun hpack =>
    hrun ▸ run_pulled P key (reached_tidy hw) (moves_trash touches_shelves r.userId r.fileId now) hr has hpack
  have hread₃ : ∀ u f, pulled P key (restore r.userId r.fileId none now' (faultless w₂)).2 u f =
      pulled P key w₂ u f :=
    shelved_pulled P key htidy₂ (moves_restore touches_shelves r.userId r.fileId none now')
  refine ⟨⟨?_, ?_⟩, hread₁⟩
  · rintro ⟨htrash, hrestore, hdone⟩
    have hfree := free_of_trash hr hlive htrash
    have hparked := hpass (trash_parks now hr hlive hfree).2
    obtain ⟨htrim, hnamed, hclear⟩ := restore_parked_ok hparked hnone hrestore hdone.back
    refine ⟨htrim, hnamed, hfree, fun q hq hu hp hne => hclear q hq ⟨hu, ?_, hne⟩, fun _ => ?_⟩
    · rw [target_parked hnone, htrim, hp]
    · exact (hread₃ r.userId r.fileId).symm.trans hdone.content
  · intro h
    obtain ⟨htrash, hmem⟩ := trash_parks now hr hlive h.free
    have hparked := hpass hmem
    obtain ⟨db₃, hrestore, hback, hundel⟩ := restore_parked_back P key now' hparked hlive hnone h
    have hcontent : pulled P key w₂ r.userId r.fileId = pulled P key w r.userId r.fileId := by
      cases hpack : r.packId with
      | some p => exact h.packed (by rw [hpack, Option.isSome_some])
      | none => exact hread₁ fun p hp => by cases hpack.symm.trans hp
    have htarget : target (parked now r) = r.path := (target_parked hnone).trans h.trimmed
    have hat : ∀ q : FileRec, q.userId = r.userId → q.path = r.path → q.fileId ≠ r.fileId →
        AtTarget (parked now r) q := fun q hu hp hne => ⟨hu, hp.trans htarget.symm, hne⟩
    refine ⟨htrash, by rw [hrestore], ?_⟩
    rw [hrestore] at hread₃ ⊢
    refine ⟨hback, fun q hq hu hp hne => hundel.versioned q hq (hat q hu hp hne), fun q hq hne hno => ?_,
      fun y hy => ?_, hundel.chunks, hundel.shards, rfl, hundel.folders, fun d hd => ?_,
      (hread₃ _ _).trans hcontent, hread₃⟩
    · exact hundel.kept q hq hne fun hqat => hno ⟨hqat.1, hqat.2.1.trans htarget⟩
    · rcases hundel.noNew y hy with rfl | ⟨q, hq, -, rfl⟩ | ⟨hold, -, -⟩
      · exact ⟨parked now r, hparked, rfl⟩
      · exact ⟨q, hq, rfl⟩
      · exact ⟨y, hold, rfl⟩
    · have hnew := hundel.ancestors d hd
      rwa [htarget] at hnew

end

/-! ### A path with a slash in front, and a path taken in between -/

def onePush (path : Text) : World :=
  step (Sample.sample []) .node emptyWorld (.push ['u'] path [1, 2] ['a'] 0, [])

/-- The upload handler trims white space alone, and the file comes back at another path. -/
theorem leadingSlash_moved : trim "/a".toList = "/a".toList ∧ "/a".toList ≠ [] ∧
    ∃ r ∈ (onePush "/a".toList).db.files, r.live = true ∧
      ¬ Undone (Sample.sample []) .node r 2 (onePush "/a".toList)
        (trash r.userId r.fileId 1 (faultless (onePush "/a".toList))).2
        (restore r.userId r.fileId none 2
          (faultless (trash r.userId r.fileId 1 (faultless (onePush "/a".toList))).2)).2 := by
  have hrow : ∃ r ∈ (onePush "/a".toList).db.files, r.live = true ∧
      r ∉ (restore r.userId r.fileId none 2
        (faultless (trash r.userId r.fileId 1 (faultless (onePush "/a".toList))).2)).2.db.files := by
    decide +kernel
  obtain ⟨r, hr, hlive, hgone⟩ := hrow
  exact ⟨by decide, by decide, r, hr, hlive, fun h => hgone h.back⟩

/-- The path of the trashed file is taken by another upload. -/
def reused : World :=
  run (step (Sample.sample []) .node) (trash ['u'] ['a'] 1 (faultless (onePush ['p']))).2
    [(.push ['u'] ['p'] [3] ['m'] 2, [])]

theorem reusedPath_undone : ∃ r ∈ (onePush ['p']).db.files,
    (trash r.userId r.fileId 1 (faultless (onePush ['p']))).1 = .ok (parked 1 r).view ∧
      (restore r.userId r.fileId none 3 (faultless reused)).1 = .ok r.view ∧
      Undone (Sample.sample []) .node r 3 (onePush ['p']) reused
        (restore r.userId r.fileId none 3 (faultless reused)).2 := by
  have hrow : ∃ r ∈ (onePush ['p']).db.files, r.live = true ∧ r.userId = ['u'] ∧ r.fileId = ['a'] ∧
      r.path = ['p'] ∧ r.packId = none := by decide +kernel
  obtain ⟨r, hr, hlive, hu, hid, hpath, hpack⟩ := hrow
  have hshards : ∀ s ∈ (trash ['u'] ['a'] 1 (faultless (onePush ['p']))).2.db.shards,
      s.fragmentId.take 2 = ['0', '0'] ∧ (s.fragmentId.drop 4).take 2 ≠ hexEncode [109] := by
    decide +kernel
  have hspares : Spares (Sample.sample []) {r.fileId}
      (trash r.userId r.fileId 1 (faultless (onePush ['p']))).2.db (.push ['u'] ['p'] [3] ['m'] 2) := by
    rw [hu, hid]
    refine ⟨fun _ _ => id, fun m hm => ?_, fun m hm g _ s hs _ haddr => ?_⟩
    · obtain rfl : m = ['m'] := hm
      decide
    · obtain rfl : m = ['m'] := hm
      obtain ⟨hzero, hname⟩ := hshards s hs
      exact (@addr_shows 'm' 109 (by decide) _ haddr).elim (fun h => h hzero) hname
  have hundo : Undoable (Sample.sample []) .node r (onePush ['p']) reused := by
    refine ⟨by rw [hpath]; decide, by rw [hpath]; decide, ?_, ?_, fun h => ?_⟩
    · rw [hu, hid]
      intro q hq _ hq'
      revert q
      decide +kernel
    · rw [hu, hid, hpath]
      intro q hq
      revert q
      decide +kernel
    · rw [hpack] at h
      cases h
  have hreached : Reached (Sample.sample []) .node (onePush ['p']) := by
    refine ⟨[(.push ['u'] ['p'] [1, 2] ['a'] 0, [])], ?_⟩
    rw [onePush]
    rfl
  have hall : AllMeet (step (Sample.sample []) .node) (fun w a => Spares (Sample.sample []) {r.fileId} w.db a.1)
      (trash r.userId r.fileId 1 (faultless (onePush ['p']))).2 [(.push ['u'] ['p'] [3] ['m'] 2, [])] := by
    refine ⟨?_, trivial⟩
    exact hspares
  have hrun : run (step (Sample.sample []) .node) (trash r.userId r.fileId 1 (faultless (onePush ['p']))).2
      [(.push ['u'] ['p'] [3] ['m'] 2, [])] = reused := by
    rw [hu, hid, reused]
  obtain ⟨htrash, hrestore, hdone⟩ := (restore_undoes_iff _ _ hreached hr hlive 1 3 _ hall hrun).1.mpr hundo
  exact ⟨r, hr, htrash, hrestore, hdone⟩

end P2pnas.Store.Parked
