import P2pnas.Store.Lifecycle
import P2pnas.Store.Rows

/-!
# Trash and restore (`service.rs:275-371`, `manifest.rs:542-602`)

`trash` parks a row on its tombstone key, `restore` takes it back to the path it remembers, with
the slashes at its ends cut off. Both are single `UPDATE`s of the rows concerned; what may stand in
their way is another row with the key they write.
-/

namespace P2pnas.Store.Undelete
open P2pnas.Lib.Frames P2pnas.Lib.Strings P2pnas.Lib.Tables P2pnas.Lib.Runs P2pnas.Core.Base
open P2pnas.Store.Manifest P2pnas.Store.Session P2pnas.Store.Service P2pnas.Store.Crashes
open P2pnas.Store.Edits P2pnas.Store.Operations P2pnas.Store.Lifecycle P2pnas.Store.Rows
open Relation

/-! ### Updates of one row -/

/-- `r` became `r'`; nothing else changed but the folders. -/
structure Became (r r' : FileRec) (db db' : Db) : Prop where
  files : ∀ q, q ∈ db'.files ↔ q ∈ db.files ∧ q ≠ r ∨ q = r'
  chunks : db'.chunks = db.chunks
  shards : db'.shards = db.shards

section
variable {db db' : Db} {r : FileRec} {sel : FileRec → Bool} {set : FileRec → FileRec}
  {hid : ∀ r, (set r).fileId = r.fileId}

theorem updateFiles_became (hr : r ∈ db.files) (hsel : ∀ q ∈ db.files, sel q = true ↔ q = r)
    (h : updateFiles db sel set hid = some db') : Became r (set r) db db' := by
  have htab := updateFiles_some h
  refine ⟨fun q => ?_, by rw [htab], by rw [htab]⟩
  have hfiles : db'.files = update sel set db.files := by rw [htab]
  rw [hfiles, mem_update]
  constructor
  · rintro ⟨q₀, hq₀, ⟨hs, rfl⟩ | ⟨hs, rfl⟩⟩
    · exact .inr (congrArg set ((hsel q₀ hq₀).mp hs))
    · refine .inl ⟨hq₀, fun heq => ?_⟩
      rw [(hsel q hq₀).mpr heq] at hs
      cases hs
  · rintro (⟨hq, hne⟩ | rfl)
    · refine ⟨q, hq, .inr ⟨?_, rfl⟩⟩
      cases hs : sel q with
      | false => rfl
      | true => exact absurd ((hsel q hq).mp hs) hne
    · exact ⟨r, hr, .inl ⟨(hsel r hr).mpr rfl, rfl⟩⟩

end

/-- No other row of the owner is at the key. -/
def Free (db : Db) (u path f : Text) : Prop :=
  ∀ q ∈ db.files, q.userId = u → q.path = path → q.fileId = f

theorem free_iff {db : Db} {r : FileRec} (r' : FileRec) (hr : r ∈ db.files) (hu : r'.userId = r.userId) :
    (∀ q ∈ db.files, q ≠ r → q.pathKey ≠ r'.pathKey) ↔ Free db r.userId r'.path r.fileId := by
  constructor
  · intro h q hq hqu hqp
    by_contra hne
    refine h q hq (fun heq => hne (heq ▸ rfl)) ?_
    rw [FileRec.pathKey, FileRec.pathKey, hqu, hqp, hu]
  · intro h q hq hne heq
    obtain ⟨hqu, hqp⟩ := Prod.mk.inj heq
    exact hne (eq_of_key db.constraints.fileIds hq hr (h q hq (hqu.trans hu) hqp))

theorem retireRow_isSome {db : Db} {r : FileRec} {c : Retire} (now : Time) (hr : r ∈ db.files)
    (hnone : c.get r = none) :
    (retireRow db r.userId r.fileId c now).isSome ↔ Free db r.userId (retiredKey r.fileId) r.fileId := by
  rw [retireRow, updateFiles_isSome hr (retire_iff hr hnone),
    free_iff (c.set now r) hr (by cases c <;> rfl)]
  cases c <;> exact Iff.rfl

theorem restoreFile_isSome {db : Db} {r : FileRec} (path : Text) (hr : r ∈ db.files) :
    (restoreFile db r.userId r.fileId path).isSome ↔ Free db r.userId path r.fileId := by
  rw [restoreFile, updateFiles_isSome hr (isRow_iff_eq hr)]
  exact free_iff { r with
    deletedAt := none, supersededAt := none, retiredPath := none, path := path } hr rfl

/-! ### The two calls without faults -/

section
variable {db : Db} {st : ChunkStore} {r : FileRec}

/-- The row in the trash. -/
def parked (now : Time) (r : FileRec) : FileRec := Retire.deletedAt.set now r

theorem parked_dead (now : Time) (r : FileRec) : (parked now r).live = false := rfl

/-- Trashing a live row is the one `UPDATE`. -/
theorem trash_live (now : Time) (hr : r ∈ db.files) (hlive : r.live = true) :
    trash r.userId r.fileId now ⟨db, st, []⟩ =
      match retireRow db r.userId r.fileId .deletedAt now with
      | some db' => (orFail .notFound (getFile db' r.userId r.fileId), ⟨db', st, []⟩)
      | none => (fail .sqlite, ⟨db, st, []⟩) := by
  obtain ⟨hd, hs⟩ := live_stamps hlive
  have hrow : getFile db r.userId r.fileId = some r.view := getFile_rowOf (rowOf_mem hr) rfl
  have hquery : query (getFile · r.userId r.fileId) ⟨db, st, []⟩ = (.ok (some r.view), ⟨db, st, []⟩) := by
    rw [← hrow]
    rfl
  have hdv : r.view.deletedAt.isSome = false := by rw [show r.view.deletedAt = none from hd]; rfl
  have hsv : r.view.supersededAt.isSome = false := by rw [show r.view.supersededAt = none from hs]; rfl
  rw [trash, bind_apply, hquery]
  change ((if r.view.deletedAt.isSome then _ else _ : Svc FileRow) ⟨db, st, []⟩) = _
  rw [hdv, if_neg Bool.false_ne_true, hsv, if_neg Bool.false_ne_true, bind_apply]
  have hstmt : stmt (trashFile · r.userId r.fileId now) ⟨db, st, []⟩ =
      match retireRow db r.userId r.fileId .deletedAt now with
      | some db' => (.ok (), ⟨db', st, []⟩)
      | none => (fail .sqlite, ⟨db, st, []⟩) := rfl
  rw [hstmt]
  cases retireRow db r.userId r.fileId .deletedAt now <;> rfl

/-- The row at a path stepped aside. -/
def stepAside (db : Db) (u : Text) (current : Option FileRow) (now : Time) : Option Db :=
  match current with
  | some c => supersedeFile db u c.fileId now
  | none => some db

/-- `insert_folder`, as one. -/
def withFolders (db : Db) (u path : Text) : Db := (folderRowsFor u path).foldl insertFolderRow db

theorem insertFolderSvc_works (u path : Text) :
    insertFolderSvc u path ⟨db, st, []⟩ = (.ok (), ⟨withFolders db u path, st, []⟩) := by
  have hrows : ∀ (rows : List FolderRow) (db : Db), ∃ us,
      collect (fun row => stmt fun db => some (insertFolderRow db row)) rows ⟨db, st, []⟩ =
        (.ok us, ⟨rows.foldl insertFolderRow db, st, []⟩) := by
    intro rows
    induction rows with
    | nil => exact fun db => ⟨[], rfl⟩
    | cons row rows ih =>
      intro db
      obtain ⟨us, hus⟩ := ih (insertFolderRow db row)
      refine ⟨() :: us, ?_⟩
      have hone : stmt (fun db => some (insertFolderRow db row)) ⟨db, st, []⟩ =
          (.ok (), ⟨insertFolderRow db row, st, []⟩) := rfl
      simp only [collect, bind_apply, hone, hus]
      rfl
  obtain ⟨us, hus⟩ := hrows (folderRowsFor u path) db
  rw [insertFolderSvc, bind_apply, hus]
  rfl

theorem withFolders_files (db : Db) (u path : Text) : (withFolders db u path).files = db.files ∧
    (withFolders db u path).chunks = db.chunks ∧ (withFolders db u path).shards = db.shards := by
  have hrows : ∀ (rows : List FolderRow) (db : Db), (rows.foldl insertFolderRow db).files = db.files ∧
      (rows.foldl insertFolderRow db).chunks = db.chunks ∧
      (rows.foldl insertFolderRow db).shards = db.shards := by
    intro rows
    induction rows with
    | nil => exact fun db => ⟨rfl, rfl, rfl⟩
    | cons row rows ih =>
      intro db
      have hone : (insertFolderRow db row).files = db.files ∧
          (insertFolderRow db row).chunks = db.chunks ∧ (insertFolderRow db row).shards = db.shards := by
        unfold insertFolderRow
        split <;> exact ⟨rfl, rfl, rfl⟩
      obtain ⟨hf, hc, hs⟩ := ih (insertFolderRow db row)
      exact ⟨hf.trans hone.1, hc.trans hone.2.1, hs.trans hone.2.2⟩
  exact hrows _ db

/-- The folders there stay, and what comes to them are the ancestors. -/
theorem withFolders_folders (db : Db) (u path : Text) :
    (∀ d ∈ db.folders, d ∈ (withFolders db u path).folders) ∧
      ∀ d ∈ (withFolders db u path).folders, d ∈ db.folders ∨ d ∈ folderRowsFor u path := by
  have hrows : ∀ (rows : List FolderRow) (db : Db),
      (∀ d ∈ db.folders, d ∈ (rows.foldl insertFolderRow db).folders) ∧
        ∀ d ∈ (rows.foldl insertFolderRow db).folders, d ∈ db.folders ∨ d ∈ rows := by
    intro rows
    induction rows with
    | nil => exact fun db => ⟨fun _ h => h, fun _ h => .inl h⟩
    | cons row rows ih =>
      intro db
      have hone : (∀ d ∈ db.folders, d ∈ (insertFolderRow db row).folders) ∧
          ∀ d ∈ (insertFolderRow db row).folders, d ∈ db.folders ∨ d = row := by
        unfold insertFolderRow
        split
        · exact ⟨fun _ h => h, fun _ h => .inl h⟩
        · exact ⟨fun d h => List.mem_append_left _ h, fun d h =>
            (List.mem_append.mp h).imp_right List.mem_singleton.mp⟩
      obtain ⟨hkeep, hnew⟩ := ih (insertFolderRow db row)
      refine ⟨fun d hd => hkeep d (hone.1 d hd), fun d hd => ?_⟩
      rcases hnew d hd with hd | hd
      · rcases hone.2 d hd with hd | rfl
        · exact .inl hd
        · exact .inr (List.mem_cons_self ..)
      · exact .inr (List.mem_cons_of_mem _ hd)
  exact hrows _ db

/-- Where a restore without a path of its own takes a row. -/
def target (r : FileRec) : Text := trimMatches slash r.view.path

/-- What stands at the target, the row itself apart. -/
def occupant (db : Db) (r : FileRec) : Option FileRow :=
  (getFileByPath db r.userId (target r)).filter fun c => c.fileId ≠ r.fileId

/-- The manifest that a restore commits. -/
def restored (db : Db) (r : FileRec) (now : Time) : Option Db :=
  (stepAside db r.userId (occupant db r) now).bind fun db₁ =>
    restoreFile (withFolders db₁ r.userId (dirname (target r))) r.userId r.fileId (target r)

theorem stepAside_works (u : Text) (current : Option FileRow) (now : Time) :
    supersedeOpt u current now ⟨db, st, []⟩ =
      match stepAside db u current now with
      | some db₁ => (.ok (), ⟨db₁, st, []⟩)
      | none => (fail .sqlite, ⟨db, st, []⟩) := by
  cases current <;> rfl

theorem restoreTx_dead (now : Time) (hr : r ∈ db.files) (hdead : r.live = false) :
    restoreTx r.userId r.fileId none now ⟨db, st, []⟩ =
      if (target r).isEmpty then (fail .notFound, ⟨db, st, []⟩)
      else match stepAside db r.userId (occupant db r) now with
        | none => (fail .sqlite, ⟨db, st, []⟩)
        | some db₁ =>
          match restoreFile (withFolders db₁ r.userId (dirname (target r))) r.userId r.fileId (target r) with
          | some db' => (.ok (), ⟨db', st, []⟩)
          | none => (fail .sqlite, ⟨withFolders db₁ r.userId (dirname (target r)), st, []⟩) := by
  have hrow : getFile db r.userId r.fileId = some r.view := getFile_rowOf (rowOf_mem hr) rfl
  have hlive : r.view.isLive = false := hdead
  have hquery : query (getFile · r.userId r.fileId) ⟨db, st, []⟩ = (.ok (some r.view), ⟨db, st, []⟩) := by
    rw [← hrow]
    rfl
  have hpath : query (getFileByPath · r.userId (target r)) ⟨db, st, []⟩ =
      (.ok (getFileByPath db r.userId (target r)), ⟨db, st, []⟩) := rfl
  have hfile : (orThrow .notFound (some r.view) : Svc FileRow) ⟨db, st, []⟩ = (.ok r.view, ⟨db, st, []⟩) :=
    rfl
  have htarget : trimMatches slash ((none : Option Text).getD r.view.path) = target r := rfl
  have hid : r.view.fileId = r.fileId := rfl
  rw [restoreTx, bind_apply, hquery]
  dsimp only
  rw [bind_apply, hfile]
  dsimp only
  rw [hlive, if_neg Bool.false_ne_true, htarget, hid]
  by_cases hempty : (target r).isEmpty = true
  · rw [if_pos hempty, if_pos hempty]
    rfl
  · rw [if_neg hempty, if_neg hempty, bind_apply, hpath]
    dsimp only
    rw [bind_apply, stepAside_works, ← occupant]
    cases stepAside db r.userId (occupant db r) now with
    | none => rfl
    | some db₁ =>
      dsimp only
      rw [bind_apply, insertFolderSvc_works]
      dsimp only
      cases hrest : restoreFile (withFolders db₁ r.userId (dirname (target r))) r.userId r.fileId
          (target r) with
      | none => simp only [stmt, effect, hrest]
      | some db' => simp only [stmt, effect, hrest]

/-- Restoring a row that is not live takes its target and nothing else. -/
theorem restore_dead (now : Time) (hr : r ∈ db.files) (hdead : r.live = false) :
    restore r.userId r.fileId none now ⟨db, st, []⟩ =
      if (target r).isEmpty then (fail .notFound, ⟨db, st, []⟩)
      else match restored db r now with
        | some db' => (orFail .notFound (getFile db' r.userId r.fileId), ⟨db', st, []⟩)
        | none => (fail .sqlite, ⟨db, st, []⟩) := by
  rw [restore, bind_apply, transaction, restoreTx_dead now hr hdead, restored]
  by_cases hempty : (target r).isEmpty = true
  · rw [if_pos hempty, if_pos hempty]
    rfl
  · rw [if_neg hempty, if_neg hempty]
    cases stepAside db r.userId (occupant db r) now with
    | none => rfl
    | some db₁ =>
      dsimp only [Option.bind_some]
      cases restoreFile (withFolders db₁ r.userId (dirname (target r))) r.userId r.fileId (target r) <;> rfl

/-! ### What a restore finds at its target -/

/-- `q` stands where a restore takes `r`. -/
def AtTarget (r q : FileRec) : Prop := q.userId = r.userId ∧ q.path = target r ∧ q.fileId ≠ r.fileId

/-- What stands at the target is a live row that the lookup by path shows, and its tombstone key is
not taken. -/
def Clears (db : Db) (r : FileRec) : Prop :=
  ∀ q ∈ db.files, AtTarget r q → q.live = true ∧ notPack q.path = true ∧
    ∀ z ∈ db.files, z.userId = r.userId → z.path ≠ retiredKey q.fileId

/-- The row as a restore leaves it. -/
def revived (r : FileRec) : FileRec :=
  { r with deletedAt := none, supersededAt := none, retiredPath := none, path := target r }

/-- A row set aside by an upload or a restore. -/
def aside (now : Time) (q : FileRec) : FileRec := Retire.supersededAt.set now q

theorem occupant_some {v : FileRow} (h : occupant db r = some v) :
    ∃ q ∈ db.files, AtTarget r q ∧ q.live = true ∧ notPack q.path = true ∧ q.view = v := by
  obtain ⟨hfind, hne⟩ := Option.filter_eq_some_iff.mp h
  obtain ⟨q, hq, hu, hp, hl, hn, rfl⟩ := mem_of_path hfind
  exact ⟨q, hq, ⟨hu, hp, of_decide_eq_true hne⟩, hl, hn, rfl⟩

theorem occupant_none (h : occupant db r = none) {q : FileRec} (hq : q ∈ db.files)
    (hat : AtTarget r q) : ¬ (q.live = true ∧ notPack q.path = true) := by
  rintro ⟨hl, hn⟩
  have hfind : getFileByPath db r.userId (target r) = some q.view := by
    have hrow : db.files.find? (fun z => z.userId = r.userId && z.path = target r && z.live &&
        notPack z.path) = some q := by
      refine find?_eq_some db.constraints.filePaths hq ?_ fun z hz => ?_
      · simp [hat.1, hat.2.1, hl, hat.2.1 ▸ hn]
      · simp only [Bool.and_eq_true, decide_eq_true_eq] at hz
        exact Prod.ext (hz.1.1.1.trans hat.1.symm) (hz.1.1.2.trans hat.2.1.symm)
    rw [getFileByPath, hrow, Option.map_some]
  rw [occupant, hfind] at h
  have hkeep : (some q.view).filter (fun c => decide (c.fileId ≠ r.fileId)) = some q.view :=
    Option.filter_eq_some_iff.mpr ⟨rfl, decide_eq_true hat.2.2⟩
  rw [hkeep] at h
  cases h

/-- At most one row stands at the target. -/
theorem AtTarget.unique {q z : FileRec} (hq : q ∈ db.files) (hz : z ∈ db.files) (h : AtTarget r q)
    (hu : z.userId = r.userId) (hp : z.path = target r) : z = q := by
  refine eq_of_key db.constraints.filePaths hz hq ?_
  rw [FileRec.pathKey, FileRec.pathKey, hu, hp, h.1, h.2.1]

/-- What stands at the target stepped aside. -/
theorem stepAside_became {q : FileRec} {now : Time} {db₁ : Db} (hq : q ∈ db.files)
    (hat : AtTarget r q) (hlive : q.live = true)
    (h : stepAside db r.userId (some q.view) now = some db₁) : Became q (aside now q) db db₁ := by
  have hsup : supersedeFile db q.userId q.fileId now = some db₁ := by
    rw [hat.1]
    exact h
  rw [supersedeFile, retireRow] at hsup
  exact updateFiles_became hq (retire_iff (c := .supersededAt) hq (live_stamps hlive).2) hsup

theorem stepAside_isSome {q : FileRec} (now : Time) (hq : q ∈ db.files) (hat : AtTarget r q)
    (hlive : q.live = true) : (stepAside db r.userId (some q.view) now).isSome ↔
      Free db r.userId (retiredKey q.fileId) q.fileId := by
  rw [← hat.1]
  exact retireRow_isSome now hq (live_stamps hlive).2

theorem free_of_files {db db' : Db} (h : db'.files = db.files) (u path f : Text) :
    Free db' u path f ↔ Free db u path f := by
  rw [Free, Free, h]

theorem restoreFolders_isSome (hr : r ∈ db.files) :
    (restoreFile (withFolders db r.userId (dirname (target r))) r.userId r.fileId (target r)).isSome ↔
      Free db r.userId (target r) r.fileId := by
  have hfiles := (withFolders_files db r.userId (dirname (target r))).1
  have hrw : r ∈ (withFolders db r.userId (dirname (target r))).files := by
    rw [hfiles]
    exact hr
  rw [restoreFile_isSome (target r) hrw, free_of_files hfiles]

/-- A restore is refused exactly when its target is not clear. -/
theorem restored_isSome (now : Time) (hr : r ∈ db.files) :
    (restored db r now).isSome ↔ Clears db r := by
  cases hocc : occupant db r with
  | none =>
    have hstep : restored db r now =
        restoreFile (withFolders db r.userId (dirname (target r))) r.userId r.fileId (target r) := by
      simp only [restored, hocc, stepAside, Option.bind_some]
    rw [hstep, restoreFolders_isSome hr]
    constructor
    · intro hfree q hq hat
      exact absurd (hfree q hq hat.1 hat.2.1) hat.2.2
    · intro hclear q hq hqu hqp
      by_contra hne
      have hat : AtTarget r q := ⟨hqu, hqp, hne⟩
      obtain ⟨hl, hn, -⟩ := hclear q hq hat
      exact occupant_none hocc hq hat ⟨hl, hn⟩
  | some v =>
    obtain ⟨q, hq, hat, hl, hn, rfl⟩ := occupant_some hocc
    have hside := stepAside_isSome now hq hat hl
    have hne : r ≠ q := fun heq => hat.2.2 (heq ▸ rfl)
    constructor
    · intro hsome
      obtain ⟨db', hdb'⟩ := Option.isSome_iff_exists.mp hsome
      rw [restored, hocc] at hdb'
      obtain ⟨db₁, hdb₁, hrest⟩ := Option.bind_eq_some_iff.mp hdb'
      have hb := stepAside_became hq hat hl hdb₁
      have hfree := hside.mp (by rw [hdb₁, Option.isSome_some])
      have hfree₁ := (restoreFolders_isSome ((hb.files r).mpr (.inl ⟨hr, hne⟩))).mp
        (by rw [hrest, Option.isSome_some])
      intro q' hq' hat'
      obtain rfl := hat.unique hq hq' hat'.1 hat'.2.1
      refine ⟨hl, hn, fun z hz hzu hzp => ?_⟩
      -- only the row itself can be at its own tombstone key, and then it never leaves the target
      obtain rfl := eq_of_key db.constraints.fileIds hz hq (hfree z hz hzu hzp)
      have hmoved : aside now z ∈ db₁.files := (hb.files _).mpr (.inr rfl)
      exact hat.2.2 (hfree₁ (aside now z) hmoved hat.1 (hzp.symm.trans hat.2.1))
    · intro hclear
      obtain ⟨-, -, hkey⟩ := hclear q hq hat
      obtain ⟨db₁, hdb₁⟩ := Option.isSome_iff_exists.mp
        (hside.mpr fun z hz hzu hzp => absurd hzp (hkey z hz hzu))
      have hb := stepAside_became hq hat hl hdb₁
      rw [restored, hocc, hdb₁, Option.bind_some, restoreFolders_isSome ((hb.files r).mpr (.inl ⟨hr, hne⟩))]
      intro z hz hzu hzp
      rcases (hb.files z).mp hz with ⟨hz, hzq⟩ | rfl
      · exact absurd (hat.unique hq hz hzu hzp) hzq
      · have hown : q.path = retiredKey q.fileId := hat.2.1.trans hzp.symm
        exact absurd hown (hkey q hq hat.1)

/-- All that a restore of `r` changes: the row is back, what stood at its target is a version, and
the folders above the target are there. -/
structure Undeleted (r : FileRec) (now : Time) (db db' : Db) : Prop where
  back : revived r ∈ db'.files
  versioned : ∀ q ∈ db.files, AtTarget r q → aside now q ∈ db'.files
  kept : ∀ q ∈ db.files, q.fileId ≠ r.fileId → ¬ AtTarget r q → q ∈ db'.files
  noNew : ∀ y ∈ db'.files, y = revived r ∨ (∃ q ∈ db.files, AtTarget r q ∧ y = aside now q) ∨
    y ∈ db.files ∧ y.fileId ≠ r.fileId ∧ ¬ AtTarget r y
  chunks : db'.chunks = db.chunks
  shards : db'.shards = db.shards
  folders : ∀ d ∈ db.folders, d ∈ db'.folders
  ancestors : ∀ d ∈ db'.folders, d ∈ db.folders ∨ d ∈ folderRowsFor r.userId (dirname (target r))

theorem restoreFile_became {path : Text} {db' : Db} (hr : r ∈ db.files)
    (h : restoreFile db r.userId r.fileId path = some db') :
    Became r { r with deletedAt := none, supersededAt := none, retiredPath := none, path := path } db db' ∧
      db'.folders = db.folders := by
  rw [restoreFile] at h
  exact ⟨updateFiles_became hr (isRow_iff_eq hr) h, by rw [updateFiles_some h]⟩

/-- The rows but `r` are those with other ids. -/
theorem fileId_ne_iff (hr : r ∈ db.files) {q : FileRec} (hq : q ∈ db.files) : q.fileId ≠ r.fileId ↔ q ≠ r := by
  constructor
  · rintro hne rfl
    exact hne rfl
  · exact fun hne heq => hne (eq_of_key db.constraints.fileIds hq hr heq)

/-- Nothing is in the way at the target. -/
theorem restored_free {now : Time} {db' : Db} (hr : r ∈ db.files)
    (hrest : restoreFile (withFolders db r.userId (dirname (target r))) r.userId r.fileId (target r) =
      some db') : Undeleted r now db db' := by
  obtain ⟨hwf, hwc, hws⟩ := withFolders_files db r.userId (dirname (target r))
  obtain ⟨hwold, hwnew⟩ := withFolders_folders db r.userId (dirname (target r))
  have hrw : r ∈ (withFolders db r.userId (dirname (target r))).files := by
    rw [hwf]
    exact hr
  obtain ⟨hb, hfold⟩ := restoreFile_became hrw hrest
  have hmem : ∀ y, y ∈ db'.files ↔ y ∈ db.files ∧ y ≠ r ∨ y = revived r := by
    intro y
    rw [hb.files, hwf]
    exact Iff.rfl
  have hsome : (restoreFile (withFolders db r.userId (dirname (target r))) r.userId r.fileId
      (target r)).isSome = true := by rw [hrest, Option.isSome_some]
  have hfree := (free_of_files hwf ..).mp ((restoreFile_isSome (target r) hrw).mp hsome)
  have hcleared : ∀ q ∈ db.files, ¬ AtTarget r q :=
    fun q hq hat => hat.2.2 (hfree q hq hat.1 hat.2.1)
  refine ⟨(hmem _).mpr (.inr rfl), fun q hq hat => absurd hat (hcleared q hq),
    fun q hq hne _ => (hmem q).mpr (.inl ⟨hq, (fileId_ne_iff hr hq).mp hne⟩), fun y hy => ?_,
    hb.chunks.trans hwc, hb.shards.trans hws, fun d hd => ?_, fun d hd => ?_⟩
  · rcases (hmem y).mp hy with ⟨hy, hne⟩ | rfl
    · exact .inr (.inr ⟨hy, (fileId_ne_iff hr hy).mpr hne, hcleared y hy⟩)
    · exact .inl rfl
  · rw [hfold]
    exact hwold d hd
  · rw [hfold] at hd
    exact hwnew d hd

/-- The live row at the target steps aside first. -/
theorem restored_occupied {now : Time} {db₁ db' : Db} {q₀ : FileRec} (hr : r ∈ db.files)
    (hq₀ : q₀ ∈ db.files) (hat₀ : AtTarget r q₀) (hl : q₀.live = true)
    (hside : stepAside db r.userId (some q₀.view) now = some db₁)
    (hrest : restoreFile (withFolders db₁ r.userId (dirname (target r))) r.userId r.fileId (target r) =
      some db') : Undeleted r now db db' := by
  obtain ⟨hwf, hwc, hws⟩ := withFolders_files db₁ r.userId (dirname (target r))
  obtain ⟨hwold, hwnew⟩ := withFolders_folders db₁ r.userId (dirname (target r))
  have hb₁ := stepAside_became hq₀ hat₀ hl hside
  have hr₁ : r ∈ db₁.files := (hb₁.files r).mpr (.inl ⟨hr, fun heq => hat₀.2.2 (heq ▸ rfl)⟩)
  have hfold₁ : db₁.folders = db.folders := by
    rw [stepAside, supersedeFile, retireRow] at hside
    rw [updateFiles_some hside]
  have hrw : r ∈ (withFolders db₁ r.userId (dirname (target r))).files := by
    rw [hwf]
    exact hr₁
  obtain ⟨hb, hfold⟩ := restoreFile_became hrw hrest
  have hmem : ∀ y, y ∈ db'.files ↔ (y ∈ db.files ∧ y ≠ q₀ ∨ y = aside now q₀) ∧ y ≠ r ∨ y = revived r := by
    intro y
    rw [hb.files, hwf, hb₁.files]
    exact Iff.rfl
  have hver : aside now q₀ ≠ r := by
    rintro rfl
    exact hat₀.2.2 rfl
  refine ⟨(hmem _).mpr (.inr rfl), fun q hq hat => ?_, fun q hq hne hnot => ?_, fun y hy => ?_,
    ?_, ?_, fun d hd => ?_, fun d hd => ?_⟩
  · obtain rfl := hat.unique hq hq₀ hat₀.1 hat₀.2.1
    exact (hmem _).mpr (.inl ⟨.inr rfl, hver⟩)
  · refine (hmem q).mpr (.inl ⟨.inl ⟨hq, ?_⟩, (fileId_ne_iff hr hq).mp hne⟩)
    rintro rfl
    exact hnot hat₀
  · rcases (hmem y).mp hy with ⟨⟨hy, hne⟩ | rfl, hyr⟩ | rfl
    · refine .inr (.inr ⟨hy, (fileId_ne_iff hr hy).mpr hyr, fun hat => hne ?_⟩)
      exact hat₀.unique hq₀ hy hat.1 hat.2.1
    · exact .inr (.inl ⟨q₀, hq₀, hat₀, rfl⟩)
    · exact .inl rfl
  · rw [hb.chunks, hwc, hb₁.chunks]
  · rw [hb.shards, hws, hb₁.shards]
  · rw [hfold]
    exact hwold d (hfold₁ ▸ hd)
  · rw [hfold] at hd
    rw [← hfold₁]
    exact hwnew d hd

theorem restored_undeleted {now : Time} {db' : Db} (hr : r ∈ db.files)
    (h : restored db r now = some db') : Undeleted r now db db' := by
  obtain ⟨db₁, hside, hrest⟩ := Option.bind_eq_some_iff.mp h
  cases hocc : occupant db r with
  | none =>
    rw [hocc] at hside
    obtain rfl : db = db₁ := Option.some.inj hside
    exact restored_free hr hrest
  | some v =>
    obtain ⟨q₀, hq₀, hat₀, hl, -, rfl⟩ := occupant_some hocc
    rw [hocc] at hside
    exact restored_occupied hr hq₀ hat₀ hl hside hrest

end

end P2pnas.Store.Undelete
