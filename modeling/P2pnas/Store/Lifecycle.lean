import P2pnas.Store.Operations

/-!
# The states of a file row (`manifest.rs:542-602`, `900-949`)

Two stamps, the raw path and `retired_path` encode whether a row is live, in the trash or set
aside. Every edit of every call keeps the encoding, and the one statement that sets a row aside
runs on a live row only and keeps the path the user sees.
-/

namespace P2pnas.Store.Lifecycle
open P2pnas.Lib.Frames P2pnas.Lib.Strings P2pnas.Lib.Tables P2pnas.Lib.Runs P2pnas.Core.Base
open P2pnas.Core.Pipeline P2pnas.Store.Manifest P2pnas.Store.Session P2pnas.Store.Service
open P2pnas.Store.Operations Relation

/-- The four columns agree on one state. -/
structure Filed (r : FileRec) : Prop where
  once : r.deletedAt.isSome = true → r.supersededAt.isSome = true → False
  retired : r.live = false → r.path = retiredKey r.fileId ∧ r.retiredPath.isSome = true
  current : r.live = true → r.retiredPath = none

/-- A superseded row of `db'` is one of `db`, at the same visible path. -/
def FromSuperseded (db db' : Db) : Prop :=
  ∀ r' ∈ db'.files, r'.supersededAt.isSome = true → ∃ r ∈ db.files, r.fileId = r'.fileId ∧
    r.userId = r'.userId ∧ r.view.path = r'.view.path ∧ r.supersededAt = r'.supersededAt

theorem live_stamps {r : FileRec} (h : r.live = true) : r.deletedAt = none ∧ r.supersededAt = none := by
  rw [FileRec.live, Bool.and_eq_true, Option.isNone_iff_eq_none, Option.isNone_iff_eq_none] at h
  exact h

theorem filed_current {r : FileRec} (hd : r.deletedAt = none) (hs : r.supersededAt = none)
    (hp : r.retiredPath = none) : Filed r := by
  have hl : r.live = true := by rw [FileRec.live, hd, hs]; rfl
  refine ⟨fun h _ => ?_, fun h => ?_, fun _ => hp⟩
  · rw [hd] at h
    cases h
  · rw [hl] at h
    cases h

/-- A live row parked by a stamp. -/
theorem filed_parked {r : FileRec} (h : r.live = true) (c : Retire) (at' : Time) :
    Filed (c.set at' r) := by
  obtain ⟨hd, hs⟩ := live_stamps h
  cases c with
  | deletedAt =>
    refine ⟨fun _ hsup => ?_, fun _ => ⟨rfl, rfl⟩, fun hl => ?_⟩
    · simp only [Retire.set, hs, Option.isSome_none, Bool.false_eq_true] at hsup
    · cases (live_stamps hl).1
  | supersededAt =>
    refine ⟨fun hdel _ => ?_, fun _ => ⟨rfl, rfl⟩, fun hl => ?_⟩
    · simp only [Retire.set, hd, Option.isSome_none, Bool.false_eq_true] at hdel
    · cases (live_stamps hl).2

/-- A row is the one an update by owner and id selects. -/
theorem isRow_eq {db : Db} {r q : FileRec} (hr : r ∈ db.files) (hq : q ∈ db.files)
    (h : isRow r.userId r.fileId q = true) : q = r := by
  rw [isRow, Bool.and_eq_true, decide_eq_true_eq, decide_eq_true_eq] at h
  exact eq_of_key db.constraints.fileIds hq hr h.2

section
variable {db db' : Db} {r : FileRec}

/-- An update of one row is refused exactly when another row has the key that it writes. -/
theorem updateFiles_isSome {sel : FileRec → Bool} {set : FileRec → FileRec}
    {hid : ∀ r, (set r).fileId = r.fileId} (hr : r ∈ db.files) (hsel : ∀ q ∈ db.files, sel q = true ↔ q = r) :
    (updateFiles db sel set hid).isSome ↔ ∀ q ∈ db.files, q ≠ r → q.pathKey ≠ (set r).pathKey := by
  rw [← nodup_update_one db.constraints.filePaths hr hsel, updateFiles]
  split
  · next hn => simp [hn]
  · next hn => simp [hn]

theorem isRow_iff_eq (hr : r ∈ db.files) : ∀ q ∈ db.files, isRow r.userId r.fileId q = true ↔ q = r := by
  intro q hq
  refine ⟨isRow_eq hr hq, ?_⟩
  rintro rfl
  simp [isRow]

theorem retire_iff {c : Retire} (hr : r ∈ db.files) (hnone : c.get r = none) : ∀ q ∈ db.files,
    (isRow r.userId r.fileId q && (c.get q).isNone) = true ↔ q = r := by
  intro q hq
  rw [Bool.and_eq_true, isRow_iff_eq hr q hq]
  refine ⟨And.left, ?_⟩
  rintro rfl
  exact ⟨rfl, by rw [hnone]; rfl⟩

/-- The rows after an update of one row. -/
theorem mem_updated {sel : FileRec → Bool} {set : FileRec → FileRec}
    {hid : ∀ r, (set r).fileId = r.fileId} (hr : r ∈ db.files)
    (hsel : ∀ q, sel q = true → isRow r.userId r.fileId q = true)
    (h : updateFiles db sel set hid = some db') {q : FileRec} (hq : q ∈ db'.files) :
    q ∈ db.files ∨ q = set r := by
  rw [updateFiles_some h] at hq
  obtain ⟨q₀, hq₀, ⟨hs, rfl⟩ | ⟨-, rfl⟩⟩ := mem_update.mp hq
  · obtain rfl := isRow_eq hr hq₀ (hsel q₀ hs)
    exact .inr rfl
  · exact .inl hq₀

theorem retireRow_mem {c : Retire} {at' : Time} (hr : r ∈ db.files)
    (h : retireRow db r.userId r.fileId c at' = some db') {q : FileRec} (hq : q ∈ db'.files) :
    q ∈ db.files ∨ q = c.set at' r := by
  rw [retireRow] at h
  exact mem_updated hr (fun q hs => (Bool.and_eq_true_iff.mp hs).1) h hq

theorem restoreFile_mem {path : Text} (hr : r ∈ db.files)
    (h : restoreFile db r.userId r.fileId path = some db') {q : FileRec} (hq : q ∈ db'.files) :
    q ∈ db.files ∨ q = { r with
      deletedAt := none, supersededAt := none, retiredPath := none, path := path } := by
  rw [restoreFile] at h
  exact mem_updated hr (fun q hs => hs) h hq

theorem updateFilePath_mem {path : Text} (hr : r ∈ db.files)
    (h : updateFilePath db r.userId r.fileId path = some db') {q : FileRec} (hq : q ∈ db'.files) :
    q ∈ db.files ∨ q = { r with path := path } := by
  rw [updateFilePath] at h
  exact mem_updated hr (fun q hs => hs) h hq

theorem insertFile_mem {row : FileRow} (h : insertFile db row = some db') {q : FileRec}
    (hq : q ∈ db'.files) : q ∈ db.files ∨ q = row.toRec := by
  rw [(insertFile_some h).2] at hq
  exact (List.mem_append.mp hq).imp_right List.mem_singleton.mp

/-- The other columns of a row that was assigned to a pack are those it had. -/
theorem assignToPack_mem {u f packId : Text} {offset len : ℤ}
    (h : assignToPack db u f packId offset len = some db') {q : FileRec} (hq : q ∈ db'.files) :
    ∃ r ∈ db.files, r.fileId = q.fileId ∧ r.userId = q.userId ∧ r.path = q.path ∧
      r.retiredPath = q.retiredPath ∧ r.deletedAt = q.deletedAt ∧ r.supersededAt = q.supersededAt := by
  rw [assignToPack] at h
  rw [updateFiles_some h] at hq
  obtain ⟨q₀, hq₀, ⟨-, rfl⟩ | ⟨-, rfl⟩⟩ := mem_update.mp hq
  · exact ⟨q₀, hq₀, rfl, rfl, rfl, rfl, rfl, rfl⟩
  · exact ⟨q, hq₀, rfl, rfl, rfl, rfl, rfl, rfl⟩

end

section
variable {K : Type} {P : Prims K} {o : Op} {b db db' : Db}

theorem filed_of_cols {r q : FileRec} (h : Filed r) (hid : r.fileId = q.fileId)
    (hp : r.path = q.path) (hret : r.retiredPath = q.retiredPath) (hd : r.deletedAt = q.deletedAt)
    (hs : r.supersededAt = q.supersededAt) : Filed q := by
  have hl : r.live = q.live := by rw [FileRec.live, FileRec.live, hd, hs]
  refine ⟨fun h₁ h₂ => h.once (hd ▸ h₁) (hs ▸ h₂), fun hq => ?_, fun hq => ?_⟩
  · have hr := h.retired (hl.trans hq)
    rw [hp, hid, hret] at hr
    exact hr
  · rw [← hret]
    exact h.current (hl.trans hq)

/-- What one edit keeps. -/
theorem edit_filed (he : Edit P o b db db') (h : ∀ r ∈ db.files, Filed r) : ∀ q ∈ db'.files, Filed q := by
  intro q hq
  cases he with
  | insert row hrow hins =>
    rcases insertFile_mem hins hq with hold | rfl
    · exact h q hold
    · exact filed_current rfl rfl rfl
  | chunk c hins =>
    rw [(insertChunk_some hins).2] at hq
    exact h q hq
  | shard s _ hins =>
    rw [(insertShard_some hins).2] at hq
    exact h q hq
  | trash r now _ hr hlive hsel htrash =>
    rcases retireRow_mem hr htrash hq with hold | rfl
    · exact h q hold
    · exact filed_parked hlive .deletedAt now
  | restore r path _ hr hlive hsel hrest =>
    rcases restoreFile_mem hr hrest hq with hold | rfl
    · exact h q hold
    · exact filed_current rfl rfl rfl
  | repath r path _ hr hlive hsel hmove =>
    rcases updateFilePath_mem hr hmove hq with hold | rfl
    · exact h q hold
    · refine ⟨(h r hr).once, fun hl => ?_, (h r hr).current⟩
      exact absurd (hlive.symm.trans hl) (by decide)
  | assign u f packId offset len hpack =>
    obtain ⟨r, hr, hid, -, hp, hret, hd, hs⟩ := assignToPack_mem hpack hq
    exact filed_of_cols (h r hr) hid hp hret hd hs
  | delete u f _ => exact h q (List.mem_filter.mp hq).1
  | strip u f => exact h q hq
  | folders hf _ _ _ =>
    rw [hf] at hq
    exact h q hq
  | location frag location => exact h q hq

/-- No edit supersedes a row or moves a superseded one. -/
theorem edit_superseded (he : Edit P o b db db') : FromSuperseded db db' := by
  intro q hq hsup
  have hsame : q ∈ db.files → ∃ r ∈ db.files, r.fileId = q.fileId ∧ r.userId = q.userId ∧
      r.view.path = q.view.path ∧ r.supersededAt = q.supersededAt :=
    fun hold => ⟨q, hold, rfl, rfl, rfl, rfl⟩
  cases he with
  | insert row hrow hins =>
    rcases insertFile_mem hins hq with hold | rfl
    · exact hsame hold
    · cases hsup
  | chunk c hins =>
    rw [(insertChunk_some hins).2] at hq
    exact hsame hq
  | shard s _ hins =>
    rw [(insertShard_some hins).2] at hq
    exact hsame hq
  | trash r now _ hr hlive hsel htrash =>
    rcases retireRow_mem hr htrash hq with hold | rfl
    · exact hsame hold
    · change r.supersededAt.isSome = true at hsup
      rw [(live_stamps hlive).2] at hsup
      cases hsup
  | restore r path _ hr hlive hsel hrest =>
    rcases restoreFile_mem hr hrest hq with hold | rfl
    · exact hsame hold
    · cases hsup
  | repath r path _ hr hlive hsel hmove =>
    rcases updateFilePath_mem hr hmove hq with hold | rfl
    · exact hsame hold
    · change r.supersededAt.isSome = true at hsup
      rw [(live_stamps hlive).2] at hsup
      cases hsup
  | assign u f packId offset len hpack =>
    obtain ⟨r, hr, hid, hu, hp, hret, -, hs⟩ := assignToPack_mem hpack hq
    exact ⟨r, hr, hid, hu, by rw [FileRec.view, FileRec.view, hp, hret], hs⟩
  | delete u f _ => exact hsame (List.mem_filter.mp hq).1
  | strip u f => exact hsame hq
  | folders hf _ _ _ =>
    rw [hf] at hq
    exact hsame hq
  | location frag location => exact hsame hq

theorem edits_superseded (h : ReflTransGen (Edit P o b) db db') : FromSuperseded db db' := by
  induction h with
  | refl => exact fun q hq _ => ⟨q, hq, rfl, rfl, rfl, rfl⟩
  | tail _ he ih =>
    intro q hq hsup
    obtain ⟨r, hr, hid, hu, hp, hs⟩ := edit_superseded he q hq hsup
    obtain ⟨r₀, hr₀, hid₀, hu₀, hp₀, hs₀⟩ := ih r hr (hs ▸ hsup)
    exact ⟨r₀, hr₀, hid₀.trans hid, hu₀.trans hu, hp₀.trans hp, hs₀.trans hs⟩

theorem aside_filed (hset : SetsAside o db db') (h : ∀ r ∈ db.files, Filed r) :
    ∀ q ∈ db'.files, Filed q := by
  obtain ⟨r, hr, now, hlive, -, hsup⟩ := hset
  intro q hq
  rcases retireRow_mem hr hsup hq with hold | rfl
  · exact h q hold
  · exact filed_parked hlive .supersededAt now

/-- A row that a call finds superseded was so before it, or was live at the same path. -/
theorem opStep_superseded (hstep : OpStep P o db db') (h : ∀ r ∈ db.files, Filed r) {q : FileRec}
    (hq : q ∈ db'.files) (hs : q.supersededAt.isSome = true) : ∃ r ∈ db.files,
      r.fileId = q.fileId ∧ r.userId = q.userId ∧ r.view.path = q.view.path ∧
      (r.live = true ∨ r.supersededAt = q.supersededAt) := by
  obtain ⟨mid, hmid, hrest⟩ := hstep
  obtain ⟨r, hr, hid, hu, hp, hsr⟩ := edits_superseded hrest q hq hs
  rcases hmid with rfl | ⟨a, ha, now, hlive, -, hset⟩
  · exact ⟨r, hr, hid, hu, hp, .inr hsr⟩
  · rcases retireRow_mem ha hset hr with hold | rfl
    · exact ⟨r, hold, hid, hu, hp, .inr hsr⟩
    · refine ⟨a, ha, hid, hu, ?_, .inl hlive⟩
      rw [← hp]
      -- a live row is at its own path, and keeps it as the retired path
      have hnone := (h a ha).current hlive
      simp only [FileRec.view, Retire.set, hnone, Option.getD_none, Option.getD_some]

end

section
variable {K : Type} (P : Prims K) (key : K)

theorem reached_filed {w : World} (h : Reached P key w) : ∀ r ∈ w.db.files, Filed r :=
  reached_invariant P key (I := fun db => ∀ r ∈ db.files, Filed r)
    (fun _ hr => absurd hr List.not_mem_nil) (fun _ _ _ _ he hI => edit_filed he hI)
    (fun _ _ _ hset hI => aside_filed hset hI) h

/-- In every manifest that a run of calls reaches, whatever fails in them, each row is in one
state and its columns say which; raw paths are unique; and what a further call leaves
superseded was superseded before it, or live at the same visible path. -/
theorem run_filed (as : List (Op × List Event)) :
    (∀ r ∈ (run (step P key) emptyWorld as).db.files, Filed r) ∧
      ((run (step P key) emptyWorld as).db.files.map FileRec.pathKey).Nodup ∧
      ∀ o script, ∀ q ∈ (step P key (run (step P key) emptyWorld as) (o, script)).db.files,
        q.supersededAt.isSome = true → ∃ r ∈ (run (step P key) emptyWorld as).db.files,
          r.fileId = q.fileId ∧ r.userId = q.userId ∧ r.view.path = q.view.path ∧
          (r.live = true ∨ r.supersededAt = q.supersededAt) := by
  have hfiled := reached_filed P key (w := run (step P key) emptyWorld as) ⟨as, rfl⟩
  refine ⟨hfiled, Db.constraints _ |>.filePaths, fun o script q hq hs => ?_⟩
  have hstep := op_step P key o { run (step P key) emptyWorld as with script := script }
  exact opStep_superseded hstep hfiled hq hs

end

end P2pnas.Store.Lifecycle
