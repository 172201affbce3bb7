import P2pnas.Store.Service

/-!
# What a subtree operation touches

`trash_path` and `rename` of a folder select rows with SQL `LIKE` and rewrite paths by slicing
off as many bytes as the folder's path has (`service.rs:312-337`, `621-657`,
`manifest.rs:900-958`). Here is what they should touch, byte for byte, what they do touch, and
when the two are the same.
-/

namespace P2pnas.Store.Subtree
open P2pnas.Lib.Frames P2pnas.Lib.Strings P2pnas.Lib.Tables P2pnas.Core.Base
open P2pnas.Store.Manifest P2pnas.Store.Session P2pnas.Store.Service

/-! ### The subtree, byte for byte -/

/-- `p`, a slash and a suffix. -/
def below (p q : Text) : Bool := (p ++ [slash]).isPrefixOf q

def isContainer (r : FileRec) : Bool := PACK_PATH_PREFIX.isPrefixOf r.path

/-- A live file of the user in the folder `p`. -/
def fileBelow (u p : Text) (r : FileRec) : Bool :=
  r.userId = u && r.live && !isContainer r && below p r.path

/-- A folder of the user at `p` or below it. -/
def folderAt (u p : Text) (r : FolderRow) : Bool := r.userId = u && (r.path = p || below p r.path)

/-- The path with `fromPath` exchanged for `toPath`. -/
def rebased (fromPath toPath q : Text) : Text := toPath ++ q.drop fromPath.length

def folderMovedTo (r : FolderRow) (q : Text) : FolderRow := { r with path := q, parent := dirname q }

/-- `INSERT OR IGNORE` of folder rows. -/
def addFolders (rows folders : List FolderRow) : List FolderRow :=
  rows.foldl (fun fs r => if r.key ∈ fs.map FolderRow.key then fs else fs ++ [r]) folders

/-- Exactly the files and folders of the subtree at `p` are gone from view. -/
def TrashedExactly (u p : Text) (now : Time) (before after : Tables) : Prop :=
  after = { before with
    files := update (fileBelow u p) (Retire.deletedAt.set now) before.files
    folders := before.folders.filter fun r => !folderAt u p r }

/-- Exactly the files and folders of the subtree are at their new paths; the new folder and
its ancestors are created where they are missing. -/
def MovedExactly (u fromPath toPath : Text) (before after : Tables) : Prop :=
  after = { before with
    files := update (fileBelow u fromPath)
      (fun r => { r with path := rebased fromPath toPath r.path }) before.files
    folders := addFolders (folderRowsFor u toPath) (update (folderAt u fromPath)
      (fun r => folderMovedTo r (rebased fromPath toPath r.path))
      (addFolders (folderRowsFor u (dirname toPath)) before.folders)) }

/-! ### What the statements select -/

def fileSelected (u p : Text) (r : FileRec) : Bool := r.userId = u && underPath p r.path && r.live

def folderSelected (u p : Text) (r : FolderRow) : Bool := r.userId = u && underPath p r.path

/-- `to + &path[from.len()..]`, when the slice is one. -/
def rebasedAt (fromPath toPath q : Text) : Option Text :=
  (sliceFrom q (byteLen fromPath)).map (toPath ++ ·)

/-- Every row the trash selects is in the subtree. -/
def TrashClean (t : Tables) (u p : Text) : Prop :=
  (∀ r ∈ t.files, fileSelected u p r = true → fileBelow u p r = true) ∧
    ∀ r ∈ t.folders, folderSelected u p r = true → folderAt u p r = true

/-- Every row the rename selects is in the subtree, or is written back as it was. -/
def RenameClean (t : Tables) (u fromPath toPath : Text) : Prop :=
  (∀ r ∈ t.files, fileSelected u fromPath r = true → fileBelow u fromPath r = true ∨
    rebasedAt fromPath toPath r.path = some r.path) ∧
  ∀ r ∈ addFolders (folderRowsFor u (dirname toPath)) t.folders,
    folderSelected u fromPath r = true → folderAt u fromPath r = true ∨
      (rebasedAt fromPath toPath r.path).map (folderMovedTo r) = some r

theorem underPath_of_below {p q : Text} (h : below p q = true) : underPath p q = true := by
  obtain ⟨s, rfl⟩ := List.isPrefixOf_iff_prefix.mp h
  rw [underPath, Bool.or_eq_true]
  exact .inr (like_append _ _ _ (like_any_all s))

theorem fileSelected_of_below {u p : Text} {r : FileRec} (h : fileBelow u p r = true) :
    fileSelected u p r = true := by
  simp only [fileBelow, Bool.and_eq_true] at h
  simp only [fileSelected, Bool.and_eq_true]
  exact ⟨⟨h.1.1.1, underPath_of_below h.2⟩, h.1.1.2⟩

theorem folderSelected_of_at {u p : Text} {r : FolderRow} (h : folderAt u p r = true) :
    folderSelected u p r = true := by
  simp only [folderAt, Bool.and_eq_true, Bool.or_eq_true] at h
  simp only [folderSelected, Bool.and_eq_true]
  refine ⟨h.1, h.2.elim (fun heq => ?_) underPath_of_below⟩
  simp only [underPath, heq, Bool.true_or]

/-- Below the folder the slice is the suffix. -/
theorem rebasedAt_of_prefix (toPath : Text) {fromPath q : Text} (h : fromPath <+: q) :
    rebasedAt fromPath toPath q = some (rebased fromPath toPath q) := by
  obtain ⟨s, rfl⟩ := h
  rw [rebasedAt, sliceFrom_append, rebased, List.drop_left]
  rfl

theorem prefix_of_below {p q : Text} (h : below p q = true) : p <+: q :=
  (List.prefix_append p [slash]).trans (List.isPrefixOf_iff_prefix.mp h)

theorem prefix_of_folderAt {u p : Text} {r : FolderRow} (h : folderAt u p r = true) :
    p <+: r.path := by
  simp only [folderAt, Bool.and_eq_true, Bool.or_eq_true, decide_eq_true_eq] at h
  rcases h.2 with heq | hbelow
  · rw [heq]
  · exact prefix_of_below hbelow

/-! ### The trash -/

/-- The rows of the user with these ids that are not in the trash. -/
def trashable (u : Text) (ids : List Text) (r : FileRec) : Bool :=
  r.userId = u && r.fileId ∈ ids && r.deletedAt.isNone

theorem trashUnder_ok {u : Text} {now : Time} {f : Text × Text} {w w' : World} {row : Option FileRow}
    (h : trashUnder u now f w = (.ok row, w')) :
    w'.db.toTables = { w.db.toTables with
      files := update (trashable u [f.1]) (Retire.deletedAt.set now) w.db.files } ∧
      w'.store = w.store := by
  obtain ⟨_, w₁, hq, h⟩ := bind_ok h
  obtain ⟨_, hdb, hst⟩ := query_ok hq
  obtain ⟨_, w₂, hs, h⟩ := bind_ok h
  obtain ⟨_, rfl⟩ := pure_ok h
  obtain ⟨hs, hst'⟩ := stmt_ok hs
  rw [trashFile, retireRow] at hs
  have hupd := updateFiles_some hs
  rw [hdb] at hupd
  refine ⟨?_, hst'.trans hst⟩
  have hsel : (fun r => isRow u f.1 r && (Retire.deletedAt.get r).isNone) = trashable u [f.1] := by
    funext r
    simp only [trashable, isRow, Retire.get, List.mem_singleton]
  rw [hupd, hsel]

theorem trashEach_ok {u : Text} {now : Time} {fs : List (Text × Text)} {w w' : World}
    {rows : List (Option FileRow)} (h : collect (trashUnder u now) fs w = (.ok rows, w')) :
    w'.db.toTables = { w.db.toTables with
      files := update (trashable u (fs.map Prod.fst)) (Retire.deletedAt.set now) w.db.files } ∧
      w'.store = w.store := by
  induction fs generalizing w rows with
  | nil =>
    obtain ⟨_, rfl⟩ := pure_ok h
    simp [update, trashable]
  | cons f fs ih =>
    obtain ⟨row, w₁, h₁, h⟩ := bind_ok h
    obtain ⟨rest, w₂, h₂, h⟩ := bind_ok h
    obtain ⟨_, rfl⟩ := pure_ok h
    obtain ⟨hdb₁, hst₁⟩ := trashUnder_ok h₁
    obtain ⟨hdb₂, hst₂⟩ := ih h₂
    refine ⟨?_, hst₂.trans hst₁⟩
    rw [hdb₂, hdb₁]
    simp only [update, List.map_map]
    congr 1
    apply List.map_congr_left
    intro r _
    simp only [Function.comp_apply]
    -- a row trashed by the head is not trashed again
    by_cases hd : trashable u [f.1] r = true
    · have hall : trashable u ((f :: fs).map Prod.fst) r = true := by
        simp only [trashable, Bool.and_eq_true, decide_eq_true_eq, List.mem_singleton] at hd
        simp [trashable, hd]
      have hset : trashable u (fs.map Prod.fst) (Retire.deletedAt.set now r) = false := by
        simp [trashable, Retire.set]
      rw [if_pos hd, if_pos hall, hset, if_neg (by decide)]
    · have hsame : trashable u ((f :: fs).map Prod.fst) r = trashable u (fs.map Prod.fst) r := by
        by_cases hu : r.userId = u
        · by_cases hf : r.fileId = f.1
          · have hdel : r.deletedAt.isNone = false := by
              rw [Bool.eq_false_iff]
              exact fun hnone => hd (by simp only [trashable, hu, hf, hnone, List.mem_singleton,
                decide_true, Bool.and_self])
            simp only [trashable, hdel, Bool.and_false]
          · simp only [trashable, List.map_cons, List.mem_cons, hf, false_or]
        · simp only [trashable, hu, decide_false, Bool.false_and]
      rw [if_neg hd, hsame]

theorem filesUnder_fst {db : Db} {u p f : Text} :
    f ∈ (filesUnder db u p).map Prod.fst ↔ ∃ r ∈ db.files, fileSelected u p r = true ∧ r.fileId = f := by
  simp only [filesUnder, List.mem_map, List.mem_insertionSort, List.mem_filter, fileSelected]
  constructor
  · rintro ⟨_, ⟨r, ⟨hr, hsel⟩, rfl⟩, rfl⟩
    exact ⟨r, hr, hsel, rfl⟩
  · rintro ⟨r, hr, hsel, rfl⟩
    exact ⟨_, ⟨r, ⟨hr, hsel⟩, rfl⟩, rfl⟩

/-- By id or by selection, the same rows are trashed. -/
theorem trashable_filesUnder {db : Db} {u p : Text} {r : FileRec} (hr : r ∈ db.files) :
    trashable u ((filesUnder db u p).map Prod.fst) r = fileSelected u p r := by
  by_cases hsel : fileSelected u p r = true
  · have hmem : r.fileId ∈ (filesUnder db u p).map Prod.fst := filesUnder_fst.mpr ⟨r, hr, hsel, rfl⟩
    rw [hsel]
    simp only [fileSelected, FileRec.live, Bool.and_eq_true] at hsel
    simp only [trashable, Bool.and_eq_true, decide_eq_true_eq]
    exact ⟨⟨of_decide_eq_true hsel.1.1, hmem⟩, hsel.2.1⟩
  · have hno : r.fileId ∉ (filesUnder db u p).map Prod.fst := by
      intro hmem
      obtain ⟨r', hr', hsel', hid⟩ := filesUnder_fst.mp hmem
      rw [eq_of_key db.constraints.fileIds hr' hr hid] at hsel'
      exact hsel hsel'
    rw [Bool.not_eq_true] at hsel
    simp only [trashable, hno, decide_false, Bool.and_false, Bool.false_and, hsel]

/-- `trash_path` of a folder trashes what is selected. -/
theorem trashSubtree_ok {u p : Text} {now : Time} {w w' : World} {s : TrashSummary}
    (h : trashSubtree u p now w = (.ok s, w')) :
    w'.db.toTables = { w.db.toTables with
      files := update (fileSelected u p) (Retire.deletedAt.set now) w.db.files
      folders := w.db.folders.filter fun r => !folderSelected u p r } := by
  obtain ⟨files, w₁, hq, h⟩ := bind_ok h
  obtain ⟨rfl, hdb, _⟩ := query_ok hq
  obtain ⟨_, w₂, hreq, h⟩ := bind_ok h
  have hdb₂ : w₂.db = w₁.db := by
    unfold requireFolder at hreq
    split at hreq
    · obtain ⟨there, w₃, hq', hreq⟩ := bind_ok hreq
      obtain ⟨_, hdb', _⟩ := query_ok hq'
      split at hreq
      · obtain ⟨_, rfl⟩ := pure_ok hreq
        exact hdb'
      · cases hreq
    · obtain ⟨_, rfl⟩ := pure_ok hreq
      rfl
  obtain ⟨rows, w₃, hall, h⟩ := bind_ok h
  obtain ⟨hfiles, _⟩ := trashEach_ok hall
  obtain ⟨_, w₄, hdel, h⟩ := bind_ok h
  obtain ⟨_, rfl⟩ := pure_ok h
  obtain ⟨hdel, _⟩ := stmt_ok hdel
  have hdb₄ := congrArg Db.toTables (Option.some.inj hdel)
  rw [← hdb₄]
  simp only [deleteFolderSubtree]
  rw [hfiles, hdb₂, hdb]
  congr 1
  rw [update_eq_iff]
  intro r hr
  rw [trashable_filesUnder hr]

theorem trashPath_ok {u p : Text} {now : Time} {w w' : World} {s : TrashSummary}
    (hno : getFileByPath w.db u (trimMatches slash p) = none)
    (h : trashPath u p now w = (.ok s, w')) :
    w'.db.toTables = { w.db.toTables with
      files := update (fileSelected u (trimMatches slash p)) (Retire.deletedAt.set now) w.db.files
      folders := w.db.folders.filter fun r => !folderSelected u (trimMatches slash p) r } := by
  unfold trashPath at h
  obtain ⟨w₁, hbody, hdb, _⟩ := transaction_ok h
  obtain ⟨file, w₂, hq, hbody⟩ := bind_ok hbody
  obtain ⟨rfl, hdb₂, _⟩ := query_ok hq
  rw [hno] at hbody
  have hsub := trashSubtree_ok hbody
  rw [hdb, hsub, hdb₂]

/-- What is trashed is the subtree exactly when every selected row is in it. -/
theorem trash_exact_iff {t : Tables} {u p : Text} {now : Time} :
    TrashedExactly u p now t { t with
      files := update (fileSelected u p) (Retire.deletedAt.set now) t.files
      folders := t.folders.filter fun r => !folderSelected u p r } ↔ TrashClean t u p := by
  have hfiles : (update (fileSelected u p) (Retire.deletedAt.set now) t.files =
      update (fileBelow u p) (Retire.deletedAt.set now) t.files) ↔
      ∀ r ∈ t.files, fileSelected u p r = true → fileBelow u p r = true := by
    rw [update_eq_iff]
    refine forall_congr' fun r => forall_congr' fun _ => ?_
    constructor
    · intro h hsel
      by_contra hno
      have hlive : r.deletedAt.isNone = true := by
        simp only [fileSelected, FileRec.live, Bool.and_eq_true] at hsel
        exact hsel.2.1
      rw [if_pos hsel, if_neg hno] at h
      rw [← h] at hlive
      cases hlive
    · intro h
      by_cases hsel : fileSelected u p r = true
      · rw [if_pos hsel, if_pos (h hsel)]
      · rw [if_neg hsel, if_neg fun hb => hsel (fileSelected_of_below hb)]
  have hfolders : (t.folders.filter (fun r => !folderSelected u p r) =
      t.folders.filter fun r => !folderAt u p r) ↔
      ∀ r ∈ t.folders, folderSelected u p r = true → folderAt u p r = true := by
    constructor
    · intro h r hr hsel
      by_contra hno
      have hmem : r ∈ t.folders.filter fun r => !folderAt u p r :=
        List.mem_filter.mpr ⟨hr, by simp [hno]⟩
      rw [← h] at hmem
      simpa [hsel] using (List.mem_filter.mp hmem).2
    · intro h
      apply List.filter_congr
      intro r hr
      by_cases hsel : folderSelected u p r = true
      · rw [hsel, h r hr hsel]
      · have hno : folderAt u p r = false := by
          rw [Bool.eq_false_iff]
          exact fun ha => hsel (folderSelected_of_at ha)
        rw [hno, Bool.eq_false_iff.mpr hsel]
  rw [TrashedExactly, TrashClean, ← hfiles, ← hfolders]
  constructor
  · intro h
    exact ⟨congrArg Tables.files h, congrArg Tables.folders h⟩
  · rintro ⟨h₁, h₂⟩
    rw [h₁, h₂]

end P2pnas.Store.Subtree
