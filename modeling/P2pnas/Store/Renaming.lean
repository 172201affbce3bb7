import P2pnas.Core.Sample
import P2pnas.Store.Subtree

/-!
# Renaming a folder (`service.rs:621-657`)

The rows under the old path are moved one statement at a time, each to the new path and the
slice of its old one. A call that succeeds has moved every selected row once; a call that
panics met a path whose slice is not a character boundary.
-/

namespace P2pnas.Store.Renaming
open P2pnas.Lib.Frames P2pnas.Lib.Strings P2pnas.Lib.Tables P2pnas.Core P2pnas.Core.Base
open P2pnas.Store.Manifest P2pnas.Store.Session P2pnas.Store.Service P2pnas.Store.Subtree

/-! ### What the statements do -/

theorem insertFolders_ok {rows : List FolderRow} {w w' : World} {us : List Unit}
    (h : collect (fun row => stmt fun db => some (insertFolderRow db row)) rows w = (.ok us, w')) :
    w'.db.toTables = { w.db.toTables with folders := addFolders rows w.db.folders } := by
  induction rows generalizing w us with
  | nil =>
    obtain ⟨_, rfl⟩ := pure_ok h
    rfl
  | cons row rows ih =>
    obtain ⟨_, w₁, h₁, h⟩ := bind_ok h
    obtain ⟨_, w₂, h₂, h⟩ := bind_ok h
    obtain ⟨_, rfl⟩ := pure_ok h
    obtain ⟨hs, _⟩ := stmt_ok h₁
    have hrow : w₁.db.toTables = { w.db.toTables with
        folders := if row.key ∈ w.db.folders.map FolderRow.key then w.db.folders
          else w.db.folders ++ [row] } := by
      rw [← Option.some.inj hs, insertFolderRow]
      split <;> rfl
    rw [ih h₂, hrow]
    rfl

theorem insertFolderSvc_ok {u path : Text} {w w' : World}
    (h : insertFolderSvc u path w = (.ok (), w')) :
    w'.db.toTables = { w.db.toTables with
      folders := addFolders (folderRowsFor u path) w.db.folders } := by
  obtain ⟨_, w₁, h₁, h⟩ := bind_ok h
  obtain ⟨_, rfl⟩ := pure_ok h
  exact insertFolders_ok h₁

section
variable {u fromPath toPath : Text} {w w' : World}

variable (toPath) in
theorem suffixOf_ok {q s : Text} (h : suffixOf fromPath q w = (.ok s, w')) :
    rebasedAt fromPath toPath q = some (toPath ++ s) ∧ w' = w := by
  rw [suffixOf] at h
  cases hs : sliceFrom q (byteLen fromPath) with
  | none => rw [hs] at h; cases h
  | some s' =>
    rw [hs] at h
    obtain ⟨rfl, rfl⟩ := pure_ok h
    rw [rebasedAt, hs]
    exact ⟨rfl, rfl⟩

/-- A file row with its path rewritten as the rename does. -/
def refiled (fromPath toPath : Text) (r : FileRec) : FileRec :=
  { r with path := (rebasedAt fromPath toPath r.path).getD r.path }

def refoldered (fromPath toPath : Text) (r : FolderRow) : FolderRow :=
  folderMovedTo r ((rebasedAt fromPath toPath r.path).getD r.path)

theorem moveFile_ok {r₀ : FileRec} (hr : r₀ ∈ w.db.files) (hu : r₀.userId = u)
    (h : moveFile u fromPath toPath (r₀.fileId, r₀.path) w = (.ok (), w')) :
    (rebasedAt fromPath toPath r₀.path).isSome = true ∧ w'.db.toTables = { w.db.toTables with
      files := update (fun r => r = r₀) (refiled fromPath toPath) w.db.files } := by
  obtain ⟨s, w₁, hs, hstmt⟩ := bind_ok h
  obtain ⟨hq, hw⟩ := suffixOf_ok toPath hs
  subst hw
  obtain ⟨hst, _⟩ := stmt_ok hstmt
  refine ⟨by rw [hq]; rfl, ?_⟩
  rw [updateFilePath] at hst
  have hrows : update (isRow u r₀.fileId) (fun r => { r with path := toPath ++ s }) w₁.db.files =
      update (fun r => r = r₀) (refiled fromPath toPath) w₁.db.files := by
    rw [update_eq_iff]
    intro r hmem
    by_cases heq : r = r₀
    · subst heq
      simp [isRow, hu, refiled, hq]
    · have hid : isRow u r₀.fileId r = false := by
        rw [Bool.eq_false_iff]
        intro hrow
        simp only [isRow, Bool.and_eq_true, decide_eq_true_eq] at hrow
        exact heq (eq_of_key w₁.db.constraints.fileIds hmem hr hrow.2)
      simp [hid, heq]
  rw [updateFiles_some hst, hrows]

/-- The file rows `sel`, one after the other, each by its id. -/
theorem moveFiles_ok {sel : List FileRec} {us : List Unit}
    (hsel : ∀ r ∈ sel, r ∈ w.db.files ∧ r.userId = u) (hn : (sel.map FileRec.fileId).Nodup)
    (h : collect (moveFile u fromPath toPath) (sel.map fun r => (r.fileId, r.path)) w =
      (.ok us, w')) :
    (∀ r ∈ sel, (rebasedAt fromPath toPath r.path).isSome = true) ∧
      w'.db.toTables = { w.db.toTables with
        files := update (fun r => r ∈ sel) (refiled fromPath toPath) w.db.files } := by
  induction sel generalizing w us with
  | nil =>
    obtain ⟨_, rfl⟩ := pure_ok h
    exact ⟨fun r hr => absurd hr List.not_mem_nil, by simp [update]⟩
  | cons r₀ sel ih =>
    rw [List.map_cons, List.nodup_cons] at hn
    obtain ⟨hr₀, hu₀⟩ := hsel r₀ (List.mem_cons_self ..)
    obtain ⟨_, w₁, h₁, h⟩ := bind_ok h
    obtain ⟨_, w₂, h₂, h⟩ := bind_ok h
    obtain ⟨_, rfl⟩ := pure_ok h
    obtain ⟨hsome, hdb₁⟩ := moveFile_ok hr₀ hu₀ h₁
    have hne : ∀ r ∈ sel, r.fileId ≠ r₀.fileId := fun r hr heq =>
      hn.1 (heq ▸ List.mem_map_of_mem (f := FileRec.fileId) hr)
    have hsel' : ∀ r ∈ sel, r ∈ w₁.db.files ∧ r.userId = u := by
      intro r hr
      obtain ⟨hmem, hu⟩ := hsel r (List.mem_cons_of_mem _ hr)
      refine ⟨?_, hu⟩
      rw [hdb₁]
      refine mem_update.mpr ⟨r, hmem, .inr ⟨?_, rfl⟩⟩
      rw [decide_eq_false_iff_not]
      rintro rfl
      exact hne r hr rfl
    obtain ⟨hsomes, hdb₂⟩ := ih hsel' hn.2 h₂
    refine ⟨List.forall_mem_cons.mpr ⟨hsome, hsomes⟩, ?_⟩
    rw [hdb₂, hdb₁]
    simp only [update, List.map_map]
    congr 1
    apply List.map_congr_left
    intro r _
    simp only [Function.comp_apply, decide_eq_true_eq, List.mem_cons]
    by_cases heq : r = r₀
    · subst heq
      have hno : refiled fromPath toPath r ∉ sel := fun hmem => hne _ hmem rfl
      rw [if_pos rfl, if_neg hno, if_pos (.inl rfl)]
    · rw [if_neg heq]
      simp only [heq, false_or]

theorem moveFolder_ok {r₀ : FolderRow} (hr : r₀ ∈ w.db.folders) (hu : r₀.userId = u)
    (h : moveFolder u fromPath toPath r₀.path w = (.ok (), w')) :
    (rebasedAt fromPath toPath r₀.path).isSome = true ∧ w'.db.toTables = { w.db.toTables with
      folders := update (fun r => r = r₀) (refoldered fromPath toPath) w.db.folders } := by
  obtain ⟨s, w₁, hs, hstmt⟩ := bind_ok h
  obtain ⟨hq, hw⟩ := suffixOf_ok toPath hs
  subst hw
  obtain ⟨hst, _⟩ := stmt_ok hstmt
  refine ⟨by rw [hq]; rfl, ?_⟩
  have hrows : movedFolders u r₀.path (toPath ++ s) w₁.db.folders =
      update (fun r => r = r₀) (refoldered fromPath toPath) w₁.db.folders := by
    rw [movedFolders, update_eq_iff]
    intro r hmem
    by_cases heq : r = r₀
    · subst heq
      simp [hu, refoldered, folderMovedTo, hq]
    · have hkey : (decide (r.userId = u) && decide (r.path = r₀.path)) = false := by
        rw [Bool.eq_false_iff]
        intro hrow
        simp only [Bool.and_eq_true, decide_eq_true_eq] at hrow
        refine heq (eq_of_key w₁.db.constraints.folderKeys hmem hr ?_)
        rw [FolderRow.key, FolderRow.key, hrow.1, hrow.2, hu]
      simp [hkey, heq]
  rw [updateFolderPath_some hst, hrows]

/-- The folder rows `sel`, each by its path. A row that moves onto the path of one still to
come would break the primary key, so nothing moves twice. -/
theorem moveFolders_ok {sel : List FolderRow} {us : List Unit}
    (hsel : ∀ r ∈ sel, r ∈ w.db.folders ∧ r.userId = u) (hn : sel.Nodup)
    (h : collect (moveFolder u fromPath toPath) (sel.map FolderRow.path) w = (.ok us, w')) :
    (∀ r ∈ sel, (rebasedAt fromPath toPath r.path).isSome = true) ∧
      w'.db.toTables = { w.db.toTables with
        folders := update (fun r => r ∈ sel) (refoldered fromPath toPath) w.db.folders } := by
  induction sel generalizing w us with
  | nil =>
    obtain ⟨_, rfl⟩ := pure_ok h
    exact ⟨fun r hr => absurd hr List.not_mem_nil, by simp [update]⟩
  | cons r₀ sel ih =>
    rw [List.nodup_cons] at hn
    obtain ⟨hr₀, hu₀⟩ := hsel r₀ (List.mem_cons_self ..)
    obtain ⟨_, w₁, h₁, h⟩ := bind_ok h
    obtain ⟨_, w₂, h₂, h⟩ := bind_ok h
    obtain ⟨_, rfl⟩ := pure_ok h
    obtain ⟨hsome, hdb₁⟩ := moveFolder_ok hr₀ hu₀ h₁
    have hne : ∀ r ∈ sel, r ≠ r₀ := fun r hr heq => hn.1 (heq ▸ hr)
    have hsel' : ∀ r ∈ sel, r ∈ w₁.db.folders ∧ r.userId = u := by
      intro r hr
      obtain ⟨hmem, hu⟩ := hsel r (List.mem_cons_of_mem _ hr)
      refine ⟨?_, hu⟩
      rw [hdb₁]
      exact mem_update.mpr ⟨r, hmem, .inr ⟨decide_eq_false (hne r hr), rfl⟩⟩
    have honce : refoldered fromPath toPath r₀ ∉ sel := by
      intro hmem
      have hkeys := w₁.db.constraints.folderKeys
      rw [hdb₁] at hkeys
      simp only [update, List.map_map] at hkeys
      have hold := (hsel _ (List.mem_cons_of_mem _ hmem)).1
      have heq := List.inj_on_of_nodup_map hkeys hr₀ hold (by
        simp only [Function.comp_apply, if_true, decide_eq_true_eq, if_neg (hne _ hmem)])
      exact hne _ hmem heq.symm
    obtain ⟨hsomes, hdb₂⟩ := ih hsel' hn.2 h₂
    refine ⟨List.forall_mem_cons.mpr ⟨hsome, hsomes⟩, ?_⟩
    rw [hdb₂, hdb₁]
    simp only [update, List.map_map]
    congr 1
    apply List.map_congr_left
    intro r _
    simp only [Function.comp_apply, decide_eq_true_eq, List.mem_cons]
    by_cases heq : r = r₀
    · subst heq
      rw [if_pos rfl, if_neg honce, if_pos (.inl rfl)]
    · rw [if_neg heq]
      simp only [heq, false_or]

/-! ### When a rename panics -/

theorem insertFolderSvc_calm {path : Text} : (insertFolderSvc u path w).1 ≠ .error .panic := by
  intro h
  rcases bind_panic h with h | ⟨_, _, _, h⟩
  · obtain ⟨_, _, w₁, h⟩ := collect_panic h
    exact stmt_calm _ h
  · cases h

variable (toPath) in
/-- The slice of a selected path is what panics. -/
theorem suffix_panic {q : Text} {g : Text → Svc Unit} (hg : ∀ s w, (g s w).1 ≠ .error .panic)
    (h : ((suffixOf fromPath q >>= g) w).1 = .error .panic) :
    rebasedAt fromPath toPath q = none := by
  rcases bind_panic h with h | ⟨s, w₁, _, h⟩
  · rw [suffixOf] at h
    cases hs : sliceFrom q (byteLen fromPath) with
    | none => rw [rebasedAt, hs]; rfl
    | some s => rw [hs] at h; cases h
  · exact absurd h (hg s w₁)

/-! ### The whole rename -/

theorem filesUnder_eq (db : Db) (u p : Text) : filesUnder db u p =
    ((db.files.filter (fileSelected u p)).insertionSort fun a b => textLe a.path b.path).map
      fun r => (r.fileId, r.path) := by
  exact (List.map_insertionSort (r := fun a b : FileRec => textLe a.path b.path)
    (s := fun a b : Text × Text => textLe a.2 b.2) _ _ fun _ _ _ _ => Iff.rfl).symm

theorem foldersUnder_eq (db : Db) (u p : Text) : foldersUnder db u p =
    ((db.folders.filter (folderSelected u p)).insertionSort fun a b => textLe a.path b.path).map
      FolderRow.path := by
  exact (List.map_insertionSort (r := fun a b : FolderRow => textLe a.path b.path)
    (s := fun a b : Text => textLe a b) _ _ fun _ _ _ _ => Iff.rfl).symm

/-- The tables a rename of a subtree leaves when it succeeds. -/
def renamed (u fromPath toPath : Text) (t : Tables) : Tables :=
  { t with
    files := update (fileSelected u fromPath) (refiled fromPath toPath) t.files
    folders := addFolders (folderRowsFor u toPath)
      (update (folderSelected u fromPath) (refoldered fromPath toPath) t.folders) }

/-- Every selected row has a slice. -/
def Sliceable (u fromPath toPath : Text) (t : Tables) : Prop :=
  (∀ r ∈ t.files, fileSelected u fromPath r = true → (rebasedAt fromPath toPath r.path).isSome = true) ∧
    ∀ r ∈ t.folders, folderSelected u fromPath r = true →
      (rebasedAt fromPath toPath r.path).isSome = true

theorem renameSubtree_ok (h : renameSubtree u fromPath toPath w = (.ok (), w')) :
    Sliceable u fromPath toPath w.db.toTables ∧
      w'.db.toTables = renamed u fromPath toPath w.db.toTables := by
  obtain ⟨files, w₁, hq₁, h⟩ := bind_ok h
  obtain ⟨hfiles, hdb₁, _⟩ := query_ok hq₁
  obtain ⟨folders, w₂, hq₂, h⟩ := bind_ok h
  obtain ⟨hfolders, hdb₂, _⟩ := query_ok hq₂
  split at h
  · cases h
  · obtain ⟨_, w₃, hmf, h⟩ := bind_ok h
    obtain ⟨_, w₄, hmd, h⟩ := bind_ok h
    have hins := insertFolderSvc_ok h
    rw [hdb₁] at hdb₂ hfolders
    rw [hfiles, filesUnder_eq] at hmf
    rw [hfolders, foldersUnder_eq] at hmd
    have hselF : ∀ r, r ∈ (w.db.files.filter (fileSelected u fromPath)).insertionSort
        (fun a b => textLe a.path b.path) ↔ r ∈ w.db.files ∧ fileSelected u fromPath r = true := by
      intro r
      rw [List.mem_insertionSort, List.mem_filter]
    have hselD : ∀ r, r ∈ (w.db.folders.filter (folderSelected u fromPath)).insertionSort
        (fun a b => textLe a.path b.path) ↔
        r ∈ w.db.folders ∧ folderSelected u fromPath r = true := by
      intro r
      rw [List.mem_insertionSort, List.mem_filter]
    obtain ⟨hsomeF, hdb₃⟩ := moveFiles_ok (fun r hr => by
        obtain ⟨hmem, hs⟩ := (hselF r).mp hr
        rw [hdb₂]
        simp only [fileSelected, Bool.and_eq_true, decide_eq_true_eq] at hs
        exact ⟨hmem, hs.1.1⟩)
      (((List.perm_insertionSort ..).map _).nodup_iff.mpr
        (nodup_filter _ w.db.constraints.fileIds)) hmf
    have hfold₃ : w₃.db.folders = w.db.folders := by rw [hdb₃, hdb₂]
    obtain ⟨hsomeD, hdb₄⟩ := moveFolders_ok (fun r hr => by
        obtain ⟨hmem, hs⟩ := (hselD r).mp hr
        rw [hfold₃]
        simp only [folderSelected, Bool.and_eq_true, decide_eq_true_eq] at hs
        exact ⟨hmem, hs.1⟩)
      ((List.perm_insertionSort ..).nodup_iff.mpr
        ((List.Nodup.of_map _ w.db.constraints.folderKeys).filter _)) hmd
    refine ⟨⟨fun r hr hs => hsomeF r ((hselF r).mpr ⟨hr, hs⟩),
      fun r hr hs => hsomeD r ((hselD r).mpr ⟨hr, hs⟩)⟩, ?_⟩
    have hupdF : update (fun r => decide (r ∈ (w.db.files.filter (fileSelected u fromPath)).insertionSort
          fun a b => textLe a.path b.path)) (refiled fromPath toPath) w.db.files =
        update (fileSelected u fromPath) (refiled fromPath toPath) w.db.files := by
      rw [update_eq_iff]
      intro r hr
      simp only [decide_eq_true_eq, hselF, hr, true_and]
    have hupdD : update (fun r => decide (r ∈ (w.db.folders.filter
          (folderSelected u fromPath)).insertionSort fun a b => textLe a.path b.path))
          (refoldered fromPath toPath) w.db.folders =
        update (folderSelected u fromPath) (refoldered fromPath toPath) w.db.folders := by
      rw [update_eq_iff]
      intro r hr
      simp only [decide_eq_true_eq, hselD, hr, true_and]
    rw [hins, hdb₄, hdb₃, hdb₂]
    simp only [renamed, hupdF, hupdD]

theorem renameSubtree_panic (h : (renameSubtree u fromPath toPath w).1 = .error .panic) :
    ¬ Sliceable u fromPath toPath w.db.toTables := by
  rintro ⟨hF, hD⟩
  rcases bind_panic h with h | ⟨files, w₁, hq₁, h⟩
  · exact query_calm _ h
  obtain ⟨hfiles, hdb₁, _⟩ := query_ok hq₁
  rcases bind_panic h with h | ⟨folders, w₂, hq₂, h⟩
  · exact query_calm _ h
  obtain ⟨hfolders, _, _⟩ := query_ok hq₂
  split at h
  · cases h
  rcases bind_panic h with h | ⟨_, w₃, _, h⟩
  · obtain ⟨f, hf, w₄, h⟩ := collect_panic h
    have hnone := suffix_panic toPath (fun s w => stmt_calm _) h
    rw [hfiles, filesUnder_eq, List.mem_map] at hf
    obtain ⟨r, hr, rfl⟩ := hf
    rw [List.mem_insertionSort, List.mem_filter] at hr
    have hsome := hF r hr.1 hr.2
    rw [hnone] at hsome
    cases hsome
  rcases bind_panic h with h | ⟨_, w₄, _, h⟩
  · obtain ⟨q, hq, w₅, h⟩ := collect_panic h
    have hnone := suffix_panic toPath (fun s w => stmt_calm _) h
    rw [hfolders, hdb₁, foldersUnder_eq, List.mem_map] at hq
    obtain ⟨r, hr, rfl⟩ := hq
    rw [List.mem_insertionSort, List.mem_filter] at hr
    have hsome := hD r hr.1 hr.2
    rw [hnone] at hsome
    cases hsome
  · exact insertFolderSvc_calm h

/-- The tables once the parent of the destination exists. -/
def withParent (u toPath : Text) (t : Tables) : Tables :=
  { t with folders := addFolders (folderRowsFor u (dirname toPath)) t.folders }

theorem getFileByPath_congr {db db' : Db} (h : db'.files = db.files) (u p : Text) :
    getFileByPath db' u p = getFileByPath db u p := by
  rw [getFileByPath, getFileByPath, h]

section
variable (hno : getFileByPath w.db u (trimMatches slash fromPath) = none)
include hno

theorem rename_ok (h : rename u fromPath toPath w = (.ok (), w')) :
    Sliceable u (trimMatches slash fromPath) (trimMatches slash toPath)
        (withParent u (trimMatches slash toPath) w.db.toTables) ∧
      w'.db.toTables = renamed u (trimMatches slash fromPath) (trimMatches slash toPath)
        (withParent u (trimMatches slash toPath) w.db.toTables) := by
  unfold rename at h
  split at h
  · cases h
  · obtain ⟨w₁, hbody, hdb, _⟩ := transaction_ok h
    obtain ⟨_, w₂, hins, hbody⟩ := bind_ok hbody
    have hdb₂ := insertFolderSvc_ok hins
    obtain ⟨file, w₃, hq, hbody⟩ := bind_ok hbody
    obtain ⟨hfile, hdb₃, _⟩ := query_ok hq
    have hsame : w₂.db.files = w.db.files := by rw [hdb₂]
    rw [getFileByPath_congr hsame, hno] at hfile
    rw [hfile] at hbody
    have hsub := renameSubtree_ok hbody
    rw [hdb₃, hdb₂] at hsub
    rw [hdb]
    exact hsub

theorem rename_panic (h : (rename u fromPath toPath w).1 = .error .panic) :
    ¬ Sliceable u (trimMatches slash fromPath) (trimMatches slash toPath)
      (withParent u (trimMatches slash toPath) w.db.toTables) := by
  unfold rename at h
  split at h
  · cases h
  · have hbody := transaction_panic h
    rcases bind_panic hbody with h | ⟨_, w₂, hins, h⟩
    · exact absurd h insertFolderSvc_calm
    have hdb₂ := insertFolderSvc_ok hins
    rcases bind_panic h with h | ⟨file, w₃, hq, h⟩
    · exact absurd h (query_calm _)
    obtain ⟨hfile, hdb₃, _⟩ := query_ok hq
    have hsame : w₂.db.files = w.db.files := by rw [hdb₂]
    rw [getFileByPath_congr hsame, hno] at hfile
    rw [hfile] at h
    have hsub := renameSubtree_panic h
    rw [hdb₃, hdb₂] at hsub
    exact hsub

end

theorem addFolders_prefix (rows folders : List FolderRow) : folders <+: addFolders rows folders := by
  induction rows generalizing folders with
  | nil => exact List.prefix_refl _
  | cons row rows ih =>
    refine List.IsPrefix.trans ?_ (ih _)
    dsimp only
    split
    · exact List.prefix_refl _
    · exact List.prefix_append ..

theorem addFolders_inj {rows fs fs' : List FolderRow} (hlen : fs.length = fs'.length)
    (h : addFolders rows fs = addFolders rows fs') : fs = fs' := by
  have hp := addFolders_prefix rows fs
  rw [h] at hp
  have hpp := List.prefix_of_prefix_length_le hp ( addFolders_prefix rows fs') hlen.le
  exact hpp.eq_of_length hlen

/-- Rewriting by slice and rewriting by prefix agree on one row exactly when the row is in the
subtree or the slice writes it back as it was. -/
theorem rewrite_agrees {ρ : Type} {sel exact' : Bool} {r : ρ} {g : Text → ρ} {q : Text}
    (hsub : exact' = true → sel = true)
    (hslice : exact' = true → rebasedAt fromPath toPath q = some (rebased fromPath toPath q))
    (hsome : sel = true → (rebasedAt fromPath toPath q).isSome = true) :
    ((if sel then g ((rebasedAt fromPath toPath q).getD q) else r) =
        if exact' then g (rebased fromPath toPath q) else r) ↔
      (sel = true → exact' = true ∨ (rebasedAt fromPath toPath q).map g = some r) := by
  cases hx : exact' with
  | true => simp [hsub hx, hslice hx]
  | false =>
    cases hs : sel with
    | false => simp
    | true =>
      obtain ⟨q', hq'⟩ := Option.isSome_iff_exists.mp (hsome hs)
      simp [hq']

theorem sliceable_of_clean {t : Tables} (h : RenameClean t u fromPath toPath) :
    Sliceable u fromPath toPath (withParent u toPath t) := by
  constructor
  · intro r hr hs
    rcases h.1 r hr hs with hb | hq
    · simp only [fileBelow, Bool.and_eq_true] at hb
      rw [ rebasedAt_of_prefix toPath (prefix_of_below hb.2)]
      rfl
    · rw [hq]
      rfl
  · intro r hr hs
    rcases h.2 r hr hs with ha | hq
    · rw [ rebasedAt_of_prefix toPath (prefix_of_folderAt ha)]
      rfl
    · obtain ⟨q, hq, _⟩ := Option.map_eq_some_iff.mp hq
      rw [hq]
      rfl

theorem rename_exact_iff {t : Tables}
    (hslice : Sliceable u fromPath toPath (withParent u toPath t)) :
    MovedExactly u fromPath toPath t (renamed u fromPath toPath (withParent u toPath t)) ↔
      RenameClean t u fromPath toPath := by
  have hfiles : (update (fileSelected u fromPath) (refiled fromPath toPath) t.files =
      update (fileBelow u fromPath) (fun r => { r with path := rebased fromPath toPath r.path })
        t.files) ↔
      ∀ r ∈ t.files, fileSelected u fromPath r = true → fileBelow u fromPath r = true ∨
        rebasedAt fromPath toPath r.path = some r.path := by
    rw [update_eq_iff]
    refine forall_congr' fun r => forall_congr' fun hr => ?_
    have hagree := rewrite_agrees (r := r) (g := fun q => { r with path := q })
      (fileSelected_of_below (u := u) (p := fromPath) (r := r))
      (fun hb => rebasedAt_of_prefix toPath (prefix_of_below (by
        simp only [fileBelow, Bool.and_eq_true] at hb
        exact hb.2))) (hslice.1 r hr)
    refine hagree.trans (forall_congr' fun _ => or_congr Iff.rfl ?_)
    rw [Option.map_eq_some_iff]
    constructor
    · rintro ⟨q, hq, heq⟩
      rw [hq, ← congrArg FileRec.path heq]
    · exact fun hq => ⟨r.path, hq, rfl⟩
  have hfolders : (update (folderSelected u fromPath) (refoldered fromPath toPath)
        (withParent u toPath t).folders =
      update (folderAt u fromPath) (fun r => folderMovedTo r (rebased fromPath toPath r.path))
        (withParent u toPath t).folders) ↔
      ∀ r ∈ (withParent u toPath t).folders, folderSelected u fromPath r = true →
        folderAt u fromPath r = true ∨
          (rebasedAt fromPath toPath r.path).map (folderMovedTo r) = some r := by
    rw [update_eq_iff]
    refine forall_congr' fun r => forall_congr' fun hr => ?_
    exact rewrite_agrees folderSelected_of_at
      (fun ha => rebasedAt_of_prefix toPath (prefix_of_folderAt ha)) (hslice.2 r hr)
  rw [RenameClean, ← hfiles]
  refine Iff.trans ?_ (and_congr Iff.rfl hfolders)
  rw [MovedExactly]
  constructor
  · intro h
    refine ⟨congrArg Tables.files h, addFolders_inj ?_ (congrArg Tables.folders h)⟩
    simp only [update, List.length_map]
  · rintro ⟨h₁, h₂⟩
    rw [renamed, h₂]
    simp only [withParent, h₁]

end

/-! ### Both operations -/

/-- On a path with no live file at it: a call that fails changes nothing; a trash that succeeds
trashes the subtree exactly when every row `LIKE` selects is in it; and a rename that is not
refused succeeds and moves the subtree exactly when every selected row is in it or is written
back as it was. -/
theorem subtree_exact_iff (w : World) (u p toPath : Text) (now : Time)
    (hno : getFileByPath w.db u (trimMatches slash p) = none) :
    (∀ e w', trashPath u p now w = (.error e, w') → w'.db = w.db) ∧
    (∀ e w', rename u p toPath w = (.error e, w') → w'.db = w.db) ∧
    (∀ s w', trashPath u p now w = (.ok s, w') →
      (TrashedExactly u (trimMatches slash p) now w.db.toTables w'.db.toTables ↔
        TrashClean w.db.toTables u (trimMatches slash p))) ∧
    (∀ o w', rename u p toPath w = (o, w') → (∀ e, o ≠ .error (.err e)) →
      (o = .ok () ∧ MovedExactly u (trimMatches slash p) (trimMatches slash toPath)
          w.db.toTables w'.db.toTables ↔
        RenameClean w.db.toTables u (trimMatches slash p) (trimMatches slash toPath))) := by
  refine ⟨fun e w' h => transaction_error h, fun e w' h => ?_, fun s w' h => ?_, fun o w' h hne => ?_⟩
  · unfold rename at h
    split at h
    · cases h
      rfl
    · exact transaction_error h
  · rw [trashPath_ok hno h]
    exact trash_exact_iff
  · cases o with
    | ok a =>
      obtain ⟨hslice, htables⟩ := rename_ok hno h
      rw [htables, ← rename_exact_iff hslice]
      exact and_iff_right rfl
    | error e =>
      cases e with
      | err e => exact absurd rfl (hne e)
      | panic =>
        have hpanic := rename_panic hno (congrArg Prod.fst h)
        exact ⟨fun hx => absurd hx.1 (by simp), fun hclean => absurd (sliceable_of_clean hclean) hpanic⟩

/-! ### Folders whose names are patterns -/

/-- A node with empty files at the given paths. -/
def nodeWith (paths : List Text) : World :=
  paths.zipIdx.foldl (fun w pi =>
    (push (Sample.sample []) .node ['u'] pi.1 [] [Char.ofNat (97 + pi.2)] 0 w).2)
    ⟨Db.empty, fun _ => none, []⟩

def underscoreNode : World := nodeWith ["a_b/x".toList, "acb/y".toList]

def accentNode : World := nodeWith ["é/x".toList]

/-- Trashing the folder `a_b` trashes `acb/y` as well, and renaming the folder `_` slices the
path `é/x` inside its first character. -/
theorem wildcard_folders :
    (getFileByPath underscoreNode.db ['u'] "a_b".toList = none ∧
      (trashPath ['u'] "a_b".toList 5 underscoreNode).1 = .ok ⟨2, 0, 0⟩ ∧
      ¬ TrashedExactly ['u'] "a_b".toList 5 underscoreNode.db.toTables
        (trashPath ['u'] "a_b".toList 5 underscoreNode).2.db.toTables) ∧
    getFileByPath accentNode.db ['u'] ['_'] = none ∧
      (rename ['u'] ['_'] ['z'] accentNode).1 = .error .panic := by
  unfold TrashedExactly
  decide +kernel

def plainNode : World := nodeWith ["docs/x".toList, "other/y".toList]

/-- A folder with a plain name is trashed and moved exactly. -/
theorem plain_folder_exact :
    TrashedExactly ['u'] "docs".toList 5 plainNode.db.toTables
        (trashPath ['u'] "docs".toList 5 plainNode).2.db.toTables ∧
      (rename ['u'] "docs".toList "old/docs".toList plainNode).1 = .ok () ∧
      MovedExactly ['u'] "docs".toList "old/docs".toList plainNode.db.toTables
        (rename ['u'] "docs".toList "old/docs".toList plainNode).2.db.toTables := by
  have htrim : trimMatches slash "docs".toList = "docs".toList := by decide
  have htrim' : trimMatches slash "old/docs".toList = "old/docs".toList := by decide
  have h := subtree_exact_iff plainNode ['u'] "docs".toList "old/docs".toList 5 (by decide +kernel)
  rw [htrim, htrim'] at h
  have htrash : (trashPath ['u'] "docs".toList 5 plainNode).1 = .ok ⟨1, 0, 0⟩ := by decide +kernel
  have hren : (rename ['u'] "docs".toList "old/docs".toList plainNode).1 = .ok () := by
    decide +kernel
  have hpair : ∀ {α β : Type} (x : α × β) {a : α}, x.1 = a → x = (a, x.2) := by
    rintro α β ⟨a, b⟩ _ rfl
    rfl
  have hT := h.2.2.1 _ _ (hpair _ htrash)
  have hR := h.2.2.2 _ _ (hpair _ hren) (fun _ => by simp)
  have hcleanT : TrashClean plainNode.db.toTables ['u'] "docs".toList := by
    unfold TrashClean
    decide +kernel
  have hcleanR : RenameClean plainNode.db.toTables ['u'] "docs".toList "old/docs".toList := by
    unfold RenameClean
    decide +kernel
  exact ⟨hT.mpr hcleanT, hren, (hR.mpr hcleanR).2⟩

end P2pnas.Store.Renaming
