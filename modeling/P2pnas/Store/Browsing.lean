import Mathlib.Data.List.Dedup
import P2pnas.Lib.Paths
import P2pnas.Store.HiddenNames

/-!
# Browsing the folders of an account (`service.rs:579-607`, `manifest.rs:852-892`)

`browse` cuts the path of every listed file at the separator and reports what comes next
below the directory; `trash_path` and the folder calls trim and cut the paths they are given,
an upload stores its path as it is. A file is found from the root when its path is a list of
names, and the trail of folders to it is then the only one.
-/

namespace P2pnas.Store.Browsing
open P2pnas.Lib.Frames P2pnas.Lib.Strings P2pnas.Lib.Tables P2pnas.Lib.Runs P2pnas.Lib.Paths
open P2pnas.Core P2pnas.Core.Base P2pnas.Core.Pipeline P2pnas.Store.Manifest P2pnas.Store.Session
open P2pnas.Store.Service P2pnas.Store.Lifecycle P2pnas.Store.HiddenNames Relation
open P2pnas.Store.Operations hiding step

/-! ### The call -/

structure DirListing where
  folders : List Text
  files : List FileRow
  deriving DecidableEq, Repr

/-- `folders_in`: explicit folders directly under a parent. -/
def foldersIn (db : Db) (u parent : Text) : List Text :=
  ((db.folders.filter fun r => r.userId = u && r.parent = parent).map FolderRow.path).insertionSort
    (fun a b => textLe a b)

/-- The folder that a file below `dir`, but not directly in it, implies. -/
def impliedFolder (dir : Text) (f : FileRow) : Option Text :=
  match (relTo slash dir f.path).bind (splitOnce slash) with
  | some (child, _) => some (under slash dir child)
  | none => none

def directlyIn (dir : Text) (f : FileRow) : Bool :=
  match relTo slash dir f.path with
  | some rel => !rel.isEmpty && (splitOnce slash rel).isNone
  | none => false

/-- Explicit and implied folders, each once and in order, and the files of the directory. -/
def assemble (dir : Text) (explicit : List Text) (files : List FileRow) : DirListing where
  folders := ((explicit ++ files.filterMap (impliedFolder dir)).dedup).insertionSort (fun a b => textLe a b)
  files := files.filter (directlyIn dir)

def browse (u dir : Text) : Svc DirListing := do
  let explicit ← query (foldersIn · u (trimMatches slash dir))
  let files ← query (listFiles · u)
  return assemble (trimMatches slash dir) explicit files

/-- What `browse` returns when its reads work. -/
def listing (db : Db) (u dir : Text) : DirListing :=
  assemble (trimMatches slash dir) (foldersIn db u (trimMatches slash dir)) (listFiles db u)

theorem browse_calm (db : Db) (st : ChunkStore) (u dir : Text) :
    browse u dir ⟨db, st, []⟩ = (.ok (listing db u dir), ⟨db, st, []⟩) := rfl

/-- From `dir` into the folders of `trail`, each reported by the listing before it. -/
def Follows (db : Db) (u : Text) : Text → List Text → Text → Prop
  | dir, [], last => last = dir
  | dir, sub :: trail, last => sub ∈ (listing db u dir).folders ∧ Follows db u sub trail last

/-- The file is reached from the root by one trail only, is listed there once, and goes to the
trash alone when the path shown is given to `trash_path`. -/
structure Browsable (db : Db) (u : Text) (row : FileRow) : Prop where
  found : ∃! trail, ∃ dir, Follows db u [] trail dir ∧ row ∈ (listing db u dir).files
  once : ∀ dir, (listing db u dir).files.count row ≤ 1
  trashed : ∀ st now, ∃ db', trashPath u row.path now ⟨db, st, []⟩ = (.ok (TrashSummary.of [row]), ⟨db', st, []⟩) ∧
    db'.toTables = { db.toTables with
      files := update (isRow u row.fileId) (Retire.deletedAt.set now) db.files }

/-! ### Folder rows -/

/-- A folder row under its parent, at a path that starts and ends with a name. -/
structure Placed (r : FolderRow) : Prop where
  parent : r.parent = dirname r.path
  nonempty : r.path ≠ []
  head : ∀ d q, r.path = d :: q → d ≠ slash
  last : ∀ d q, r.path = q ++ [d] → d ≠ slash

/-- A path has no separator, or its directory and a last segment without one. -/
theorem dirname_under (path : Text) : dirname path = [] ∧ slash ∉ path ∨
    ∃ base, slash ∉ base ∧ path = dirname path ++ slash :: base := by
  have hcut := List.takeWhile_append_dropWhile (p := fun x => decide (x ≠ slash)) (l := path.reverse)
  have htake : slash ∉ path.reverse.takeWhile fun x => decide (x ≠ slash) := by
    intro h
    have hx := List.mem_takeWhile_imp h
    rw [decide_eq_true_eq] at hx
    exact hx rfl
  cases hd : path.reverse.dropWhile (fun x => decide (x ≠ slash)) with
  | nil =>
    rw [hd, List.append_nil] at hcut
    rw [hcut] at htake
    exact .inl ⟨by rw [dirname, hd], fun h => htake (List.mem_reverse.mpr h)⟩
  | cons x rest =>
    have hx : x = slash := by
      have hne : path.reverse.dropWhile (fun x => decide (x ≠ slash)) ≠ [] := by
        rw [hd]
        exact List.cons_ne_nil _ _
      have hhead := List.head_dropWhile_not (fun x => decide (x ≠ slash)) hne
      simp only [hd, List.head_cons] at hhead
      exact not_not.mp (of_decide_eq_false hhead)
    refine .inr ⟨(path.reverse.takeWhile fun x => decide (x ≠ slash)).reverse,
      fun h => htake (List.mem_reverse.mp h), ?_⟩
    have hdir : dirname path = rest.reverse := by rw [dirname, hd]
    calc path = (path.reverse.takeWhile (fun x => decide (x ≠ slash)) ++ x :: rest).reverse := by
          rw [← hd, hcut, List.reverse_reverse]
      _ = rest.reverse ++ x :: (path.reverse.takeWhile fun x => decide (x ≠ slash)).reverse := by
          rw [List.reverse_append, List.reverse_cons, List.append_assoc, List.singleton_append]
      _ = dirname path ++ slash :: (path.reverse.takeWhile fun x => decide (x ≠ slash)).reverse := by
          rw [hdir, hx]

/-- The ancestors of a path of names are paths of names. -/
theorem mem_ancestorPaths {pre segs : List Text} (hpre : ∀ s ∈ pre, IsName slash s)
    (hsegs : ∀ s ∈ segs, IsName slash s) {p : Text} (hp : p ∈ ancestorPaths (joinOn slash pre) segs) :
    ∃ names, names ≠ [] ∧ (∀ s ∈ names, IsName slash s) ∧ p = joinOn slash names := by
  induction segs generalizing pre with
  | nil => cases hp
  | cons seg segs ih =>
    have hseg := hsegs seg (List.mem_cons_self ..)
    have hnames : ∀ s ∈ pre ++ [seg], IsName slash s := by
      intro s hs
      rcases List.mem_append.mp hs with hs | hs
      · exact hpre s hs
      · exact List.mem_singleton.mp hs ▸ hseg
    have hacc : (if (joinOn slash pre).isEmpty then seg else joinOn slash pre ++ slash :: seg) =
        joinOn slash (pre ++ [seg]) := under_joinOn pre hpre (List.cons_ne_nil seg [])
    rw [ancestorPaths, hacc] at hp
    rcases List.mem_cons.mp hp with rfl | hp
    · exact ⟨pre ++ [seg], by simp, hnames, rfl⟩
    · exact ih hnames (fun s hs => hsegs s (List.mem_cons_of_mem _ hs)) hp

theorem placed_made {u path : Text} {r : FolderRow} (h : r ∈ folderRowsFor u path) : Placed r := by
  obtain ⟨p, hp, rfl⟩ := List.mem_map.mp h
  obtain ⟨names, hne, hnames, rfl⟩ := @mem_ancestorPaths [] _
    (fun s hs => absurd hs List.not_mem_nil) (fun s hs => by
      obtain ⟨hs, hemp⟩ := List.mem_filter.mp hs
      refine ⟨?_, splitOn_uncut _ s hs⟩
      rintro rfl
      cases hemp) p hp
  have hplain := plain_joinOn hnames hne
  exact ⟨rfl, joinOn_ne_nil hnames hne, hplain.head, hplain.last⟩

/-- What `&s[n..]` returns ends the text. -/
theorem sliceFrom_suffix {s suffix : Text} {n : ℕ} (h : sliceFrom s n = some suffix) : suffix <:+ s := by
  induction s generalizing n with
  | nil =>
    cases n with
    | zero =>
      rw [sliceFrom] at h
      rw [Option.some.inj h]
    | succ n => cases h
  | cons d s ih =>
    cases n with
    | zero =>
      rw [sliceFrom] at h
      rw [Option.some.inj h]
    | succ n =>
      rw [sliceFrom] at h
      split at h
      · exact (ih h).trans (List.suffix_cons d s)
      · cases h

theorem placed_moved {r : FolderRow} (h : Placed r) {toPath suffix : Text} (hto : trimMatches slash toPath ≠ [])
    (hs : suffix <:+ r.path) : Placed { r with
      path := trimMatches slash toPath ++ suffix
      parent := dirname (trimMatches slash toPath ++ suffix) } := by
  refine ⟨rfl, List.append_ne_nil_of_left_ne_nil hto _, fun d q he => ?_, fun d q he => ?_⟩
  · obtain ⟨d', q', hto'⟩ := List.exists_cons_of_ne_nil hto
    change trimMatches slash toPath ++ suffix = d :: q at he
    rw [hto', List.cons_append] at he
    exact (List.cons.inj he).1 ▸ trimMatches_head hto'
  · change trimMatches slash toPath ++ suffix = q ++ [d] at he
    rcases List.eq_nil_or_concat suffix with rfl | ⟨t, x, rfl⟩
    · rw [List.append_nil] at he
      exact trimMatches_last he
    · rw [List.concat_eq_append, ← List.append_assoc] at he
      have hx : x = d := by
        have hlast := (List.append_inj' he rfl).2
        exact (List.cons.inj hlast).1
      obtain ⟨pre, hpre⟩ := hs
      rw [List.concat_eq_append, ← List.append_assoc] at hpre
      exact hx ▸ h.last x (pre ++ t) hpre.symm

section
variable {K : Type} {P : Prims K} {key : K}

theorem updateFiles_folders {db db' : Db} {sel : FileRec → Bool} {set : FileRec → FileRec}
    {hid : ∀ r, (set r).fileId = r.fileId} (h : updateFiles db sel set hid = some db') :
    db'.folders = db.folders := by
  rw [updateFiles_some h]

theorem retireRow_folders {db db' : Db} {u f : Text} {c : Retire} {now : Time}
    (h : retireRow db u f c now = some db') : db'.folders = db.folders := updateFiles_folders h

theorem edit_placed {o : Op} {b db db' : Db} (he : Edit P o b db db') (h : ∀ r ∈ db.folders, Placed r) :
    ∀ r ∈ db'.folders, Placed r := by
  have hsame : ∀ {t : Tables}, t.folders = db.folders → ∀ r ∈ t.folders, Placed r := by
    intro t ht r hr
    exact h r (ht ▸ hr)
  cases he with
  | insert row _ hins => exact hsame (by rw [(insertFile_some hins).2])
  | chunk c hins => exact hsame (by rw [(insertChunk_some hins).2])
  | shard s _ hins => exact hsame (by rw [(insertShard_some hins).2])
  | trash r now _ _ _ _ hs => exact hsame (retireRow_folders hs)
  | restore r path _ _ _ _ hs => exact hsame (updateFiles_folders hs)
  | repath r path _ _ _ _ hs => exact hsame (updateFiles_folders hs)
  | assign u f packId offset len hs => exact hsame (updateFiles_folders hs)
  | delete u f _ => exact hsame rfl
  | strip u f => exact hsame rfl
  | folders _ _ _ hrows =>
    intro r hr
    cases hrows r hr with
    | kept hold => exact h r hold
    | made u path hmade => exact placed_made hmade
    | moved q hq toPath suffix n hto hs => exact placed_moved (h q hq) hto (sliceFrom_suffix hs)
  | location frag location => exact hsame rfl

theorem reached_placed {w : World} (h : Reached P key w) : ∀ r ∈ w.db.folders, Placed r := by
  refine reached_invariant P key (I := fun db => ∀ r ∈ db.folders, Placed r) (fun r hr => ?_)
    (fun _ _ _ _ he hI => edit_placed he hI) (fun o db db' hset hI => ?_) h
  · exact absurd hr List.not_mem_nil
  · obtain ⟨r, -, now, -, -, hsup⟩ := hset
    rw [retireRow_folders hsup]
    exact hI

end

/-! ### The tree that the listings report -/

section
variable {db : Db} {u : Text} {segs : List Text}

theorem trim_joinOn (h : ∀ s ∈ segs, IsName slash s) : trimMatches slash (joinOn slash segs) = joinOn slash segs := by
  by_cases hne : segs = []
  · subst hne
    rfl
  · exact (plain_joinOn h hne).trim

theorem mem_folders {sub : Text} (h : ∀ s ∈ segs, IsName slash s) :
    sub ∈ (listing db u (joinOn slash segs)).folders ↔
      (∃ r ∈ db.folders, r.userId = u ∧ r.parent = joinOn slash segs ∧ r.path = sub) ∨
        ∃ f ∈ listFiles db u, impliedFolder (joinOn slash segs) f = some sub := by
  simp only [listing, assemble, trim_joinOn h, foldersIn, List.mem_insertionSort, List.mem_dedup,
    List.mem_append, List.mem_map, List.mem_filter, List.mem_filterMap, Bool.and_eq_true,
    decide_eq_true_eq, and_assoc]

theorem mem_listed {f : FileRow} (h : ∀ s ∈ segs, IsName slash s) :
    f ∈ (listing db u (joinOn slash segs)).files ↔
      f ∈ listFiles db u ∧ directlyIn (joinOn slash segs) f = true := by
  simp only [listing, assemble, trim_joinOn h, List.mem_filter]

variable (hs : ∀ s ∈ segs, IsName slash s)
include hs

/-- An explicit folder under a directory of names is one name further. -/
theorem explicit_child {r : FolderRow} (hr : Placed r) (h : r.parent = joinOn slash segs) :
    ∃ name, IsName slash name ∧ r.path = joinOn slash (segs ++ [name]) := by
  have hparent : dirname r.path = joinOn slash segs := hr.parent.symm.trans h
  rcases dirname_under r.path with ⟨hroot, huncut⟩ | ⟨base, huncut, hpath⟩
  · have hnil : segs = [] := by
      by_contra hne
      exact joinOn_ne_nil hs hne (hparent.symm.trans hroot)
    subst hnil
    exact ⟨r.path, ⟨hr.nonempty, huncut⟩, rfl⟩
  · have hbase : base ≠ [] := by
      rintro rfl
      exact hr.last slash (dirname r.path) hpath rfl
    have hne : segs ≠ [] := by
      rintro rfl
      rw [hparent] at hpath
      exact hr.head slash base hpath rfl
    refine ⟨base, ⟨hbase, huncut⟩, ?_⟩
    have hnon : (joinOn slash segs).isEmpty = false := by
      rw [List.isEmpty_eq_false_iff]
      exact joinOn_ne_nil hs hne
    rw [← under_joinOn segs hs (List.cons_ne_nil base []), under, hnon, if_neg Bool.false_ne_true, ← hparent]
    exact hpath

/-- So is a folder that a plain path implies. -/
theorem implied_child {f : FileRow} (hf : Plain slash f.path) {sub : Text}
    (h : impliedFolder (joinOn slash segs) f = some sub) :
    ∃ name, IsName slash name ∧ sub = joinOn slash (segs ++ [name]) := by
  unfold impliedFolder at h
  cases hcut : (relTo slash (joinOn slash segs) f.path).bind (splitOnce slash) with
  | none =>
    rw [hcut] at h
    cases h
  | some cut =>
    obtain ⟨child, rest⟩ := cut
    rw [hcut] at h
    obtain ⟨rel, hrel, honce⟩ := Option.bind_eq_some_iff.mp hcut
    obtain ⟨huncut, hrest⟩ := splitOnce_some honce
    have hpath := relTo_eq_some.mp hrel
    have hsplit : child ∈ splitOn slash f.path := by
      rw [hpath, splitOn_under hs, hrest, splitOn_append, splitOn_of_uncut huncut]
      simp
    refine ⟨child, ⟨hf child hsplit, huncut⟩, ?_⟩
    rw [← under_joinOn segs hs (List.cons_ne_nil child [])]
    exact (Option.some.inj h).symm

theorem directlyIn_iff {f : FileRow} : directlyIn (joinOn slash segs) f = true ↔
    ∃ name, IsName slash name ∧ f.path = joinOn slash (segs ++ [name]) := by
  constructor
  · intro h
    unfold directlyIn at h
    cases hrel : relTo slash (joinOn slash segs) f.path with
    | none =>
      rw [hrel] at h
      cases h
    | some rel =>
      rw [hrel, Bool.and_eq_true, Bool.not_eq_true', List.isEmpty_eq_false_iff,
        Option.isNone_iff_eq_none] at h
      refine ⟨rel, ⟨h.1, splitOnce_none.mp h.2⟩, ?_⟩
      rw [relTo_eq_some.mp hrel]
      exact under_joinOn segs hs (List.cons_ne_nil rel [])
  · rintro ⟨name, hname, hpath⟩
    have hrel : relTo slash (joinOn slash segs) f.path = some name :=
      relTo_eq_some.mpr (hpath.trans (under_joinOn segs hs (List.cons_ne_nil name [])).symm)
    unfold directlyIn
    rw [hrel, Bool.and_eq_true, Bool.not_eq_true', List.isEmpty_eq_false_iff, Option.isNone_iff_eq_none]
    exact ⟨hname.nonempty, splitOnce_none.mpr hname.uncut⟩

/-- A file further down implies the folder one name down. -/
theorem implied_of_path {f : FileRow} {name : Text} {rest : List Text} (hname : IsName slash name)
    (hne : rest ≠ []) (h : f.path = joinOn slash (segs ++ name :: rest)) :
    impliedFolder (joinOn slash segs) f = some (joinOn slash (segs ++ [name])) := by
  have hrel : relTo slash (joinOn slash segs) f.path = some (joinOn slash (name :: rest)) :=
    relTo_eq_some.mpr (h.trans (under_joinOn segs hs (List.cons_ne_nil name rest)).symm)
  have honce : splitOnce slash (joinOn slash (name :: rest)) = some (name, joinOn slash rest) := by
    rw [joinOn_cons hne]
    exact splitOnce_append hname.uncut _
  unfold impliedFolder
  rw [hrel, Option.bind_some, honce]
  exact congrArg some (under_joinOn segs hs (List.cons_ne_nil name []))

end

/-- The folders from `segs` down through further names. -/
def descend (segs : List Text) : List Text → List Text
  | [] => []
  | a :: added => joinOn slash (segs ++ [a]) :: descend (segs ++ [a]) added

section
variable {db : Db} {u : Text}

theorem names_concat {segs : List Text} {a : Text} (hs : ∀ s ∈ segs, IsName slash s) (ha : IsName slash a) :
    ∀ s ∈ segs ++ [a], IsName slash s := by
  intro s h
  rcases List.mem_append.mp h with h | h
  · exact hs s h
  · exact List.mem_singleton.mp h ▸ ha

/-- Whatever the listings report, a trail goes down name by name. -/
theorem follows_descend (hplaced : ∀ r ∈ db.folders, Placed r)
    (hplain : ∀ f ∈ listFiles db u, Plain slash f.path) {segs : List Text} (hs : ∀ s ∈ segs, IsName slash s)
    {trail : List Text} {last : Text} (h : Follows db u (joinOn slash segs) trail last) :
    ∃ added, (∀ s ∈ added, IsName slash s) ∧ trail = descend segs added ∧
      last = joinOn slash (segs ++ added) := by
  induction trail generalizing segs with
  | nil => exact ⟨[], fun s hs => absurd hs List.not_mem_nil, rfl, by rw [List.append_nil]; exact h⟩
  | cons sub trail ih =>
    obtain ⟨hsub, hrest⟩ := h
    have hchild : ∃ name, IsName slash name ∧ sub = joinOn slash (segs ++ [name]) := by
      rcases (mem_folders hs).mp hsub with ⟨r, hr, -, hparent, rfl⟩ | ⟨f, hf, himp⟩
      · exact explicit_child hs (hplaced r hr) hparent
      · exact implied_child hs (hplain f hf) himp
    obtain ⟨name, hname, rfl⟩ := hchild
    obtain ⟨added, hadded, rfl, rfl⟩ := ih (names_concat hs hname) hrest
    refine ⟨name :: added, ?_, rfl, ?_⟩
    · intro s h
      rcases List.mem_cons.mp h with rfl | h
      · exact hname
      · exact hadded s h
    · rw [List.append_assoc, List.singleton_append]

theorem follows_of_path {f : FileRow} (hf : f ∈ listFiles db u) {segs added : List Text} {name : Text}
    (hs : ∀ s ∈ segs, IsName slash s) (ha : ∀ s ∈ added, IsName slash s)
    (h : f.path = joinOn slash (segs ++ added ++ [name])) :
    Follows db u (joinOn slash segs) (descend segs added) (joinOn slash (segs ++ added)) := by
  induction added generalizing segs with
  | nil =>
    rw [List.append_nil]
    rfl
  | cons a added ih =>
    have haa := ha a (List.mem_cons_self ..)
    have hrest : ∀ s ∈ added, IsName slash s := fun s hs => ha s (List.mem_cons_of_mem _ hs)
    have hpath : f.path = joinOn slash (segs ++ a :: (added ++ [name])) := by
      rw [h, List.append_assoc, List.cons_append]
    refine ⟨(mem_folders hs).mpr (.inr ⟨f, hf, ?_⟩), ?_⟩
    · exact implied_of_path hs haa (by simp) hpath
    · have hdeep := ih (names_concat hs haa) hrest (by rw [h]; simp)
      rw [List.append_assoc, List.singleton_append] at hdeep
      exact hdeep

/-- One trail leads to the directory of a listed file at a plain path. -/
theorem found_once (hplaced : ∀ r ∈ db.folders, Placed r)
    (hplain : ∀ f ∈ listFiles db u, Plain slash f.path) {f : FileRow} (hf : f ∈ listFiles db u) :
    ∃! trail, ∃ dir, Follows db u [] trail dir ∧ f ∈ (listing db u dir).files := by
  have hnone : ∀ s ∈ ([] : List Text), IsName slash s := fun s hs => absurd hs List.not_mem_nil
  rcases List.eq_nil_or_concat (splitOn slash f.path) with hnil | ⟨segs, name, hsplit⟩
  · exact absurd hnil (splitOn_ne_nil _)
  · rw [List.concat_eq_append] at hsplit
    have hnames : ∀ s ∈ segs ++ [name], IsName slash s := hsplit ▸ (hplain f hf).names
    have hsegs : ∀ s ∈ segs, IsName slash s := fun s hs => hnames s (List.mem_append_left _ hs)
    have hname : IsName slash name := hnames name (by simp)
    have hpath : f.path = joinOn slash (segs ++ [name]) := by rw [← hsplit, joinOn_splitOn]
    refine ⟨descend [] segs, ⟨joinOn slash segs, ?_, ?_⟩, ?_⟩
    · exact @follows_of_path db u f hf [] segs name hnone hsegs hpath
    · exact (mem_listed hsegs).mpr ⟨hf, (directlyIn_iff hsegs).mpr ⟨name, hname, hpath⟩⟩
    · rintro trail ⟨dir, hfollows, hlisted⟩
      obtain ⟨added, hadded, rfl, rfl⟩ := @follows_descend db u hplaced hplain [] hnone _ _ hfollows
      rw [List.nil_append] at hlisted
      obtain ⟨other, hother, hpath'⟩ := (directlyIn_iff hadded).mp ((mem_listed hadded).mp hlisted).2
      have heq := joinOn_inj (names_concat hadded hother) hnames (hpath'.symm.trans hpath)
      rw [(List.append_inj' heq rfl).1]

theorem listFiles_nodup : (listFiles db u).Nodup := by
  have hperm : (listFiles db u).Perm
      ((db.files.filter fun r => r.userId = u && r.live && notPack r.path).map FileRec.view) :=
    List.perm_insertionSort _ _
  refine hperm.nodup_iff.mpr (List.Nodup.of_map FileRow.fileId ?_)
  rw [List.map_map]
  exact nodup_filter _ db.constraints.fileIds

theorem mem_listFiles {f : FileRow} : f ∈ listFiles db u ↔
    ∃ r ∈ db.files, r.userId = u ∧ r.live = true ∧ notPack r.path = true ∧ r.view = f := by
  simp only [listFiles, List.mem_insertionSort, List.mem_map, List.mem_filter, Bool.and_eq_true,
    decide_eq_true_eq, and_assoc]

/-- `trash_path` on the path of a live file that is listed. -/
theorem trashPath_listed {r : FileRec} (hr : r ∈ db.files) (hlive : r.live = true)
    (hn : notPack r.path = true) (hplain : Plain slash r.path)
    (hfree : ∀ now, (retireRow db r.userId r.fileId .deletedAt now).isSome = true) (st : ChunkStore)
    (now : Time) : ∃ db', trashPath r.userId r.path now ⟨db, st, []⟩ =
        (.ok (TrashSummary.of [r.view]), ⟨db', st, []⟩) ∧
      db'.toTables = { db.toTables with
        files := update (isRow r.userId r.fileId) (Retire.deletedAt.set now) db.files } := by
  obtain ⟨db', hdb'⟩ := Option.isSome_iff_exists.mp (hfree now)
  have hfind : getFileByPath db r.userId r.path = some r.view := by
    have hrow : db.files.find? (fun q => q.userId = r.userId && q.path = r.path && q.live && notPack q.path) =
        some r := by
      refine find?_eq_some db.constraints.filePaths hr ?_ fun q hq => ?_
      · simp [hlive, hn]
      · simp only [Bool.and_eq_true, decide_eq_true_eq] at hq
        exact Prod.ext hq.1.1.1 hq.1.1.2
    rw [getFileByPath, hrow, Option.map_some]
  have hquery : query (getFileByPath · r.userId r.path) ⟨db, st, []⟩ = (.ok (some r.view), ⟨db, st, []⟩) := by
    rw [← hfind]
    rfl
  have hstmt : stmt (trashFile · r.userId r.view.fileId now) ⟨db, st, []⟩ = (.ok (), ⟨db', st, []⟩) := by
    have htrash : trashFile db r.userId r.view.fileId now = some db' := hdb'
    simp only [stmt, effect, htrash]
  refine ⟨db', ?_, ?_⟩
  · unfold trashPath
    rw [hplain.trim]
    simp only [transaction, bind_apply, hquery, hstmt]
    rfl
  · have hsame : update (fun q => isRow r.userId r.fileId q && (Retire.deletedAt.get q).isNone)
        (Retire.deletedAt.set now) db.files =
        update (isRow r.userId r.fileId) (Retire.deletedAt.set now) db.files := by
      refine update_eq_iff.mpr fun q hq => ?_
      cases hsel : isRow r.userId r.fileId q with
      | false => rfl
      | true =>
        have hd : q.deletedAt = none := by
          rw [isRow_eq hr hq hsel]
          exact (live_stamps hlive).1
        simp only [Retire.get, hd, Option.isNone_none, Bool.and_self]
    rw [updateFiles_some hdb', hsame]

end

/-! ### Every run -/

section
variable {K : Type} (P : Prims K) (key : K)

/-- The paths that the call writes for files are lists of names. -/
structure KeepsPlain (b : Db) (o : Op) : Prop where
  upload : Op.packs o = false → ∀ row, o.Inserts P row → Plain slash row.path
  move : ∀ r ∈ b.files, ∀ path, r.live = true → o.Repaths b r path → Plain slash path
  restore : ∀ r ∈ b.files, ∀ path, r.live = false → o.RestoresTo r path → Plain slash path

end

/-- A live file is at a plain path. -/
def PlainRow (containers : Text → Bool) (r : FileRec) : Prop :=
  r.live = true → containers r.fileId = false → Plain slash r.path

section
variable {K : Type} {P : Prims K} {key : K} {b db db' : Db} {containers : Text → Bool} {o : Op}

theorem edit_plain (hk : KeepsOut P b o) (hp : KeepsPlain P b o) (he : Edit P o b db db')
    (h : ∀ r ∈ db.files, PlainRow (tags b containers o) r) :
    ∀ q ∈ db'.files, PlainRow (tags b containers o) q := by
  intro q hq
  cases he with
  | insert row hrow hins =>
    rcases insertFile_mem hins hq with hold | rfl
    · exact h q hold
    · intro _ htag
      change tags b containers o row.fileId = false at htag
      rw [tags_new (hk.fresh row hrow).1] at htag
      exact hp.upload htag row hrow
  | chunk c hins =>
    rw [(insertChunk_some hins).2] at hq
    exact h q hq
  | shard s _ hins =>
    rw [(insertShard_some hins).2] at hq
    exact h q hq
  | trash r now hb hr hlive hsel htrash =>
    rcases retireRow_mem hr htrash hq with hold | rfl
    · exact h q hold
    · intro hl
      cases (live_stamps hl).1
  | restore r path hb hr hlive hsel hrest =>
    rcases restoreFile_mem hr hrest hq with hold | rfl
    · exact h q hold
    · exact fun _ _ => hp.restore r hb path hlive hsel
  | repath r path hb hr hlive hsel hmove =>
    rcases updateFilePath_mem hr hmove hq with hold | rfl
    · exact h q hold
    · exact fun _ _ => hp.move r hb path hlive hsel
  | assign u f packId offset len hpack =>
    obtain ⟨r, hr, hid, -, hpath, -, hd, hs⟩ := assignToPack_mem hpack hq
    intro hl htag
    have hlive : r.live = true := by
      rw [FileRec.live, hd, hs]
      exact hl
    rw [← hpath]
    exact h r hr hlive (hid ▸ htag)
  | delete u f _ => exact h q (List.mem_filter.mp hq).1
  | strip u f => exact h q hq
  | folders hf _ _ _ =>
    rw [hf] at hq
    exact h q hq
  | location frag location => exact h q hq

theorem opStep_plain (hk : KeepsOut P b o) (hp : KeepsPlain P b o) (hstep : OpStep P o b db')
    (h : ∀ r ∈ b.files, PlainRow (tags b containers o) r) :
    ∀ q ∈ db'.files, PlainRow (tags b containers o) q := by
  obtain ⟨mid, hmid, hrest⟩ := hstep
  have hm : ∀ r ∈ mid.files, PlainRow (tags b containers o) r := by
    rcases hmid with rfl | ⟨r, hr, now, -, -, hsup⟩
    · exact h
    · intro q hq
      rcases retireRow_mem hr hsup hq with hold | rfl
      · exact h q hold
      · intro hl
        cases (live_stamps hl).2
  induction hrest with
  | refl => exact hm
  | tail _ he ih => exact edit_plain hk hp he ih

/-- What a call that writes plain paths keeps. -/
theorem step_plain {s : Tagged} (a : Op × List Event) (hk : KeepsOut P s.world.db a.1)
    (hp : KeepsPlain P s.world.db a.1) (h : ∀ r ∈ s.world.db.files, PlainRow s.containers r) :
    ∀ q ∈ (step P key s a).world.db.files, PlainRow (step P key s a).containers q := by
  have hstep := op_step P key a.1 { s.world with script := a.2 }
  have hrows := opStep_plain hk hp hstep fun r hr hl htag => by
    rw [tags_old hr] at htag
    exact h r hr hl htag
  intro q hq hl htag
  have heq : (step P key s a).containers q.fileId = tags s.world.db s.containers a.1 q.fileId :=
    if_pos (List.mem_map_of_mem hq)
  rw [heq] at htag
  exact hrows q hq hl htag

/-- The worlds of a run that remembers the containers are those of the run. -/
theorem run_world (s : Tagged) (as : List (Op × List Event)) :
    (run (step P key) s as).world = run (Operations.step P key) s.world as := by
  induction as generalizing s with
  | nil => rfl
  | cons a as ih => exact ih (step P key s a)

end

section
variable {K : Type} (P : Prims K) (key : K)

/-- In every run whose calls keep out of the hidden names and write plain paths, whatever fails
in them, each live file is found from the root exactly once and goes to the trash by the path
shown. -/
theorem run_browsable (as : List (Op × List Event)) (h : AllMeet (step P key) (fun s a =>
      KeepsOut P s.world.db a.1 ∧ KeepsPlain P s.world.db a.1) start as) :
    ∀ r ∈ (run (step P key) start as).world.db.files, r.live = true →
      (run (step P key) start as).containers r.fileId = false →
      Browsable (run (step P key) start as).world.db r.userId r.view := by
  have hinv := run_invariant (I := fun s : Tagged => (∀ r ∈ s.world.db.files, Tidy s r) ∧
      ∀ r ∈ s.world.db.files, PlainRow s.containers r)
    (fun s a hs hk => ⟨step_tidy a hs.1 hk.1, step_plain a hk.1 hk.2 hs.2⟩)
    ⟨fun r hr => absurd hr List.not_mem_nil, fun r hr => absurd hr List.not_mem_nil⟩ h
  have hplaced : ∀ r ∈ (run (step P key) start as).world.db.folders, Placed r :=
    @reached_placed K P key _ ⟨as, (run_world start as).symm⟩
  generalize run (step P key) start as = s at hinv hplaced
  obtain ⟨htidy, hplain⟩ := hinv
  have hsep := tidy_separated htidy
  -- a listed row is no container
  have hlisted : ∀ u, ∀ f ∈ listFiles s.world.db u, Plain slash f.path := by
    intro u f hf
    obtain ⟨q, hq, -, hl, hn, rfl⟩ := mem_listFiles.mp hf
    have hcur := (htidy q hq).filed.current hl
    change Plain slash (q.retiredPath.getD q.path)
    rw [hcur, Option.getD_none]
    exact hplain q hq hl (untagged (htidy q hq).shaped hn)
  intro r hr hlive htag
  have hcur := (htidy r hr).filed.current hlive
  have hpath : r.view.path = r.path := by
    change r.retiredPath.getD r.path = r.path
    rw [hcur, Option.getD_none]
  have hn : notPack r.path = true := by
    have hshaped := (htidy r hr).shaped
    rw [htag] at hshaped
    exact hpath ▸ hshaped
  refine ⟨?_, fun dir => ?_, fun st now => ?_⟩
  · exact found_once hplaced (hlisted r.userId) (mem_listFiles.mpr ⟨r, hr, rfl, hlive, hn, rfl⟩)
  · exact List.nodup_iff_count_le_one.mp (listFiles_nodup.filter _) r.view
  · rw [hpath]
    exact trashPath_listed hr hlive hn (hplain r hr hlive htag) (hsep.free r hr hlive .deletedAt) st now

end

/-- One upload into a folder that no `mkdir` made. -/
def nestedUpload : List (Op × List Event) := [(.push ['u'] "d/p".toList [1, 2, 3] ['m'] 0, [])]

theorem nestedUpload_browsable :
    (run (step (Sample.sample []) Sample.Key.node) start nestedUpload).world.db.files.length = 1 ∧
    ∀ r ∈ (run (step (Sample.sample []) Sample.Key.node) start nestedUpload).world.db.files, r.live = true →
      (run (step (Sample.sample []) Sample.Key.node) start nestedUpload).containers r.fileId = false →
      Browsable (run (step (Sample.sample []) Sample.Key.node) start nestedUpload).world.db r.userId r.view := by
  refine ⟨by decide +kernel, run_browsable _ _ nestedUpload ⟨⟨⟨?_, ?_, ?_, ?_, ?_⟩, ⟨?_, ?_, ?_⟩⟩, trivial⟩⟩
  · rintro row ⟨chunks, lineage, rfl⟩
    exact ⟨List.not_mem_nil, fun q hq => absurd hq List.not_mem_nil⟩
  · rintro - row ⟨chunks, lineage, rfl⟩
    exact ⟨rfl, fun q hq => absurd hq List.not_mem_nil⟩
  · exact fun r _ _ h => h.elim
  · exact fun r _ path _ h => h.elim
  · exact fun r _ path _ h => h.elim
  · rintro - row ⟨chunks, lineage, rfl⟩
    change Plain slash "d/p".toList
    decide
  · exact fun r _ path _ h => h.elim
  · exact fun r _ path _ h => h.elim

/-- The account's manifest after an upload to a path that starts with the separator. -/
def leadingSlash : Tagged :=
  run (step (Sample.sample []) Sample.Key.node) start [(.push ['u'] "/a".toList [1, 2, 3] ['m'] 0, [])]

/-- The root reports only itself as a folder, and no file. -/
theorem leadingSlash_root : listing leadingSlash.world.db ['u'] [] = ⟨[[]], []⟩ := by decide +kernel

theorem leadingSlash_not_browsable : trim "/a".toList = "/a".toList ∧ "/a".toList ≠ [] ∧
    ∃ r ∈ leadingSlash.world.db.files, r.live = true ∧ leadingSlash.containers r.fileId = false ∧
      ¬ Browsable leadingSlash.world.db r.userId r.view := by
  have hstay : ∀ trail dir, Follows leadingSlash.world.db ['u'] [] trail dir → dir = [] := by
    intro trail
    induction trail with
    | nil => exact fun dir h => h
    | cons sub trail ih =>
      rintro dir ⟨hsub, hrest⟩
      rw [leadingSlash_root] at hsub
      rw [List.mem_singleton.mp hsub] at hrest
      exact ih dir hrest
  have hrow : ∃ r ∈ leadingSlash.world.db.files, r.live = true ∧ leadingSlash.containers r.fileId = false ∧
      r.userId = ['u'] := by decide +kernel
  obtain ⟨r, hr, hlive, htag, hu⟩ := hrow
  refine ⟨by decide, by decide, r, hr, hlive, htag, fun h => ?_⟩
  obtain ⟨trail, ⟨dir, hfollows, hlisted⟩, -⟩ := h.found
  rw [hu] at hfollows hlisted
  rw [hstay trail dir hfollows, leadingSlash_root] at hlisted
  exact List.not_mem_nil hlisted

end P2pnas.Store.Browsing
