import Mathlib.Data.Set.Card
import P2pnas.Store.Lifecycle
import P2pnas.Store.Rows

/-!
# Documents (`service.rs:55-657`)

What the calls mean, without tables: a document belongs to a user, has a path, and is live, in the
trash or set aside as a version. `Meets` states the effect of each call on the documents; a tombstone
key, a stamp column, a chunk or a pack does not occur in it. `docs` reads the documents off a manifest.
-/

namespace P2pnas.Store.Documents
open P2pnas.Lib.Frames P2pnas.Lib.Strings P2pnas.Lib.Tables P2pnas.Core.Base P2pnas.Store.Manifest
open P2pnas.Store.Session P2pnas.Store.Service P2pnas.Store.Packing P2pnas.Store.Operations
open P2pnas.Store.Lifecycle P2pnas.Store.Rows Relation

/-! ### Documents and changes of them -/

inductive Shelf where
  | live
  | trashed (at' : Time)
  | aside (at' : Time)
  deriving DecidableEq, Repr

structure Doc where
  owner : Text
  path : Text
  shelf : Shelf
  size : ℤ
  digest : Option Text
  lineage : Text
  created : Time
  deriving DecidableEq, Repr

/-- The documents by id. -/
abbrev Docs := Text → Option Doc

open Classical in
/-- The documents that `sel` picks are rewritten. -/
noncomputable def changed (sel : Text → Doc → Prop) (set : Doc → Doc) (D : Docs) : Docs :=
  fun f => (D f).map fun d => if sel f d then set d else d

open Classical in
/-- The documents that `sel` picks are gone. -/
noncomputable def removed (sel : Text → Doc → Prop) (D : Docs) : Docs :=
  fun f => (D f).filter fun d => ¬ sel f d

def added (f : Text) (d : Doc) (D : Docs) : Docs := fun g => if g = f then some d else D g

def shelve (s : Shelf) (d : Doc) : Doc := { d with shelf := s }

def moveTo (path : Text) (d : Doc) : Doc := { d with path := path }

/-- The live document that a path of the user names; the containers' paths name none. -/
def At (u path : Text) (d : Doc) : Prop :=
  d.owner = u ∧ d.path = path ∧ d.shelf = .live ∧ notPack path = true

/-- A live document in the folder, as the `LIKE` of the queries has it. -/
def Within (u path : Text) (d : Doc) : Prop :=
  d.owner = u ∧ d.shelf = .live ∧ underPath path d.path = true

def Occupied (D : Docs) (u path : Text) : Prop := ∃ f d, D f = some d ∧ At u path d

/-- The path with its first bytes, as many as `fromPath` has, replaced. -/
def rebase (fromPath toPath : Text) (d : Doc) : Doc :=
  { d with path := toPath ++ (sliceFrom d.path (byteLen fromPath)).getD [] }

/-! ### What retention lets go -/

/-- Versions of one file. -/
def Kin (d e : Doc) : Prop := d.owner = e.owner ∧ d.lineage = e.lineage

/-- `e` under the id `g` is a version after `d` under the id `f`. -/
def After (f : Text) (d : Doc) (g : Text) (e : Doc) : Prop :=
  d.created < e.created ∨ d.created = e.created ∧ textLe g f = false

/-- The versions of the same file after this one. -/
def laterVersions (D : Docs) (f : Text) (d : Doc) : Set Text :=
  {g | ∃ e at', D g = some e ∧ e.shelf = .aside at' ∧ Kin e d ∧ After f d g e}

/-- Out of the trash by age; a version by age, by rank, or since nothing but versions is left. -/
def Expired (D : Docs) (policy : RetentionPolicy) (nowTrash nowVersion : Time) (f : Text) (d : Doc) : Prop :=
  match d.shelf with
  | .live => False
  | .trashed at' => at' < cutoff nowTrash policy.trashDays
  | .aside at' => at' < cutoff nowVersion policy.versionDays ∨
      (max policy.keepVersions 0).toNat ≤ (laterVersions D f d).ncard ∨
      ∀ g e, D g = some e → Kin e d → ∃ at', e.shelf = .aside at'

/-! ### What the calls mean -/

/-- A container that packing writes. -/
structure Container (u m : Text) (now : Time) (d : Doc) : Prop where
  owner : d.owner = u
  path : d.path = packKey m
  shelf : d.shelf = .live
  lineage : d.lineage = m
  created : d.created = now

/-- A new container, under an id that no document had. -/
def Packs (u m : Text) (now : Time) (D D' : Docs) : Prop :=
  ∃ d, Container u m now d ∧ D m = none ∧ D' = added m d D

/-- The lineage of an upload: that of the document at the path, or its own id. -/
def LineageAt (D : Docs) (u path m lineage : Text) : Prop :=
  (∃ f d, D f = some d ∧ At u path d ∧ d.lineage = lineage) ∨ ¬ Occupied D u path ∧ lineage = m

/-- The effect of a call that came through; `hash` is the digest of a content. -/
def Meets (hash : Bytes → Text) : Op → Docs → Docs → Prop
  | .push u path data m now, D, D' =>
    (∃ f d, D f = some d ∧ At u path d ∧ d.size = data.length ∧ d.digest = some (hash data)) ∧ D' = D ∨
    (∀ f d, D f = some d → At u path d → d.size = data.length → d.digest ≠ some (hash data)) ∧
      D m = none ∧ ∃ lineage, LineageAt D u path m lineage ∧
        D' = added m ⟨u, path, .live, data.length, some (hash data), lineage, now⟩
          (changed (fun _ => At u path) (shelve (.aside now)) D)
  | .trash u f now, D, D' =>
    (∃ d, D f = some d ∧ d.owner = u ∧ ∀ at', d.shelf ≠ .aside at') ∧
      D' = changed (fun g d => g = f ∧ d.shelf = .live) (shelve (.trashed now)) D
  | .trashPath u path now, D, D' =>
    Occupied D u (trimMatches slash path) ∧
      D' = changed (fun _ => At u (trimMatches slash path)) (shelve (.trashed now)) D ∨
    ¬ Occupied D u (trimMatches slash path) ∧
      D' = changed (fun _ => Within u (trimMatches slash path)) (shelve (.trashed now)) D
  | .restore u f newPath now, D, D' =>
    ∃ d, D f = some d ∧ d.owner = u ∧ d.shelf ≠ .live ∧ trimMatches slash (newPath.getD d.path) ≠ [] ∧
      D' = added f (moveTo (trimMatches slash (newPath.getD d.path)) (shelve .live d))
        (changed (fun _ => At u (trimMatches slash (newPath.getD d.path))) (shelve (.aside now)) D)
  | .rename u fromPath toPath, D, D' =>
    trimMatches slash fromPath ≠ [] ∧ trimMatches slash toPath ≠ [] ∧
      trimMatches slash fromPath ≠ trimMatches slash toPath ∧
      (Occupied D u (trimMatches slash fromPath) ∧
        D' = changed (fun _ => At u (trimMatches slash fromPath)) (moveTo (trimMatches slash toPath)) D ∨
      ¬ Occupied D u (trimMatches slash fromPath) ∧
        D' = changed (fun _ => Within u (trimMatches slash fromPath))
          (rebase (trimMatches slash fromPath) (trimMatches slash toPath)) D)
  | .mkdir .., D, D' | .setLocation .., D, D' => D' = D
  | .purgeFile u f, D, D' =>
    (∃ d, D f = some d ∧ d.owner = u) ∧ D' = removed (fun g _ => g = f) D
  | .emptyTrash u, D, D' => D' = removed (fun _ d => d.owner = u ∧ ∃ at', d.shelf = .trashed at') D
  | .purgeRetired policy t v, D, D' => D' = removed (Expired D policy t v) D
  | .packFiles u _ m now, D, D' => Packs u m now D D'
  | .compactPack u old _ m now, D, D' =>
    (∃ d, D old = some d ∧ d.owner = u ∧ PACK_PATH_PREFIX <+: d.path) ∧
      (D' = removed (fun g _ => g = old) D ∨
        ∃ D₁, Packs u m now D D₁ ∧ D' = removed (fun g _ => g = old) D₁)
  | .repackSmallFiles u mints now, D, D' => ReflTransGen (fun D D' => ∃ i, Packs u (mints i) now D D') D D'

/-! ### The documents of a manifest -/

/-- The shelf that the stamps of a row encode. -/
def shelfOf (r : FileRec) : Shelf :=
  match r.deletedAt, r.supersededAt with
  | some t, _ => .trashed t
  | none, some t => .aside t
  | none, none => .live

def docOf (r : FileRec) : Doc where
  owner := r.userId
  path := r.view.path
  shelf := shelfOf r
  size := r.size
  digest := r.contentHash
  lineage := r.lineageId
  created := r.createdAt

def docs (db : Db) : Docs := fun f => (rowOf db f).map docOf

section
variable {r : FileRec}

theorem shelfOf_live : shelfOf r = .live ↔ r.live = true := by
  rw [shelfOf, FileRec.live]
  cases r.deletedAt with
  | some t => simp
  | none =>
    cases r.supersededAt with
    | some t => simp
    | none => simp

theorem shelfOf_trashed {t : Time} : shelfOf r = .trashed t ↔ r.deletedAt = some t := by
  rw [shelfOf]
  cases r.deletedAt with
  | some t' => simp
  | none =>
    cases r.supersededAt with
    | some t' => simp
    | none => simp

theorem shelfOf_aside (h : Filed r) {t : Time} : shelfOf r = .aside t ↔ r.supersededAt = some t := by
  have honce := h.once
  rw [shelfOf]
  cases hd : r.deletedAt with
  | some t' =>
    cases hs : r.supersededAt with
    | some t'' =>
      rw [hd, hs] at honce
      exact (honce rfl rfl).elim
    | none => simp
  | none =>
    cases r.supersededAt with
    | some t' => simp
    | none => simp

theorem docOf_path (h : Filed r) (hl : r.live = true) : (docOf r).path = r.path := by
  have hnone := h.current hl
  simp only [docOf, FileRec.view, hnone, Option.getD_none]

theorem at_iff (h : Filed r) {u path : Text} : At u path (docOf r) ↔
    (r.userId = u && r.path = path && r.live && notPack r.path) = true := by
  rw [At, show (docOf r).shelf = shelfOf r from rfl, shelfOf_live]
  by_cases hl : r.live = true
  · rw [docOf_path h hl]
    simp only [docOf, hl, Bool.and_eq_true, decide_eq_true_eq, and_true, true_and]
    constructor
    · rintro ⟨ho, rfl, hn⟩
      exact ⟨⟨ho, rfl⟩, hn⟩
    · rintro ⟨⟨ho, rfl⟩, hn⟩
      exact ⟨ho, rfl, hn⟩
  · simp [hl]

theorem within_iff (h : Filed r) {u path : Text} : Within u path (docOf r) ↔
    (r.userId = u && underPath path r.path && r.live) = true := by
  rw [Within, show (docOf r).shelf = shelfOf r from rfl, shelfOf_live]
  by_cases hl : r.live = true
  · rw [docOf_path h hl]
    simp [docOf, hl]
  · simp [hl]

end

section
variable {db db' : Db} {f : Text}

theorem docs_some {d : Doc} (h : docs db f = some d) : ∃ r ∈ db.files, r.fileId = f ∧ docOf r = d := by
  obtain ⟨r, hr, hd⟩ := Option.map_eq_some_iff.mp h
  obtain ⟨hmem, hid⟩ := rowOf_some hr
  exact ⟨r, hmem, hid, hd⟩

theorem docs_mem {r : FileRec} (h : r ∈ db.files) : docs db r.fileId = some (docOf r) := by
  rw [docs, rowOf_mem h, Option.map_some]

theorem docs_congr (h : db'.files = db.files) : docs db' = docs db := by
  funext f
  rw [docs, docs, rowOf_congr h]

/-- An `UPDATE` that keeps the ids, as a change of documents. -/
theorem docs_update {sel : FileRec → Bool} {set : FileRec → FileRec}
    (hfiles : db'.files = update sel set db.files) (hid : ∀ r, (set r).fileId = r.fileId)
    {sel' : Text → Doc → Prop} {set' : Doc → Doc}
    (hsel : ∀ r ∈ db.files, sel r = true ↔ sel' r.fileId (docOf r))
    (hset : ∀ r ∈ db.files, sel r = true → docOf (set r) = set' (docOf r)) :
    docs db' = changed sel' set' (docs db) := by
  funext f
  rw [docs, rowOf, hfiles, lookup_update_map FileRec.fileId hid, changed, docs, rowOf]
  cases hrow : lookup FileRec.fileId f db.files with
  | none => rfl
  | some r =>
    obtain ⟨hr, rfl⟩ := rowOf_some (show rowOf db f = some r from hrow)
    simp only [Option.map_some]
    by_cases hs : sel r = true
    · rw [if_pos hs, if_pos ((hsel r hr).mp hs), hset r hr hs]
    · rw [if_neg hs, if_neg fun h => hs ((hsel r hr).mpr h)]

/-- An `UPDATE` of columns that are no part of a document. -/
theorem docs_unchanged {sel : FileRec → Bool} {set : FileRec → FileRec}
    (hfiles : db'.files = update sel set db.files) (hid : ∀ r, (set r).fileId = r.fileId)
    (hset : ∀ r, docOf (set r) = docOf r) : docs db' = docs db := by
  funext f
  rw [docs, rowOf, hfiles, lookup_update_map FileRec.fileId hid, docs, rowOf, Option.map_map]
  congr 1
  funext r
  simp only [Function.comp_apply]
  split
  · exact hset r
  · rfl

/-- A `DELETE`, as a removal of documents. -/
theorem docs_filter {sel : FileRec → Bool} (hfiles : db'.files = db.files.filter fun r => !sel r)
    {sel' : Text → Doc → Prop} (hsel : ∀ r ∈ db.files, sel r = true ↔ sel' r.fileId (docOf r)) :
    docs db' = removed sel' (docs db) := by
  funext f
  rw [docs, rowOf, hfiles, lookup_filter FileRec.fileId db.constraints.fileIds, removed, docs, rowOf]
  cases hrow : lookup FileRec.fileId f db.files with
  | none => rfl
  | some r =>
    obtain ⟨hr, rfl⟩ := rowOf_some (show rowOf db f = some r from hrow)
    by_cases hs : sel r = true
    · have h' := (hsel r hr).mp hs
      simp [Option.filter, hs, h']
    · have h' : ¬ sel' r.fileId (docOf r) := fun h => hs ((hsel r hr).mpr h)
      simp [Option.filter, hs, h']

theorem docs_insert {row : FileRow} (h : insertFile db row = some db') :
    docs db row.fileId = none ∧ docs db' = added row.fileId (docOf row.toRec) (docs db) := by
  obtain ⟨hnone, -⟩ := rowOf_insertFile h row.fileId
  refine ⟨by rw [docs, hnone, Option.map_none], funext fun g => ?_⟩
  rw [docs, (rowOf_insertFile h g).2, added, docs]
  split
  · rfl
  · rfl

/-- The lookup by path finds the document that the path names. -/
theorem getFileByPath_at (hfiled : ∀ r ∈ db.files, Filed r) {u path : Text} {v : FileRow}
    (h : getFileByPath db u path = some v) : ∃ r ∈ db.files, At u path (docOf r) ∧ r.view = v := by
  obtain ⟨r, hr, hv⟩ := Option.map_eq_some_iff.mp h
  have hmem := List.mem_of_find?_eq_some hr
  have hsel := List.find?_some hr
  exact ⟨r, hmem, (at_iff (hfiled r hmem)).mpr hsel, hv⟩

theorem getFileByPath_vacant (hfiled : ∀ r ∈ db.files, Filed r) {u path : Text}
    (h : getFileByPath db u path = none) : ¬ Occupied (docs db) u path := by
  rintro ⟨f, d, hd, hat⟩
  obtain ⟨r, hr, -, rfl⟩ := docs_some hd
  exact List.find?_eq_none.mp (Option.map_eq_none_iff.mp h) r hr ((at_iff (hfiled r hr)).mp hat)

theorem occupied_of_mem {u path : Text} {r : FileRec} (hr : r ∈ db.files) (hat : At u path (docOf r)) :
    Occupied (docs db) u path := ⟨r.fileId, docOf r, docs_mem hr, hat⟩

/-- A path names one document. -/
theorem at_unique (hfiled : ∀ r ∈ db.files, Filed r) {u path : Text} {r q : FileRec} (hr : r ∈ db.files)
    (hq : q ∈ db.files) (hat : At u path (docOf r)) (hat' : At u path (docOf q)) : q = r := by
  have hkeys : ∀ x ∈ db.files, At u path (docOf x) → x.pathKey = (u, path) := by
    intro x hx h
    have hb := (at_iff (hfiled x hx)).mp h
    simp only [Bool.and_eq_true, decide_eq_true_eq] at hb
    rw [FileRec.pathKey, hb.1.1.1, hb.1.1.2]
  exact eq_of_key db.constraints.filePaths hq hr ((hkeys q hq hat').trans (hkeys r hr hat).symm)

end

end P2pnas.Store.Documents
