import P2pnas.Core.Sample
import P2pnas.Store.Lifecycle

/-!
# The hidden half of the path column (`manifest.rs:109-147`, `206-217`)

A container sits at `U+0001 pack/<id>`, a retired row at `U+0001 retired/<id>`, and the code
counts on no other path to begin so. Which rows are containers is remembered beside the
manifest: the rows that a packing call inserted. The entry points admit any text as a path,
so the separation holds for the runs whose calls keep out of the hidden names.
-/

namespace P2pnas.Store.HiddenNames
open P2pnas.Lib.Frames P2pnas.Lib.Strings P2pnas.Lib.Tables P2pnas.Lib.Runs P2pnas.Core
open P2pnas.Core.Base P2pnas.Core.Pipeline P2pnas.Store.Manifest P2pnas.Store.Session
open P2pnas.Store.Service P2pnas.Store.Operations P2pnas.Store.Lifecycle Relation

/-! ### The two prefixes -/

theorem isPack_packKey (id : Text) : PACK_PATH_PREFIX.isPrefixOf (packKey id) = true :=
  List.isPrefixOf_iff_prefix.mpr (List.prefix_append _ _)

/-- The SQL test sees at least what the exact one sees. -/
theorem not_isPack_of_notPack {path : Text} (h : notPack path = true) :
    PACK_PATH_PREFIX.isPrefixOf path = false := by
  rw [Bool.eq_false_iff]
  intro hp
  obtain ⟨rest, rfl⟩ := List.isPrefixOf_iff_prefix.mp hp
  rw [notPack, like_append PACK_PATH_PREFIX ['%'] rest (like_any_all rest)] at h
  cases h

theorem notPack_packKey (id : Text) : notPack (packKey id) = false := by
  rw [notPack, packKey, like_append PACK_PATH_PREFIX ['%'] id (like_any_all id)]
  rfl

theorem notPack_retiredKey (f : Text) : notPack (retiredKey f) = true := rfl

theorem packKey_ne_retiredKey (m f : Text) : packKey m ≠ retiredKey f := by
  intro h
  have hn := notPack_packKey m
  rw [h, notPack_retiredKey] at hn
  cases hn

theorem retiredKey_inj {f g : Text} (h : retiredKey f = retiredKey g) : f = g :=
  List.append_cancel_left h

/-! ### Runs that remember the containers -/

/-- The calls that insert through `insert_pack_row`. -/
def Op.packs : Op → Bool
  | .packFiles .. | .compactPack .. | .repackSmallFiles .. => true
  | _ => false

def ids (db : Db) : List Text := db.files.map FileRec.fileId

structure Tagged where
  world : World
  containers : Text → Bool

/-- What the rows of the call are, those that are new and those that were there. -/
def tags (b : Db) (containers : Text → Bool) (o : Op) (f : Text) : Bool :=
  if f ∈ ids b then containers f else Op.packs o

/-- The separation the code counts on. -/
structure Separated (s : Tagged) : Prop where
  visible : ∀ r ∈ s.world.db.files, r.view.isPack = s.containers r.fileId
  sql : ∀ r ∈ s.world.db.files, notPack r.path = !r.view.isPack
  free : ∀ r ∈ s.world.db.files, r.live = true → ∀ c now,
    (retireRow s.world.db r.userId r.fileId c now).isSome = true

/-- A path a row may take: no hidden container name, and no tombstone of another row. -/
def Open (b : Db) (u f path : Text) : Prop :=
  notPack path = true ∧ ∀ q ∈ b.files, q.userId = u → path = retiredKey q.fileId → q.fileId = f

section
variable {K : Type} (P : Prims K) (key : K)

def step (s : Tagged) (a : Op × List Event) : Tagged :=
  let w := Operations.step P key s.world a
  { world := w
    containers := fun f => if f ∈ ids w.db then tags s.world.db s.containers a.1 f else s.containers f }

def start : Tagged := ⟨emptyWorld, fun _ => false⟩

/-- The call on `b` writes no hidden path, takes no container for a file, and mints ids that
name nothing yet. -/
structure KeepsOut (b : Db) (o : Op) : Prop where
  fresh : ∀ row, o.Inserts P row → row.fileId ∉ ids b ∧
    ∀ q ∈ b.files, q.userId = row.userId → q.path ≠ retiredKey row.fileId
  upload : Op.packs o = false → ∀ row, o.Inserts P row → Open b row.userId row.fileId row.path
  trash : ∀ r ∈ b.files, r.live = true → o.Trashes b r → notPack r.path = true
  move : ∀ r ∈ b.files, ∀ path, r.live = true → o.Repaths b r path →
    notPack r.path = true ∧ Open b r.userId r.fileId path
  restore : ∀ r ∈ b.files, ∀ path, r.live = false → o.RestoresTo r path → Open b r.userId r.fileId path

/-! ### One row -/

/-- What a row looks like. -/
def Shaped (container : Bool) (r : FileRec) : Prop :=
  if container then r.live = true ∧ r.path = packKey r.fileId else notPack r.view.path = true

/-- The ids that rows of `u` have during the call. -/
def Known (b : Db) (o : Op) (u g : Text) : Prop :=
  (∃ q ∈ b.files, q.userId = u ∧ q.fileId = g) ∨ ∃ row, o.Inserts P row ∧ row.userId = u ∧ row.fileId = g

/-- A row that the call meets or leaves. -/
structure Good (b : Db) (containers : Text → Bool) (o : Op) (r : FileRec) : Prop where
  filed : Filed r
  shaped : Shaped (tags b containers o r.fileId) r
  known : Known P b o r.userId r.fileId
  apart : ∀ g, Known P b o r.userId g → r.path = retiredKey g → g = r.fileId

end

section
variable {K : Type} {P : Prims K} {b : Db} {containers : Text → Bool} {o : Op} {r q : FileRec}

theorem tags_old (h : r ∈ b.files) : tags b containers o r.fileId = containers r.fileId :=
  if_pos (List.mem_map_of_mem h)

theorem tags_new {f : Text} (h : f ∉ ids b) : tags b containers o f = Op.packs o := if_neg h

/-- A row at a path that is no container's is no container. -/
theorem untagged {c : Bool} (h : Shaped c r) (hn : notPack r.path = true) : c = false := by
  cases c with
  | false => rfl
  | true =>
    obtain ⟨-, hp⟩ := h
    rw [hp, notPack_packKey] at hn
    cases hn

theorem not_live_untagged {c : Bool} (h : Shaped c r) (hl : r.live = false) : c = false := by
  cases c with
  | false => rfl
  | true => exact absurd (h.1.symm.trans hl) (by decide)

/-- A row that stamps and pack columns apart is as another. -/
theorem Good.of_cols (h : Good P b containers o r) (hid : r.fileId = q.fileId)
    (hu : r.userId = q.userId) (hp : r.path = q.path) (hret : r.retiredPath = q.retiredPath)
    (hd : r.deletedAt = q.deletedAt) (hs : r.supersededAt = q.supersededAt) :
    Good P b containers o q := by
  have hlive : r.live = q.live := by rw [FileRec.live, hd, hs, FileRec.live]
  have hview : r.view.path = q.view.path := by
    change r.retiredPath.getD r.path = q.retiredPath.getD q.path
    rw [hret, hp]
  refine ⟨filed_of_cols h.filed hid hp hret hd hs, ?_, ?_, ?_⟩
  · have hsh := h.shaped
    rw [Shaped, hlive, hp, hid, hview] at hsh
    rw [Shaped]
    exact hsh
  · rw [← hid, ← hu]
    exact h.known
  · rw [← hid, ← hu, ← hp]
    exact h.apart

/-- Retiring a file that is no container. -/
theorem Good.retire (h : Good P b containers o r) (hlive : r.live = true) (hn : notPack r.path = true)
    (c : Retire) (now : Time) : Good P b containers o (c.set now r) := by
  have hid := c.set_fileId now r
  have huser : (c.set now r).userId = r.userId := by cases c <;> rfl
  have hpath : (c.set now r).path = retiredKey r.fileId := by cases c <;> rfl
  have hview : (c.set now r).view.path = r.path := by
    have hnone := h.filed.current hlive
    cases c <;> simp only [FileRec.view, Retire.set, hnone, Option.getD_none, Option.getD_some]
  refine ⟨filed_parked hlive c now, ?_, ?_, fun g _ hg => ?_⟩
  · rw [hid, untagged h.shaped hn]
    change notPack (c.set now r).view.path = true
    rw [hview]
    exact hn
  · rw [hid, huser]
    exact h.known
  · rw [hpath] at hg
    rw [hid]
    exact (retiredKey_inj hg).symm

/-- A row that takes an open path. -/
theorem Good.moved (h : Good P b containers o r) (hq : Filed q) (hid : q.fileId = r.fileId)
    (hu : q.userId = r.userId) (hret : q.retiredPath = none) (hopen : Open b r.userId r.fileId q.path)
    (hins : ∀ row, ¬ o.Inserts P row) (hc : tags b containers o r.fileId = false) :
    Good P b containers o q := by
  refine ⟨hq, ?_, ?_, fun g hg hp => ?_⟩
  · rw [hid, hc]
    change notPack (q.retiredPath.getD q.path) = true
    rw [hret]
    exact hopen.1
  · rw [hid, hu]
    exact h.known
  · rw [hid]
    rw [hu] at hg
    rcases hg with ⟨p, hp', hpu, rfl⟩ | ⟨row, hrow, -⟩
    · exact hopen.2 p hp' hpu hp
    · exact absurd hrow (hins row)

theorem inserts_nothing_repath {path : Text} (h : o.Repaths b r path) (row : FileRow) : ¬ o.Inserts P row := by
  intro hrow
  cases o with
  | push u path data mint now => exact h
  | packFiles u entries packId now => exact h
  | compactPack u old survivors new now => exact h
  | repackSmallFiles u mints now => exact h
  | _ => exact hrow

theorem inserts_nothing_restore {path : Text} (h : o.RestoresTo r path) (row : FileRow) :
    ¬ o.Inserts P row := by
  intro hrow
  cases o with
  | push u path data mint now => exact h
  | packFiles u entries packId now => exact h
  | compactPack u old survivors new now => exact h
  | repackSmallFiles u mints now => exact h
  | _ => exact hrow

/-- An inserted row of a packing call is at the key of its id. -/
theorem inserts_packKey (hp : Op.packs o = true) {row : FileRow} (h : o.Inserts P row) :
    row.path = packKey row.fileId := by
  cases o with
  | packFiles u entries packId now =>
    obtain ⟨plain, chunks, rfl⟩ := h
    rfl
  | compactPack u old survivors new now =>
    obtain ⟨plain, chunks, rfl⟩ := h
    rfl
  | repackSmallFiles u mints now =>
    obtain ⟨i, plain, chunks, rfl⟩ := h
    rfl
  | _ => cases hp

/-- No inserted row is at the tombstone of another one. -/
theorem inserts_apart {row row' : FileRow} (h : o.Inserts P row) (h' : o.Inserts P row')
    (hp : row.path = retiredKey row'.fileId) : row'.fileId = row.fileId := by
  cases hc : Op.packs o with
  | true =>
    rw [inserts_packKey hc h] at hp
    exact absurd hp (packKey_ne_retiredKey _ _)
  | false =>
    cases o with
    | push u path data mint now =>
      obtain ⟨_, _, rfl⟩ := h
      obtain ⟨_, _, rfl⟩ := h'
      rfl
    | packFiles u entries packId now => cases hc
    | compactPack u old survivors new now => cases hc
    | repackSmallFiles u mints now => cases hc
    | _ => exact h.elim

theorem Good.inserted (hk : KeepsOut P b o) {row : FileRow} (hrow : o.Inserts P row) :
    Good P b containers o row.toRec := by
  have hnew := (hk.fresh row hrow).1
  refine ⟨filed_current rfl rfl rfl, ?_, .inr ⟨row, hrow, rfl, rfl⟩, fun g hg hp => ?_⟩
  · change Shaped (tags b containers o row.fileId) row.toRec
    rw [tags_new hnew]
    cases hc : Op.packs o with
    | true => exact ⟨rfl, inserts_packKey hc hrow⟩
    | false => exact (hk.upload hc row hrow).1
  · rcases hg with ⟨q, hq, hqu, rfl⟩ | ⟨row', hrow', -, rfl⟩
    · cases hc : Op.packs o with
      | true =>
        refine absurd ?_ (packKey_ne_retiredKey row.fileId q.fileId)
        exact (inserts_packKey hc hrow).symm.trans hp
      | false => exact (hk.upload hc row hrow).2 q hq hqu hp
    · exact inserts_apart hrow hrow' hp

/-! ### A call -/

/-- What one edit keeps of the rows. -/
theorem edit_good {db db' : Db} (hk : KeepsOut P b o) (he : Edit P o b db db')
    (h : ∀ r ∈ db.files, Good P b containers o r) : ∀ q ∈ db'.files, Good P b containers o q := by
  intro q hq
  cases he with
  | insert row hrow hins =>
    rcases insertFile_mem hins hq with hold | rfl
    · exact h q hold
    · exact Good.inserted hk hrow
  | chunk c hins =>
    rw [(insertChunk_some hins).2] at hq
    exact h q hq
  | shard s _ hins =>
    rw [(insertShard_some hins).2] at hq
    exact h q hq
  | trash r now hb hr hlive hsel htrash =>
    rcases retireRow_mem hr htrash hq with hold | rfl
    · exact h q hold
    · exact (h r hr).retire hlive (hk.trash r hb hlive hsel) .deletedAt now
  | restore r path hb hr hlive hsel hrest =>
    rcases restoreFile_mem hr hrest hq with hold | rfl
    · exact h q hold
    · exact (h r hr).moved (filed_current rfl rfl rfl) rfl rfl rfl (hk.restore r hb path hlive hsel)
        (inserts_nothing_restore hsel) (not_live_untagged (h r hr).shaped hlive)
  | repath r path hb hr hlive hsel hmove =>
    rcases updateFilePath_mem hr hmove hq with hold | rfl
    · exact h q hold
    · obtain ⟨hn, hopen⟩ := hk.move r hb path hlive hsel
      have hfiled : Filed { r with path := path } := by
        refine ⟨(h r hr).filed.once, fun hl => ?_, (h r hr).filed.current⟩
        exact absurd (hlive.symm.trans hl) (by decide)
      exact (h r hr).moved hfiled rfl rfl ((h r hr).filed.current hlive) hopen
        (inserts_nothing_repath hsel) (untagged (h r hr).shaped hn)
  | assign u f packId offset len hpack =>
    obtain ⟨r, hr, hid, hu, hp, hret, hd, hs⟩ := assignToPack_mem hpack hq
    exact (h r hr).of_cols hid hu hp hret hd hs
  | delete u f _ => exact h q (List.mem_filter.mp hq).1
  | strip u f => exact h q hq
  | folders hf _ _ _ =>
    rw [hf] at hq
    exact h q hq
  | location frag location => exact h q hq

theorem aside_good {db' : Db} (hset : SetsAside o b db') (h : ∀ r ∈ b.files, Good P b containers o r) :
    ∀ q ∈ db'.files, Good P b containers o q := by
  obtain ⟨r, hr, now, hlive, hsel, hsup⟩ := hset
  have hn : notPack r.path = true := by
    cases o with
    | push u path data mint now => exact hsel.2.2
    | restore u f newPath now => exact hsel.2.2
    | _ => exact hsel.elim
  intro q hq
  rcases retireRow_mem hr hsup hq with hold | rfl
  · exact h q hold
  · exact (h r hr).retire hlive hn .supersededAt now

theorem opStep_good {db' : Db} (hk : KeepsOut P b o) (hstep : OpStep P o b db')
    (h : ∀ r ∈ b.files, Good P b containers o r) : ∀ q ∈ db'.files, Good P b containers o q := by
  obtain ⟨mid, hmid, hrest⟩ := hstep
  have hm : ∀ r ∈ mid.files, Good P b containers o r := by
    rcases hmid with rfl | hset
    · exact h
    · exact aside_good hset h
  induction hrest with
  | refl => exact hm
  | tail _ he ih => exact edit_good hk he ih

end

/-! ### Every run -/

/-- What holds between calls. -/
structure Tidy (s : Tagged) (r : FileRec) : Prop where
  filed : Filed r
  shaped : Shaped (s.containers r.fileId) r
  apart : ∀ q ∈ s.world.db.files, q.userId = r.userId → r.path = retiredKey q.fileId → q.fileId = r.fileId

section
variable {K : Type} {P : Prims K} {key : K} {s : Tagged}

theorem tidy_good {o : Op} (hk : KeepsOut P s.world.db o) {r : FileRec} (hr : r ∈ s.world.db.files)
    (h : Tidy s r) : Good P s.world.db s.containers o r := by
  refine ⟨h.filed, ?_, .inl ⟨r, hr, rfl, rfl⟩, fun g hg hp => ?_⟩
  · rw [tags_old hr]
    exact h.shaped
  · rcases hg with ⟨q, hq, hqu, rfl⟩ | ⟨row, hrow, hu, rfl⟩
    · exact h.apart q hq hqu hp
    · exact absurd hp ((hk.fresh row hrow).2 r hr hu.symm)

/-- What a call that keeps out of the hidden names keeps. -/
theorem step_tidy (a : Op × List Event) (h : ∀ r ∈ s.world.db.files, Tidy s r)
    (hk : KeepsOut P s.world.db a.1) :
    ∀ q ∈ (step P key s a).world.db.files, Tidy (step P key s a) q := by
  have hstep := op_step P key a.1 { s.world with script := a.2 }
  have hgood := opStep_good hk hstep fun r hr => tidy_good hk hr (h r hr)
  intro q hq
  have hg := hgood q hq
  have htag : (step P key s a).containers q.fileId = tags s.world.db s.containers a.1 q.fileId :=
    if_pos (List.mem_map_of_mem hq)
  refine ⟨hg.filed, ?_, fun p hp hpu he => ?_⟩
  · rw [htag]
    exact hg.shaped
  · exact hg.apart p.fileId (hpu ▸ (hgood p hp).known) he

/-- Retiring a row is refused only when another row of its owner is at its tombstone. -/
theorem retireRow_works {db : Db} {r : FileRec} (hr : r ∈ db.files) (c : Retire) (now : Time)
    (h : ∀ q ∈ db.files, q.userId = r.userId → q.path = retiredKey r.fileId → q.fileId = r.fileId) :
    (retireRow db r.userId r.fileId c now).isSome = true := by
  cases hget : c.get r with
  | none =>
    rw [retireRow, updateFiles_isSome hr (retire_iff hr hget)]
    intro q hq hne heq
    have hkey : (c.set now r).pathKey = (r.userId, retiredKey r.fileId) := by cases c <;> rfl
    obtain ⟨hu, hp⟩ := Prod.mk.inj (heq.trans hkey)
    exact hne (eq_of_key db.constraints.fileIds hq hr (h q hq hu hp))
  | some t =>
    -- a row that is retired already is not selected
    have hsel : ∀ q ∈ db.files, (isRow r.userId r.fileId q && (c.get q).isNone) = false := by
      intro q hq
      by_contra hs
      obtain ⟨hrow, hnone⟩ := Bool.and_eq_true_iff.mp (Bool.eq_true_of_not_eq_false hs)
      rw [isRow_eq hr hq hrow, hget] at hnone
      cases hnone
    rw [retireRow, updateFiles, dif_pos (by rw [update_none hsel]; exact db.constraints.filePaths)]
    rfl

theorem tidy_separated (h : ∀ r ∈ s.world.db.files, Tidy s r) : Separated s := by
  have hview : ∀ r ∈ s.world.db.files, r.view.isPack = s.containers r.fileId ∧ notPack r.path = !r.view.isPack := by
    intro r hr
    obtain ⟨hfiled, hshaped, -⟩ := h r hr
    cases hc : s.containers r.fileId with
    | true =>
      rw [hc] at hshaped
      obtain ⟨hlive, hp⟩ := hshaped
      have hpack : r.view.isPack = true := by
        change PACK_PATH_PREFIX.isPrefixOf (r.retiredPath.getD r.path) = true
        rw [hfiled.current hlive, Option.getD_none, hp]
        exact isPack_packKey r.fileId
      rw [hpack, hp, notPack_packKey]
      exact ⟨rfl, rfl⟩
    | false =>
      rw [hc] at hshaped
      have hpack : r.view.isPack = false := not_isPack_of_notPack hshaped
      rw [hpack]
      refine ⟨rfl, ?_⟩
      cases hl : r.live with
      | true =>
        change notPack (r.retiredPath.getD r.path) = true at hshaped
        rw [hfiled.current hl, Option.getD_none] at hshaped
        exact hshaped
      | false =>
        rw [(hfiled.retired hl).1]
        exact notPack_retiredKey r.fileId
  refine ⟨fun r hr => (hview r hr).1, fun r hr => (hview r hr).2, fun r hr _ c now => ?_⟩
  refine retireRow_works hr c now fun q hq hu hp => ?_
  exact ((h q hq).apart r hr hu.symm hp).symm

end

section
variable {K : Type} (P : Prims K) (key : K)

/-- In every run whose calls keep out of the hidden names, whatever fails in them, the state
reached is separated. -/
theorem run_separated (as : List (Op × List Event))
    (h : AllMeet (step P key) (fun s a => KeepsOut P s.world.db a.1) start as) :
    Separated (run (step P key) start as) := by
  apply tidy_separated
  refine run_invariant (I := fun s : Tagged => ∀ r ∈ s.world.db.files, Tidy s r)
    (fun s a hs hk => step_tidy a hs hk) ?_ h
  intro r hr
  cases hr

end

/-- An upload that goes to the trash. -/
def uploadThenTrash : List (Op × List Event) :=
  [(.push ['u'] ['p'] [1, 2, 3] ['m'] 0, []), (.trash ['u'] ['m'] 1, [])]

theorem uploadThenTrash_separated :
    Separated (run (step (Sample.sample []) Sample.Key.node) start uploadThenTrash) := by
  refine run_separated _ _ uploadThenTrash ⟨?_, ?_, trivial⟩
  · refine ⟨?_, ?_, ?_, ?_, ?_⟩
    · rintro row ⟨chunks, lineage, rfl⟩
      exact ⟨List.not_mem_nil, fun q hq => absurd hq List.not_mem_nil⟩
    · rintro - row ⟨chunks, lineage, rfl⟩
      exact ⟨rfl, fun q hq => absurd hq List.not_mem_nil⟩
    · exact fun r _ _ h => h.elim
    · exact fun r _ path _ h => h.elim
    · exact fun r _ path _ h => h.elim
  · have hplain : ∀ r ∈ (step (Sample.sample []) Sample.Key.node start
        (.push ['u'] ['p'] [1, 2, 3] ['m'] 0, [])).world.db.files, notPack r.path = true := by
      decide +kernel
    exact ⟨fun row h => h.elim, fun _ row h => h.elim, fun r hr _ _ => hplain r hr,
      fun r _ path _ h => h.elim, fun r _ path _ h => h.elim⟩

def packNamed : Text := PACK_PATH_PREFIX ++ ['x']

/-- An upload to a path the handler admits, and whose row reads as a container. -/
theorem hidden_upload_not_separated : trim packNamed = packNamed ∧ packNamed ≠ [] ∧
    ¬ Separated (run (step (Sample.sample []) Sample.Key.node) start
      [(.push ['u'] packNamed [1, 2, 3] ['m'] 0, [])]) := by
  refine ⟨by decide, by decide, fun h => ?_⟩
  have hno : ¬ ∀ r ∈ (run (step (Sample.sample []) Sample.Key.node) start
      [(.push ['u'] packNamed [1, 2, 3] ['m'] 0, [])]).world.db.files, r.view.isPack =
        (run (step (Sample.sample []) Sample.Key.node) start
          [(.push ['u'] packNamed [1, 2, 3] ['m'] 0, [])]).containers r.fileId := by decide +kernel
  exact hno h.visible

end P2pnas.Store.HiddenNames
