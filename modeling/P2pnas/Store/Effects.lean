import P2pnas.Lib.Atomic
import P2pnas.Store.Documents
import P2pnas.Store.Renaming
import P2pnas.Store.Retention
import P2pnas.Store.Shifts

/-!
# The effect of each call (`service.rs:55-657`, `800-1200`)

Every call, whatever fails in it, has its whole effect on the documents or none, and has it when it
returns a value. A transaction that does not commit leaves the manifest alone; what a call does after
its transaction touches no row.
-/

namespace P2pnas.Store.Effects
open P2pnas.Lib.Frames P2pnas.Lib.Strings P2pnas.Lib.Tables P2pnas.Lib.Runs P2pnas.Lib.Atomic
open P2pnas.Core P2pnas.Core.Base P2pnas.Core.Pipeline P2pnas.Store.Manifest P2pnas.Store.Session
open P2pnas.Store.Reading P2pnas.Store.Service P2pnas.Store.Packing P2pnas.Store.Operations
open P2pnas.Store.Lifecycle P2pnas.Store.Rows P2pnas.Store.Documents P2pnas.Store.Subtree
open P2pnas.Store.Renaming P2pnas.Store.Undelete P2pnas.Store.Retention P2pnas.Store.Shifts Relation

/-! ### Effects of calls -/

section
variable {α β : Type} {R : Docs → Docs → Prop} {w : World}

/-- A call that ended so had the effect, or gave no value and changed no document. -/
def Effect (R : Docs → Docs → Prop) (w : World) (res : Outcome StoreError α × World) : Prop :=
  R (docs w.db) (docs res.2.db) ∨ res.1.isOk = false ∧ docs res.2.db = docs w.db

theorem db_frame : Frame fun w w' : World => w'.db = w.db := ⟨fun _ _ => rfl, fun _ _ _ h h' => h'.trans h⟩

/-- What leaves the manifest alone before a call does not matter. -/
theorem effect_bind {x : Svc α} {g : α → Svc β} (hx : Moves (fun w w' => w'.db = w.db) x)
    (hg : ∀ a w₁, x w = (.ok a, w₁) → Effect R w₁ (g a w₁)) : Effect R w ((x >>= g) w) := by
  have hdb := hx w
  rcases bind_cases x g w with ⟨e, w₁, h, hb⟩ | ⟨a, w₁, h, hb⟩
  · rw [hb]
    rw [h] at hdb
    exact .inr ⟨rfl, congrArg docs hdb⟩
  · rw [hb]
    rw [h] at hdb
    have hdb₁ : w₁.db = w.db := hdb
    have heff := hg a w₁ h
    rw [Effect, hdb₁] at heff
    exact heff

theorem effect_query_bind {q : Db → α} {g : α → Svc β}
    (hg : ∀ w₁, w₁.db = w.db → Effect R w₁ (g (q w.db) w₁)) : Effect R w ((query q >>= g) w) := by
  refine effect_bind (moves_query db_frame q) fun a w₁ h => ?_
  obtain ⟨rfl, hdb, -⟩ := query_ok h
  exact hg w₁ hdb

/-- A call and what follows it without touching the manifest. -/
theorem effect_then {x : Svc α} {g : α → Svc β} (hx : Effect R w (x w))
    (hg : ∀ a, Moves (fun w w' => w'.db = w.db) (g a)) : Effect R w ((x >>= g) w) := by
  rcases bind_cases x g w with ⟨e, w₁, h, hb⟩ | ⟨a, w₁, h, hb⟩
  · rw [hb]
    rw [h] at hx
    exact hx.imp_right fun h => ⟨rfl, h.2⟩
  · rw [hb]
    rw [h] at hx
    have hdb : (g a w₁).2.db = w₁.db := hg a w₁
    rcases hx with hx | ⟨hno, -⟩
    · exact .inl (by rw [hdb]; exact hx)
    · cases hno

theorem effect_stmt {f : Db → Option Db} (h : ∀ db', f w.db = some db' → R (docs w.db) (docs db')) :
    Effect R w (stmt f w) := by
  cases hx : stmt f w with
  | mk r w' =>
    cases r with
    | error e => exact .inr ⟨rfl, congrArg docs (stmt_error hx).1⟩
    | ok _ => exact .inl (h w'.db (stmt_ok hx).1)

theorem effect_transaction {body : Svc α}
    (h : ∀ a w', body w = (.ok a, w') → R (docs w.db) (docs w'.db)) : Effect R w (transaction body w) := by
  cases hx : transaction body w with
  | mk r w' =>
    cases r with
    | error e => exact .inr ⟨rfl, congrArg docs (transaction_error hx)⟩
    | ok a =>
      obtain ⟨w₁, hb, hdb, -⟩ := transaction_ok hx
      exact .inl (by rw [show (Except.ok a, w').2.db = w₁.db from hdb]; exact h a w₁ hb)

theorem effect_pure {a : α} (h : R (docs w.db) (docs w.db)) : Effect R w ((pure a : Svc α) w) := .inl h

theorem effect_error (e : StoreError) : Effect R w ((throwErr e : Svc α) w) := .inr ⟨rfl, rfl⟩

theorem moves_purgeLocal (frags : List RemoteShard) :
    Moves (fun w w' => w'.db = w.db) (purgeLocalCollectRemote frags) := by
  refine moves_bind db_frame (moves_collect db_frame fun s _ w => ?_) fun _ => moves_pure db_frame _
  unfold storeDelete
  split
  · split
    · rfl
    · rfl
  · rfl

end

/-! ### Rows and documents -/

section
variable {db db' : Db} {u f : Text}

/-- The rows of the manifest each agree with one state. -/
def AllFiled (db : Db) : Prop := ∀ r ∈ db.files, Filed r

/-- The shelf that a stamp column stands for. -/
def shelfFor (now : Time) : Retire → Shelf
  | .deletedAt => .trashed now
  | .supersededAt => .aside now

/-- Retiring a live row puts its document on another shelf. -/
theorem docOf_retire {r : FileRec} (h : Filed r) (hl : r.live = true) (c : Retire) (now : Time) :
    docOf (c.set now r) = shelve (shelfFor now c) (docOf r) := by
  obtain ⟨hd, hs⟩ := live_stamps hl
  have hnone := h.current hl
  cases c with
  | deletedAt =>
    simp [docOf, shelve, shelfFor, shelfOf, Retire.set, FileRec.view, FileRec.lineageId, hnone]
  | supersededAt =>
    simp [docOf, shelve, shelfFor, shelfOf, Retire.set, FileRec.view, FileRec.lineageId, hnone, hd]

/-- The row at a path steps onto another shelf. -/
theorem docs_retireAt (hfiled : AllFiled db) {path : Text} {v : FileRow} {c : Retire} {now : Time}
    (hfind : getFileByPath db u path = some v) (h : retireRow db u v.fileId c now = some db') :
    docs db' = changed (fun _ => At u path) (shelve (shelfFor now c)) (docs db) := by
  obtain ⟨r, hr, hat, rfl⟩ := getFileByPath_at hfiled hfind
  have hl : r.live = true := shelfOf_live.mp hat.2.2.1
  have hstamp : (c.get r).isNone = true := by
    obtain ⟨hd, hs⟩ := live_stamps hl
    cases c with
    | deletedAt => rw [Retire.get, hd, Option.isNone_none]
    | supersededAt => rw [Retire.get, hs, Option.isNone_none]
  have hpick : ∀ q ∈ db.files, (isRow u r.view.fileId q && (c.get q).isNone) = true ↔ q = r := by
    intro q hq
    rw [← hat.1]
    exact retire_iff hr (Option.isNone_iff_eq_none.mp hstamp) q hq
  rw [retireRow] at h
  refine docs_update (by rw [updateFiles_some h]) (c.set_fileId now) (fun q hq => ?_) fun q hq hs => ?_
  · rw [hpick q hq]
    constructor
    · rintro rfl
      exact hat
    · exact at_unique hfiled hr hq hat
  · obtain rfl := (hpick q hq).mp hs
    exact docOf_retire (hfiled q hq) hl c now

/-- What stands at the path steps aside, if anything does. -/
theorem docs_stepAside (hfiled : AllFiled db) {path : Text} {now : Time}
    (h : stepAside db u (getFileByPath db u path) now = some db') :
    docs db' = changed (fun _ => At u path) (shelve (.aside now)) (docs db) := by
  cases hfind : getFileByPath db u path with
  | some v =>
    rw [hfind] at h
    exact docs_retireAt (c := .supersededAt) hfiled hfind h
  | none =>
    rw [hfind] at h
    obtain rfl := Option.some.inj h
    have hvacant := getFileByPath_vacant hfiled hfind
    funext f
    rw [changed]
    cases hd : docs db f with
    | none => rfl
    | some d => rw [Option.map_some, if_neg fun hat => hvacant ⟨f, d, hd, hat⟩]

/-- The lineage that an upload takes over. -/
theorem lineage_at (hfiled : AllFiled db) {path m : Text} : LineageAt (docs db) u path m
    (((getFileByPath db u path).map FileRow.lineage).getD m) := by
  cases hfind : getFileByPath db u path with
  | some v =>
    obtain ⟨r, hr, hat, rfl⟩ := getFileByPath_at hfiled hfind
    exact .inl ⟨r.fileId, docOf r, docs_mem hr, hat, rfl⟩
  | none => exact .inr ⟨getFileByPath_vacant hfiled hfind, rfl⟩

end

/-! ### Upload -/

section
variable {K : Type} {P : Prims K} {key : K} {w w' : World} {u path m : Text} {data : Bytes} {now : Time}

theorem supersedeOpt_stepped {row : Option FileRow} (h : supersedeOpt u row now w = (.ok (), w')) :
    stepAside w.db u row now = some w'.db := by
  cases row with
  | none =>
    obtain ⟨-, rfl⟩ := pure_ok h
    rfl
  | some p =>
    have hstmt : stmt (supersedeFile · u p.fileId now) w = (.ok (), w') := h
    exact (stmt_ok hstmt).1

theorem pushTx_docs {chunks : List ProcessedChunk} {res : PushResult} (hfiled : AllFiled w.db)
    (h : pushTx P u path m data now chunks w = (.ok res, w')) :
    docs w.db m = none ∧ ∃ lineage, LineageAt (docs w.db) u path m lineage ∧
      docs w'.db = added m ⟨u, path, .live, data.length, some (blake3Hex P data), lineage, now⟩
        (changed (fun _ => At u path) (shelve (.aside now)) (docs w.db)) := by
  rw [pushTx] at h
  obtain ⟨prev, wa, hq, h₁⟩ := bind_ok h
  obtain ⟨rfl, hdba, -⟩ := query_ok hq
  obtain ⟨_, wb, hside, h₂⟩ := bind_ok h₁
  obtain ⟨_, wc, hins, h₃⟩ := bind_ok h₂
  obtain ⟨_, wd, hwr, h₄⟩ := bind_ok h₃
  obtain ⟨-, rfl⟩ := pure_ok h₄
  have hstep := supersedeOpt_stepped hside
  rw [hdba] at hstep
  have hmid := docs_stepAside hfiled hstep
  obtain ⟨hins, -⟩ := stmt_ok hins
  obtain ⟨hnone, hnew⟩ := docs_insert hins
  have hrows : w'.db.files = wc.db.files := by
    have hmoves : (writeChunkRows P m chunks wc).2.db.files = wc.db.files := writeChunkRows_files m chunks wc
    rw [hwr] at hmoves
    exact hmoves
  rw [hmid] at hnone hnew
  refine ⟨?_, _, lineage_at hfiled, ?_⟩
  · exact Option.map_eq_none_iff.mp hnone
  · rw [docs_congr hrows, hnew]
    rfl

theorem push_effect (hfiled : AllFiled w.db) :
    Effect (Meets (blake3Hex P) (.push u path data m now)) w (push P key u path data m now w) := by
  rw [push]
  refine effect_query_bind fun w₁ hdb => ?_
  cases hsame : (getFileByPath w.db u path).filter (sameContent P · data) with
  | some v =>
    obtain ⟨hfind, hcontent⟩ := Option.filter_eq_some_iff.mp hsame
    obtain ⟨r, hr, hat, rfl⟩ := getFileByPath_at hfiled hfind
    simp only [sameContent, Bool.and_eq_true, decide_eq_true_eq] at hcontent
    rw [← hdb] at hr
    exact effect_pure (.inl ⟨⟨r.fileId, docOf r, docs_mem hr, hat, hcontent.1, hcontent.2⟩, rfl⟩)
  | none =>
    have hother : ∀ f d, docs w.db f = some d → At u path d → d.size = data.length →
        d.digest ≠ some (blake3Hex P data) := by
      intro f d hd hat hsize hdigest
      obtain ⟨r, hr, -, rfl⟩ := docs_some hd
      cases hfind : getFileByPath w.db u path with
      | none => exact getFileByPath_vacant hfiled hfind ⟨f, docOf r, hd, hat⟩
      | some v =>
        obtain ⟨q, hq, hatq, rfl⟩ := getFileByPath_at hfiled hfind
        obtain rfl := at_unique hfiled hr hq hat hatq
        have hkeep : sameContent P q.view data = true := by
          simp only [sameContent, Bool.and_eq_true, decide_eq_true_eq]
          exact ⟨hsize, hdigest⟩
        rw [hfind, Option.filter_some, if_pos hkeep] at hsame
        cases hsame
    rw [← hdb] at hfiled hother
    change Effect _ w₁ (pushNew P key u path data m now w₁)
    rw [pushNew]
    refine effect_bind (moves_outcome db_frame _) fun chunks w₂ ho => ?_
    obtain ⟨-, rfl⟩ := ofOutcome_ok ho
    exact effect_transaction fun res w' hbody => .inr ⟨hother, pushTx_docs hfiled hbody⟩

end

/-! ### The trash, restore and rename -/

section
variable {w w' : World} {u f path : Text} {now : Time} {hash : Bytes → Text}

theorem changed_none {D : Docs} {sel : Text → Doc → Prop} (set : Doc → Doc)
    (h : ∀ f d, D f = some d → ¬ sel f d) : changed sel set D = D := by
  funext f
  rw [changed]
  cases hd : D f with
  | none => rfl
  | some d => rw [Option.map_some, if_neg (h f d hd)]

theorem trash_effect (hfiled : AllFiled w.db) :
    Effect (Meets hash (.trash u f now)) w (Service.trash u f now w) := by
  rw [Service.trash]
  refine effect_query_bind fun w₁ hdb => ?_
  refine effect_bind (moves_outcome db_frame _) fun file w₂ ho => ?_
  obtain ⟨hrow, rfl⟩ := orThrow_ok ho
  obtain ⟨r, hr, rfl, rfl, rfl⟩ := mem_of_isRow hrow
  rw [← hdb] at hr hfiled
  have hdoc := docs_mem hr
  by_cases hdel : r.view.deletedAt.isSome = true
  · rw [if_pos hdel]
    have hshelf : ∃ t, (docOf r).shelf = .trashed t := by
      obtain ⟨t, ht⟩ := Option.isSome_iff_exists.mp hdel
      exact ⟨t, shelfOf_trashed.mpr ht⟩
    obtain ⟨t, ht⟩ := hshelf
    refine effect_pure ⟨⟨docOf r, hdoc, rfl, fun t' => by rw [ht]; simp⟩, ?_⟩
    refine (changed_none _ ?_).symm
    rintro g d hd ⟨rfl, hlive⟩
    rw [hdoc] at hd
    obtain rfl := Option.some.inj hd
    rw [ht] at hlive
    cases hlive
  · rw [if_neg hdel]
    by_cases hsup : r.view.supersededAt.isSome = true
    · rw [if_pos hsup]
      exact effect_error _
    · rw [if_neg hsup]
      have hl : r.live = true := by
        rw [Bool.not_eq_true, Option.isSome_eq_false_iff] at hdel hsup
        rw [FileRec.live, show r.deletedAt.isNone = true from hdel, show r.supersededAt.isNone = true from hsup]
        rfl
      refine effect_then (effect_stmt fun db' h => ⟨⟨docOf r, hdoc, rfl, fun t' => ?_⟩, ?_⟩) fun _ =>
        moves_bind db_frame (moves_query db_frame _) fun _ => moves_outcome db_frame _
      · rw [show (docOf r).shelf = shelfOf r from rfl, shelfOf_live.mpr hl]
        simp
      · rw [trashFile, retireRow] at h
        have hpick := retire_iff (c := .deletedAt) hr (live_stamps hl).1
        refine docs_update (by rw [updateFiles_some h]) (Retire.deletedAt.set_fileId now) (fun q hq => ?_)
          fun q hq hs => ?_
        · rw [hpick q hq]
          constructor
          · rintro rfl
            exact ⟨rfl, shelfOf_live.mpr hl⟩
          · rintro ⟨hid, -⟩
            exact eq_of_key w₂.db.constraints.fileIds hq hr hid
        · obtain rfl := (hpick q hq).mp hs
          exact docOf_retire (hfiled q hq) hl .deletedAt now

theorem trashPath_effect (hfiled : AllFiled w.db) :
    Effect (Meets hash (.trashPath u path now)) w (trashPath u path now w) := by
  cases hfind : getFileByPath w.db u (trimMatches slash path) with
  | some v =>
    rw [trashPath]
    refine effect_transaction fun s w' h => .inl ⟨?_, ?_⟩
    · obtain ⟨r, hr, hat, -⟩ := getFileByPath_at hfiled hfind
      exact occupied_of_mem hr hat
    · obtain ⟨file, w₁, hq, h₁⟩ := bind_ok h
      obtain ⟨rfl, hdb, -⟩ := query_ok hq
      rw [hfind] at h₁
      obtain ⟨_, w₂, hs, h₂⟩ := bind_ok h₁
      obtain ⟨-, rfl⟩ := pure_ok h₂
      obtain ⟨hs, -⟩ := stmt_ok hs
      rw [hdb] at hs
      exact docs_retireAt (c := .deletedAt) hfiled hfind hs
  | none =>
    cases hx : trashPath u path now w with
    | mk res w' =>
      cases res with
      | error e => exact .inr ⟨rfl, congrArg docs (transaction_error hx)⟩
      | ok s =>
        have htab := trashPath_ok hfind hx
        refine .inl (.inr ⟨getFileByPath_vacant hfiled hfind, ?_⟩)
        refine docs_update (by rw [htab]) (Retire.deletedAt.set_fileId now) (fun q hq => ?_) fun q hq hs => ?_
        · rw [within_iff (hfiled q hq), fileSelected]
        · have hl : q.live = true := by
            simp only [fileSelected, Bool.and_eq_true] at hs
            exact hs.2
          exact docOf_retire (hfiled q hq) hl .deletedAt now

theorem restoreFile_docs {db db' : Db} {r : FileRec} (hr : r ∈ db.files)
    (h : restoreFile db r.userId r.fileId path = some db') :
    docs db' = added r.fileId (moveTo path (shelve .live (docOf r))) (docs db) := by
  funext g
  rw [restoreFile] at h
  rw [docs, rowOf_updateFiles h (rowOf_mem hr) rfl g, added, docs]
  by_cases hg : g = r.fileId
  · rw [if_pos hg, if_pos hg]
    rfl
  · rw [if_neg hg, if_neg hg]

theorem restoreTx_docs {newPath : Option Text} (hfiled : AllFiled w.db)
    (h : restoreTx u f newPath now w = (.ok (), w')) :
    Meets hash (.restore u f newPath now) (docs w.db) (docs w'.db) := by
  rw [restoreTx] at h
  obtain ⟨row, wa, hq, h₁⟩ := bind_ok h
  obtain ⟨rfl, hdba, -⟩ := query_ok hq
  obtain ⟨file, wb, hfile, h₂⟩ := bind_ok h₁
  obtain ⟨hrow, rfl⟩ := orThrow_ok hfile
  obtain ⟨r, hr, rfl, rfl, rfl⟩ := mem_of_isRow hrow
  rw [← hdba] at hfiled ⊢
  rw [← hdba] at hr
  cases hlive : r.view.isLive with
  | true =>
    rw [hlive, if_pos rfl] at h₂
    cases h₂
  | false =>
    rw [hlive, if_neg Bool.false_ne_true] at h₂
    split at h₂
    · cases h₂
    · next hne =>
      obtain ⟨current, wc, hcur, h₃⟩ := bind_ok h₂
      obtain ⟨rfl, hdbc, -⟩ := query_ok hcur
      obtain ⟨_, wd, hside, h₄⟩ := bind_ok h₃
      obtain ⟨_, we, hfold, h₅⟩ := bind_ok h₄
      obtain ⟨hrest, -⟩ := stmt_ok h₅
      have hdead : r.live = false := hlive
      -- the row itself is not live, so the lookup by path never finds it
      have hcurrent : ∀ p, (getFileByPath wb.db r.userId p).filter
          (fun c => decide (c.fileId ≠ r.view.fileId)) = getFileByPath wb.db r.userId p := by
        intro p
        cases hfind : getFileByPath wb.db r.userId p with
        | none => rfl
        | some v =>
          refine Option.filter_some_pos (decide_eq_true ?_)
          rintro hid
          obtain ⟨q, hq, hat, rfl⟩ := getFileByPath_at hfiled hfind
          obtain rfl := eq_of_key wb.db.constraints.fileIds hq hr hid
          rw [shelfOf_live.mp hat.2.2.1] at hdead
          cases hdead
      have hstep := supersedeOpt_stepped hside
      rw [hdbc, hcurrent] at hstep
      have hmid := docs_stepAside hfiled hstep
      have hfiles : we.db.files = wd.db.files := insertFolderSvc_files hfold
      have hnotAt : ∀ p, ¬ At r.userId p (docOf r) := by
        rintro p ⟨-, -, hs, -⟩
        rw [shelfOf_live.mp hs] at hdead
        cases hdead
      have hkept : docs we.db r.fileId = some (docOf r) := by
        rw [docs_congr hfiles, hmid, changed, docs_mem hr, Option.map_some, if_neg (hnotAt _)]
      obtain ⟨q, hq, hid, hdoc⟩ := docs_some hkept
      have hrest' : restoreFile we.db q.userId q.fileId
          (trimMatches slash (newPath.getD r.view.path)) = some w'.db := by
        rw [show q.userId = r.userId from congrArg Doc.owner hdoc, hid]
        exact hrest
      refine ⟨docOf r, docs_mem hr, rfl, ?_, ?_, ?_⟩
      · intro hs
        rw [shelfOf_live.mp hs] at hdead
        cases hdead
      · intro hnil
        exact hne (by rw [List.isEmpty_iff]; exact hnil)
      · have hback := restoreFile_docs hq hrest'
        rw [hid, hdoc, docs_congr hfiles, hmid] at hback
        exact hback

theorem restore_effect {newPath : Option Text} (hfiled : AllFiled w.db) :
    Effect (Meets hash (.restore u f newPath now)) w (Service.restore u f newPath now w) := by
  rw [Service.restore]
  refine effect_then (effect_transaction fun _ w' h => restoreTx_docs hfiled h) fun _ =>
    moves_bind db_frame (moves_query db_frame _) fun _ => moves_outcome db_frame _

/-- A row moved within the folders of its user. -/
theorem docOf_refiled {fromPath toPath : Text} {r : FileRec} (h : Filed r) (hl : r.live = true)
    (hsome : (rebasedAt fromPath toPath r.path).isSome = true) :
    docOf (refiled fromPath toPath r) = rebase fromPath toPath (docOf r) := by
  have hnone := h.current hl
  rw [rebasedAt, Option.isSome_map] at hsome
  obtain ⟨s, hs⟩ := Option.isSome_iff_exists.mp hsome
  simp [docOf, refiled, rebase, rebasedAt, FileRec.view, FileRec.lineageId, shelfOf, hnone, hs]

theorem renameTx_docs {fromPath toPath : Text} (hfiled : AllFiled w.db)
    (h : (do
      insertFolderSvc u (dirname toPath)
      let file ← query (getFileByPath · u fromPath)
      match file with
      | some file => stmt (updateFilePath · u file.fileId toPath)
      | none => renameSubtree u fromPath toPath : Svc Unit) w = (.ok (), w')) :
    Occupied (docs w.db) u fromPath ∧
        docs w'.db = changed (fun _ => At u fromPath) (moveTo toPath) (docs w.db) ∨
      ¬ Occupied (docs w.db) u fromPath ∧
        docs w'.db = changed (fun _ => Within u fromPath) (rebase fromPath toPath) (docs w.db) := by
  obtain ⟨_, w₁, hins, h₁⟩ := bind_ok h
  have hfiles : w₁.db.files = w.db.files := insertFolderSvc_files hins
  have hfiled₁ : AllFiled w₁.db := by
    rw [AllFiled, hfiles]
    exact hfiled
  rw [← docs_congr hfiles]
  obtain ⟨file, w₂, hq, h₂⟩ := bind_ok h₁
  obtain ⟨rfl, hdb, -⟩ := query_ok hq
  cases hfind : getFileByPath w₁.db u fromPath with
  | some v =>
    rw [hfind] at h₂
    obtain ⟨r, hr, hat, rfl⟩ := getFileByPath_at hfiled₁ hfind
    refine .inl ⟨occupied_of_mem hr hat, ?_⟩
    obtain ⟨hs, -⟩ := stmt_ok h₂
    rw [updateFilePath, hdb] at hs
    have hl : r.live = true := shelfOf_live.mp hat.2.2.1
    have hpick : ∀ q ∈ w₁.db.files, isRow u r.view.fileId q = true ↔ q = r := by
      rw [← hat.1]
      exact isRow_iff_eq hr
    have hrows : w'.db.files = update (isRow u r.view.fileId) (fun q => { q with path := toPath })
        w₁.db.files := congrArg Tables.files (updateFiles_some hs)
    refine docs_update hrows (fun _ => rfl) (fun q hq => ?_) fun q hq hsel => ?_
    · rw [hpick q hq]
      constructor
      · rintro rfl
        exact hat
      · exact at_unique hfiled₁ hr hq hat
    · obtain rfl := (hpick q hq).mp hsel
      have hnone := (hfiled₁ q hq).current hl
      simp [docOf, moveTo, FileRec.view, FileRec.lineageId, shelfOf, hnone]
  | none =>
    rw [hfind] at h₂
    have hsub : renameSubtree u fromPath toPath w₂ = (.ok (), w') := h₂
    obtain ⟨⟨hslice, -⟩, htab⟩ := renameSubtree_ok hsub
    rw [hdb] at hslice htab
    refine .inr ⟨getFileByPath_vacant hfiled₁ hfind, ?_⟩
    have hrows : w'.db.files = update (fileSelected u fromPath) (refiled fromPath toPath) w₁.db.files :=
      congrArg Tables.files htab
    refine docs_update hrows (fun _ => rfl) (fun q hq => ?_) fun q hq hsel => ?_
    · rw [within_iff (hfiled₁ q hq), fileSelected]
    · have hl : q.live = true := by
        simp only [fileSelected, Bool.and_eq_true] at hsel
        exact hsel.2
      exact docOf_refiled (hfiled₁ q hq) hl (hslice q hq hsel)

theorem rename_effect {fromPath toPath : Text} (hfiled : AllFiled w.db) :
    Effect (Meets hash (.rename u fromPath toPath)) w (rename u fromPath toPath w) := by
  by_cases hgo : ((trimMatches slash fromPath).isEmpty || (trimMatches slash toPath).isEmpty ||
      trimMatches slash fromPath == trimMatches slash toPath) = true
  · have hno : rename u fromPath toPath = throwErr .notFound := if_pos hgo
    rw [hno]
    exact effect_error _
  · have hgo' := hgo
    simp only [Bool.or_eq_true, List.isEmpty_iff, beq_iff_eq, not_or] at hgo'
    rw [renames_eq hgo]
    exact effect_transaction fun _ w' h => ⟨hgo'.1.1, hgo'.1.2, hgo'.2, renameTx_docs hfiled h⟩

end

/-! ### Destroying rows -/

section
variable {w w' : World} {u f : Text} {hash : Bytes → Text}

/-- The rows that are left when each of these is destroyed. -/
theorem purgeRows_files {α : Type} (user id : α → Text) {as : List α} {frags : List (List RemoteShard)}
    (h : collect (fun a => purgeFileRow (user a) (id a)) as w = (.ok frags, w')) :
    w'.db.files = w.db.files.filter fun r => !as.any fun a => isRow (user a) (id a) r := by
  induction as generalizing w frags with
  | nil =>
    obtain ⟨-, rfl⟩ := pure_ok h
    simp
  | cons a as ih =>
    obtain ⟨_, w₁, _, h₁, h₂, -⟩ := collect_cons_ok h
    obtain ⟨_, w₂, hq, h₃⟩ := bind_ok h₁
    obtain ⟨-, hdb, -⟩ := query_ok hq
    obtain ⟨_, w₃, hs, h₄⟩ := bind_ok h₃
    obtain ⟨-, rfl⟩ := pure_ok h₄
    obtain ⟨hdel, -⟩ := stmt_ok hs
    have hfiles : w₁.db.files = w.db.files.filter fun r => !isRow (user a) (id a) r := by
      rw [← Option.some.inj hdel, hdb]
      rfl
    rw [ih h₂, hfiles, List.filter_filter]
    apply List.filter_congr
    intro r _
    rw [List.any_cons, Bool.not_or, Bool.and_comm]

theorem purgeFile_effect : Effect (Meets hash (.purgeFile u f)) w (purgeFile u f w) := by
  rw [purgeFile]
  refine effect_query_bind fun w₁ hdb => ?_
  refine effect_bind (moves_outcome db_frame _) fun file w₂ ho => ?_
  obtain ⟨hrow, rfl⟩ := orThrow_ok ho
  obtain ⟨r, hr, rfl, rfl, -⟩ := mem_of_isRow hrow
  rw [← hdb] at hr
  refine effect_then ?_ fun frags => moves_bind db_frame (moves_purgeLocal frags) fun _ => moves_pure db_frame _
  rw [purgeFileRow]
  refine effect_query_bind fun w₃ hdb₃ => ?_
  rw [← hdb₃] at hr
  refine effect_then (effect_stmt fun db' h => ⟨⟨docOf r, docs_mem hr, rfl⟩, ?_⟩) fun _ => moves_pure db_frame _
  obtain rfl := Option.some.inj h
  refine docs_filter rfl fun q hq => ?_
  rw [isRow_iff_eq hr q hq]
  constructor
  · rintro rfl
    rfl
  · exact eq_of_key w₃.db.constraints.fileIds hq hr

theorem emptyTrash_effect (hfiled : AllFiled w.db) : Effect (Meets hash (.emptyTrash u)) w (emptyTrash u w) := by
  rw [emptyTrash]
  refine effect_then (effect_transaction fun r w' h => ?_) fun r =>
    moves_bind db_frame (moves_purgeLocal r.2) fun _ => moves_pure db_frame _
  rw [emptyTrashTx] at h
  obtain ⟨rows, w₁, hq, h₁⟩ := bind_ok h
  obtain ⟨rfl, hdb, -⟩ := query_ok hq
  obtain ⟨frags, w₂, hall, h₂⟩ := bind_ok h₁
  obtain ⟨-, rfl⟩ := pure_ok h₂
  have hfiles := purgeRows_files (fun _ => u) FileRow.fileId hall
  rw [hdb] at hfiles
  refine docs_filter hfiles fun q hq => ?_
  rw [List.any_eq_true]
  constructor
  · rintro ⟨v, hv, hrow⟩
    rw [isRow, Bool.and_eq_true, decide_eq_true_eq, decide_eq_true_eq] at hrow
    rw [listTrashed, List.mem_insertionSort, List.mem_map] at hv
    obtain ⟨x, hx, rfl⟩ := hv
    obtain ⟨hx, hsel⟩ := List.mem_filter.mp hx
    obtain rfl := eq_of_key w.db.constraints.fileIds hq hx hrow.2
    simp only [Bool.and_eq_true] at hsel
    obtain ⟨t, ht⟩ := Option.isSome_iff_exists.mp hsel.1.2
    exact ⟨hrow.1, t, shelfOf_trashed.mpr ht⟩
  · rintro ⟨ho, t, ht⟩
    have hdel : q.deletedAt = some t := shelfOf_trashed.mp ht
    have hdead : q.live = false := by
      rw [FileRec.live, hdel]
      rfl
    -- a row in the trash stands on its tombstone key, which is no container's
    have hshown : notPack q.path = true := by
      rw [((hfiled q hq).retired hdead).1]
      rfl
    refine ⟨q.view, ?_, ?_⟩
    · rw [listTrashed, List.mem_insertionSort, List.mem_map]
      refine ⟨q, List.mem_filter.mpr ⟨hq, ?_⟩, rfl⟩
      simp only [Bool.and_eq_true, decide_eq_true_eq]
      exact ⟨⟨ho, by rw [hdel, Option.isSome_some]⟩, hshown⟩
    · rw [isRow, Bool.and_eq_true, decide_eq_true_eq, decide_eq_true_eq]
      exact ⟨ho, rfl⟩

/-- Rank among the versions of a file, counted on rows and on documents. -/
theorem rowNumber_eq {db : Db} (hfiled : AllFiled db) {r : FileRec} :
    rowNumber db r = (laterVersions (docs db) r.fileId (docOf r)).ncard + 1 := by
  rw [rowNumber]
  congr 1
  rw [List.countP_eq_length_filter]
  set sel : FileRec → Bool := fun q => q.supersededAt.isSome && sameLineage q r && newer q r with hsel
  have hids : ((db.files.filter sel).map FileRec.fileId).Nodup := nodup_filter sel db.constraints.fileIds
  have hset : laterVersions (docs db) r.fileId (docOf r) =
      (((db.files.filter sel).map FileRec.fileId).toFinset : Set Text) := by
    ext g
    rw [List.coe_toFinset, Set.mem_ofPred_eq, List.mem_map]
    constructor
    · rintro ⟨e, t, he, hs, hkin, hafter⟩
      obtain ⟨q, hq, rfl, rfl⟩ := docs_some he
      refine ⟨q, List.mem_filter.mpr ⟨hq, ?_⟩, rfl⟩
      have hsup : q.supersededAt = some t := (shelfOf_aside (hfiled q hq)).mp hs
      simp only [hsel, sameLineage, newer, hsup, Option.isSome_some, Bool.true_and, Bool.and_eq_true,
        decide_eq_true_eq, Bool.or_eq_true, Bool.not_eq_true']
      exact ⟨⟨hkin.1, hkin.2⟩, hafter.imp id fun h => ⟨h.1.symm, h.2⟩⟩
    · rintro ⟨q, hq, rfl⟩
      obtain ⟨hq, hs⟩ := List.mem_filter.mp hq
      simp only [hsel, sameLineage, newer, Bool.and_eq_true, decide_eq_true_eq, Bool.or_eq_true,
        Bool.not_eq_true'] at hs
      obtain ⟨t, ht⟩ := Option.isSome_iff_exists.mp hs.1.1
      exact ⟨docOf q, t, docs_mem hq, (shelfOf_aside (hfiled q hq)).mpr ht, ⟨hs.1.2.1, hs.1.2.2⟩,
        hs.2.imp id fun h => ⟨h.1.symm, h.2⟩⟩
  rw [hset, Set.ncard_coe_finset, List.toFinset_card_of_nodup hids, List.length_map]

/-- The four rules of the sweep, on a row and on its document. -/
theorem expired_iff {db : Db} (hfiled : AllFiled db) {r : FileRec} (hr : r ∈ db.files)
    {policy : RetentionPolicy} {t v : Time} : Expired (docs db) policy t v r.fileId (docOf r) ↔
      (before r.deletedAt (cutoff t policy.trashDays) = true ∨
        before r.supersededAt (cutoff v policy.versionDays) = true ∨
        (r.supersededAt.isSome && max policy.keepVersions 0 < (rowNumber db r : ℤ)) = true ∨
        isOrphan db r = true) := by
  have honce := (hfiled r hr).once
  rw [Expired]
  cases hs : (docOf r).shelf with
  | live =>
    obtain ⟨hd, hsup⟩ := live_stamps (shelfOf_live.mp hs)
    simp [hd, hsup, before, isOrphan]
  | trashed a =>
    have hd : r.deletedAt = some a := shelfOf_trashed.mp hs
    have hsup : r.supersededAt = none := by
      rw [hd] at honce
      rw [← Option.not_isSome_iff_eq_none]
      exact fun h => honce rfl h
    simp [hd, hsup, before, isOrphan]
  | aside a =>
    have hsup : r.supersededAt = some a := (shelfOf_aside (hfiled r hr)).mp hs
    have hd : r.deletedAt = none := by
      rw [hsup] at honce
      rw [← Option.not_isSome_iff_eq_none]
      exact fun h => honce h rfl
    have hrank : max policy.keepVersions 0 < (rowNumber db r : ℤ) ↔
        (max policy.keepVersions 0).toNat ≤ (laterVersions (docs db) r.fileId (docOf r)).ncard := by
      rw [rowNumber_eq hfiled]
      omega
    have horphan : isOrphan db r = true ↔
        ∀ g e, docs db g = some e → Kin e (docOf r) → ∃ at', e.shelf = .aside at' := by
      rw [isOrphan, hsup]
      simp only [Option.isSome_some, Bool.true_and, Bool.not_eq_true', List.any_eq_false, Bool.and_eq_true,
        not_and, sameLineage, decide_eq_true_eq, Option.isNone_iff_eq_none]
      constructor
      · intro h g e he hkin
        obtain ⟨q, hq, -, rfl⟩ := docs_some he
        obtain ⟨t', ht'⟩ := Option.ne_none_iff_exists'.mp (h q hq ⟨hkin.1, hkin.2⟩)
        exact ⟨t', (shelfOf_aside (hfiled q hq)).mpr ht'⟩
      · rintro h q hq ⟨hu, hl⟩ hnone
        obtain ⟨t', ht'⟩ := h q.fileId (docOf q) (docs_mem hq) ⟨hu, hl⟩
        rw [(shelfOf_aside (hfiled q hq)).mp ht'] at hnone
        cases hnone
    dsimp only
    rw [horphan, hd, hsup, Option.isSome_some, Bool.true_and, decide_eq_true_eq, hrank]
    simp [before]

theorem mem_retired {db : Db} {policy : RetentionPolicy} {t v : Time} {r : FileRec} (hr : r ∈ db.files)
    (h : before r.deletedAt (cutoff t policy.trashDays) = true ∨
      before r.supersededAt (cutoff v policy.versionDays) = true ∨
      (r.supersededAt.isSome && max policy.keepVersions 0 < (rowNumber db r : ℤ)) = true ∨
      isOrphan db r = true) : r.candidate ∈ retiredCandidates db policy t v := by
  have hin : ∀ p : FileRec → Bool, p r = true → r.candidate ∈ (db.files.filter p).map FileRec.candidate :=
    fun p hp => List.mem_map_of_mem (List.mem_filter.mpr ⟨hr, hp⟩)
  simp only [retiredCandidates, List.mem_append]
  rcases h with h | h | h | h
  · exact .inl (.inl (.inl (hin _ h)))
  · exact .inl (.inl (.inr (hin _ h)))
  · exact .inl (.inr (hin _ h))
  · exact .inr (hin _ h)

/-- The ids that come up are the ids of the list. -/
theorem firstSeen_ids (seen : List Text) (cs : List PurgeCandidate) {x : PurgeCandidate} (hx : x ∈ cs) :
    x.2.1 ∈ seen ∨ ∃ y ∈ firstSeen seen cs, y.2.1 = x.2.1 := by
  induction cs generalizing seen with
  | nil => exact absurd hx List.not_mem_nil
  | cons c cs ih =>
    rw [firstSeen]
    split
    · next hseen =>
      rcases List.mem_cons.mp hx with rfl | hx
      · exact .inl hseen
      · exact ih seen hx
    · rcases List.mem_cons.mp hx with rfl | hx
      · exact .inr ⟨x, List.mem_cons_self .., rfl⟩
      · rcases ih (c.2.1 :: seen) hx with h | ⟨y, hy, hid⟩
        · rcases List.mem_cons.mp h with h | h
          · exact .inr ⟨c, List.mem_cons_self .., h.symm⟩
          · exact .inl h
        · exact .inr ⟨y, List.mem_cons_of_mem _ hy, hid⟩

/-- A candidate is a row's own user and id. -/
theorem candidate_owner {db : Db} {policy : RetentionPolicy} {t v : Time} {x : PurgeCandidate}
    (hx : x ∈ retiredCandidates db policy t v) : ∃ r ∈ db.files, r.userId = x.1 ∧ r.fileId = x.2.1 := by
  simp only [retiredCandidates, List.mem_append] at hx
  rcases hx with ((hx | hx) | hx) | hx
  all_goals
    obtain ⟨r, hr, rfl⟩ := List.mem_map.mp hx
    exact ⟨r, (List.mem_filter.mp hr).1, rfl, rfl⟩

theorem purgeRetired_effect {policy : RetentionPolicy} {t v : Time} (hfiled : AllFiled w.db) :
    Effect (Meets hash (.purgeRetired policy t v)) w (purgeRetired policy t v w) := by
  rw [purgeRetired]
  refine effect_then ?_ fun r => moves_bind db_frame (moves_purgeLocal r.2) fun _ => moves_pure db_frame _
  cases hx : transaction (purgeRetiredTx policy t v) w with
  | mk res w' =>
    cases res with
    | error e => exact .inr ⟨rfl, congrArg docs (transaction_error hx)⟩
    | ok r =>
      obtain ⟨hpurged, w₁, frags, w₂, hbase, hall, hdb⟩ := purgeRetiredTx_ok hx
      have hfiles := purgeRows_files Prod.fst (fun x : PurgeCandidate => x.2.1) hall
      rw [hbase, ← hdb, hpurged] at hfiles
      refine .inl (docs_filter hfiles fun q hq => ?_)
      rw [expired_iff hfiled hq, List.any_eq_true]
      constructor
      · rintro ⟨c, hc, hrow⟩
        rw [isRow, Bool.and_eq_true, decide_eq_true_eq, decide_eq_true_eq] at hrow
        exact candidate_row hq (firstSeen_subset _ _ hc) hrow.2
      · intro h
        have hin := mem_retired hq h
        rcases firstSeen_ids [] _ hin with hno | ⟨y, hy, hid⟩
        · exact absurd hno List.not_mem_nil
        · obtain ⟨p, hp, hpu, hpid⟩ := candidate_owner (firstSeen_subset _ _ hy)
          obtain rfl := eq_of_key w.db.constraints.fileIds hp hq (hpid.trans hid)
          refine ⟨y, hy, ?_⟩
          rw [isRow, Bool.and_eq_true, decide_eq_true_eq, decide_eq_true_eq]
          exact ⟨hpu, hpid⟩

end

/-! ### Packing -/

section
variable {K : Type} {P : Prims K} {key : K} {w w' : World} {u m old : Text} {es : List PackEntry} {now : Time}
  {hash : Bytes → Text}

theorem docs_frame : Frame fun w w' : World => docs w'.db = docs w.db :=
  ⟨fun _ _ => rfl, fun _ _ _ h h' => h'.trans h⟩

/-- What a row stores and where it reads from is no part of its document. -/
theorem docs_assign {db db' : Db} {f packId : Text} {offset len : ℤ}
    (h : assignToPack db u f packId offset len = some db') : docs db' = docs db := by
  rw [assignToPack] at h
  exact docs_unchanged (congrArg Tables.files (updateFiles_some h)) (fun _ => rfl) fun _ => rfl

theorem moves_packMember (er : PackEntry × ℕ × ℕ) :
    Moves (fun w w' => docs w'.db = docs w.db) (packMember u m er) := by
  have hF := docs_frame
  refine moves_bind hF (moves_query hF _) fun row => moves_bind hF (moves_outcome hF _) fun row => ?_
  split
  · exact moves_outcome hF _
  · refine moves_bind hF (moves_query hF _) fun frags =>
      moves_bind hF (moves_stmt hF fun w db h => ?_) fun _ =>
        moves_bind hF (moves_stmt hF fun w db h => docs_assign h) fun _ => moves_pure hF _
    obtain rfl := Option.some.inj h
    exact docs_congr rfl

theorem moves_moveMember (er : PackEntry × ℕ × ℕ) :
    Moves (fun w w' => docs w'.db = docs w.db) (moveMember u old m er) := by
  have hF := docs_frame
  refine moves_bind hF (moves_query hF _) fun row => moves_bind hF (moves_outcome hF _) fun row => ?_
  split
  · exact moves_outcome hF _
  · exact moves_stmt hF fun w db h => docs_assign h

theorem insertPackRow_docs {plain : Bytes} {n : ℤ} (h : insertPackRow P key u m plain now w = (.ok n, w')) :
    Packs u m now (docs w.db) (docs w'.db) := by
  rw [insertPackRow] at h
  obtain ⟨chunks, w₁, ho, h₁⟩ := bind_ok h
  obtain ⟨-, rfl⟩ := ofOutcome_ok ho
  obtain ⟨_, w₂, hins, h₂⟩ := bind_ok h₁
  obtain ⟨_, w₃, hwr, h₃⟩ := bind_ok h₂
  obtain ⟨-, rfl⟩ := pure_ok h₃
  obtain ⟨hnone, hnew⟩ := docs_insert (stmt_ok hins).1
  have hrows : w'.db.files = w₂.db.files := by
    have hmoves : (writeChunkRows P m chunks w₂).2.db.files = w₂.db.files := writeChunkRows_files m chunks w₂
    rw [hwr] at hmoves
    exact hmoves
  rw [docs_congr hrows, hnew]
  exact ⟨_, ⟨rfl, rfl, rfl, rfl, rfl⟩, hnone, rfl⟩

theorem packFiles_effect : Effect (Meets hash (.packFiles u es m now)) w (packFiles P key u es m now w) := by
  rw [packFiles]
  split
  · exact effect_error _
  · refine effect_bind (moves_outcome db_frame _) fun built w₁ _ => ?_
    refine effect_then (effect_transaction fun r w' h => ?_) fun r =>
      moves_bind db_frame (moves_purgeLocal r.2.1) fun _ => moves_pure db_frame _
    rw [packFilesTx] at h
    obtain ⟨freed, w₂, hmem, h₁⟩ := bind_ok h
    obtain ⟨stored, w₃, hins, h₂⟩ := bind_ok h₁
    obtain ⟨-, rfl⟩ := pure_ok h₂
    have hmoves : Moves (fun w w' => docs w'.db = docs w.db) (collect (packMember u m) (es.zip built.2)) :=
      moves_collect docs_frame fun er _ => moves_packMember er
    have hsame := hmoves w₁
    rw [hmem] at hsame
    have hdocs : docs w₂.db = docs w₁.db := hsame
    rw [← hdocs]
    exact insertPackRow_docs hins

theorem purgeFileRow_docs {f : Text} {frags : List RemoteShard} {r : FileRec} (hr : r ∈ w.db.files)
    (hu : r.userId = u) (hid : r.fileId = f) (h : purgeFileRow u f w = (.ok frags, w')) :
    docs w'.db = removed (fun g _ => g = f) (docs w.db) := by
  subst hu hid
  obtain ⟨_, w₁, hq, h₁⟩ := bind_ok h
  obtain ⟨-, hdb, -⟩ := query_ok hq
  obtain ⟨_, w₂, hs, h₂⟩ := bind_ok h₁
  obtain ⟨-, rfl⟩ := pure_ok h₂
  obtain ⟨hdel, -⟩ := stmt_ok hs
  rw [← hdb] at hr ⊢
  have hfiles : w'.db.files = w₁.db.files.filter fun q => !isRow r.userId r.fileId q := by
    rw [← Option.some.inj hdel]
    rfl
  refine docs_filter hfiles fun q hq => ?_
  rw [isRow_iff_eq hr q hq]
  constructor
  · rintro rfl
    rfl
  · exact eq_of_key w₁.db.constraints.fileIds hq hr

theorem compactPackTx_docs {r : FileRow × Option (ℕ × ℤ) × List RemoteShard}
    (h : compactPackTx P key u old es m now w = (.ok r, w')) :
    Meets hash (.compactPack u old es m now) (docs w.db) (docs w'.db) := by
  rw [compactPackTx] at h
  obtain ⟨_, wa, hq, h₁⟩ := bind_ok h
  obtain ⟨row, wb, hthrow, h₂⟩ := bind_ok h₁
  obtain ⟨rfl, hda, -⟩ := query_ok hq
  obtain ⟨hrow, rfl⟩ := orThrow_ok hthrow
  obtain ⟨x, hx, hxu, hxid, rfl⟩ := mem_of_isRow hrow
  by_cases hpack : x.view.isPack = true
  · rw [if_pos hpack] at h₂
    have hpath : PACK_PATH_PREFIX <+: (docOf x).path := by
      rw [FileRow.isPack, List.isPrefixOf_iff_prefix] at hpack
      exact hpack
    have hdoc : docs w.db old = some (docOf x) := hxid ▸ docs_mem hx
    refine ⟨⟨docOf x, hdoc, hxu, hpath⟩, ?_⟩
    obtain ⟨members, wc, hqm, h₃⟩ := bind_ok h₂
    obtain ⟨_, wd, hcar, h₄⟩ := bind_ok h₃
    have hdc : wc.db = w.db := (query_ok hqm).2.1.trans hda
    obtain ⟨-, rfl⟩ := ofOutcome_ok hcar
    rw [← hdc] at hx hdoc ⊢
    by_cases hemp : es.isEmpty = true
    · rw [if_pos hemp] at h₄
      obtain ⟨frags, we, hpurge, h₅⟩ := bind_ok h₄
      obtain ⟨-, rfl⟩ := pure_ok h₅
      exact .inl (purgeFileRow_docs hx hxu hxid hpurge)
    · rw [if_neg hemp] at h₄
      obtain ⟨built, we, hbuilt, h₅⟩ := bind_ok h₄
      obtain ⟨_, wf, hmove, h₆⟩ := bind_ok h₅
      obtain ⟨stored, wg, hins, h₇⟩ := bind_ok h₆
      obtain ⟨frags, wh, hpurge, h₈⟩ := bind_ok h₇
      obtain ⟨-, rfl⟩ := pure_ok h₈
      obtain ⟨-, rfl⟩ := ofOutcome_ok hbuilt
      have hmoves : Moves (fun w w' => docs w'.db = docs w.db)
          (collect (moveMember u old m) (es.zip built.2)) :=
        moves_collect docs_frame fun er _ => moves_moveMember er
      have hsame := hmoves we
      rw [hmove] at hsame
      have hdocs : docs wf.db = docs we.db := hsame
      have hpacks := insertPackRow_docs hins
      rw [hdocs] at hpacks
      refine .inr ⟨docs wg.db, hpacks, ?_⟩
      obtain ⟨d, -, hnone, hadd⟩ := hpacks
      have hne : old ≠ m := by
        rintro rfl
        rw [hnone] at hdoc
        cases hdoc
      have hold : docs wg.db old = some (docOf x) := by
        rw [hadd, added, if_neg hne, hdoc]
      obtain ⟨q, hq, hqid, hqdoc⟩ := docs_some hold
      exact purgeFileRow_docs hq ((congrArg Doc.owner hqdoc).trans hxu) hqid hpurge
  · rw [if_neg hpack] at h₂
    cases h₂

theorem compactPack_effect :
    Effect (Meets hash (.compactPack u old es m now)) w (compactPack P key u old es m now w) := by
  rw [compactPack]
  exact effect_then (effect_transaction fun r w' h => compactPackTx_docs h) fun r =>
    moves_bind db_frame (moves_purgeLocal r.2.2) fun _ => moves_pure db_frame _

/-- Some of the containers of a pass are written, whatever fails in it. -/
theorem repack_moves (mints : ℕ → Text) : Moves (fun w w' => Relation.ReflTransGen
    (fun D D' => ∃ i, Packs u (mints i) now D D') (docs w.db) (docs w'.db))
    (repackSmallFiles P key u mints now) := by
  have hF : Frame fun w w' : World => Relation.ReflTransGen
      (fun D D' => ∃ i, Packs u (mints i) now D D') (docs w.db) (docs w'.db) :=
    ⟨fun _ _ => .refl, fun _ _ _ h h' => h.trans h'⟩
  refine moves_bind hF (moves_query hF _) fun candidates => moves_bind hF (moves_collect hF fun g hg => ?_)
    fun _ => moves_pure hF _
  obtain ⟨⟨group, i⟩, -, rfl⟩ := List.mem_map.mp hg
  refine moves_bind hF (moves_collect hF fun f _ => moves_bind hF (Read.moves_run hF _) fun _ => moves_pure hF _)
    fun entries => moves_bind hF (fun w => ?_) fun _ => moves_pure hF _
  have heff : Effect (Meets (fun _ => []) (.packFiles u entries (mints i) now)) w
      (packFiles P key u entries (mints i) now w) := packFiles_effect
  change ReflTransGen _ (docs w.db) (docs (packFiles P key u entries (mints i) now w).2.db)
  rcases heff with h | ⟨-, h⟩
  · exact .single ⟨i, h⟩
  · rw [h]

end

end P2pnas.Store.Effects
