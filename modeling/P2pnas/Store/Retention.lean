import P2pnas.Store.Faultless
import P2pnas.Store.Undelete

/-!
# What the sweep keeps (`service.rs:339-371`, `460-527`, `manifest.rs:619-684`)

Four rules select rows for the sweep. Three of them read the row, its stamps and its rank in the
version list; the fourth asks whether anything of the lineage is left that is not an old version.
That much of a lineage survives everything but a purge in it and a restore of another lineage over
its last such row.
-/

namespace P2pnas.Store.Retention
open P2pnas.Lib.Frames P2pnas.Lib.Strings P2pnas.Lib.Tables P2pnas.Lib.Runs P2pnas.Core
open P2pnas.Core.Base P2pnas.Core.Pipeline P2pnas.Store.Manifest P2pnas.Store.Session
open P2pnas.Store.Service P2pnas.Store.Operations P2pnas.Store.Lifecycle P2pnas.Store.Rows
open P2pnas.Store.Readable P2pnas.Store.Edits P2pnas.Store.Undelete P2pnas.Store.Faultless Relation

/-! ### Lineages -/

/-- The row is of the lineage `l` of `u`. -/
def Of (u l : Text) (r : FileRec) : Prop := r.userId = u ∧ r.lineageId = l

/-- A row of the lineage is live or in the trash. -/
def Backed (db : Db) (u l : Text) : Prop := ∃ r ∈ db.files, Of u l r ∧ r.supersededAt = none

/-- The call found the row of `g` live and left it an old version. -/
def SetAside (b b' : Db) (g : Text) : Prop :=
  ∃ r, rowOf b g = some r ∧ r.live = true ∧ ∃ r', rowOf b' g = some r' ∧ r'.supersededAt.isSome = true

/-- A row of the lineage is gone. -/
def Purged (b b' : Db) (u l : Text) : Prop := ∃ q ∈ b.files, Of u l q ∧ rowOf b' q.fileId = none

/-- A restore of another lineage set aside the last row of this one that was no old version. -/
def Stranded (b b' : Db) (o : Op) (u l : Text) : Prop :=
  ∃ v f newPath now, o = .restore v f newPath now ∧ (∀ x, rowOf b f = some x → ¬ Of u l x) ∧
    ∃ q ∈ b.files, Of u l q ∧ SetAside b b' q.fileId ∧
      ∀ z ∈ b.files, Of u l z → z.supersededAt = none → z = q

/-- A node, and the rows that were set aside and whose lineage nothing of that has happened to
since. -/
structure Tracked where
  world : World
  kept : Text → Prop

def start : Tracked := ⟨emptyWorld, fun _ => False⟩

/-- The calls that store, hide, move and purge files. -/
def Listed : Op → Prop
  | .push .. | .trash .. | .trashPath .. | .restore .. | .rename .. | .mkdir .. | .purgeFile ..
  | .emptyTrash .. | .purgeRetired .. => True
  | .packFiles .. | .compactPack .. | .repackSmallFiles .. | .setLocation .. => False

section
variable {K : Type} (P : Prims K) (key : K)

def step (s : Tracked) (a : Op × List Event) : Tracked where
  world := Operations.step P key s.world a
  kept g := ∃ r, rowOf s.world.db g = some r ∧
    (SetAside s.world.db (Operations.step P key s.world a).db g ∨ s.kept g) ∧
    ¬ Purged s.world.db (Operations.step P key s.world a).db r.userId r.lineageId ∧
    ¬ Stranded s.world.db (Operations.step P key s.world a).db a.1 r.userId r.lineageId

end

/-! ### What one edit leaves of a lineage -/

section
variable {K : Type} {P : Prims K} {o : Op} {b db db' : Db} {u l : Text}

theorem backed_updated {sel : FileRec → Bool} {set : FileRec → FileRec}
    {hid : ∀ r, (set r).fileId = r.fileId} (h : updateFiles db sel set hid = some db')
    (hset : ∀ r, Of u l r → r.supersededAt = none → Of u l (set r) ∧ (set r).supersededAt = none)
    (hb : Backed db u l) : Backed db' u l := by
  obtain ⟨r, hr, hof, hs⟩ := hb
  have hrows : db'.files = update sel set db.files := by rw [updateFiles_some h]
  rw [Backed, hrows]
  cases hsel : sel r with
  | true => exact ⟨set r, mem_update.mpr ⟨r, hr, .inl ⟨hsel, rfl⟩⟩, hset r hof hs⟩
  | false => exact ⟨r, mem_update.mpr ⟨r, hr, .inr ⟨hsel, rfl⟩⟩, hof, hs⟩

theorem edit_backed (he : Edit P o b db db') (hno : ∀ v f, ¬ o.Deletes b v f) (hb : Backed db u l) :
    Backed db' u l := by
  have hkeep : db'.files = db.files → Backed db' u l := by
    intro hf
    rw [Backed, hf]
    exact hb
  cases he with
  | insert row _ hins =>
    obtain ⟨r, hr, hof⟩ := hb
    refine ⟨r, ?_, hof⟩
    rw [(insertFile_some hins).2]
    exact List.mem_append_left _ hr
  | chunk c hins => exact hkeep (by rw [(insertChunk_some hins).2])
  | shard s _ hins => exact hkeep (by rw [(insertShard_some hins).2])
  | trash r now _ _ _ _ h =>
    rw [trashFile, retireRow] at h
    exact backed_updated h (fun _ hof hs => ⟨hof, hs⟩) hb
  | restore r path _ _ _ _ h =>
    rw [restoreFile] at h
    exact backed_updated h (fun _ hof _ => ⟨hof, rfl⟩) hb
  | repath r path _ _ _ _ h =>
    rw [updateFilePath] at h
    exact backed_updated h (fun _ hof hs => ⟨hof, hs⟩) hb
  | assign v f packId offset len h =>
    rw [assignToPack] at h
    exact backed_updated h (fun _ hof hs => ⟨hof, hs⟩) hb
  | delete v f hsel => exact absurd hsel (hno v f)
  | strip v f => exact hkeep rfl
  | folders hf _ _ _ => exact hkeep hf
  | location frag location => exact hkeep rfl

theorem edits_backed (he : ReflTransGen (Edit P o b) db db') (hno : ∀ v f, ¬ o.Deletes b v f)
    (hb : Backed db u l) : Backed db' u l := by
  induction he with
  | refl => exact hb
  | tail _ he ih => exact edit_backed he hno ih

/-- The two rows are one row, at two times. -/
structure Line (r q : FileRec) : Prop where
  id : r.fileId = q.fileId
  user : r.userId = q.userId
  lineage : r.lineageId = q.lineageId

theorem Line.trans {r₁ r₂ r₃ : FileRec} (h : Line r₁ r₂) (h' : Line r₂ r₃) : Line r₁ r₃ :=
  ⟨h.id.trans h'.id, h.user.trans h'.user, h.lineage.trans h'.lineage⟩

theorem old_updated {sel : FileRec → Bool} {set : FileRec → FileRec}
    {hid : ∀ r, (set r).fileId = r.fileId} (h : updateFiles db sel set hid = some db')
    (hset : ∀ r, Line r (set r) ∧ ((set r).supersededAt = none ∨ (set r).supersededAt = r.supersededAt))
    {q : FileRec} (hq : q ∈ db'.files) (hs : q.supersededAt.isSome = true) :
    ∃ r ∈ db.files, Line r q ∧ r.supersededAt = q.supersededAt := by
  rw [updateFiles_some h] at hq
  obtain ⟨r, hr, ⟨-, rfl⟩ | ⟨-, rfl⟩⟩ := mem_update.mp hq
  · obtain ⟨hline, hnone | hsame⟩ := hset r
    · rw [hnone] at hs
      cases hs
    · exact ⟨r, hr, hline, hsame.symm⟩
  · exact ⟨q, hr, ⟨rfl, rfl, rfl⟩, rfl⟩

/-- An old version after an edit is one before it. -/
theorem edit_old (he : Edit P o b db db') {q : FileRec} (hq : q ∈ db'.files)
    (hs : q.supersededAt.isSome = true) : ∃ r ∈ db.files, Line r q ∧ r.supersededAt = q.supersededAt := by
  have hsame : q ∈ db.files → ∃ r ∈ db.files, Line r q ∧ r.supersededAt = q.supersededAt :=
    fun hold => ⟨q, hold, ⟨rfl, rfl, rfl⟩, rfl⟩
  cases he with
  | insert row hrow hins =>
    rcases insertFile_mem hins hq with hold | rfl
    · exact hsame hold
    · cases hs
  | chunk c hins =>
    rw [(insertChunk_some hins).2] at hq
    exact hsame hq
  | shard s _ hins =>
    rw [(insertShard_some hins).2] at hq
    exact hsame hq
  | trash r now _ _ _ _ h =>
    rw [trashFile, retireRow] at h
    exact old_updated h (fun _ => ⟨⟨rfl, rfl, rfl⟩, .inr rfl⟩) hq hs
  | restore r path _ _ _ _ h =>
    rw [restoreFile] at h
    exact old_updated h (fun _ => ⟨⟨rfl, rfl, rfl⟩, .inl rfl⟩) hq hs
  | repath r path _ _ _ _ h =>
    rw [updateFilePath] at h
    exact old_updated h (fun _ => ⟨⟨rfl, rfl, rfl⟩, .inr rfl⟩) hq hs
  | assign v f packId offset len h =>
    rw [assignToPack] at h
    exact old_updated h (fun _ => ⟨⟨rfl, rfl, rfl⟩, .inr rfl⟩) hq hs
  | delete v f _ => exact hsame (List.mem_filter.mp hq).1
  | strip v f => exact hsame hq
  | folders hf _ _ _ =>
    rw [hf] at hq
    exact hsame hq
  | location frag location => exact hsame hq

theorem edits_old (h : ReflTransGen (Edit P o b) db db') {q : FileRec} (hq : q ∈ db'.files)
    (hs : q.supersededAt.isSome = true) : ∃ r ∈ db.files, Line r q ∧ r.supersededAt = q.supersededAt := by
  induction h generalizing q with
  | refl => exact ⟨q, hq, ⟨rfl, rfl, rfl⟩, rfl⟩
  | tail _ he ih =>
    obtain ⟨r, hr, hline, hstamp⟩ := edit_old he hq hs
    obtain ⟨r₀, hr₀, hline₀, hstamp₀⟩ := ih hr (by rw [hstamp]; exact hs)
    exact ⟨r₀, hr₀, hline₀.trans hline, hstamp₀.trans hstamp⟩

/-- An old version after a call was one before it, or live. -/
theorem opStep_old (hstep : OpStep P o db db') {q : FileRec} (hq : q ∈ db'.files)
    (hs : q.supersededAt.isSome = true) :
    ∃ r ∈ db.files, Line r q ∧ (r.live = true ∨ r.supersededAt = q.supersededAt) := by
  obtain ⟨mid, hmid, hrest⟩ := hstep
  obtain ⟨r, hr, hline, hstamp⟩ := edits_old hrest hq hs
  rcases hmid with rfl | ⟨a, ha, now, hlive, -, hset⟩
  · exact ⟨r, hr, hline, .inr hstamp⟩
  · rcases retireRow_mem ha hset hr with hold | rfl
    · exact ⟨r, hold, hline, .inr hstamp⟩
    · have hsame : Line a (Retire.supersededAt.set now a) := ⟨rfl, rfl, rfl⟩
      exact ⟨a, ha, hsame.trans hline, .inl hlive⟩

end

/-! ### Calls that set a row aside -/

section
variable {K : Type} {P : Prims K} {key : K} {w w' : World} {u l : Text}

theorem supersedeOpt_ok {v : Text} {prev : Option FileRow} {now : Time}
    (h : supersedeOpt v prev now w = (.ok (), w')) : stepAside w.db v prev now = some w'.db := by
  cases prev with
  | none =>
    obtain ⟨-, rfl⟩ := pure_ok h
    rfl
  | some p =>
    have hstmt : stmt (supersedeFile · v p.fileId now) w = (.ok (), w') := h
    exact (stmt_ok hstmt).1

/-- All that setting a live row aside does to the rows. -/
theorem stepAside_rows {db db₁ : Db} {v : Text} {prev : Option FileRow} {now : Time}
    (hprev : ∀ p, prev = some p → ∃ q ∈ db.files, q.userId = v ∧ q.live = true ∧ q.view = p)
    (h : stepAside db v prev now = some db₁) :
    db₁ = db ∧ prev = none ∨
      ∃ q ∈ db.files, prev = some q.view ∧ q.live = true ∧ Became q (aside now q) db db₁ := by
  cases prev with
  | none => exact .inl ⟨(Option.some.inj h).symm, rfl⟩
  | some p =>
    obtain ⟨q, hq, hu, hl, rfl⟩ := hprev p rfl
    have hsup : supersedeFile db q.userId q.fileId now = some db₁ := by
      rw [hu]
      exact h
    rw [supersedeFile, retireRow] at hsup
    exact .inr ⟨q, hq, rfl, hl,
      updateFiles_became hq (retire_iff (c := .supersededAt) hq (live_stamps hl).2) hsup⟩

/-- The rows stay as they are. -/
theorem rows_frame : Frame fun w w' : World => w'.db.files = w.db.files :=
  ⟨fun _ _ => rfl, fun _ _ _ h h' => h'.trans h⟩

theorem writeChunkRows_files (m : Text) (chunks : List ProcessedChunk) :
    Moves (fun w w' => w'.db.files = w.db.files) (writeChunkRows P m chunks) := by
  refine moves_bind rows_frame (moves_collect rows_frame fun c _ => ?_) fun _ => moves_pure rows_frame ()
  refine moves_bind rows_frame (moves_stmt rows_frame fun w db h => ?_) fun _ =>
    moves_bind rows_frame (moves_collect rows_frame fun i _ => ?_) fun _ => moves_pure rows_frame ()
  · show db.files = w.db.files
    rw [(insertChunk_some h).2]
  · refine moves_bind rows_frame (moves_outcome rows_frame _) fun bytes =>
      moves_bind rows_frame (moves_storeWrite rows_frame fun _ _ => rfl) fun _ =>
        moves_stmt rows_frame fun w db h => ?_
    show db.files = w.db.files
    rw [(insertShard_some h).2]

/-- What a push leaves of the rows: nothing happens, or one row is new, of the lineage of the row that
it sets aside. -/
theorem push_rows {v path m : Text} {data : Bytes} {now : Time} {res : PushResult}
    (h : push P key v path data m now w = (.ok res, w')) : w'.db = w.db ∨
      ∃ db₁ new, stepAside w.db v (getFileByPath w.db v path) now = some db₁ ∧
        w'.db.files = db₁.files ++ [new] ∧ new.userId = v ∧ new.supersededAt = none ∧
        new.lineageId = ((getFileByPath w.db v path).map FileRow.lineage).getD m := by
  rw [push] at h
  obtain ⟨prev, w₁, hq, hrest⟩ := bind_ok h
  obtain ⟨-, hdb, -⟩ := query_ok hq
  cases hsame : prev.filter (sameContent P · data) with
  | some q =>
    rw [hsame] at hrest
    obtain ⟨-, rfl⟩ := pure_ok hrest
    exact .inl hdb
  | none =>
    rw [hsame] at hrest
    have hnew : pushNew P key v path data m now w₁ = (.ok res, w') := hrest
    rw [pushNew] at hnew
    obtain ⟨chunks, w₂, hout, htx⟩ := bind_ok hnew
    obtain ⟨-, rfl⟩ := ofOutcome_ok hout
    obtain ⟨w₃, hbody, hdb', -⟩ := transaction_ok htx
    rw [pushTx] at hbody
    obtain ⟨prev', wa, hq', h₁⟩ := bind_ok hbody
    obtain ⟨rfl, hdba, -⟩ := query_ok hq'
    obtain ⟨_, wb, hside, h₂⟩ := bind_ok h₁
    obtain ⟨_, wc, hins, h₃⟩ := bind_ok h₂
    obtain ⟨_, wd, hwr, h₄⟩ := bind_ok h₃
    obtain ⟨-, hlast⟩ := pure_ok h₄
    have hstep := supersedeOpt_ok hside
    rw [hdba, hdb] at hstep
    rw [hdb] at hins
    obtain ⟨hins, -⟩ := stmt_ok hins
    have hrows : wd.db.files = wc.db.files := by
      have hmoves : (writeChunkRows P m chunks wc).2.db.files = wc.db.files :=
        writeChunkRows_files m chunks wc
      rw [hwr] at hmoves
      exact hmoves
    refine .inr ⟨wb.db, (pushRow P v path m data now chunks
      (((getFileByPath w.db v path).map FileRow.lineage).getD m)).toRec, hstep, ?_, rfl, rfl, rfl⟩
    rw [hdb', hlast, hrows, (insertFile_some hins).2]

/-- What a restore leaves of the rows: nothing happens, or a row is back, and the row at its target is
set aside. -/
theorem restore_rows (v f : Text) (newPath : Option Text) (now : Time) (w : World) :
    (restore v f newPath now w).2.db = w.db ∨
      ∃ x ∈ w.db.files, x.userId = v ∧ x.fileId = f ∧ x.live = false ∧ ∃ path prev db₁ db₂,
        (∀ p, prev = some p → ∃ q ∈ w.db.files, q.userId = v ∧ q.live = true ∧ q.view = p) ∧
        stepAside w.db v prev now = some db₁ ∧ db₂.files = db₁.files ∧
        restoreFile db₂ x.userId x.fileId path = some (restore v f newPath now w).2.db := by
  rw [Service.restore]
  rcases bind_cases (transaction (restoreTx v f newPath now))
    (fun _ => query (getFile · v f) >>= fun row => orThrow .notFound row) w with
    ⟨e, w₁, hx, hb⟩ | ⟨_, w₁, hx, hb⟩
  · rw [hb]
    exact .inl (transaction_error hx)
  · have hlast : ((query (getFile · v f) >>= fun row => orThrow .notFound row) w₁).2.db = w₁.db := by
      have hF : Frame fun w w' : World => w'.db = w.db := ⟨fun _ _ => rfl, fun _ _ _ h h' => h'.trans h⟩
      exact moves_bind hF (moves_query hF _) (fun row => moves_outcome hF _) w₁
    obtain ⟨w₂, htx, hdb, -⟩ := transaction_ok hx
    rw [hb, hlast, hdb]
    rw [restoreTx] at htx
    obtain ⟨row, wa, hq, h₁⟩ := bind_ok htx
    obtain ⟨rfl, hdba, -⟩ := query_ok hq
    obtain ⟨file, wb, hfile, h₂⟩ := bind_ok h₁
    obtain ⟨hrow, rfl⟩ := orThrow_ok hfile
    obtain ⟨x, hx, hu, hid, rfl⟩ := mem_of_isRow hrow
    cases hlive : x.view.isLive with
    | true =>
      rw [hlive, if_pos rfl] at h₂
      cases h₂
    | false =>
      rw [hlive, if_neg Bool.false_ne_true] at h₂
      split at h₂
      · cases h₂
      · obtain ⟨current, wc, hcur, h₃⟩ := bind_ok h₂
        obtain ⟨rfl, hdbc, -⟩ := query_ok hcur
        obtain ⟨_, wd, hside, h₄⟩ := bind_ok h₃
        obtain ⟨_, we, hfold, h₅⟩ := bind_ok h₄
        have hstep := supersedeOpt_ok hside
        rw [hdbc, hdba] at hstep
        obtain ⟨hrest, -⟩ := stmt_ok h₅
        refine .inr ⟨x, hx, hu, hid, hlive, _, _, wd.db, we.db, fun p hp => ?_, hstep, ?_,
          by rw [hu, hid]; exact hrest⟩
        · obtain ⟨hfind, -⟩ := Option.filter_eq_some_iff.mp hp
          obtain ⟨q, hq, hqu, -, hl, -, rfl⟩ := mem_of_path hfind
          exact ⟨q, hdba ▸ hq, hqu, hl, rfl⟩
        · exact insertFolderSvc_files hfold

end

/-! ### Calls that destroy rows -/

section
variable {u l : Text}

/-- The rows with a `keep` stay, and no row is new. -/
structure Culls (keep : FileRec → Prop) (w w' : World) : Prop where
  stay : ∀ r ∈ w.db.files, keep r → r ∈ w'.db.files
  old : ∀ r ∈ w'.db.files, r ∈ w.db.files

theorem culls_frame (keep : FileRec → Prop) : Frame (Culls keep) where
  refl _ _ := ⟨fun _ h _ => h, fun _ h => h⟩
  trans _ _ _ h h' := ⟨fun r hr hk => h'.stay r (h.stay r hr hk) hk, fun r hr => h.old r (h'.old r hr)⟩

theorem culls_of_db {keep : FileRec → Prop} {w w' : World} (h : w'.db = w.db) : Culls keep w w' := by
  refine ⟨fun r hr _ => ?_, fun r hr => ?_⟩
  · rw [h]
    exact hr
  · rw [← h]
    exact hr

theorem culls_purgeFileRow {keep : FileRec → Prop} {v f : Text} (hkeep : ∀ r, keep r → r.fileId ≠ f) :
    Moves (Culls keep) (purgeFileRow v f) := by
  have hF := culls_frame keep
  refine moves_bind hF (moves_query hF _) fun _ => moves_bind hF (moves_stmt hF fun w db h => ?_) fun _ =>
    moves_pure hF _
  cases h
  refine ⟨fun r hr hk => List.mem_filter.mpr ⟨hr, ?_⟩, fun r hr => (List.mem_filter.mp hr).1⟩
  rw [isRow_other (hkeep r hk)]
  rfl

theorem culls_purgeLocal (keep : FileRec → Prop) (frags : List RemoteShard) :
    Moves (Culls keep) (purgeLocalCollectRemote frags) := by
  intro w
  obtain ⟨w', h, hdb, -⟩ := purgeLocal_spec frags w
  rw [h]
  exact culls_of_db hdb

theorem culls_transaction {keep : FileRec → Prop} {α : Type} {body : Svc α} {w : World}
    (h : Culls keep w (body w).2) : Culls keep w (transaction body w).2 := by
  cases hx : transaction body w with
  | mk r w' =>
    cases r with
    | error e => exact culls_of_db (transaction_error hx)
    | ok a =>
      obtain ⟨w₁, hb, hdb, -⟩ := transaction_ok hx
      rw [hb] at h
      exact (culls_frame keep).trans _ _ _ h (culls_of_db hdb)

theorem culls_purgeFile (v f : Text) : Moves (Culls fun _ => False) (purgeFile v f) := by
  have hF := culls_frame fun _ => False
  exact moves_bind hF (moves_query hF _) fun _ => moves_bind hF (moves_outcome hF _) fun _ =>
    moves_bind hF (culls_purgeFileRow fun _ => False.elim) fun _ =>
      moves_bind hF (culls_purgeLocal _ _) fun _ => moves_pure hF _

theorem culls_emptyTrash (v : Text) : Moves (Culls fun _ => False) (emptyTrash v) := by
  have hF := culls_frame fun _ => False
  refine moves_bind hF (fun w => culls_transaction ?_) fun _ =>
    moves_bind hF (culls_purgeLocal _ _) fun _ => moves_pure hF _
  exact moves_bind hF (moves_query hF _) (fun _ => moves_bind hF (moves_collect hF fun _ _ =>
    culls_purgeFileRow fun _ => False.elim) fun _ => moves_pure hF _) w

theorem culls_bind {keep : FileRec → Prop} {α β : Type} {x : Svc α} {g : α → Svc β} {w : World}
    (hx : Culls keep w (x w).2) (hg : ∀ a, Moves (Culls keep) (g a)) : Culls keep w ((x >>= g) w).2 := by
  rcases bind_cases x g w with ⟨e, w₁, he, hb⟩ | ⟨a, w₁, ha, hb⟩
  · rw [he] at hx
    rw [hb]
    exact hx
  · rw [ha] at hx
    rw [hb]
    exact (culls_frame keep).trans _ _ _ hx (hg a w₁)

theorem culls_query_bind {keep : FileRec → Prop} {α β : Type} {f : Db → α} {g : α → Svc β} {w : World}
    (hg : ∀ w₁, w₁.db = w.db → Culls keep w₁ (g (f w.db) w₁).2) : Culls keep w ((query f >>= g) w).2 := by
  rcases bind_cases (query f) g w with ⟨e, w₁, hx, hb⟩ | ⟨a, w₁, hx, hb⟩
  · rw [hb]
    exact culls_of_db (query_error hx).1
  · obtain ⟨rfl, hdb, -⟩ := query_ok hx
    rw [hb]
    exact (culls_frame keep).trans _ _ _ (culls_of_db hdb) (hg w₁ hdb)

/-- The sweep deletes the rows that a rule selects and no others. -/
theorem culls_purgeRetired (policy : RetentionPolicy) (t v : Time) (w : World) :
    Culls (fun r => ∀ c ∈ retiredCandidates w.db policy t v, r.fileId ≠ c.2.1) w
      (purgeRetired policy t v w).2 := by
  have hF := culls_frame fun r => ∀ c ∈ retiredCandidates w.db policy t v, r.fileId ≠ c.2.1
  have htx : Culls (fun r => ∀ c ∈ retiredCandidates w.db policy t v, r.fileId ≠ c.2.1) w
      (purgeRetiredTx policy t v w).2 := by
    rw [purgeRetiredTx]
    refine culls_query_bind fun w₁ hdb₁ => culls_query_bind fun w₂ hdb₂ => culls_query_bind fun w₃ hdb₃ =>
      culls_query_bind fun w₄ hdb₄ => ?_
    rw [hdb₃, hdb₂, hdb₁]
    refine moves_bind hF (moves_collect hF fun c hc => culls_purgeFileRow fun r hr => ?_)
      (fun _ => moves_pure hF _) w₄
    exact hr c (firstSeen_subset [] _ hc)
  exact culls_bind (culls_transaction htx) fun _ => moves_bind hF (culls_purgeLocal _ _) fun _ => moves_pure hF _

/-- A lineage of which no row is gone is as it was. -/
theorem culls_backed {keep : FileRec → Prop} {w w' : World} (h : Culls keep w w')
    (hp : ¬ Purged w.db w'.db u l) (hb : Backed w.db u l) : Backed w'.db u l := by
  obtain ⟨r, hr, hof, hs⟩ := hb
  cases hrow : rowOf w'.db r.fileId with
  | none => exact absurd ⟨r, hr, hof, hrow⟩ hp
  | some q =>
    obtain ⟨hq, hid⟩ := rowOf_some hrow
    obtain rfl := eq_of_key w.db.constraints.fileIds (h.old q hq) hr hid
    exact ⟨q, hq, hof, hs⟩

end

/-! ### What one call leaves of a lineage -/

section
variable {K : Type} {P : Prims K} {key : K} {w : World} {u l : Text}

theorem push_backed {v path m : Text} {data : Bytes} {now : Time} (hb : Backed w.db u l) :
    Backed (push P key v path data m now w).2.db u l := by
  cases hx : push P key v path data m now w with
  | mk o w' =>
    cases o with
    | error e =>
      rw [show w'.db = w.db from push_error hx]
      exact hb
    | ok res =>
      rcases push_rows hx with hdb | ⟨db₁, new, hside, hrows, hu, hs, hl⟩
      · rw [show w'.db = w.db from hdb]
        exact hb
      · obtain ⟨r, hr, hof, hr'⟩ := hb
        have hprev : ∀ p, getFileByPath w.db v path = some p →
            ∃ q ∈ w.db.files, q.userId = v ∧ q.live = true ∧ q.view = p := fun p hp => by
          obtain ⟨q, hq, hqu, -, hql, -, hview⟩ := mem_of_path hp
          exact ⟨q, hq, hqu, hql, hview⟩
        rw [Backed, show w'.db.files = _ from hrows]
        rcases stepAside_rows hprev hside with ⟨rfl, -⟩ | ⟨q, hq, hfind, -, hb⟩
        · exact ⟨r, List.mem_append_left _ hr, hof, hr'⟩
        · by_cases hrq : r = q
          · subst hrq
            obtain ⟨q', hq', hqu, -, hview⟩ := hprev _ hfind
            obtain rfl := eq_of_key w.db.constraints.fileIds hq' hr (congrArg FileRow.fileId hview)
            rw [hfind] at hl
            exact ⟨new, List.mem_append_right _ (List.mem_singleton_self new),
              ⟨hu.trans (hqu.symm.trans hof.1), hl.trans hof.2⟩, hs⟩
          · exact ⟨r, List.mem_append_left _ ((hb.files r).mpr (.inl ⟨hr, hrq⟩)), hof, hr'⟩

theorem restore_backed {v f : Text} {newPath : Option Text} {now : Time}
    (hstranded : ¬ Stranded w.db (Service.restore v f newPath now w).2.db (.restore v f newPath now) u l)
    (hb : Backed w.db u l) : Backed (Service.restore v f newPath now w).2.db u l := by
  rcases restore_rows v f newPath now w with hdb | ⟨x, hx, -, hid, hdead, path, prev, db₁, db₂, hprev,
    hside, hfolders, hrest⟩
  · rw [hdb]
    exact hb
  -- the row comes back into the table as the other rows are in `db₁`
  have hback : ∀ hx₁ : x ∈ db₁.files, ∀ q, q ∈ (Service.restore v f newPath now w).2.db.files ↔
      q ∈ db₁.files ∧ q ≠ x ∨ q = { x with
        deletedAt := none, supersededAt := none, retiredPath := none, path := path } := by
    intro hx₁ q
    have hx₂ : x ∈ db₂.files := by rwa [hfolders]
    rw [(restoreFile_became hx₂ hrest).1.files q, hfolders]
  obtain ⟨r, hr, hof, hs⟩ := hb
  rcases stepAside_rows hprev hside with ⟨rfl, -⟩ | ⟨q, hq, -, hlive, hbecame⟩
  · by_cases hrx : r = x
    · subst hrx
      exact ⟨_, (hback hx _).mpr (.inr rfl), hof, rfl⟩
    · exact ⟨r, (hback hx r).mpr (.inl ⟨hr, hrx⟩), hof, hs⟩
  · have hxq : x ≠ q := by
      rintro rfl
      rw [hlive] at hdead
      cases hdead
    have hx₁ : x ∈ db₁.files := (hbecame.files x).mpr (.inl ⟨hx, hxq⟩)
    by_cases hofx : Of u l x
    · exact ⟨_, (hback hx₁ _).mpr (.inr rfl), hofx, rfl⟩
    · have hother : ∀ z ∈ w.db.files, Of u l z → z.supersededAt = none → z ≠ q →
          Backed (Service.restore v f newPath now w).2.db u l := by
        intro z hz hofz hsz hzq
        refine ⟨z, (hback hx₁ z).mpr (.inl ⟨(hbecame.files z).mpr (.inl ⟨hz, hzq⟩), ?_⟩), hofz, hsz⟩
        rintro rfl
        exact hofx hofz
      by_contra hnone
      have hlast : ∀ z ∈ w.db.files, Of u l z → z.supersededAt = none → z = q := by
        intro z hz hofz hsz
        by_contra hzq
        exact hnone (hother z hz hofz hsz hzq)
      obtain rfl := hlast r hr hof hs
      have haside : aside now r ∈ (Service.restore v f newPath now w).2.db.files := by
        refine (hback hx₁ _).mpr (.inl ⟨(hbecame.files _).mpr (.inr rfl), ?_⟩)
        intro heq
        have hid : x.fileId = r.fileId := by rw [← heq]; rfl
        exact hxq (eq_of_key w.db.constraints.fileIds hx hr hid)
      refine hstranded ⟨v, f, newPath, now, rfl, fun y hy => ?_, r, hr, hof, ?_, hlast⟩
      · obtain ⟨hy, hyf⟩ := rowOf_some hy
        obtain rfl := eq_of_key w.db.constraints.fileIds hy hx (hyf.trans hid.symm)
        exact hofx
      · exact ⟨r, rowOf_mem hr, hlive, aside now r, rowOf_mem haside, rfl⟩

/-- A call that takes no row of the lineage and does not leave it to its old versions alone. -/
theorem op_backed {o : Op} (hL : Listed o) (hp : ¬ Purged w.db (o.leaves P key w).db u l)
    (hs : ¬ Stranded w.db (o.leaves P key w).db o u l) (hb : Backed w.db u l) :
    Backed (o.leaves P key w).db u l := by
  have hedits : (∀ v f, ¬ o.Deletes w.db v f) → (∀ r, ¬ o.Supersedes r) →
      Backed (o.leaves P key w).db u l := by
    intro hdel hsup
    have hstep : OpStep P o w.db (o.leaves P key w).db := op_step P key o w
    obtain ⟨mid, rfl | ⟨r, -, now, -, hsel, -⟩, hrest⟩ := hstep
    · exact edits_backed hrest hdel hb
    · exact absurd hsel (hsup r)
  cases o with
  | push v path data m now => exact push_backed hb
  | restore v f newPath now => exact restore_backed hs hb
  | trash v f now => exact hedits (fun _ _ => id) fun _ => id
  | trashPath v path now => exact hedits (fun _ _ => id) fun _ => id
  | rename v fromPath toPath => exact hedits (fun _ _ => id) fun _ => id
  | mkdir v path => exact hedits (fun _ _ => id) fun _ => id
  | purgeFile v f => exact culls_backed (culls_purgeFile v f w) hp hb
  | emptyTrash v => exact culls_backed (culls_emptyTrash v w) hp hb
  | purgeRetired policy t t' => exact culls_backed (culls_purgeRetired policy t t' w) hp hb
  | packFiles v entries packId now => exact hL.elim
  | compactPack v old survivors new now => exact hL.elim
  | repackSmallFiles v mints now => exact hL.elim
  | setLocation frag location => exact hL.elim

end

/-! ### Runs -/

section
variable {K : Type} (P : Prims K) (key : K)

/-- Behind every old version that was set aside, and whose lineage nothing has happened to since, there
is a row to restore. -/
def Held (s : Tracked) : Prop :=
  ∀ r ∈ s.world.db.files, r.supersededAt.isSome = true → s.kept r.fileId →
    Backed s.world.db r.userId r.lineageId

variable {P key}

theorem step_held {s : Tracked} {a : Op × List Event} (hL : Listed a.1) (h : Held s) :
    Held (step P key s a) := by
  intro q hq hs hkept
  obtain ⟨r, hrow, hwas, hpurged, hstranded⟩ := hkept
  obtain ⟨hr, hid⟩ := rowOf_some hrow
  have hstep : OpStep P a.1 s.world.db (step P key s a).world.db := op_step P key a.1 { s.world with script := a.2 }
  obtain ⟨r₀, hr₀, hline, hstate⟩ := opStep_old hstep hq hs
  obtain rfl := eq_of_key s.world.db.constraints.fileIds hr₀ hr (hline.id.trans hid.symm)
  rw [← hline.user, ← hline.lineage]
  refine op_backed hL hpurged hstranded ?_
  -- live itself, or an old version already
  cases hlive : r₀.live with
  | true => exact ⟨r₀, hr, ⟨rfl, rfl⟩, (live_stamps hlive).2⟩
  | false =>
    rcases hwas with ⟨r₁, hrow₁, hlive₁, -⟩ | hkept
    · rw [hrow] at hrow₁
      cases hrow₁
      rw [hlive₁] at hlive
      cases hlive
    · have hsame : r₀.supersededAt = q.supersededAt := by
        rcases hstate with hlive₀ | hsame
        · rw [hlive₀] at hlive
          cases hlive
        · exact hsame
      exact h r₀ hr (by rw [hsame]; exact hs) (hid.symm ▸ hkept)

theorem held_of_listed {as : List (Op × List Event)} (hL : ∀ a ∈ as, Listed a.1) :
    Held (run (step P key) start as) := by
  have hall : AllMeet (step P key) (fun _ a => Listed a.1) start as := allMeet_of_forall hL
  exact run_invariant (fun _ _ h hL => step_held hL h) (fun _ hr => absurd hr List.not_mem_nil) hall

theorem step_world (s : Tracked) (a : Op × List Event) :
    (step P key s a).world = Operations.step P key s.world a := rfl

theorem run_world (as : List (Op × List Event)) (s : Tracked) :
    (run (step P key) s as).world = run (Operations.step P key) s.world as := by
  induction as generalizing s with
  | nil => rfl
  | cons a as ih => exact ih (step P key s a)

end

/-! ### The rows a sweep leaves -/

/-- The old versions of the lineage that the version list has above `r`. -/
def versionsAbove (db : Db) (r : FileRec) : ℕ :=
  db.files.countP fun q => q.supersededAt.isSome && sameLineage q r && newer q r

/-- What the policy promises to leave. -/
inductive Promised (s : Tracked) (policy : RetentionPolicy) (nowTrash nowVersion : Time) (r : FileRec) : Prop
  | live (h : r.live = true)
  | trashed (at' : Time) (h : r.deletedAt = some at')
      (hage : nowTrash - at' ≤ min policy.trashDays 36500 * DAY)
  | version (at' : Time) (h : r.supersededAt = some at')
      (hage : nowVersion - at' ≤ min policy.versionDays 36500 * DAY)
      (hrank : (versionsAbove s.world.db r : ℤ) < policy.keepVersions) (hkept : s.kept r.fileId)

theorem before_cutoff {at' now : Time} {days : ℤ} (h : now - at' ≤ min days 36500 * DAY) :
    before (some at') (cutoff now days) = false := by
  have hday : (0 : ℤ) ≤ DAY := by decide
  have hmax : min days 36500 * DAY ≤ max 0 (min days 36500) * DAY :=
    mul_le_mul_of_nonneg_right (le_max_right ..) hday
  have hle : cutoff now days ≤ at' := sub_le_comm.mp (h.trans hmax)
  exact decide_eq_false (not_lt.mpr hle)

/-- No rule selects a row but one that reads its own stamps, its own rank or its own lineage. -/
theorem candidate_row {db : Db} {policy : RetentionPolicy} {t v : Time} {r : FileRec} (hr : r ∈ db.files)
    {c : PurgeCandidate} (hc : c ∈ retiredCandidates db policy t v) (hid : r.fileId = c.2.1) :
    before r.deletedAt (cutoff t policy.trashDays) = true ∨
      before r.supersededAt (cutoff v policy.versionDays) = true ∨
      (r.supersededAt.isSome && max policy.keepVersions 0 < (rowNumber db r : ℤ)) = true ∨
      isOrphan db r = true := by
  have hown : ∀ p : FileRec → Bool, c ∈ (db.files.filter p).map FileRec.candidate → p r = true := by
    intro p hc
    obtain ⟨q, hq, rfl⟩ := List.mem_map.mp hc
    obtain ⟨hq, hp⟩ := List.mem_filter.mp hq
    obtain rfl := eq_of_key db.constraints.fileIds hr hq hid
    exact hp
  rw [retiredCandidates, List.mem_append, List.mem_append, List.mem_append] at hc
  rcases hc with ((hc | hc) | hc) | hc
  · exact .inl (hown _ hc)
  · exact .inr (.inl (hown _ hc))
  · exact .inr (.inr (.inl (hown _ hc)))
  · exact .inr (.inr (.inr (hown _ hc)))

theorem not_orphan {db : Db} {r : FileRec} (h : Backed db r.userId r.lineageId) : isOrphan db r = false := by
  obtain ⟨q, hq, ⟨hu, hl⟩, hs⟩ := h
  have hany : db.files.any (fun l => sameLineage l r && l.supersededAt.isNone) = true := by
    refine List.any_eq_true.mpr ⟨q, hq, ?_⟩
    rw [sameLineage, hu, hl, hs]
    simp
  rw [isOrphan, hany, Bool.not_true, Bool.and_false]

section
variable {K : Type} (P : Prims K) (key : K)

/-- After any run of the calls that store, hide, move and purge files, whatever fails in them, a sweep
leaves every live row, every row that is in the trash for less than its time, and every version
that was set aside for less than its time, that is among the newest of its lineage, and of whose
lineage nothing has been purged or left without a row to restore since. -/
theorem run_retained {as : List (Op × List Event)} (hL : ∀ a ∈ as, Listed a.1) {w : World}
    (hw : w.db = (run (step P key) start as).world.db) (policy : RetentionPolicy)
    (nowTrash nowVersion : Time) {r : FileRec} (hr : r ∈ w.db.files)
    (hp : Promised (run (step P key) start as) policy nowTrash nowVersion r) :
    r ∈ (purgeRetired policy nowTrash nowVersion w).2.db.files := by
  refine (culls_purgeRetired policy nowTrash nowVersion w).stay r hr fun c hc hid => ?_
  rw [hw] at hr hc
  have hfiled : Filed r := by
    refine reached_filed P key ⟨as, ?_⟩ r hr
    exact (run_world as start).symm
  have hsel := candidate_row hr hc hid
  cases hp with
  | live hlive =>
    obtain ⟨hd, hs⟩ := live_stamps hlive
    rw [isOrphan, hd, hs] at hsel
    simp [before] at hsel
  | trashed at' hat hage =>
    have hs : r.supersededAt = none := by
      cases hs : r.supersededAt with
      | none => rfl
      | some at'' => exact (hfiled.once (by rw [hat]; rfl) (by rw [hs]; rfl)).elim
    rw [isOrphan, hat, hs, before_cutoff hage] at hsel
    simp [before] at hsel
  | version at' hat hage hrank hkept =>
    have hd : r.deletedAt = none := by
      cases hd : r.deletedAt with
      | none => rfl
      | some at'' => exact (hfiled.once (by rw [hd]; rfl) (by rw [hat]; rfl)).elim
    have hback : isOrphan (run (step P key) start as).world.db r = false :=
      not_orphan (held_of_listed hL r hr (by rw [hat]; rfl) hkept)
    have hrow : ¬ max policy.keepVersions 0 < (rowNumber (run (step P key) start as).world.db r : ℤ) := by
      have hnum : rowNumber (run (step P key) start as).world.db r =
          versionsAbove (run (step P key) start as).world.db r + 1 := rfl
      omega
    rw [hd, hat, before_cutoff hage] at hsel
    rcases hsel with hsel | hsel | hsel | hsel
    · cases hsel
    · cases hsel
    · rw [Bool.and_eq_true, decide_eq_true_eq] at hsel
      exact hrow hsel.2
    · rw [show isOrphan _ r = false from hback] at hsel
      cases hsel

end

/-! ### A version brought back and replaced again -/

/-- The first version of a file is brought back over the second, and a third replaces it. -/
def broughtBack : World :=
  run (Operations.step (Sample.sample []) .node) emptyWorld
    [(.push ['u'] ['p'] [1, 2] ['a'] 1, []), (.push ['u'] ['p'] [3] ['b'] 2, []),
      (.restore ['u'] ['a'] none 3, []), (.push ['u'] ['p'] [4] ['c'] 4, [])]

/-- What it held last is gone with the next sweep: the rank goes by the time of the upload, and all three
uploads are there until then. -/
theorem lastVersion_swept : broughtBack.db.files.length = 3 ∧ ∃ r ∈ broughtBack.db.files,
    r.supersededAt = some 4 ∧ 5 - 4 < 90 * DAY ∧
      (∀ q ∈ broughtBack.db.files, q.fileId ≠ r.fileId → ∀ t ∈ q.supersededAt, t < 4) ∧
      r ∉ (purgeRetired { keepVersions := 1 } 5 5 (faultless broughtBack)).2.db.files := by
  decide +kernel

section
variable {K : Type} {P : Prims K} {key : K}

/-- An upload that sets a row aside and takes none. -/
theorem push_kept {s : Tracked} {w' : World} {v path m : Text} {data : Bytes} {now : Time}
    {script : List Event} {r q : FileRec}
    (hw : Operations.step P key s.world (.push v path data m now, script) = w')
    (hr : r ∈ s.world.db.files) (hlive : r.live = true) (hq : q ∈ w'.db.files) (hid : q.fileId = r.fileId)
    (hs : q.supersededAt.isSome = true)
    (hall : ∀ z ∈ s.world.db.files, (rowOf w'.db z.fileId).isSome = true) :
    (step P key s (.push v path data m now, script)).kept q.fileId := by
  have hrow : rowOf s.world.db q.fileId = some r := by
    rw [hid]
    exact rowOf_mem hr
  have haside : SetAside s.world.db w'.db q.fileId := ⟨r, hrow, hlive, q, rowOf_mem hq, hs⟩
  have hpurged : ¬ Purged s.world.db w'.db r.userId r.lineageId := by
    rintro ⟨z, hz, -, hgone⟩
    have hthere := hall z hz
    rw [hgone] at hthere
    cases hthere
  have hstranded : ¬ Stranded s.world.db w'.db (.push v path data m now) r.userId r.lineageId := by
    rintro ⟨v, f, newPath, now, ho, -⟩
    cases ho
  rw [step]
  dsimp only
  rw [hw]
  exact ⟨r, hrow, .inl haside, hpurged, hstranded⟩

end

/-- A file that is pushed once, and once more. -/
def pushedOnce : Tracked :=
  run (step (Sample.sample []) .node) start [(.push ['u'] ['p'] [1, 2] ['a'] 1, [])]

def pushedTwice : Tracked := step (Sample.sample []) .node pushedOnce (.push ['u'] ['p'] [3] ['b'] 2, [])

theorem secondPush_retained : ∃ r ∈ pushedTwice.world.db.files, r.fileId = ['a'] ∧
    r.supersededAt = some 2 ∧ r ∈ (purgeRetired {} 5 5 (faultless pushedTwice.world)).2.db.files := by
  have hold : ∃ r ∈ pushedOnce.world.db.files, r.fileId = ['a'] ∧ r.live = true := by decide +kernel
  have hrow : ∃ r ∈ pushedTwice.world.db.files, r.fileId = ['a'] ∧ r.supersededAt = some 2 ∧
      versionsAbove pushedTwice.world.db r = 0 := by decide +kernel
  have hall : ∀ q ∈ pushedOnce.world.db.files, (rowOf pushedTwice.world.db q.fileId).isSome = true := by
    decide +kernel
  obtain ⟨r₁, hr₁, hid₁, hlive⟩ := hold
  obtain ⟨r, hr, hid, hs, hrank⟩ := hrow
  have hstep : Operations.step (Sample.sample []) .node pushedOnce.world
      (.push ['u'] ['p'] [3] ['b'] 2, []) = pushedTwice.world := by
    rw [pushedTwice, step_world]
  have hkept : pushedTwice.kept r.fileId :=
    push_kept hstep hr₁ hlive hr (hid.trans hid₁.symm) (by rw [hs]; rfl) hall
  have hpromised : Promised pushedTwice {} 5 5 r := by
    have hage : (5 : ℤ) - 2 ≤ min (90 : ℤ) 36500 * DAY := by decide
    have hnewest : (versionsAbove pushedTwice.world.db r : ℤ) < 3 := by
      rw [hrank]
      decide
    exact .version 2 hs hage hnewest hkept
  have hL : ∀ a ∈ [((.push ['u'] ['p'] [1, 2] ['a'] 1 : Op), ([] : List Event)),
      (.push ['u'] ['p'] [3] ['b'] 2, [])], Listed a.1 := by
    intro a ha
    rcases List.mem_pair.mp ha with rfl | rfl <;> trivial
  have hrun : run (step (Sample.sample []) .node) start [((.push ['u'] ['p'] [1, 2] ['a'] 1 : Op),
      ([] : List Event)), (.push ['u'] ['p'] [3] ['b'] 2, [])] = pushedTwice := rfl
  rw [← hrun] at hpromised
  have hsame : (faultless pushedTwice.world).db = pushedTwice.world.db := by rw [faultless]
  have hcalm : r ∈ (faultless pushedTwice.world).db.files := by
    rw [hsame]
    exact hr
  have hdb : (faultless pushedTwice.world).db = (run (step (Sample.sample []) .node) start
      [((.push ['u'] ['p'] [1, 2] ['a'] 1 : Op), ([] : List Event)),
        (.push ['u'] ['p'] [3] ['b'] 2, [])]).world.db := by
    rw [hrun, hsame]
  exact ⟨r, hr, hid, hs, run_retained (Sample.sample []) .node hL hdb {} 5 5 hcalm hpromised⟩

end P2pnas.Store.Retention
