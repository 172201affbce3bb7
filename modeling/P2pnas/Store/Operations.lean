import Mathlib.Logic.Relation
import P2pnas.Lib.Runs
import P2pnas.Store.Packing
import P2pnas.Store.Reading

/-!
# Operations and the edits they make (`service.rs`, `manifest.rs`)

Every call that writes the manifest, as one type, and the manifests that runs of them reach,
each call under its own script of faults. `op_step` says once what a call can do to the
manifest: it supersedes at most one row, as its first write, and goes on with edits of the
rows it read. Invariants of all reachable manifests follow by a case split on the edits.
-/

namespace P2pnas.Store.Operations
open P2pnas.Lib.Frames P2pnas.Lib.Strings P2pnas.Lib.Tables P2pnas.Lib.Runs P2pnas.Core.Base
open P2pnas.Core.Pipeline P2pnas.Store.Manifest P2pnas.Store.Session P2pnas.Store.Reading
open P2pnas.Store.Service P2pnas.Store.Packing Relation

variable {K : Type} (P : Prims K) (key : K)

/-- `set_location`: one statement. -/
def setLocation (frag location : Text) : Svc Unit := stmt fun db => some (setShardLocation db frag location)

inductive Op where
  | push (u path : Text) (data : Bytes) (mint : Text) (now : Time)
  | trash (u f : Text) (now : Time)
  | trashPath (u path : Text) (now : Time)
  | restore (u f : Text) (newPath : Option Text) (now : Time)
  | rename (u fromPath toPath : Text)
  | mkdir (u path : Text)
  | purgeFile (u f : Text)
  | emptyTrash (u : Text)
  | purgeRetired (policy : RetentionPolicy) (nowTrash nowVersion : Time)
  | packFiles (u : Text) (entries : List PackEntry) (packId : Text) (now : Time)
  | compactPack (u oldPackId : Text) (survivors : List PackEntry) (newPackId : Text) (now : Time)
  | repackSmallFiles (u : Text) (mints : ℕ → Text) (now : Time)
  | setLocation (frag location : Text)

/-- The world a call leaves. -/
def Op.leaves (w : World) : Op → World
  | .push u path data mint now => (Service.push P key u path data mint now w).2
  | .trash u f now => (Service.trash u f now w).2
  | .trashPath u path now => (Service.trashPath u path now w).2
  | .restore u f newPath now => (Service.restore u f newPath now w).2
  | .rename u fromPath toPath => (Service.rename u fromPath toPath w).2
  | .mkdir u path => (Service.mkdir u path w).2
  | .purgeFile u f => (Service.purgeFile u f w).2
  | .emptyTrash u => (Service.emptyTrash u w).2
  | .purgeRetired policy t v => (Service.purgeRetired policy t v w).2
  | .packFiles u entries packId now => (Packing.packFiles P key u entries packId now w).2
  | .compactPack u old survivors new now => (Packing.compactPack P key u old survivors new now w).2
  | .repackSmallFiles u mints now => (Packing.repackSmallFiles P key u mints now w).2
  | .setLocation frag location => (Operations.setLocation frag location w).2

/-- One call under a script of its own. -/
def step (w : World) (a : Op × List Event) : World :=
  a.1.leaves P key { w with script := a.2 }

/-- A manifest and a shard store with nothing in them. -/
def emptyWorld : World := ⟨Db.empty, fun _ => none, []⟩

/-- The worlds that runs from the empty manifest end in. -/
def Reached (w : World) : Prop := ∃ as, run (step P key) emptyWorld as = w

/-! ### Edits -/

/-- The rows a call inserts. -/
def Op.Inserts : Op → FileRow → Prop
  | .push u path data mint now, row =>
    ∃ chunks lineage, row = pushRow P u path mint data now chunks lineage
  | .packFiles u _ packId now, row =>
    ∃ plain chunks, row = pushRow P u (packKey packId) packId plain now chunks packId
  | .compactPack u _ _ newPackId now, row =>
    ∃ plain chunks, row = pushRow P u (packKey newPackId) newPackId plain now chunks newPackId
  | .repackSmallFiles u mints now, row =>
    ∃ i plain chunks, row = pushRow P u (packKey (mints i)) (mints i) plain now chunks (mints i)
  | _, _ => False

/-- The live rows that a call on `b` moves to the trash. -/
def Op.Trashes (b : Db) : Op → FileRec → Prop
  | .trash u f _, r => r.userId = u ∧ r.fileId = f
  | .trashPath u path _, r => r.userId = u ∧
    (r.path = trimMatches slash path ∧ notPack r.path = true ∨
      getFileByPath b u (trimMatches slash path) = none ∧
        underPath (trimMatches slash path) r.path = true)
  | _, _ => False

/-- The live rows a call sets aside, each at the path the call writes. -/
def Op.Supersedes : Op → FileRec → Prop
  | .push u path _ _ _, r => r.userId = u ∧ r.path = path ∧ notPack r.path = true
  | .restore u f _ _, r => r.userId = u ∧ r.fileId ≠ f ∧ notPack r.path = true
  | _, _ => False

/-- The row a call brings back, and where to. -/
def Op.RestoresTo : Op → FileRec → Text → Prop
  | .restore u f newPath _, r, path => r.userId = u ∧ r.fileId = f ∧
    path = trimMatches slash (newPath.getD r.view.path) ∧ path ≠ []
  | _, _, _ => False

/-- The live rows that a call on `b` moves to another path. -/
def Op.Repaths (b : Db) : Op → FileRec → Text → Prop
  | .rename u fromPath toPath, r, path => r.userId = u ∧ trimMatches slash toPath ≠ [] ∧
    (r.path = trimMatches slash fromPath ∧ notPack r.path = true ∧ path = trimMatches slash toPath ∨
      getFileByPath b u (trimMatches slash fromPath) = none ∧
        underPath (trimMatches slash fromPath) r.path = true ∧
        ∃ suffix, sliceFrom r.path (byteLen (trimMatches slash fromPath)) = some suffix ∧
          path = trimMatches slash toPath ++ suffix)
  | _, _, _ => False

/-- The rows that a call on `b` destroys. -/
def Op.Deletes (b : Db) : Op → Text → Text → Prop
  | .purgeFile u f, v, g => v = u ∧ g = f
  | .emptyTrash u, v, g => v = u ∧ ∃ row ∈ listTrashed b u, row.fileId = g
  | .purgeRetired policy t v, w, g => ∃ c ∈ retiredCandidates b policy t v, c.1 = w ∧ c.2.1 = g
  | .compactPack u old _ _ _, v, g => v = u ∧ g = old
  | _, _, _ => False

/-- Where a folder row comes from: it was there, `insert_folder` made it, or a rename moved it. -/
inductive FolderOrigin (db : Db) : FolderRow → Prop where
  | kept {r : FolderRow} (h : r ∈ db.folders) : FolderOrigin db r
  | made {r : FolderRow} (u path : Text) (h : r ∈ folderRowsFor u path) : FolderOrigin db r
  | moved (r : FolderRow) (h : r ∈ db.folders) (toPath suffix : Text) (n : ℕ)
      (hto : trimMatches slash toPath ≠ []) (hs : sliceFrom r.path n = some suffix) :
      FolderOrigin db { r with
        path := trimMatches slash toPath ++ suffix
        parent := dirname (trimMatches slash toPath ++ suffix) }

/-- One statement of a call on `b`, other than the one that supersedes; a row that it trashes,
brings back or moves is still as the call found it. -/
inductive Edit (o : Op) (b db : Db) : Db → Prop where
  | insert {db' : Db} (row : FileRow) (hrow : o.Inserts P row) (h : insertFile db row = some db') :
      Edit o b db db'
  | chunk {db' : Db} (c : ChunkRow) (h : insertChunk db c = some db') : Edit o b db db'
  | shard {db' : Db} (s : ShardRow) (hvalid : isValidFragmentId s.fragmentId = true)
      (h : insertShard db s = some db') : Edit o b db db'
  | trash {db' : Db} (r : FileRec) (now : Time) (hb : r ∈ b.files) (hr : r ∈ db.files) (hlive : r.live = true)
      (hsel : o.Trashes b r) (h : trashFile db r.userId r.fileId now = some db') : Edit o b db db'
  | restore {db' : Db} (r : FileRec) (path : Text) (hb : r ∈ b.files) (hr : r ∈ db.files)
      (hlive : r.live = false)
      (hsel : o.RestoresTo r path) (h : restoreFile db r.userId r.fileId path = some db') :
      Edit o b db db'
  | repath {db' : Db} (r : FileRec) (path : Text) (hb : r ∈ b.files) (hr : r ∈ db.files)
      (hlive : r.live = true)
      (hsel : o.Repaths b r path) (h : updateFilePath db r.userId r.fileId path = some db') :
      Edit o b db db'
  | assign {db' : Db} (u f packId : Text) (offset len : ℤ)
      (h : assignToPack db u f packId offset len = some db') : Edit o b db db'
  | delete (u f : Text) (hsel : o.Deletes b u f) : Edit o b db (deleteFile db u f)
  | strip (u f : Text) : Edit o b db (deleteChunks db u f)
  | folders {db' : Db} (hf : db'.files = db.files) (hc : db'.chunks = db.chunks)
      (hs : db'.shards = db.shards)
      (hrows : ∀ r ∈ db'.folders, FolderOrigin db r) : Edit o b db db'
  | location (frag location : Text) : Edit o b db (setShardLocation db frag location)

/-- A call sets a live row aside. -/
def SetsAside (o : Op) (db db' : Db) : Prop :=
  ∃ r ∈ db.files, ∃ now, r.live = true ∧ o.Supersedes r ∧
    supersedeFile db r.userId r.fileId now = some db'

/-- What a call does to the manifest. -/
def OpStep (o : Op) (db db' : Db) : Prop :=
  ∃ mid, (mid = db ∨ SetsAside o db mid) ∧ ReflTransGen (Edit P o db) mid db'

/-- The manifest moves by edits of the call on `b`. -/
def Edits (o : Op) (b : Db) (w w' : World) : Prop := ReflTransGen (Edit P o b) w.db w'.db

theorem edits_frame (o : Op) (b : Db) : Frame (Edits P o b) where
  refl _ _ := .refl
  trans _ _ _ h h' := h.trans h'

section
variable {P} {o : Op} {b : Db} {α β : Type}

theorem edits_of_eq {w w' : World} (h : w'.db = w.db) : Edits P o b w w' := by
  rw [Edits, h]

theorem edits_stmt {f : Db → Option Db} (hf : ∀ db db', f db = some db' → Edit P o b db db') :
    Moves (Edits P o b) (stmt f) :=
  moves_stmt (edits_frame P o b) fun _ _ h => .single (hf _ _ h)

theorem stmt_cases (f : Db → Option Db) (w : World) :
    (stmt f w).2.db = w.db ∨ f w.db = some (stmt f w).2.db := by
  cases hx : stmt f w with
  | mk r w' =>
    cases r with
    | error e => exact .inl (stmt_error hx).1
    | ok _ => exact .inr (stmt_ok hx).1

theorem edits_stmt_at {f : Db → Option Db} {w : World}
    (hf : ∀ db', f w.db = some db' → Edit P o b w.db db') : Edits P o b w (stmt f w).2 := by
  rcases stmt_cases f w with h | h
  · exact edits_of_eq h
  · exact .single (hf _ h)

theorem edits_transaction {body : Svc α} {w : World} (h : Edits P o b w (body w).2) :
    Edits P o b w (transaction body w).2 := by
  cases hx : transaction body w with
  | mk r w' =>
    cases r with
    | error e => exact edits_of_eq (transaction_error hx)
    | ok a =>
      obtain ⟨w₁, hb, hdb, -⟩ := transaction_ok hx
      rw [hb] at h
      rw [Edits, hdb]
      exact h

/-- A sequence edits when its first part does and what follows does from where that ended. -/
theorem edits_bind {x : Svc α} {g : α → Svc β} {w : World} (hx : Edits P o b w (x w).2)
    (hg : ∀ a w₁, x w = (.ok a, w₁) → Edits P o b w₁ (g a w₁).2) : Edits P o b w ((x >>= g) w).2 := by
  rcases bind_cases x g w with ⟨e, w₁, h, hb⟩ | ⟨a, w₁, h, hb⟩
  · rw [hb]
    rw [h] at hx
    exact hx
  · rw [hb]
    rw [h] at hx
    exact ReflTransGen.trans hx (hg a w₁ h)

/-- What follows a `SELECT` knows that its answer is true of the manifest. -/
theorem edits_query_bind {f : Db → α} {g : α → Svc β} {w : World}
    (hg : ∀ w₁, w₁.db = w.db → Edits P o b w₁ (g (f w.db) w₁).2) :
    Edits P o b w ((query f >>= g) w).2 := by
  refine edits_bind (moves_query (edits_frame P o b) f w) fun a w₁ h => ?_
  obtain ⟨rfl, hdb, -⟩ := query_ok h
  exact hg w₁ hdb

theorem edits_insertFolderSvc (u path : Text) : Moves (Edits P o b) (insertFolderSvc u path) := by
  have hR := edits_frame P o b
  refine moves_bind hR (moves_collect hR fun row hrow => edits_stmt fun db db' h => ?_) fun _ =>
    moves_pure hR ()
  cases h
  unfold insertFolderRow
  split
  · exact .folders rfl rfl rfl fun r hr => .kept hr
  · refine .folders rfl rfl rfl fun r hr => ?_
    rcases List.mem_append.mp hr with hold | hnew
    · exact .kept hold
    · exact .made u path (List.mem_singleton.mp hnew ▸ hrow)

theorem storeWrite_valid {frag : Text} {data : Bytes} {w w' : World}
    (h : storeWrite frag data w = (.ok (), w')) : isValidFragmentId frag = true := by
  unfold storeWrite at h
  split at h
  · next hvalid => exact hvalid
  · cases h

theorem edits_writeChunkRows (m : Text) (chunks : List ProcessedChunk) :
    Moves (Edits P o b) (writeChunkRows P m chunks) := by
  have hR := edits_frame P o b
  refine moves_bind hR (moves_collect hR fun c _ => ?_) fun _ => moves_pure hR ()
  refine moves_bind hR (edits_stmt fun db db' h => .chunk _ h) fun _ =>
    moves_bind hR (moves_collect hR fun i _ => ?_) fun _ => moves_pure hR ()
  refine moves_bind hR (moves_outcome hR _) fun bytes w =>
    edits_bind (moves_storeWrite hR (fun _ _ => .refl) w) fun _ w₁ hw => ?_
  exact edits_stmt_at fun db' h => .shard _ (storeWrite_valid hw) h

theorem edits_purgeFileRow {u f : Text} (hsel : o.Deletes b u f) :
    Moves (Edits P o b) (purgeFileRow u f) := by
  have hR := edits_frame P o b
  refine moves_bind hR (moves_query hR _) fun frags =>
    moves_bind hR (edits_stmt fun db db' h => ?_) fun _ => moves_pure hR _
  cases h
  exact .delete u f hsel

theorem edits_purgeLocal (frags : List RemoteShard) :
    Moves (Edits P o b) (purgeLocalCollectRemote frags) := by
  have hR := edits_frame P o b
  refine moves_bind hR (moves_collect hR fun s _ w => ?_) fun _ => moves_pure hR _
  apply edits_of_eq
  unfold storeDelete
  split
  · split
    · rfl
    · rfl
  · rfl

/-! ### Statements on rows that were read -/

/-- A row that an update does not select stays. -/
theorem mem_updateFiles {db db' : Db} {sel : FileRec → Bool} {set : FileRec → FileRec}
    {hid : ∀ r, (set r).fileId = r.fileId} (h : updateFiles db sel set hid = some db') {r : FileRec}
    (hr : r ∈ db.files) (hno : sel r = false) : r ∈ db'.files := by
  rw [updateFiles_some h]
  exact mem_update.mpr ⟨r, hr, .inr ⟨hno, rfl⟩⟩

theorem isRow_other {u f : Text} {r : FileRec} (h : r.fileId ≠ f) : isRow u f r = false := by
  simp [isRow, h]

theorem mem_of_isRow {db : Db} {u f : Text} {row : FileRow} (h : getFile db u f = some row) :
    ∃ r ∈ db.files, r.userId = u ∧ r.fileId = f ∧ r.view = row := by
  obtain ⟨r, hr, hview⟩ := Option.map_eq_some_iff.mp h
  have hsel := List.find?_some hr
  rw [isRow, Bool.and_eq_true, decide_eq_true_eq, decide_eq_true_eq] at hsel
  exact ⟨r, List.mem_of_find?_eq_some hr, hsel.1, hsel.2, hview⟩

theorem mem_of_path {db : Db} {u path : Text} {row : FileRow} (h : getFileByPath db u path = some row) :
    ∃ r ∈ db.files, r.userId = u ∧ r.path = path ∧ r.live = true ∧ notPack r.path = true ∧
      r.view = row := by
  obtain ⟨r, hr, hview⟩ := Option.map_eq_some_iff.mp h
  have hsel := List.find?_some hr
  simp only [Bool.and_eq_true, decide_eq_true_eq] at hsel
  obtain ⟨⟨⟨hu, hp⟩, hl⟩, hn⟩ := hsel
  exact ⟨r, List.mem_of_find?_eq_some hr, hu, hp, hl, hn, hview⟩

/-- The rows `files_under` lists, each once. -/
theorem filesUnder_rows (db : Db) (u path : Text) :
    ((filesUnder db u path).map Prod.fst).Nodup ∧ ∀ f ∈ filesUnder db u path, ∃ r ∈ db.files,
      r.userId = u ∧ r.fileId = f.1 ∧ r.path = f.2 ∧ r.live = true ∧ underPath path r.path = true := by
  have hperm := List.perm_insertionSort (fun a b : Text × Text => textLe a.2 b.2)
    ((db.files.filter fun r => r.userId = u && underPath path r.path && r.live).map
      fun r => (r.fileId, r.path))
  constructor
  · refine ((hperm.map Prod.fst).nodup_iff).mpr ?_
    rw [List.map_map]
    exact nodup_filter _ db.constraints.fileIds
  · intro f hf
    obtain ⟨r, hr, rfl⟩ := List.mem_map.mp (hperm.mem_iff.mp hf)
    obtain ⟨hmem, hsel⟩ := List.mem_filter.mp hr
    simp only [Bool.and_eq_true, decide_eq_true_eq] at hsel
    exact ⟨r, hmem, hsel.1.1, rfl, rfl, hsel.2, hsel.1.2⟩

/-- A loop over live rows that were listed, each step editing its own row only. -/
theorem edits_rows {g : Text × Text → Svc β} {u : Text} {fs : List (Text × Text)}
    (hg : ∀ f ∈ fs, ∀ w, ∀ r ∈ w.db.files, r ∈ b.files → r.userId = u → r.fileId = f.1 → r.path = f.2 →
      r.live = true → Edits P o b w (g f w).2 ∧
        ∀ q ∈ w.db.files, q.fileId ≠ f.1 → q ∈ (g f w).2.db.files)
    (hn : (fs.map Prod.fst).Nodup) {w : World} (hrows : ∀ f ∈ fs, ∃ r ∈ w.db.files,
      r ∈ b.files ∧ r.userId = u ∧ r.fileId = f.1 ∧ r.path = f.2 ∧ r.live = true) :
    Edits P o b w (collect g fs w).2 := by
  induction fs generalizing w with
  | nil => exact edits_of_eq rfl
  | cons f fs ih =>
    obtain ⟨r, hr, hb, hu, hid, hp, hl⟩ := hrows f (List.mem_cons_self ..)
    obtain ⟨hedit, hkeep⟩ := hg f (List.mem_cons_self ..) w r hr hb hu hid hp hl
    obtain ⟨hne, hn'⟩ := List.nodup_cons.mp hn
    refine edits_bind hedit fun b w₁ hx => edits_bind ?_ fun bs w₂ _ => edits_of_eq rfl
    rw [hx] at hkeep
    refine ih (fun f' hf' => hg f' (List.mem_cons_of_mem _ hf')) hn' fun f' hf' => ?_
    obtain ⟨q, hq, hqb, hqu, hqid, hqp, hql⟩ := hrows f' (List.mem_cons_of_mem _ hf')
    refine ⟨q, hkeep q hq fun heq => hne ?_, hqb, hqu, hqid, hqp, hql⟩
    exact List.mem_map.mpr ⟨f', hf', hqid ▸ heq⟩

end

/-! ### The calls that only edit -/

section
variable {P key} {o : Op} {b : Db}

theorem edits_trash {u f : Text} {now : Time} {w : World}
    (ho : ∀ r : FileRec, r.userId = u → r.fileId = f → o.Trashes w.db r) :
    Edits P o w.db w (trash u f now w).2 := by
  have hR := edits_frame P o w.db
  refine edits_query_bind fun w₁ hdb => edits_bind (edits_of_eq rfl) fun file w₂ ho' => ?_
  obtain ⟨hrow, rfl⟩ := orThrow_ok ho'
  split
  · exact edits_of_eq rfl
  · next hdel =>
    split
    · exact edits_of_eq rfl
    · next hsup =>
      obtain ⟨r, hr, hu, hf, rfl⟩ := mem_of_isRow hrow
      have hlive : r.live = true := by
        rw [Bool.not_eq_true, Option.isSome_eq_false_iff] at hdel hsup
        exact Bool.and_eq_true_iff.mpr ⟨hdel, hsup⟩
      refine edits_bind (edits_stmt_at fun db' h => ?_) fun _ w₃ _ =>
        moves_bind hR (moves_query hR _) (fun row => moves_outcome hR _) w₃
      exact .trash r now hr (hdb ▸ hr) hlive (ho r hu hf) (by rw [hu, hf]; exact h)

/-- One statement on a row, after which the other rows are there. -/
theorem edits_row_stmt {f : Text} {stm : Db → Option Db} {w : World}
    (hedit : ∀ db', stm w.db = some db' → Edit P o b w.db db')
    (hkeep : ∀ db', stm w.db = some db' → ∀ q ∈ w.db.files, q.fileId ≠ f → q ∈ db'.files) :
    Edits P o b w (stmt stm w).2 ∧ ∀ q ∈ w.db.files, q.fileId ≠ f → q ∈ (stmt stm w).2.db.files := by
  refine ⟨edits_stmt_at hedit, fun q hq hne => ?_⟩
  rcases stmt_cases stm w with h | h
  · rw [h]
    exact hq
  · exact hkeep _ h q hq hne

theorem trashFile_keeps {db db' : Db} {u f : Text} {now : Time} (h : trashFile db u f now = some db')
    {q : FileRec} (hq : q ∈ db.files) (hne : q.fileId ≠ f) : q ∈ db'.files := by
  unfold trashFile retireRow at h
  exact mem_updateFiles h hq (by rw [isRow_other hne, Bool.false_and])

theorem updateFilePath_keeps {db db' : Db} {u f path : Text} (h : updateFilePath db u f path = some db')
    {q : FileRec} (hq : q ∈ db.files) (hne : q.fileId ≠ f) : q ∈ db'.files := by
  unfold updateFilePath at h
  exact mem_updateFiles h hq (isRow_other hne)

/-- What follows a statement on a row and edits no more. -/
theorem edits_row_then {f : Text} {x : Svc α} {g : α → Svc β} {w : World}
    (hx : Edits P o b w (x w).2 ∧ ∀ q ∈ w.db.files, q.fileId ≠ f → q ∈ (x w).2.db.files)
    (hg : ∀ a w₁, (g a w₁).2.db = w₁.db) : Edits P o b w ((x >>= g) w).2 ∧
      ∀ q ∈ w.db.files, q.fileId ≠ f → q ∈ ((x >>= g) w).2.db.files := by
  have hsame : ((x >>= g) w).2.db = (x w).2.db := by
    rw [bind_apply]
    cases x w with
    | mk r w₁ =>
      cases r with
      | error e => rfl
      | ok a => exact hg a w₁
  rw [Edits, hsame]
  exact hx

theorem edits_trashUnder {u : Text} {now : Time} {f : Text × Text} {w : World} {r : FileRec}
    (hr : r ∈ w.db.files) (hb : r ∈ b.files) (hu : r.userId = u) (hid : r.fileId = f.1)
    (hl : r.live = true) (ho : o.Trashes b r) : Edits P o b w (trashUnder u now f w).2 ∧
      ∀ q ∈ w.db.files, q.fileId ≠ f.1 → q ∈ (trashUnder u now f w).2.db.files := by
  rw [trashUnder]
  rcases bind_cases (query (getFile · u f.1)) (fun row => stmt (trashFile · u f.1 now) >>= fun _ => pure row) w with
    ⟨e, w₁, hx, hrun⟩ | ⟨row, w₁, hx, hrun⟩
  · have hdb := (query_error hx).1
    rw [hrun]
    exact ⟨edits_of_eq hdb, fun q hq _ => by rw [hdb]; exact hq⟩
  · obtain ⟨-, hdb, -⟩ := query_ok hx
    rw [hrun, Edits, ← hdb]
    refine edits_row_then (edits_row_stmt (fun db' h => ?_) fun db' h q => trashFile_keeps h) fun _ _ => rfl
    exact .trash r now hb (hdb ▸ hr) hl ho (by rw [hu, hid]; exact h)

theorem edits_requireFolder (u path : Text) (files : List (Text × Text)) :
    Moves (Edits P o b) (requireFolder u path files) := by
  have hR := edits_frame P o b
  unfold requireFolder
  split
  · refine moves_bind hR (moves_query hR _) fun there => ?_
    split
    · exact moves_pure hR ()
    · exact moves_outcome hR _
  · exact moves_pure hR ()

theorem requireFolder_db {u path : Text} {files : List (Text × Text)} {w w' : World}
    (h : requireFolder u path files w = (.ok (), w')) : w'.db = w.db := by
  unfold requireFolder at h
  split at h
  · obtain ⟨there, w₁, hq, h⟩ := bind_ok h
    obtain ⟨-, hdb, -⟩ := query_ok hq
    split at h
    · obtain ⟨-, rfl⟩ := pure_ok h
      exact hdb
    · cases h
  · obtain ⟨-, rfl⟩ := pure_ok h
    rfl

theorem edits_trashPath {u path : Text} {now : Time} {w : World} (ho : ∀ r : FileRec, r.userId = u →
    (r.path = trimMatches slash path ∧ notPack r.path = true ∨
      getFileByPath w.db u (trimMatches slash path) = none ∧
        underPath (trimMatches slash path) r.path = true) → o.Trashes w.db r) :
    Edits P o w.db w (trashPath u path now w).2 := by
  have hR := edits_frame P o w.db
  refine edits_transaction (edits_query_bind fun w₁ hdb => ?_)
  cases hfile : getFileByPath w.db u (trimMatches slash path) with
  | some file =>
    obtain ⟨r, hr, hu, hp, hl, hn, rfl⟩ := mem_of_path hfile
    refine edits_bind (edits_stmt_at fun db' h => ?_) fun _ _ _ => edits_of_eq rfl
    exact .trash r now hr (hdb ▸ hr) hl (ho r hu (.inl ⟨hp, hn⟩)) (by rw [hu]; exact h)
  | none =>
    change Edits P o w.db w₁ (trashSubtree u (trimMatches slash path) now w₁).2
    refine edits_query_bind fun w₂ hdb₂ =>
      edits_bind (edits_requireFolder _ _ _ w₂) fun _ w₃ hreq => ?_
    have hdb₃ : w₃.db = w₁.db := (requireFolder_db hreq).trans hdb₂
    obtain ⟨hn, hrows⟩ := filesUnder_rows w₁.db u (trimMatches slash path)
    refine edits_bind (edits_rows (u := u) (fun f hf w₄ r hr hb hu hid hp hl => ?_) hn fun f hf => ?_)
      fun _ w₅ _ => moves_bind hR (edits_stmt fun db db' h => ?_) (fun _ => moves_pure hR _) w₅
    · obtain ⟨q, -, -, -, hqp, -, hund⟩ := hrows f hf
      refine edits_trashUnder hr hb hu hid hl (ho r hu (.inr ⟨hfile, ?_⟩))
      rw [hp, ← hqp]
      exact hund
    · obtain ⟨q, hq, hqu, hqid, hqp, hql, -⟩ := hrows f hf
      exact ⟨q, by rw [hdb₃]; exact hq, hdb ▸ hq, hqu, hqid, hqp, hql⟩
    · cases h
      exact .folders rfl rfl rfl fun r hr => .kept (List.mem_filter.mp hr).1

theorem edits_moveFile {u fromPath toPath : Text} {f : Text × Text} {w : World} {r : FileRec}
    (hr : r ∈ w.db.files) (hb : r ∈ b.files) (hu : r.userId = u) (hid : r.fileId = f.1)
    (hl : r.live = true)
    (ho : ∀ suffix, sliceFrom f.2 (byteLen fromPath) = some suffix → o.Repaths b r (toPath ++ suffix)) :
    Edits P o b w (moveFile u fromPath toPath f w).2 ∧
      ∀ q ∈ w.db.files, q.fileId ≠ f.1 → q ∈ (moveFile u fromPath toPath f w).2.db.files := by
  unfold moveFile suffixOf
  cases hs : sliceFrom f.2 (byteLen fromPath) with
  | none => exact ⟨edits_of_eq rfl, fun q hq _ => hq⟩
  | some suffix =>
    change Edits P o b w (stmt (updateFilePath · u f.1 (toPath ++ suffix)) w).2 ∧
      ∀ q ∈ w.db.files, q.fileId ≠ f.1 → q ∈ (stmt (updateFilePath · u f.1 (toPath ++ suffix)) w).2.db.files
    refine edits_row_stmt (fun db' h => ?_) fun db' h q => updateFilePath_keeps h
    exact .repath r _ hb hr hl (ho suffix hs) (by rw [hu, hid]; exact h)

theorem edits_moveFolder (u fromPath : Text) {toPath : Text} (hto : trimMatches slash toPath ≠ [])
    (path : Text) : Moves (Edits P o b) (moveFolder u fromPath (trimMatches slash toPath) path) := by
  have hR := edits_frame P o b
  unfold moveFolder suffixOf
  cases hs : sliceFrom path (byteLen fromPath) with
  | none => exact fun w => edits_of_eq rfl
  | some suffix =>
    refine fun w => edits_stmt (f := (updateFolderPath · u path (trimMatches slash toPath ++ suffix)))
      (fun db db' h => ?_) w
    have htab := updateFolderPath_some h
    refine .folders (by rw [htab]) (by rw [htab]) (by rw [htab]) fun r hr => ?_
    rw [htab] at hr
    obtain ⟨q, hq, ⟨hsel, rfl⟩ | ⟨-, rfl⟩⟩ := mem_update.mp hr
    · rw [Bool.and_eq_true, decide_eq_true_eq, decide_eq_true_eq] at hsel
      exact .moved q hq toPath suffix _ hto (hsel.2 ▸ hs)
    · exact .kept hq

theorem getFileByPath_of_files {db db' : Db} (h : db'.files = db.files) (u path : Text) :
    getFileByPath db' u path = getFileByPath db u path := by
  rw [getFileByPath, h, getFileByPath]

theorem insertFolderSvc_files {u path : Text} {w w' : World}
    (h : insertFolderSvc u path w = (.ok (), w')) : w'.db.files = w.db.files := by
  have hF : Frame fun w w' : World => w'.db.files = w.db.files := ⟨fun _ _ => rfl, fun _ _ _ h h' => h'.trans h⟩
  have hmove : Moves (fun w w' : World => w'.db.files = w.db.files) (insertFolderSvc u path) := by
    refine moves_bind hF (moves_collect hF fun row _ => moves_stmt hF fun w db h => ?_) fun _ => moves_pure hF ()
    cases h
    unfold insertFolderRow
    split
    · rfl
    · rfl
  have hw := hmove w
  rw [h] at hw
  exact hw

theorem renames_eq {u fromPath toPath : Text} (h : ¬ ((trimMatches slash fromPath).isEmpty ||
    (trimMatches slash toPath).isEmpty || trimMatches slash fromPath == trimMatches slash toPath) = true) :
    rename u fromPath toPath = transaction (do
      insertFolderSvc u (dirname (trimMatches slash toPath))
      let file ← query (getFileByPath · u (trimMatches slash fromPath))
      match file with
      | some file => stmt (updateFilePath · u file.fileId (trimMatches slash toPath))
      | none => renameSubtree u (trimMatches slash fromPath) (trimMatches slash toPath)) := if_neg h

theorem edits_rename {u fromPath toPath : Text} (w : World) :
    Edits P (.rename u fromPath toPath) w.db w (rename u fromPath toPath w).2 := by
  have hR := edits_frame P (.rename u fromPath toPath) w.db
  by_cases hne : ((trimMatches slash fromPath).isEmpty || (trimMatches slash toPath).isEmpty ||
      trimMatches slash fromPath == trimMatches slash toPath) = true
  · have hrun : rename u fromPath toPath = throwErr .notFound := if_pos hne
    rw [hrun]
    exact moves_outcome hR _ w
  · rw [renames_eq hne]
    have hto : trimMatches slash toPath ≠ [] := by
      intro h
      simp [h] at hne
    refine edits_transaction (edits_bind (edits_insertFolderSvc _ _ w) fun _ w₀ hw₀ =>
      edits_query_bind fun w₁ hdb => ?_)
    have hfiles := insertFolderSvc_files hw₀
    cases hfile : getFileByPath w₀.db u (trimMatches slash fromPath) with
    | some file =>
      obtain ⟨r, hr, hu, hp, hl, hn, rfl⟩ := mem_of_path hfile
      exact edits_stmt_at fun db' h =>
        .repath r _ (hfiles ▸ hr) (hdb ▸ hr) hl ⟨hu, hto, .inl ⟨hp, hn, rfl⟩⟩ (by rw [hu]; exact h)
    | none =>
      have hnone := (getFileByPath_of_files hfiles u (trimMatches slash fromPath)).symm.trans hfile
      change Edits P _ w.db w₁ (renameSubtree u (trimMatches slash fromPath) (trimMatches slash toPath) w₁).2
      refine edits_query_bind fun w₂ hdb₂ => edits_query_bind fun w₃ hdb₃ => ?_
      split
      · exact edits_of_eq rfl
      · obtain ⟨hn, hrows⟩ := filesUnder_rows w₁.db u (trimMatches slash fromPath)
        refine edits_bind (edits_rows (u := u) (fun f hf w₄ r hr hb hu hid hp hl => ?_) hn fun f hf => ?_)
          fun _ w₅ _ => moves_bind hR (moves_collect hR fun q _ => edits_moveFolder u _ hto q)
            (fun _ => edits_insertFolderSvc u _) w₅
        · obtain ⟨q, -, -, -, hqp, -, hund⟩ := hrows f hf
          refine edits_moveFile hr hb hu hid hl fun suffix hs =>
            ⟨hu, hto, .inr ⟨hnone, ?_, suffix, ?_, rfl⟩⟩
          · rw [hp, ← hqp]
            exact hund
          · rw [hp]
            exact hs
        · obtain ⟨q, hq, hqu, hqid, hqp, hql, -⟩ := hrows f hf
          refine ⟨q, by rw [hdb₃, hdb₂]; exact hq, ?_, hqu, hqid, hqp, hql⟩
          rw [← hfiles, ← hdb]
          exact hq

theorem edits_purgeFile (u f : Text) : Moves (Edits P (.purgeFile u f) b) (purgeFile u f) := by
  have hR := edits_frame P (.purgeFile u f) b
  exact moves_bind hR (moves_query hR _) fun _ => moves_bind hR (moves_outcome hR _) fun _ =>
    moves_bind hR (edits_purgeFileRow ⟨rfl, rfl⟩) fun frags =>
    moves_bind hR (edits_purgeLocal frags) fun _ => moves_pure hR _

theorem edits_emptyTrash (u : Text) (w : World) :
    Edits P (.emptyTrash u) w.db w (emptyTrash u w).2 := by
  have hR := edits_frame P (.emptyTrash u) w.db
  refine edits_bind (edits_transaction (edits_query_bind fun w₁ _ => ?_)) fun r w₁ _ =>
    moves_bind hR (edits_purgeLocal r.2) (fun _ => moves_pure hR _) w₁
  exact moves_bind hR (moves_collect hR fun row hrow => edits_purgeFileRow ⟨rfl, row, hrow, rfl⟩)
    (fun _ => moves_pure hR _) w₁

theorem firstSeen_subset (seen : List Text) (cs : List PurgeCandidate) : firstSeen seen cs ⊆ cs := by
  induction cs generalizing seen with
  | nil => exact List.Subset.refl _
  | cons c cs ih =>
    rw [firstSeen]
    split
    · exact List.Subset.trans (ih seen) (List.subset_cons_self c cs)
    · exact List.cons_subset_cons c (ih _)

theorem edits_purgeRetired (policy : RetentionPolicy) (t v : Time) (w : World) :
    Edits P (.purgeRetired policy t v) w.db w (purgeRetired policy t v w).2 := by
  have hR := edits_frame P (.purgeRetired policy t v) w.db
  refine edits_bind (edits_transaction (edits_query_bind fun w₁ h₁ => edits_query_bind fun w₂ h₂ =>
    edits_query_bind fun w₃ h₃ => edits_query_bind fun w₄ h₄ => ?_)) fun r w₁ _ =>
      moves_bind hR (edits_purgeLocal r.2) (fun _ => moves_pure hR _) w₁
  rw [h₃, h₂, h₁]
  refine moves_bind hR (moves_collect hR fun c hc => edits_purgeFileRow ⟨c, ?_, rfl, rfl⟩)
    (fun _ => moves_pure hR _) w₄
  exact firstSeen_subset [] _ hc

theorem edits_packMember (u packId : Text) (er : PackEntry × ℕ × ℕ) :
    Moves (Edits P o b) (packMember u packId er) := by
  have hR := edits_frame P o b
  refine moves_bind hR (moves_query hR _) fun _ => moves_bind hR (moves_outcome hR _) fun row => ?_
  split
  · exact moves_outcome hR _
  · refine moves_bind hR (moves_query hR _) fun _ =>
      moves_bind hR (edits_stmt fun db db' h => ?_) fun _ =>
      moves_bind hR (edits_stmt fun db db' h => .assign _ _ _ _ _ h) fun _ => moves_pure hR _
    cases h
    exact .strip _ _

theorem edits_insertPackRow {u packId : Text} {plain : Bytes} {now : Time}
    (ho : ∀ chunks, o.Inserts P (pushRow P u (packKey packId) packId plain now chunks packId)) :
    Moves (Edits P o b) (insertPackRow P key u packId plain now) := by
  have hR := edits_frame P o b
  exact moves_bind hR (moves_outcome hR _) fun chunks =>
    moves_bind hR (edits_stmt fun db db' h => .insert _ (ho chunks) h) fun _ =>
    moves_bind hR (edits_writeChunkRows packId chunks) fun _ => moves_pure hR _

theorem edits_packFiles {u packId : Text} {entries : List PackEntry} {now : Time}
    (ho : ∀ plain chunks, o.Inserts P (pushRow P u (packKey packId) packId plain now chunks packId)) :
    Moves (Edits P o b) (packFiles P key u entries packId now) := by
  have hR := edits_frame P o b
  unfold packFiles
  split
  · exact moves_outcome hR _
  · refine moves_bind hR (moves_outcome hR _) fun built =>
      moves_bind hR (fun w => edits_transaction ?_) fun r =>
      moves_bind hR (edits_purgeLocal _) fun _ => moves_pure hR _
    rw [packFilesTx]
    revert w
    exact moves_bind hR (moves_collect hR fun er _ => edits_packMember u packId er) fun _ =>
      moves_bind hR (edits_insertPackRow (ho _)) fun _ => moves_pure hR _

theorem edits_moveMember (u oldPackId newPackId : Text) (er : PackEntry × ℕ × ℕ) :
    Moves (Edits P o b) (moveMember u oldPackId newPackId er) := by
  have hR := edits_frame P o b
  refine moves_bind hR (moves_query hR _) fun _ => moves_bind hR (moves_outcome hR _) fun row => ?_
  split
  · exact moves_outcome hR _
  · exact edits_stmt fun db db' h => .assign _ _ _ _ _ h

theorem edits_compactPack {u oldPackId newPackId : Text} {survivors : List PackEntry} {now : Time}
    (ho : ∀ plain chunks,
      o.Inserts P (pushRow P u (packKey newPackId) newPackId plain now chunks newPackId))
    (hsel : o.Deletes b u oldPackId) :
    Moves (Edits P o b) (compactPack P key u oldPackId survivors newPackId now) := by
  have hR := edits_frame P o b
  have hbody : Moves (Edits P o b) (compactPackTx P key u oldPackId survivors newPackId now) := by
    refine moves_bind hR (moves_query hR _) fun _ => moves_bind hR (moves_outcome hR _) fun old => ?_
    split
    · refine moves_bind hR (moves_query hR _) fun members => moves_bind hR (moves_outcome hR _) fun _ => ?_
      split
      · exact moves_bind hR (edits_purgeFileRow hsel) fun _ => moves_pure hR _
      · exact moves_bind hR (moves_outcome hR _) fun built =>
          moves_bind hR (moves_collect hR fun er _ => edits_moveMember u oldPackId newPackId er) fun _ =>
          moves_bind hR (edits_insertPackRow (ho _)) fun _ =>
          moves_bind hR (edits_purgeFileRow hsel) fun _ => moves_pure hR _
    · exact moves_outcome hR _
  exact moves_bind hR (fun w => edits_transaction (hbody w)) fun r =>
    moves_bind hR (edits_purgeLocal _) fun _ => moves_pure hR _

theorem edits_repackSmallFiles (u : Text) (mints : ℕ → Text) (now : Time) :
    Moves (Edits P (.repackSmallFiles u mints now) b) (repackSmallFiles P key u mints now) := by
  have hR := edits_frame P (.repackSmallFiles u mints now) b
  refine moves_bind hR (moves_query hR _) fun candidates =>
    moves_bind hR (moves_collect hR fun g hg => ?_) fun _ => moves_pure hR _
  obtain ⟨⟨group, i⟩, -, rfl⟩ := List.mem_map.mp hg
  refine moves_bind hR (moves_collect hR fun f _ => ?_) fun entries =>
    moves_bind hR (edits_packFiles fun plain chunks => ⟨i, plain, chunks, rfl⟩) fun _ => moves_pure hR _
  exact moves_bind hR (Read.moves_run hR _) fun _ => moves_pure hR _

end

/-! ### The calls that supersede -/

section
variable {P key} {o : Op} {α β : Type}

theorem opStep_of_edits {db db' : Db} (h : ReflTransGen (Edit P o db) db db') : OpStep P o db db' :=
  ⟨db, .inl rfl, h⟩

/-- A transaction that does not commit does nothing. -/
theorem opStep_transaction {body : Svc α} {w : World} (h : OpStep P o w.db (body w).2.db) :
    OpStep P o w.db (transaction body w).2.db := by
  cases hx : transaction body w with
  | mk r w' =>
    cases r with
    | error e =>
      rw [transaction_error hx]
      exact opStep_of_edits .refl
    | ok a =>
      obtain ⟨w₁, hb, hdb, -⟩ := transaction_ok hx
      rw [hb] at h
      rw [hdb]
      exact h

theorem opStep_query_bind {f : Db → α} {g : α → Svc β} {w : World}
    (hg : ∀ w₁, w₁.db = w.db → OpStep P o w₁.db (g (f w.db) w₁).2.db) :
    OpStep P o w.db ((query f >>= g) w).2.db := by
  rcases bind_cases (query f) g w with ⟨e, w₁, hx, hb⟩ | ⟨a, w₁, hx, hb⟩
  · rw [hb, (query_error hx).1]
    exact opStep_of_edits .refl
  · obtain ⟨rfl, hdb, -⟩ := query_ok hx
    have hrest := hg w₁ hdb
    rw [hdb] at hrest
    rw [hb]
    exact hrest

theorem opStep_outcome_bind {x : Outcome StoreError α} {g : α → Svc β} {w : World}
    (hg : ∀ a, OpStep P o w.db (g a w).2.db) : OpStep P o w.db ((ofOutcome x >>= g) w).2.db := by
  cases x with
  | error e => exact opStep_of_edits .refl
  | ok a => exact hg a

/-- The row at a path set aside, then edits. -/
theorem opStep_supersede {u : Text} {row : Option FileRow} {now : Time} {g : Unit → Svc β} {w : World}
    (hrow : ∀ p, row = some p → ∃ r ∈ w.db.files, r.userId = u ∧ r.fileId = p.fileId ∧
      r.live = true ∧ o.Supersedes r)
    (hg : ∀ w₁, (∀ q ∈ w.db.files, (∀ p, row = some p → q.fileId ≠ p.fileId) → q ∈ w₁.db.files) →
      Edits P o w.db w₁ (g () w₁).2) :
    OpStep P o w.db ((supersedeOpt u row now >>= g) w).2.db := by
  cases row with
  | none => exact opStep_of_edits (hg w fun q hq _ => hq)
  | some p =>
    obtain ⟨r, hr, hu, hid, hl, hsel⟩ := hrow p rfl
    change OpStep P o w.db ((stmt (supersedeFile · u p.fileId now) >>= g) w).2.db
    rcases bind_cases (stmt (supersedeFile · u p.fileId now)) g w with
      ⟨e, w₁, hx, hb⟩ | ⟨_, w₁, hx, hb⟩
    · rw [hb, (stmt_error hx).1]
      exact opStep_of_edits .refl
    · obtain ⟨hdb, -⟩ := stmt_ok hx
      rw [hb]
      refine ⟨w₁.db, .inr ⟨r, hr, now, hl, hsel, by rw [hu, hid]; exact hdb⟩, hg w₁ fun q hq hne => ?_⟩
      unfold supersedeFile retireRow at hdb
      exact mem_updateFiles hdb hq (by rw [isRow_other (hne p rfl), Bool.false_and])

theorem pushTx_step (u path : Text) (data : Bytes) (mint : Text) (now : Time)
    (chunks : List ProcessedChunk) (w : World) : OpStep P (.push u path data mint now) w.db
      (transaction (pushTx P u path mint data now chunks) w).2.db := by
  refine opStep_transaction ?_
  rw [pushTx]
  refine opStep_query_bind fun w₁ hdb => opStep_supersede (fun p hp => ?_) fun w₂ _ => ?_
  · obtain ⟨r, hr, hu, hpath, hl, hn, rfl⟩ := mem_of_path hp
    exact ⟨r, hdb ▸ hr, hu, rfl, hl, hu, hpath, hn⟩
  · have hR := edits_frame P (.push u path data mint now) w₁.db
    exact moves_bind hR (edits_stmt fun db db' h => .insert _ ⟨chunks, _, rfl⟩ h)
      (fun _ => moves_bind hR (edits_writeChunkRows mint chunks) fun _ => moves_pure hR _) w₂

theorem pushNew_step (u path : Text) (data : Bytes) (mint : Text) (now : Time) (w : World) :
    OpStep P (.push u path data mint now) w.db (pushNew P key u path data mint now w).2.db := by
  rw [pushNew]
  exact opStep_outcome_bind fun chunks => pushTx_step u path data mint now chunks w

theorem push_step (u path : Text) (data : Bytes) (mint : Text) (now : Time) (w : World) :
    OpStep P (.push u path data mint now) w.db (Service.push P key u path data mint now w).2.db := by
  rw [Service.push]
  refine opStep_query_bind fun w₁ hdb => ?_
  cases (getFileByPath w.db u path).filter (sameContent P · data) with
  | some p => exact opStep_of_edits .refl
  | none => exact pushNew_step u path data mint now w₁

theorem restore_step (u f : Text) (newPath : Option Text) (now : Time) (w : World) :
    OpStep P (.restore u f newPath now) w.db (Service.restore u f newPath now w).2.db := by
  have hbody : OpStep P (.restore u f newPath now) w.db (restoreTx u f newPath now w).2.db := by
    rw [restoreTx]
    refine opStep_query_bind fun w₁ hdb => ?_
    cases hrow : getFile w.db u f with
    | none => exact opStep_of_edits .refl
    | some file =>
      obtain ⟨r, hr, hu, hid, rfl⟩ := mem_of_isRow hrow
      change OpStep P _ w₁.db ((if r.view.isLive then throwErr .notFound
        else if (trimMatches slash (newPath.getD r.view.path)).isEmpty then throwErr .notFound
        else query (getFileByPath · u (trimMatches slash (newPath.getD r.view.path))) >>= fun current =>
          supersedeOpt u (current.filter fun c => c.fileId ≠ r.view.fileId) now >>= fun _ =>
          insertFolderSvc u (dirname (trimMatches slash (newPath.getD r.view.path))) >>= fun _ =>
          stmt (restoreFile · u f (trimMatches slash (newPath.getD r.view.path))) : Svc Unit) w₁).2.db
      split
      · exact opStep_of_edits .refl
      · next hlive =>
        split
        · exact opStep_of_edits .refl
        · next hemp =>
          refine opStep_query_bind fun w₂ hdb₂ => opStep_supersede (fun p hp => ?_) fun w₃ hkeep => ?_
          · obtain ⟨hcur, hne⟩ := Option.filter_eq_some_iff.mp hp
            obtain ⟨q, hq, hqu, -, hql, hqn, rfl⟩ := mem_of_path hcur
            exact ⟨q, hdb₂ ▸ hq, hqu, rfl, hql, hqu, hid ▸ of_decide_eq_true hne, hqn⟩
          · have hr₃ : r ∈ w₃.db.files := by
              refine hkeep r (by rw [hdb₂, hdb]; exact hr) fun p hp heq => ?_
              obtain ⟨-, hne⟩ := Option.filter_eq_some_iff.mp hp
              exact of_decide_eq_true hne heq.symm
            refine edits_bind (edits_insertFolderSvc _ _ w₃) fun _ w₄ hfold => edits_stmt_at fun db' h => ?_
            refine .restore r _ (by rw [hdb₂, hdb]; exact hr) ((insertFolderSvc_files hfold) ▸ hr₃) ?_ ⟨hu, hid, rfl, ?_⟩ (by rw [hu, hid]; exact h)
            · exact Bool.not_eq_true _ ▸ hlive
            · intro hnil
              exact hemp (by rw [hnil]; rfl)
  rcases bind_cases (transaction (restoreTx u f newPath now))
    (fun _ => query (getFile · u f) >>= fun row => orThrow .notFound row) w with
    ⟨e, w₁, hx, hb⟩ | ⟨_, w₁, hx, hb⟩
  · rw [Service.restore, hb]
    have htx := opStep_transaction hbody
    rw [hx] at htx
    exact htx
  · have htx := opStep_transaction hbody
    rw [hx] at htx
    have hlast : ((query (getFile · u f) >>= fun row => orThrow .notFound row) w₁).2.db = w₁.db := by
      have hF : Frame fun w w' : World => w'.db = w.db := ⟨fun _ _ => rfl, fun _ _ _ h h' => h'.trans h⟩
      exact moves_bind hF (moves_query hF _) (fun row => moves_outcome hF _) w₁
    rw [Service.restore, hb, hlast]
    exact htx

end

/-- What any call does to the manifest, whatever fails. -/
theorem op_step (o : Op) (w : World) : OpStep P o w.db (o.leaves P key w).db := by
  cases o with
  | push u path data mint now => exact push_step u path data mint now w
  | restore u f newPath now => exact restore_step u f newPath now w
  | trash u f now => exact opStep_of_edits (edits_trash (o := .trash u f now) fun r hu hf => ⟨hu, hf⟩)
  | trashPath u path now =>
    exact opStep_of_edits (edits_trashPath (o := .trashPath u path now) fun r hu hp => ⟨hu, hp⟩)
  | rename u fromPath toPath => exact opStep_of_edits (edits_rename w)
  | mkdir u path => exact opStep_of_edits (edits_insertFolderSvc u _ w)
  | purgeFile u f => exact opStep_of_edits (edits_purgeFile u f w)
  | emptyTrash u => exact opStep_of_edits (edits_emptyTrash u w)
  | purgeRetired policy t v => exact opStep_of_edits (edits_purgeRetired policy t v w)
  | packFiles u entries packId now =>
    exact opStep_of_edits (edits_packFiles (o := .packFiles u entries packId now)
      (fun plain chunks => ⟨plain, chunks, rfl⟩) w)
  | compactPack u old survivors new now =>
    exact opStep_of_edits (edits_compactPack (o := .compactPack u old survivors new now)
      (fun plain chunks => ⟨plain, chunks, rfl⟩) ⟨rfl, rfl⟩ w)
  | repackSmallFiles u mints now => exact opStep_of_edits (edits_repackSmallFiles u mints now w)
  | setLocation frag location =>
    refine opStep_of_edits (edits_stmt (fun db db' h => ?_) w)
    cases h
    exact .location frag location

/-- What every edit and every supersession keeps holds of every manifest reached. -/
theorem reached_invariant {I : Db → Prop} (hstart : I Db.empty)
    (hedit : ∀ o b db db', Edit P o b db db' → I db → I db')
    (haside : ∀ o db db', SetsAside o db db' → I db → I db') {w : World} (h : Reached P key w) :
    I w.db := by
  obtain ⟨as, rfl⟩ := h
  have hstep : ∀ w a, I w.db → True → I (step P key w a).db := by
    intro w a hw _
    obtain ⟨mid, hmid, hrest⟩ := op_step P key a.1 { w with script := a.2 }
    have hI : I mid := by
      rcases hmid with rfl | hset
      · exact hw
      · exact haside a.1 _ _ hset hw
    change I (a.1.leaves P key { w with script := a.2 }).db
    generalize (a.1.leaves P key { w with script := a.2 }).db = db' at hrest
    induction hrest with
    | refl => exact hI
    | tail _ he ih => exact hedit a.1 _ _ _ he ih
  exact run_invariant (I := fun w : World => I w.db) hstep hstart
    (allMeet_of_forall (Q := fun _ => True) fun _ _ => trivial)

end P2pnas.Store.Operations
