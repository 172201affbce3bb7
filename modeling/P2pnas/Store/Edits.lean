import Mathlib.Data.List.Find
import P2pnas.Store.Packing
import P2pnas.Store.Shelves
import P2pnas.Store.Written

/-!
# What a service call leaves alone

How a file reads is decided by a few columns of its row, by its chunk and shard rows and by
the bytes at its fragment ids. `Touches P T A` says that a call edited these rows only for
the ids in `T` and changed bytes only at the fragment ids of `A`. Each statement gets one
lemma; the calls follow by composition, an error inside a transaction included.
-/

namespace P2pnas.Store.Edits
open P2pnas.Lib.Frames P2pnas.Lib.Strings P2pnas.Lib.Tables P2pnas.Core.Base P2pnas.Core.Erasure
open P2pnas.Core.Crypto P2pnas.Core.Pipeline P2pnas.Store.Manifest P2pnas.Store.Session
open P2pnas.Store.Service P2pnas.Store.Packing P2pnas.Store.Shelves P2pnas.Store.Written

/-! ### The rows of one file -/

/-- The columns of a row that decide how it reads. -/
structure ReadCols where
  userId : Text
  size : ℤ
  chunkCount : ℤ
  keyScheme : ℤ
  packId : Option Text
  packOffset : Option ℤ
  packLen : Option ℤ

def readCols (r : FileRow) : ReadCols where
  userId := r.userId
  size := r.size
  chunkCount := r.chunkCount
  keyScheme := r.keyScheme
  packId := r.packId
  packOffset := r.packOffset
  packLen := r.packLen

def colsOf (db : Db) (f : Text) : Option ReadCols :=
  (db.files.find? fun r => r.fileId = f).map fun r => readCols r.view

theorem colsOf_mem {db : Db} {r : FileRec} (hr : r ∈ db.files) :
    colsOf db r.fileId = some (readCols r.view) := by
  have hf : db.files.find? (fun q => decide (q.fileId = r.fileId)) = some r :=
    find?_eq_some db.constraints.fileIds hr (by simp) (fun q hq => of_decide_eq_true hq)
  rw [colsOf, hf, Option.map_some]

theorem mem_of_colsOf {db : Db} {f : Text} {c : ReadCols} (h : colsOf db f = some c) :
    ∃ r ∈ db.files, r.fileId = f ∧ readCols r.view = c := by
  obtain ⟨r, hr, hc⟩ := Option.map_eq_some_iff.mp h
  have hsel := List.find?_some hr
  exact ⟨r, List.mem_of_find?_eq_some hr, of_decide_eq_true hsel, hc⟩

theorem getFile_some {db : Db} {u f : Text} {row : FileRow} (h : getFile db u f = some row) :
    row.fileId = f ∧ row.userId = u ∧ colsOf db f = some (readCols row) := by
  obtain ⟨r, hr, rfl⟩ := Option.map_eq_some_iff.mp h
  have hsel := List.find?_some hr
  rw [isRow, Bool.and_eq_true, decide_eq_true_eq, decide_eq_true_eq] at hsel
  obtain ⟨hu, hf⟩ := hsel
  refine ⟨hf, hu, ?_⟩
  rw [← hf]
  exact colsOf_mem (List.mem_of_find?_eq_some hr)

theorem getFile_of_cols {db : Db} {f : Text} {c : ReadCols} (h : colsOf db f = some c) :
    ∃ row, getFile db c.userId f = some row ∧ row.fileId = f ∧ readCols row = c := by
  obtain ⟨r, hr, hf, hc⟩ := mem_of_colsOf h
  have hu : r.userId = c.userId := by rw [← hc]; rfl
  refine ⟨r.view, ?_, hf, hc⟩
  have hfind : db.files.find? (isRow c.userId f) = some r := by
    refine find?_eq_some db.constraints.fileIds hr (by simp [isRow, hu, hf]) fun q hq => ?_
    rw [isRow, Bool.and_eq_true, decide_eq_true_eq, decide_eq_true_eq] at hq
    rw [hq.2, hf]
  rw [getFile, hfind, Option.map_some]

/-- The rows that decide how `f` reads are the same. -/
structure SameAt (f : Text) (db db' : Db) : Prop where
  cols : colsOf db' f = colsOf db f
  chunks : getChunks db' f = getChunks db f
  shards : ∀ i, getShards db' (chunkId f i) = getShards db (chunkId f i)

variable {K : Type} (P : Prims K)

/-- `g` is a fragment id of file `f`: chunk indices have 32 bits, there are fourteen shards. -/
def Addr (f g : Text) : Prop :=
  ∃ i < 2 ^ 32, ∃ j < TOTAL_SHARDS, g = fragmentId P (chunkId f i) j

/-- Chunk and shard rows carry the ids the code derives. -/
structure Tidy (db : Db) : Prop where
  chunks : ∀ c ∈ db.chunks, ∃ i, c.chunkId = chunkId c.fileId i
  shards : ∀ s ∈ db.shards, ∃ f, ∃ i < 2 ^ 32, ∃ j < TOTAL_SHARDS,
    s.chunkId = chunkId f i ∧ s.fragmentId = fragmentId P (chunkId f i) j

theorem tidy_empty : Tidy P Db.empty := by
  refine ⟨fun _ h => ?_, fun _ h => ?_⟩
  · cases h
  · cases h

variable {P} in
/-- The shards a file frees are at its own fragment ids. -/
theorem Tidy.fragsOf {db : Db} (h : Tidy P db) {u f : Text} {s : RemoteShard}
    (hs : s ∈ fragsOf db u f) : Addr P f s.1 := by
  rw [Manifest.fragsOf] at hs
  split at hs
  · obtain ⟨row, hrow, rfl⟩ := List.mem_map.mp hs
    obtain ⟨hmem, hany⟩ := List.mem_filter.mp hrow
    obtain ⟨c, hc, hcf⟩ := List.any_eq_true.mp hany
    rw [Bool.and_eq_true, decide_eq_true_eq, decide_eq_true_eq] at hcf
    obtain ⟨k, hk⟩ := h.chunks c hc
    obtain ⟨g, i, hi, j, hj, hcid, hfrag⟩ := h.shards row hmem
    rw [← hcf.1, hk, hcf.2] at hcid
    obtain ⟨rfl, _⟩ := chunkId_inj hcid
    exact ⟨i, hi, j, hj, hfrag⟩
  · cases hs

/-- Only the rows of files in `T` are edited. -/
def DbEdits (T : Set Text) (db db' : Db) : Prop :=
  Tidy P db → Tidy P db' ∧ ∀ f ∉ T, SameAt f db db'

section
variable {P} {T : Set Text} {db db' : Db}

theorem SameAt.refl (f : Text) (db : Db) : SameAt f db db := ⟨rfl, rfl, fun _ => rfl⟩

theorem SameAt.trans {f : Text} {a b c : Db} (h : SameAt f a b) (h' : SameAt f b c) :
    SameAt f a c :=
  ⟨h'.cols.trans h.cols, h'.chunks.trans h.chunks, fun i => (h'.shards i).trans (h.shards i)⟩

/-- A statement on another table, or one that changed nothing. -/
theorem dbEdits_of_eq (hf : db'.files = db.files) (hc : db'.chunks = db.chunks)
    (hs : db'.shards = db.shards) : DbEdits P T db db' := by
  intro ht
  refine ⟨⟨by rw [hc]; exact ht.chunks, by rw [hs]; exact ht.shards⟩, fun f _ => ⟨?_, ?_, ?_⟩⟩
  · rw [colsOf, hf, colsOf]
  · rw [getChunks, hc, getChunks]
  · intro i
    rw [getShards, hs, getShards]

theorem DbEdits.mono {T' : Set Text} (h : DbEdits P T db db') (hsub : T ⊆ T') :
    DbEdits P T' db db' :=
  fun ht => ⟨(h ht).1, fun f hf => (h ht).2 f (fun hin => hf (hsub hin))⟩

/-- An update keeps the columns of every row it does not own. -/
theorem dbEdits_updateFiles {sel : FileRec → Bool} {set : FileRec → FileRec}
    {hid : ∀ r, (set r).fileId = r.fileId} (h : updateFiles db sel set hid = some db')
    (hset : ∀ r ∈ db.files, sel r = true → r.fileId ∈ T ∨ readCols (set r).view = readCols r.view) :
    DbEdits P T db db' := by
  have htab := updateFiles_some h
  have hf : db'.files = update sel set db.files := by rw [htab]
  have hc : db'.chunks = db.chunks := by rw [htab]
  have hs : db'.shards = db.shards := by rw [htab]
  intro ht
  refine ⟨⟨by rw [hc]; exact ht.chunks, by rw [hs]; exact ht.shards⟩, fun f hfT => ⟨?_, ?_, ?_⟩⟩
  · rw [colsOf, hf, update, List.find?_map]
    have hkey : ((fun r : FileRec => decide (r.fileId = f)) ∘ fun r => if sel r then set r else r) =
        fun r => decide (r.fileId = f) := by
      funext r
      simp only [Function.comp_apply]
      split
      · rw [hid]
      · rfl
    rw [hkey, colsOf, Option.map_map]
    cases hfind : db.files.find? (fun r => decide (r.fileId = f)) with
    | none => rfl
    | some r =>
      have hrow := List.find?_some hfind
      have hrf : r.fileId = f := of_decide_eq_true hrow
      simp only [Option.map_some, Function.comp_apply]
      split
      · rename_i hsel
        rcases hset r (List.mem_of_find?_eq_some hfind) hsel with hin | heq
        · exact absurd (hrf ▸ hin) hfT
        · rw [heq]
      · rfl
  · rw [getChunks, hc, getChunks]
  · intro i
    rw [getShards, hs, getShards]

/-- Moving a row between live, trashed and superseded, and moving its path, edits nothing. -/
theorem dbEdits_retireRow {u f : Text} {c : Retire} {at' : Time}
    (h : retireRow db u f c at' = some db') : DbEdits P T db db' :=
  dbEdits_updateFiles h fun r _ _ => .inr (by cases c <;> rfl)

theorem dbEdits_restoreFile {u f path : Text} (h : restoreFile db u f path = some db') :
    DbEdits P T db db' :=
  dbEdits_updateFiles h fun _ _ _ => .inr rfl

theorem dbEdits_updateFilePath {u f path : Text} (h : updateFilePath db u f path = some db') :
    DbEdits P T db db' :=
  dbEdits_updateFiles h fun _ _ _ => .inr rfl

theorem dbEdits_assignToPack {u f packId : Text} {offset len : ℤ} (hf : f ∈ T)
    (h : assignToPack db u f packId offset len = some db') : DbEdits P T db db' := by
  refine dbEdits_updateFiles h fun r _ hsel => .inl ?_
  rw [isRow, Bool.and_eq_true, decide_eq_true_eq, decide_eq_true_eq] at hsel
  rw [hsel.2]
  exact hf

theorem dbEdits_insertFile {row : FileRow} (hrow : row.fileId ∈ T)
    (h : insertFile db row = some db') : DbEdits P T db db' := by
  obtain ⟨_, htab⟩ := insertFile_some h
  have hc : db'.chunks = db.chunks := by rw [htab]
  have hs : db'.shards = db.shards := by rw [htab]
  intro ht
  refine ⟨⟨by rw [hc]; exact ht.chunks, by rw [hs]; exact ht.shards⟩, fun f hf => ⟨?_, ?_, ?_⟩⟩
  · have hne : row.toRec.fileId ≠ f := fun he => hf (he ▸ hrow)
    have hfiles : db'.files = db.files ++ [row.toRec] := by rw [htab]
    rw [colsOf, hfiles, List.find?_append, List.find?_singleton, if_neg (by simpa using hne),
      Option.or_none, colsOf]
  · rw [getChunks, hc, getChunks]
  · intro i
    rw [getShards, hs, getShards]

theorem dbEdits_insertChunk {c : ChunkRow} {i : ℕ} (hc : c.fileId ∈ T)
    (hid : c.chunkId = chunkId c.fileId i) (h : insertChunk db c = some db') :
    DbEdits P T db db' := by
  obtain ⟨_, htab⟩ := insertChunk_some h
  have hf : db'.files = db.files := by rw [htab]
  have hs : db'.shards = db.shards := by rw [htab]
  have hch : db'.chunks = db.chunks ++ [c] := by rw [htab]
  intro ht
  refine ⟨⟨?_, by rw [hs]; exact ht.shards⟩, fun f hfT => ⟨?_, ?_, ?_⟩⟩
  · intro d hd
    rw [hch] at hd
    rcases List.mem_append.mp hd with hd | hd
    · exact ht.chunks d hd
    · rw [List.mem_singleton.mp hd]
      exact ⟨i, hid⟩
  · rw [colsOf, hf, colsOf]
  · have hne : c.fileId ≠ f := fun he => hfT (he ▸ hc)
    rw [getChunks, hch, List.filter_append, List.filter_singleton, decide_eq_false hne,
      cond_false, List.append_nil, getChunks]
  · intro i
    rw [getShards, hs, getShards]

theorem dbEdits_insertShard {s : ShardRow} {f : Text} {i j : ℕ} (hf : f ∈ T) (hi : i < 2 ^ 32)
    (hj : j < TOTAL_SHARDS) (hcid : s.chunkId = chunkId f i)
    (hfrag : s.fragmentId = fragmentId P (chunkId f i) j) (h : insertShard db s = some db') :
    DbEdits P T db db' := by
  obtain ⟨_, htab⟩ := insertShard_some h
  have hfiles : db'.files = db.files := by rw [htab]
  have hch : db'.chunks = db.chunks := by rw [htab]
  have hs : db'.shards = db.shards ++ [s] := by rw [htab]
  intro ht
  refine ⟨⟨by rw [hch]; exact ht.chunks, ?_⟩, fun g hg => ⟨?_, ?_, ?_⟩⟩
  · intro t htm
    rw [hs] at htm
    rcases List.mem_append.mp htm with htm | htm
    · exact ht.shards t htm
    · rw [List.mem_singleton.mp htm]
      exact ⟨f, i, hi, j, hj, hcid, hfrag⟩
  · rw [colsOf, hfiles, colsOf]
  · rw [getChunks, hch, getChunks]
  · intro k
    have hne : s.chunkId ≠ chunkId g k := by
      intro he
      rw [hcid] at he
      exact hg ((chunkId_inj he).1 ▸ hf)
    rw [getShards, hs, List.filter_append, List.filter_singleton, decide_eq_false hne,
      cond_false, List.append_nil, getShards]

/-- Deleting chunk rows with their shards, when no file outside `T` loses one. -/
theorem dbEdits_deleted {keepChunk : ChunkRow → Bool} (hcols : ∀ f ∉ T, colsOf db' f = colsOf db f)
    (hch : db'.chunks = db.chunks.filter keepChunk)
    (hs : db'.shards = db.shards.filter fun s => s.chunkId ∈ db'.chunks.map ChunkRow.chunkId)
    (hkeep : ∀ c ∈ db.chunks, c.fileId ∉ T → keepChunk c = true) : DbEdits P T db db' := by
  intro ht
  refine ⟨⟨?_, ?_⟩, fun f hf => ⟨hcols f hf, ?_, ?_⟩⟩
  · intro c hc
    rw [hch] at hc
    exact ht.chunks c (List.mem_filter.mp hc).1
  · intro s hsm
    rw [hs] at hsm
    exact ht.shards s (List.mem_filter.mp hsm).1
  · rw [getChunks, hch, List.filter_filter, getChunks]
    congr 1
    apply List.filter_congr
    intro c hc
    by_cases hcf : c.fileId = f
    · rw [hkeep c hc (by rw [hcf]; exact hf), Bool.and_true]
    · simp [hcf]
  · intro i
    rw [getShards, hs, List.filter_filter, getShards]
    congr 1
    apply List.filter_congr
    intro s hsm
    by_cases hsc : s.chunkId = chunkId f i
    · -- the chunk of a kept file's shard is that file's
      obtain ⟨c, hc, hcs⟩ := List.mem_map.mp (db.constraints.shardChunks s hsm)
      obtain ⟨k, hk⟩ := ht.chunks c hc
      rw [hsc, hk] at hcs
      have hcf : c.fileId = f := (chunkId_inj hcs).1
      have hin : c ∈ db'.chunks := by
        rw [hch]
        exact List.mem_filter.mpr ⟨hc, hkeep c hc (by rw [hcf]; exact hf)⟩
      have hmem : s.chunkId ∈ db'.chunks.map ChunkRow.chunkId :=
        List.mem_map.mpr ⟨c, hin, by rw [hk, hcs, hsc]⟩
      simp [hmem]
    · simp [hsc]

theorem dbEdits_deleteFiles {sel : FileRec → Bool}
    (hsel : ∀ r ∈ db.files, sel r = true → r.fileId ∈ T) : DbEdits P T db (deleteFiles db sel) := by
  refine dbEdits_deleted ?_ rfl rfl ?_
  · intro f hf
    have hfiles : (deleteFiles db sel).files = db.files.filter fun r => !sel r := rfl
    rw [colsOf, hfiles, List.find?_filter, colsOf]
    congr 1
    apply List.find?_congr
    intro r hr
    by_cases hrf : r.fileId = f
    · have hno : sel r = false := by
        cases hs : sel r with
        | false => rfl
        | true => exact absurd (hrf ▸ hsel r hr hs) hf
      simp [hno]
    · simp [hrf]
  · intro c hc hcT
    obtain ⟨r, hr, hrc⟩ := List.mem_map.mp (db.constraints.chunkFiles c hc)
    have hno : sel r = false := by
      cases hs : sel r with
      | false => rfl
      | true => exact absurd (hrc ▸ hsel r hr hs) hcT
    have hmem : c.fileId ∈ (db.files.filter fun r => !sel r).map FileRec.fileId :=
      List.mem_map.mpr ⟨r, List.mem_filter.mpr ⟨hr, by rw [hno]; rfl⟩, hrc⟩
    exact decide_eq_true hmem

theorem dbEdits_deleteFile {u f : Text} (hf : f ∈ T) : DbEdits P T db (deleteFile db u f) := by
  refine dbEdits_deleteFiles fun r _ hsel => ?_
  rw [isRow, Bool.and_eq_true, decide_eq_true_eq, decide_eq_true_eq] at hsel
  rw [hsel.2]
  exact hf

theorem dbEdits_deleteChunks {u f : Text} (hf : f ∈ T) : DbEdits P T db (deleteChunks db u f) := by
  refine dbEdits_deleted (fun _ _ => rfl) rfl rfl fun c _ hcT => ?_
  have hne : c.fileId ≠ f := fun he => hcT (he ▸ hf)
  simp [hne]

end

/-! ### Calls -/

/-- Rows edited only for `T`, bytes changed only at the fragment ids of `A`. -/
structure Touches (T A : Set Text) (w w' : World) : Prop where
  db : DbEdits P T w.db w'.db
  store : ∀ g, (∀ f ∈ A, ¬ Addr P f g) → w'.store g = w.store g

theorem touches_frame (T A : Set Text) : Frame (Touches P T A) where
  refl _ _ := ⟨dbEdits_of_eq rfl rfl rfl, fun _ _ => rfl⟩
  trans a b c hab hbc := by
    refine ⟨fun ht => ?_, fun g hg => (hbc.store g hg).trans (hab.store g hg)⟩
    obtain ⟨htb, hsame⟩ := hab.db ht
    obtain ⟨htc, hsame'⟩ := hbc.db htb
    exact ⟨htc, fun f hf => (hsame f hf).trans (hsame' f hf)⟩

section
variable {P} {T A : Set Text}

theorem Touches.mono {T' A' : Set Text} {w w' : World} (h : Touches P T A w w') (hT : T ⊆ T')
    (hA : A ⊆ A') : Touches P T' A' w w' :=
  ⟨h.db.mono hT, fun g hg => h.store g fun f hf => hg f (hA hf)⟩

theorem touches_of_eq {w w' : World} (hdb : w'.db = w.db) (hst : w'.store = w.store) :
    Touches P T A w w' :=
  ⟨dbEdits_of_eq (by rw [hdb]) (by rw [hdb]) (by rw [hdb]), fun g _ => by rw [hst]⟩

theorem touches_stmt {f : Db → Option Db} (hf : ∀ db db', f db = some db' → DbEdits P T db db') :
    Moves (Touches P T A) (stmt f) :=
  moves_stmt (touches_frame P T A) fun _ _ h => ⟨hf _ _ h, fun _ _ => rfl⟩

theorem touches_transaction {α : Type} {body : Svc α} (h : Moves (Touches P T A) body) :
    Moves (Touches P T A) (transaction body) :=
  moves_transaction (touches_frame P T A) (fun _ _ hb => ⟨dbEdits_of_eq rfl rfl rfl, hb.store⟩) h

/-- A transaction that fails edits no row; bytes it wrote stay. -/
theorem touches_rolledBack {α : Type} {body : Svc α} (h : Moves (Touches P T A) body) {w w' : World}
    {e : Stop StoreError} (he : transaction body w = (.error e, w')) : Touches P ∅ A w w' := by
  have hdb := transaction_error he
  have hst := (touches_transaction h w).store
  rw [he] at hst
  exact ⟨dbEdits_of_eq (by rw [hdb]) (by rw [hdb]) (by rw [hdb]), hst⟩

/-- Moving rows between live, trashed and superseded, and moving paths, edits nothing. -/
theorem touches_shelves : RowMoves (Touches P T A) where
  toFrame := touches_frame P T A
  back _ _ h := ⟨dbEdits_of_eq rfl rfl rfl, h.store⟩
  retire _ _ _ _ _ _ h := ⟨dbEdits_retireRow h, fun _ _ => rfl⟩
  restore _ _ _ _ _ h := ⟨dbEdits_restoreFile h, fun _ _ => rfl⟩
  repath _ _ _ _ _ h := ⟨dbEdits_updateFilePath h, fun _ _ => rfl⟩
  folders _ _ hf hc hs := ⟨dbEdits_of_eq hf hc hs, fun _ _ => rfl⟩

/-! ### Writing a file -/

/-- Every chunk index has 32 bits, as the cipher demands. -/
def Indexed (chunks : List ProcessedChunk) : Prop := ∀ c ∈ chunks, c.index < 2 ^ 32

theorem processV2_indexed {data : Bytes} {key : K} {u f : Bytes} {cfg : PipelineConfig}
    {chunks : List ProcessedChunk} (h : processV2 P data key u f cfg = .ok chunks) :
    Indexed chunks := by
  obtain ⟨_, hlen, hat⟩ := processV2_spec P h
  intro c hc
  obtain ⟨i, hi, rfl⟩ := List.mem_iff_getElem.mp hc
  obtain ⟨d, hd, hproc⟩ := hat i (by rw [← hlen]; exact hi)
  rw [List.getElem?_eq_getElem hi] at hd
  rw [Option.some.inj hd]
  obtain ⟨hidx, _, _, hseal, _⟩ := processChunk_spec P hproc
  rw [hidx]
  by_contra hge
  have hbig : MAX_CHUNK_INDEX < i := by
    unfold MAX_CHUNK_INDEX
    omega
  simp only [FileCipher.sealChunk, FileCipher.new, sealWithAad, sealInner, if_pos hbig] at hseal
  cases hseal

theorem touches_writeChunkRows {m : Text} (hT : m ∈ T) (hA : m ∈ A) {chunks : List ProcessedChunk}
    (hc : Indexed chunks) : Moves (Touches P T A) (writeChunkRows P m chunks) := by
  have hR := touches_frame P T A
  refine moves_bind hR (moves_collect hR fun c hcm => ?_) fun _ => moves_pure hR ()
  refine moves_bind hR (touches_stmt fun _ _ h => dbEdits_insertChunk hT rfl h) fun _ =>
    moves_bind hR (moves_collect hR fun i hi => ?_) fun _ => moves_pure hR ()
  refine moves_bind hR (moves_outcome hR _) fun bytes =>
    moves_bind hR (moves_storeWrite hR fun w b => ?_) fun _ => touches_stmt fun _ _ h =>
      dbEdits_insertShard hT (hc c hcm) (List.mem_range.mp hi) rfl rfl h
  refine ⟨dbEdits_of_eq rfl rfl rfl, fun g hg => ChunkStore.set_other _ _ fun he => ?_⟩
  exact hg m hA ⟨c.index, hc c hcm, i, List.mem_range.mp hi, he⟩

theorem touches_pushTx {u path mint : Text} {data : Bytes} {now : Time} {chunks : List ProcessedChunk}
    (hT : mint ∈ T) (hA : mint ∈ A) (hc : Indexed chunks) :
    Moves (Touches P T A) (pushTx P u path mint data now chunks) := by
  have hR := touches_frame P T A
  exact moves_bind hR (moves_query hR _) fun prev =>
    moves_bind hR (moves_supersedeOpt touches_shelves u prev now) fun _ =>
    moves_bind hR (touches_stmt fun _ _ h => dbEdits_insertFile hT h) fun _ =>
    moves_bind hR (touches_writeChunkRows hT hA hc) fun _ => moves_pure hR _

theorem touches_push {key : K} {u path mint : Text} {data : Bytes} {now : Time} (hT : mint ∈ T)
    (hA : mint ∈ A) : Moves (Touches P T A) (push P key u path data mint now) := by
  have hR := touches_frame P T A
  refine moves_bind hR (moves_query hR _) fun prev => ?_
  split
  · exact moves_pure hR _
  · exact moves_outcome_bind hR fun chunks hproc =>
      touches_transaction (touches_pushTx hT hA (processV2_indexed (wrapErr_eq_ok hproc)))

theorem touches_insertPackRow {key : K} {u packId : Text} {plain : Bytes} {now : Time}
    (hT : packId ∈ T) (hA : packId ∈ A) :
    Moves (Touches P T A) (insertPackRow P key u packId plain now) := by
  have hR := touches_frame P T A
  refine moves_outcome_bind hR fun chunks hproc => ?_
  exact moves_bind hR (touches_stmt fun _ _ h => dbEdits_insertFile hT h) fun _ =>
    moves_bind hR (touches_writeChunkRows hT hA (processV2_indexed (wrapErr_eq_ok hproc))) fun _ =>
    moves_pure hR _

/-! ### Destroying rows and bytes -/

theorem touches_purgeFileRow {u f : Text} (hT : f ∈ T) :
    Moves (Touches P T A) (purgeFileRow u f) := by
  have hR := touches_frame P T A
  refine moves_bind hR (moves_query hR _) fun frags =>
    moves_bind hR (touches_stmt fun db db' h => ?_) fun _ => moves_pure hR _
  cases h
  exact dbEdits_deleteFile hT

theorem touches_packMember {u packId : Text} {er : PackEntry × ℕ × ℕ} (hT : er.1.fileId ∈ T) :
    Moves (Touches P T A) (packMember u packId er) := by
  have hR := touches_frame P T A
  refine moves_bind hR (moves_query hR _) fun row => moves_bind hR (moves_outcome hR _) fun row => ?_
  split
  · exact moves_outcome hR _
  · refine moves_bind hR (moves_query hR _) fun frags =>
      moves_bind hR (touches_stmt fun db db' h => ?_) fun _ =>
      moves_bind hR (touches_stmt fun db db' h => dbEdits_assignToPack hT h) fun _ => moves_pure hR _
    cases h
    exact dbEdits_deleteChunks hT

theorem touches_packFilesTx {key : K} {u packId : Text} {entries : List PackEntry} {plain : Bytes}
    {ranges : List (ℕ × ℕ)} {now : Time} (hT : ∀ er ∈ entries.zip ranges, er.1.fileId ∈ T)
    (hpT : packId ∈ T) (hA : packId ∈ A) :
    Moves (Touches P T A) (packFilesTx P key u packId entries plain ranges now) := by
  have hR := touches_frame P T A
  exact moves_bind hR (moves_collect hR fun er her => touches_packMember (hT er her)) fun _ =>
    moves_bind hR (touches_insertPackRow hpT hA) fun _ => moves_pure hR _

theorem touches_moveMember {u oldPackId newPackId : Text} {er : PackEntry × ℕ × ℕ}
    (hT : er.1.fileId ∈ T) : Moves (Touches P T A) (moveMember u oldPackId newPackId er) := by
  have hR := touches_frame P T A
  refine moves_bind hR (moves_query hR _) fun row => moves_bind hR (moves_outcome hR _) fun row => ?_
  split
  · exact moves_outcome hR _
  · exact touches_stmt fun _ _ h => dbEdits_assignToPack hT h

theorem touches_compactPackTx {key : K} {u oldPackId : Text} {survivors : List PackEntry}
    {newPackId : Text} {now : Time} (hT : ∀ e ∈ survivors, e.fileId ∈ T) (hoT : oldPackId ∈ T)
    (hnT : newPackId ∈ T) (hA : newPackId ∈ A) :
    Moves (Touches P T A) (compactPackTx P key u oldPackId survivors newPackId now) := by
  have hR := touches_frame P T A
  refine moves_bind hR (moves_query hR _) fun row => moves_bind hR (moves_outcome hR _) fun old => ?_
  split
  · refine moves_bind hR (moves_query hR _) fun members =>
      moves_bind hR (moves_outcome hR _) fun _ => ?_
    split
    · exact moves_bind hR (touches_purgeFileRow hoT) fun _ => moves_pure hR _
    · refine moves_bind hR (moves_outcome hR _) fun built =>
        moves_bind hR (moves_collect hR fun er her => touches_moveMember ?_) fun _ =>
        moves_bind hR (touches_insertPackRow hnT hA) fun _ =>
        moves_bind hR (touches_purgeFileRow hoT) fun _ => moves_pure hR _
      exact hT _ (List.of_mem_zip her).1
  · exact moves_outcome hR _

/-- Deleting local shards never fails and touches the bytes of these shards only. -/
theorem purgeLocal_spec (frags : List RemoteShard) (w : World) :
    ∃ w', purgeLocalCollectRemote frags w = (.ok (frags.filter fun s => s.2 ≠ LOCAL), w') ∧
      w'.db = w.db ∧ ∀ g, (∀ s ∈ frags, s.2 = LOCAL → g ≠ s.1) → w'.store g = w.store g := by
  have hdel : ∀ (l : List RemoteShard) (w : World), ∃ us w',
      collect (fun s : RemoteShard => storeDelete s.1) l w = (.ok us, w') ∧ w'.db = w.db ∧
        ∀ g, (∀ s ∈ l, g ≠ s.1) → w'.store g = w.store g := by
    intro l
    induction l with
    | nil => exact fun w => ⟨[], w, rfl, rfl, fun _ _ => rfl⟩
    | cons s l ih =>
      intro w
      have hone : ∃ w₁, storeDelete s.1 w = (.ok (), w₁) ∧ w₁.db = w.db ∧
          ∀ g, g ≠ s.1 → w₁.store g = w.store g := by
        unfold storeDelete
        split
        · split
          · exact ⟨_, rfl, rfl, fun _ _ => rfl⟩
          · exact ⟨_, rfl, rfl, fun g hg => ChunkStore.set_other _ _ hg⟩
        · exact ⟨_, rfl, rfl, fun _ _ => rfl⟩
      obtain ⟨w₁, h₁, hdb₁, hst₁⟩ := hone
      obtain ⟨us, w₂, h₂, hdb₂, hst₂⟩ := ih w₁
      refine ⟨() :: us, w₂, ?_, hdb₂.trans hdb₁, fun g hg => ?_⟩
      · simp only [collect, bind_apply, h₁, h₂]
        rfl
      · rw [hst₂ g fun t ht => hg t (List.mem_cons_of_mem _ ht), hst₁ g (hg s (List.mem_cons_self ..))]
  obtain ⟨us, w', h, hdb, hst⟩ := hdel (frags.filter fun s => s.2 = LOCAL) w
  refine ⟨w', ?_, hdb, fun g hg => hst g fun s hs => ?_⟩
  · unfold purgeLocalCollectRemote
    rw [bind_apply, h]
    rfl
  · obtain ⟨hmem, hloc⟩ := List.mem_filter.mp hs
    exact hg s hmem (of_decide_eq_true hloc)

end

end P2pnas.Store.Edits
