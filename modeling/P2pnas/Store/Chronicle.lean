import P2pnas.Store.Relaid
import P2pnas.Store.Shifts

/-!
# What was ever stored under an id (`service.rs:52-161`, `947-1167`, `manifest.rs:700-771`)

A file id is given out once, to one owner with one byte string. Against such a record of all ids the
manifest can be checked at any moment: a row has the size, the scheme and the range that its bytes
call for, a shard row describes a shard of a file on record, the chunk rows of an id are all there
or none is, and a shard file has its bytes or is gone. Every call keeps it so, whether it commits or
not, once the ids that it mints are on record.
-/

namespace P2pnas.Store.Chronicle
open P2pnas.Lib.Frames P2pnas.Lib.Strings P2pnas.Lib.Tables P2pnas.Core P2pnas.Core.Base
open P2pnas.Core.Crypto P2pnas.Core.Erasure P2pnas.Core.Pipeline P2pnas.Store.Manifest
open P2pnas.Store.Session P2pnas.Store.Service P2pnas.Store.Packing P2pnas.Store.Shelves
open P2pnas.Store.Written P2pnas.Store.Roundtrip P2pnas.Store.Edits P2pnas.Store.Readable
open P2pnas.Store.Rows P2pnas.Store.Relaid P2pnas.Store.Crashes

/-- Owner and bytes of every id that was given out. -/
abbrev Record := Text → Option (Text × Bytes)

variable {K : Type} (P : Prims K) (key : K) (H : Record)

/-- The chunks that the file `f` on record is stored as. -/
def ChunksOf (f : Text) (chunks : List ProcessedChunk) : Prop :=
  ∃ u d, H f = some (u, d) ∧ processV2 P d key (utf8 u) (utf8 f) {} = .ok chunks

/-- Shard `i` of chunk `c` of the file `f` on record. -/
def PieceOf (f : Text) (c : ProcessedChunk) (i : ℕ) (b : Bytes) : Prop :=
  ∃ chunks, ChunksOf P key H f chunks ∧ c ∈ chunks ∧ i < TOTAL_SHARDS ∧ c.shards[i]? = some b

/-- The bytes that belong at a fragment id. -/
def IsShard (frag : Text) (b : Bytes) : Prop :=
  ∃ f c i, PieceOf P key H f c i b ∧ frag = fragOf P f c i

/-- A shard row of a file on record, wherever the shard is. -/
structure ShardOk (s : ShardRow) : Prop where
  piece : ∃ f c i b, PieceOf P key H f c i b ∧ s.fragmentId = fragOf P f c i ∧
    s.chunkId = chunkId f c.index ∧ s.shardIndex = i ∧ s.hash = shardHash P b

/-- The row of a file on record whose bytes are `d`. -/
structure RowFor (row : FileRow) (d : Bytes) : Prop where
  known : H row.fileId = some (row.userId, d)
  scheme : row.keyScheme = KeyScheme.V2.asI64
  size : row.size = d.length
  own : row.packId = none → ∃ chunks,
    processV2 P d key (utf8 row.userId) (utf8 row.fileId) {} = .ok chunks ∧ row.chunkCount = chunks.length
  member : ∀ p, row.packId = some p → ∃ plain, H p = some (row.userId, plain) ∧
    Slice (readCols row) plain d

def RowOk (row : FileRow) : Prop := ∃ d, RowFor P key H row d

/-- An entry for a file on record: if it has the right length it has the right bytes. -/
def Right (e : PackEntry) : Prop :=
  ∃ v d, H e.fileId = some (v, d) ∧ (e.data.length = d.length → e.data = d)

structure DbOk (db : Db) : Prop where
  rows : ∀ r ∈ db.files, RowOk P key H r.view
  shards : ∀ s ∈ db.shards, ShardOk P key H s

/-- The chunk rows of an id are all there, or none is. -/
def ChunksOk (db : Db) : Prop := ∀ f chunks, ChunksOf P key H f chunks →
  getChunks db f = [] ∨ getChunks db f = chunks.map (chunkRowFor f)

/-- A shard file has its bytes or is gone. -/
def StoreOk (st : ChunkStore) : Prop :=
  ∀ frag b, IsShard P key H frag b → st frag = none ∨ st frag = some b

/-- No fragment id stands for two byte strings. -/
def Separate : Prop := ∀ frag b b', IsShard P key H frag b → IsShard P key H frag b' → b = b'

/-- The node agrees with the record. -/
structure Faithful (w : World) : Prop where
  db : DbOk P key H w.db
  chunks : ChunksOk P key H w.db
  store : StoreOk P key H w.store
  separate : Separate P key H

/-- `H'` knows what `H` knows. -/
def Extends (H H' : Record) : Prop := ∀ f v, H f = some v → H' f = some v

section
variable {P key H} {H' : Record}

theorem Extends.refl (H : Record) : Extends H H := fun _ _ h => h

theorem Extends.trans {H'' : Record} (h : Extends H H') (h' : Extends H' H'') : Extends H H'' :=
  fun f v hf => h' f v (h f v hf)

theorem extends_update {m : Text} {v : Text × Bytes} (hm : H m = none) :
    Extends H (Function.update H m (some v)) := by
  intro f x hf
  have hne : f ≠ m := by
    rintro rfl
    rw [hm] at hf
    cases hf
  exact (Function.update_of_ne hne _ _).trans hf

theorem ChunksOf.mono (hx : Extends H H') {f : Text} {chunks : List ProcessedChunk}
    (h : ChunksOf P key H f chunks) : ChunksOf P key H' f chunks := by
  obtain ⟨u, d, hf, hproc⟩ := h
  exact ⟨u, d, hx f _ hf, hproc⟩

/-- What an id on record is stored as does not depend on what else is on record. -/
theorem ChunksOf.back (hx : Extends H H') {f : Text} (hf : H f ≠ none) {chunks : List ProcessedChunk}
    (h : ChunksOf P key H' f chunks) : ChunksOf P key H f chunks := by
  obtain ⟨v, hv⟩ := Option.ne_none_iff_exists'.mp hf
  obtain ⟨u, d, hf', hproc⟩ := h
  rw [hx f v hv] at hf'
  exact ⟨u, d, hf' ▸ hv, hproc⟩

theorem ChunksOf.unique {f : Text} {chunks chunks' : List ProcessedChunk}
    (h : ChunksOf P key H f chunks) (h' : ChunksOf P key H f chunks') : chunks = chunks' := by
  obtain ⟨u, d, hf, hproc⟩ := h
  obtain ⟨u', d', hf', hproc'⟩ := h'
  rw [hf] at hf'
  cases hf'
  rw [hproc] at hproc'
  exact Except.ok.inj hproc'

theorem PieceOf.of_chunks {f : Text} {chunks : List ProcessedChunk} (hchunks : ChunksOf P key H f chunks)
    {c : ProcessedChunk} {i : ℕ} {b : Bytes} (h : PieceOf P key H f c i b) :
    c ∈ chunks ∧ i < TOTAL_SHARDS ∧ c.shards[i]? = some b := by
  obtain ⟨chunks', hchunks', hrest⟩ := h
  rw [hchunks.unique hchunks']
  exact hrest

theorem PieceOf.mono (hx : Extends H H') {f : Text} {c : ProcessedChunk} {i : ℕ} {b : Bytes}
    (h : PieceOf P key H f c i b) : PieceOf P key H' f c i b := by
  obtain ⟨chunks, hchunks, hrest⟩ := h
  exact ⟨chunks, hchunks.mono hx, hrest⟩

theorem IsShard.mono (hx : Extends H H') {frag : Text} {b : Bytes} (h : IsShard P key H frag b) :
    IsShard P key H' frag b := by
  obtain ⟨f, c, i, hp, hfrag⟩ := h
  exact ⟨f, c, i, hp.mono hx, hfrag⟩

theorem ShardOk.mono (hx : Extends H H') {s : ShardRow} (h : ShardOk P key H s) :
    ShardOk P key H' s := by
  obtain ⟨f, c, i, b, hp, hrest⟩ := h.piece
  exact ⟨f, c, i, b, hp.mono hx, hrest⟩

theorem RowFor.mono (hx : Extends H H') {row : FileRow} {d : Bytes} (h : RowFor P key H row d) :
    RowFor P key H' row d := by
  refine ⟨hx _ _ h.known, h.scheme, h.size, h.own, fun p hp => ?_⟩
  obtain ⟨plain, hplain, hslice⟩ := h.member p hp
  exact ⟨plain, hx p _ hplain, hslice⟩

theorem RowOk.mono (hx : Extends H H') {row : FileRow} (h : RowOk P key H row) : RowOk P key H' row :=
  h.imp fun _ hd => hd.mono hx

theorem Separate.back (hx : Extends H H') (h : Separate P key H') : Separate P key H :=
  fun frag b b' hb hb' => h frag b b' (hb.mono hx) (hb'.mono hx)

theorem StoreOk.back (hx : Extends H H') {st : ChunkStore} (h : StoreOk P key H' st) :
    StoreOk P key H st := fun frag b hb => h frag b (hb.mono hx)

theorem Right.mono (hx : Extends H H') {e : PackEntry} (h : Right H e) : Right H' e := by
  obtain ⟨v, d, hd, hdata⟩ := h
  exact ⟨v, d, hx _ _ hd, hdata⟩

theorem DbOk.mono (hx : Extends H H') {db : Db} (h : DbOk P key H db) : DbOk P key H' db :=
  ⟨fun r hr => (h.rows r hr).mono hx, fun s hs => (h.shards s hs).mono hx⟩

/-- The columns that decide how a row reads decide whether it agrees with the record. -/
theorem RowOk.congr {a b : FileRow} (hcols : readCols b = readCols a) (hid : b.fileId = a.fileId)
    (h : RowOk P key H a) : RowOk P key H b := by
  obtain ⟨d, hd⟩ := h
  have huser : b.userId = a.userId := congrArg ReadCols.userId hcols
  have hpack : b.packId = a.packId := congrArg ReadCols.packId hcols
  refine ⟨d, ?_, ?_, ?_, fun hown => ?_, fun p hp => ?_⟩
  · rw [hid, huser]
    exact hd.known
  · exact (congrArg ReadCols.keyScheme hcols).trans hd.scheme
  · exact (congrArg ReadCols.size hcols).trans hd.size
  · obtain ⟨chunks, hproc, hcount⟩ := hd.own (hpack ▸ hown)
    rw [hid, huser]
    exact ⟨chunks, hproc, (congrArg ReadCols.chunkCount hcols).trans hcount⟩
  · rw [hcols, huser]
    exact hd.member p (hpack ▸ hp)

theorem getFile_ok {db : Db} (h : DbOk P key H db) {u f : Text} {row : FileRow}
    (hrow : getFile db u f = some row) : row.fileId = f ∧ row.userId = u ∧ RowOk P key H row := by
  obtain ⟨r, hr, rfl⟩ := Option.map_eq_some_iff.mp hrow
  obtain ⟨hid, hu, -⟩ := getFile_some hrow
  exact ⟨hid, hu, h.rows r (List.mem_of_find?_eq_some hr)⟩

end

/-! ### What a statement does -/

/-- Rows stay in agreement with the record; chunk rows of an id outside `A` stay or go at once. -/
structure DbWears (A : Set Text) (db db' : Db) : Prop where
  ok : DbOk P key H db → DbOk P key H db'
  chunks : ∀ f ∉ A, getChunks db' f = getChunks db f ∨ getChunks db' f = []

section
variable {P key H} {A : Set Text} {db db' : Db}

theorem DbWears.trans {db'' : Db} (h : DbWears P key H A db db') (h' : DbWears P key H A db' db'') :
    DbWears P key H A db db'' := by
  refine ⟨fun hok => h'.ok (h.ok hok), fun f hf => ?_⟩
  rcases h'.chunks f hf with heq | hnil
  · rw [heq]
    exact h.chunks f hf
  · exact .inr hnil

/-- Chunk rows are as before; every row there is was there, or agrees with the record. -/
theorem dbWears_rows (hch : db'.chunks = db.chunks)
    (hf : ∀ r ∈ db'.files, DbOk P key H db → r ∈ db.files ∨ RowOk P key H r.view)
    (hs : ∀ s ∈ db'.shards, DbOk P key H db → s ∈ db.shards ∨ ShardOk P key H s) :
    DbWears P key H A db db' := by
  refine ⟨fun h => ⟨fun r hr => ?_, fun s hsm => ?_⟩, fun f _ => .inl ?_⟩
  · exact (hf r hr h).elim (h.rows r) id
  · exact (hs s hsm h).elim (h.shards s) id
  · rw [getChunks, hch, getChunks]

theorem dbWears_of_eq (hf : db'.files = db.files) (hch : db'.chunks = db.chunks)
    (hs : db'.shards = db.shards) : DbWears P key H A db db' :=
  dbWears_rows hch (fun _ hr _ => .inl (hf ▸ hr)) fun _ hsm _ => .inl (hs ▸ hsm)

theorem dbWears_updateFiles {sel : FileRec → Bool} {set : FileRec → FileRec}
    {hid : ∀ r, (set r).fileId = r.fileId} (h : updateFiles db sel set hid = some db')
    (hset : ∀ r ∈ db.files, sel r = true → RowOk P key H r.view → RowOk P key H (set r).view) :
    DbWears P key H A db db' := by
  have htab := updateFiles_some h
  have hf : db'.files = update sel set db.files := by rw [htab]
  refine dbWears_rows (by rw [htab]) (fun r hr hok => ?_) fun s hsm _ => .inl ?_
  · rw [hf] at hr
    obtain ⟨q, hq, ⟨hsel, rfl⟩ | ⟨-, rfl⟩⟩ := mem_update.mp hr
    · exact .inr (hset q hq hsel (hok.rows q hq))
    · exact .inl hq
  · have hs : db'.shards = db.shards := by rw [htab]
    exact hs ▸ hsm

/-- Retiring a row, bringing it back and moving its path change no column that matters. -/
theorem dbWears_repath {sel : FileRec → Bool} {set : FileRec → FileRec}
    {hid : ∀ r, (set r).fileId = r.fileId} (h : updateFiles db sel set hid = some db')
    (hset : ∀ r, readCols (set r).view = readCols r.view) : DbWears P key H A db db' :=
  dbWears_updateFiles h fun r _ _ hr => hr.congr (hset r) (hid r)

theorem dbWears_insertFile {row : FileRow} (hrow : RowOk P key H row.toRec.view)
    (h : insertFile db row = some db') : DbWears P key H A db db' := by
  obtain ⟨-, htab⟩ := insertFile_some h
  have hf : db'.files = db.files ++ [row.toRec] := by rw [htab]
  have hs : db'.shards = db.shards := by rw [htab]
  refine dbWears_rows (by rw [htab]) (fun r hr _ => ?_) fun s hsm _ => .inl (hs ▸ hsm)
  rw [hf] at hr
  rcases List.mem_append.mp hr with hr | hr
  · exact .inl hr
  · rw [List.mem_singleton.mp hr]
    exact .inr hrow

theorem dbWears_insertChunk {c : ChunkRow} (hc : c.fileId ∈ A) (h : insertChunk db c = some db') :
    DbWears P key H A db db' := by
  obtain ⟨-, htab⟩ := insertChunk_some h
  have hf : db'.files = db.files := by rw [htab]
  have hs : db'.shards = db.shards := by rw [htab]
  have hch : db'.chunks = db.chunks ++ [c] := by rw [htab]
  refine ⟨fun hok => ⟨by rw [hf]; exact hok.rows, by rw [hs]; exact hok.shards⟩, fun f hfA => .inl ?_⟩
  have hne : c.fileId ≠ f := fun he => hfA (he ▸ hc)
  rw [getChunks, hch, List.filter_append, List.filter_singleton, decide_eq_false hne, cond_false,
    List.append_nil, getChunks]

theorem dbWears_insertShard {s : ShardRow} (hs : ShardOk P key H s) (h : insertShard db s = some db') :
    DbWears P key H A db db' := by
  obtain ⟨-, htab⟩ := insertShard_some h
  have hf : db'.files = db.files := by rw [htab]
  have hsh : db'.shards = db.shards ++ [s] := by rw [htab]
  refine dbWears_rows (by rw [htab]) (fun r hr _ => .inl (hf ▸ hr)) fun t ht _ => ?_
  rw [hsh] at ht
  rcases List.mem_append.mp ht with ht | ht
  · exact .inl ht
  · rw [List.mem_singleton.mp ht]
    exact .inr hs

/-- Rows go, and chunk rows by their file. -/
theorem dbWears_removed (keep : Text → Bool) (hf : db'.files ⊆ db.files)
    (hch : db'.chunks = db.chunks.filter fun c => keep c.fileId) (hs : db'.shards ⊆ db.shards) :
    DbWears P key H A db db' := by
  refine ⟨fun h => ⟨fun r hr => h.rows r (hf hr), fun s hsm => h.shards s (hs hsm)⟩, fun f _ => ?_⟩
  rw [getChunks, hch, List.filter_filter, getChunks]
  cases hkeep : keep f with
  | true =>
    left
    congr 1
    apply List.filter_congr
    intro c _
    by_cases hcf : c.fileId = f
    · rw [hcf, hkeep, Bool.and_true]
    · rw [decide_eq_false hcf, Bool.false_and]
  | false =>
    right
    have hnil : db.chunks.filter (fun c => decide (c.fileId = f) && keep c.fileId) = [] := by
      rw [List.filter_eq_nil_iff]
      intro c _ hboth
      rw [Bool.and_eq_true, decide_eq_true_eq] at hboth
      rw [hboth.1, hkeep] at hboth
      exact Bool.false_ne_true hboth.2
    rw [hnil]
    rfl

theorem dbWears_deleteFile (u f : Text) : DbWears P key H A db (deleteFile db u f) :=
  dbWears_removed (fun g => g ∈ (db.files.filter fun r => !isRow u f r).map FileRec.fileId)
    (fun _ hr => (List.mem_filter.mp hr).1) rfl fun _ hs => (List.mem_filter.mp hs).1

theorem dbWears_deleteChunks (u f : Text) : DbWears P key H A db (deleteChunks db u f) :=
  dbWears_removed (fun g => !(g = f && db.files.any (isRow u f))) (fun _ hr => hr) rfl
    fun _ hs => (List.mem_filter.mp hs).1

theorem dbWears_setShardLocation (frag location : Text) :
    DbWears P key H A db (setShardLocation db frag location) := by
  refine dbWears_rows rfl (fun r hr _ => .inl hr) fun s hs hok => ?_
  obtain ⟨t, ht, ⟨-, rfl⟩ | ⟨-, rfl⟩⟩ := mem_update.mp hs
  · exact .inr ⟨(hok.shards t ht).piece⟩
  · exact .inl ht

end

/-! ### What a call does -/

/-- Rows, chunk rows and shard files between two moments of a node that agrees with the record. Only
at the fragment ids of `A` may bytes have been written. -/
structure Worn (A : Set Text) (w w' : World) : Prop where
  db : DbWears P key H A w.db w'.db
  store : ∀ g, (∀ f ∈ A, ¬ Addr P f g) → w'.store g = w.store g ∨ w'.store g = none

def Wears (A : Set Text) (w w' : World) : Prop := DbOk P key H w.db → Worn P key H A w w'

section
variable {P key H} {A : Set Text} {w w' : World}

theorem worn_of_eq (hdb : w'.db = w.db) (hst : w'.store = w.store) : Worn P key H A w w' :=
  ⟨dbWears_of_eq (by rw [hdb]) (by rw [hdb]) (by rw [hdb]), fun g _ => .inl (by rw [hst])⟩

variable (P key H) in
theorem wears_frame (A : Set Text) : Frame (Wears P key H A) where
  refl _ _ _ := worn_of_eq rfl rfl
  trans a b c hab hbc hok := by
    have h₁ := hab hok
    have h₂ := hbc (h₁.db.ok hok)
    refine ⟨h₁.db.trans h₂.db, fun g hg => ?_⟩
    rcases h₂.store g hg with heq | hnone
    · rw [heq]
      exact h₁.store g hg
    · exact .inr hnone

theorem wears_stmt {f : Db → Option Db} (hf : ∀ db db', f db = some db' → DbWears P key H A db db') :
    Moves (Wears P key H A) (stmt f) :=
  moves_stmt (wears_frame P key H A) fun _ _ h _ => ⟨hf _ _ h, fun _ _ => .inl rfl⟩

theorem wears_back (h : Wears P key H A w w') : Wears P key H A w { w' with db := w.db } :=
  fun hok => ⟨dbWears_of_eq rfl rfl rfl, (h hok).store⟩

theorem wears_transaction {α : Type} {body : Svc α} (h : Moves (Wears P key H A) body) :
    Moves (Wears P key H A) (transaction body) :=
  moves_transaction (wears_frame P key H A) (fun _ _ => wears_back) h

theorem wears_shelves : RowMoves (Wears P key H A) where
  toFrame := wears_frame P key H A
  back _ _ := wears_back
  retire _ _ _ _ c _ h _ := ⟨dbWears_repath h fun _ => by cases c <;> rfl, fun _ _ => .inl rfl⟩
  restore _ _ _ _ _ h _ := ⟨dbWears_repath h fun _ => rfl, fun _ _ => .inl rfl⟩
  repath _ _ _ _ _ h _ := ⟨dbWears_repath h fun _ => rfl, fun _ _ => .inl rfl⟩
  folders _ _ hf hc hs _ := ⟨dbWears_of_eq hf hc hs, fun _ _ => .inl rfl⟩

/-! ### Writing a file on record -/

theorem wears_writeChunkRows {m : Text} (hA : m ∈ A) {chunks : List ProcessedChunk}
    (hm : ChunksOf P key H m chunks) : Moves (Wears P key H A) (writeChunkRows P m chunks) := by
  have hR := wears_frame P key H A
  have hsized : ∀ c ∈ chunks, Sized c := by
    obtain ⟨u, d, -, hproc⟩ := hm
    exact processV2_sized hproc
  have hidx : Indexed chunks := by
    obtain ⟨u, d, -, hproc⟩ := hm
    exact processV2_indexed hproc
  refine moves_bind hR (moves_collect hR fun c hc => ?_) fun _ => moves_pure hR ()
  refine moves_bind hR (wears_stmt fun _ _ h => dbWears_insertChunk hA h) fun _ =>
    moves_bind hR (moves_collect hR fun i hi => ?_) fun _ => moves_pure hR ()
  have hlt := List.mem_range.mp hi
  refine moves_outcome_bind hR fun bytes hbytes =>
    moves_bind hR (moves_storeWrite hR fun w b _ => ?_) fun _ => wears_stmt fun _ _ h =>
      dbWears_insertShard ⟨m, c, i, bytes, ⟨chunks, hm, hc, hlt, shardBytes_ok (hsized c hc) hbytes⟩,
        rfl, rfl, rfl, rfl⟩ h
  refine ⟨dbWears_of_eq rfl rfl rfl, fun g hg => .inl (ChunkStore.set_other _ _ fun he => ?_)⟩
  exact hg m hA ⟨c.index, hidx c hc, i, hlt, he⟩

/-- The row that goes with the bytes on record. -/
theorem pushRow_ok {u path m lineage : Text} {data : Bytes} {now : Time} {chunks : List ProcessedChunk}
    (hm : H m = some (u, data)) (hproc : processV2 P data key (utf8 u) (utf8 m) {} = .ok chunks) :
    RowOk P key H (pushRow P u path m data now chunks lineage).toRec.view :=
  ⟨data, hm, rfl, rfl, fun _ => ⟨chunks, hproc, rfl⟩, fun _ hp => by cases hp⟩

theorem wears_push {u path m : Text} {data : Bytes} {now : Time} (hA : m ∈ A)
    (hm : H m = some (u, data)) : Moves (Wears P key H A) (push P key u path data m now) := by
  have hR := wears_frame P key H A
  refine moves_bind hR (moves_query hR _) fun prev => ?_
  split
  · exact moves_pure hR _
  · refine moves_outcome_bind hR fun chunks hproc => wears_transaction ?_
    have hv2 := wrapErr_eq_ok hproc
    exact moves_bind hR (moves_query hR _) fun prev =>
      moves_bind hR (moves_supersedeOpt wears_shelves u prev now) fun _ =>
      moves_bind hR (wears_stmt fun _ _ h => dbWears_insertFile (pushRow_ok hm hv2) h) fun _ =>
      moves_bind hR (wears_writeChunkRows hA ⟨u, data, hm, hv2⟩) fun _ => moves_pure hR _

theorem wears_insertPackRow {u pk : Text} {plain : Bytes} {now : Time} (hA : pk ∈ A)
    (hm : H pk = some (u, plain)) : Moves (Wears P key H A) (insertPackRow P key u pk plain now) := by
  have hR := wears_frame P key H A
  refine moves_outcome_bind hR fun chunks hproc => ?_
  have hv2 := wrapErr_eq_ok hproc
  exact moves_bind hR (wears_stmt fun _ _ h => dbWears_insertFile (pushRow_ok hm hv2) h) fun _ =>
    moves_bind hR (wears_writeChunkRows hA ⟨u, plain, hm, hv2⟩) fun _ => moves_pure hR _

/-! ### Moving a file into a container -/

/-- The statement that makes a row a range of `pk`, when that range holds the bytes on record. -/
theorem dbWears_assignToPack {db db' : Db} {u f pk : Text} {plain : Bytes} {off len : ℕ}
    (hpk : H pk = some (u, plain)) (hin : off + len ≤ plain.length)
    (hd : ∀ v d, H f = some (v, d) → (plain.drop off).take len = d)
    (h : assignToPack db u f pk off len = some db') : DbWears P key H A db db' := by
  refine dbWears_updateFiles h fun r _ hsel hr => ?_
  rw [isRow, Bool.and_eq_true, decide_eq_true_eq, decide_eq_true_eq] at hsel
  obtain ⟨hu, hf⟩ := hsel
  obtain ⟨d, hrow⟩ := hr
  have hslice := hd r.userId d (hf ▸ hrow.known)
  refine ⟨d, hrow.known, hrow.scheme, hrow.size, (fun hnone => by cases hnone), fun p hp => ?_⟩
  cases hp
  have huser : H pk = some (r.userId, plain) := hu ▸ hpk
  exact ⟨plain, huser, ⟨off, len, rfl, rfl, hin, hslice⟩⟩

/-- A `SELECT` and what follows it on the same manifest. -/
theorem moves_query_bind {α β : Type} {R : World → World → Prop} (hR : Frame R) {q : Db → α}
    {f : α → Svc β} (hf : ∀ w, R w (f (q w.db) w).2) : Moves R (query q >>= f) := by
  intro w
  have hact : ∀ s, R w (f (q w.db) { w with script := s }).2 := fun s =>
    hR.trans _ _ _ (hR.refl w s) (hf { w with script := s })
  rw [bind_apply]
  simp only [query, effect]
  cases w.script with
  | nil => exact hf w
  | cons e rest =>
    cases e with
    | works => exact hact rest
    | fails k => exact hR.refl w rest

/-- A row that was just read has the size of the bytes on record. -/
theorem data_of_guard {w : World} {u : Text} {e : PackEntry} {row : FileRow} (hok : DbOk P key H w.db)
    (hrow : getFile w.db u e.fileId = some row) (hsize : row.size = e.data.length) (hright : Right H e)
    {v : Text} {d : Bytes} (hd : H e.fileId = some (v, d)) : e.data = d := by
  obtain ⟨hid, -, d', hfor⟩ := getFile_ok hok hrow
  have hknown := hfor.known
  rw [hid, hd] at hknown
  cases hknown
  have hlen := hfor.size
  rw [hsize] at hlen
  obtain ⟨v', d', hd', hdata⟩ := hright
  rw [hd] at hd'
  cases hd'
  exact hdata (Int.ofNat.inj hlen)

theorem wears_packMember {u pk : Text} {er : PackEntry × ℕ × ℕ} {plain : Bytes}
    (hpk : H pk = some (u, plain)) (hright : Right H er.1) (hin : er.2.1 + er.2.2 ≤ plain.length)
    (hslice : (plain.drop er.2.1).take er.2.2 = er.1.data) :
    Moves (Wears P key H A) (packMember u pk er) := by
  have hR := wears_frame P key H A
  refine moves_query_bind hR fun w hok => ?_
  cases hrow : getFile w.db u er.1.fileId with
  | none => exact worn_of_eq rfl rfl
  | some row =>
    rw [orThrow, orFail_some, bind_apply]
    simp only [ofOutcome]
    split
    · exact worn_of_eq rfl rfl
    · next hguard =>
      rw [Bool.or_eq_true, not_or, decide_eq_true_eq, not_not] at hguard
      have hd : ∀ v d, H er.1.fileId = some (v, d) → (plain.drop er.2.1).take er.2.2 = d :=
        fun v d hd => hslice.trans (data_of_guard hok hrow hguard.2 hright hd)
      have hrest : Moves (Wears P key H A) (query (fragsOf · u er.1.fileId) >>= fun frags =>
          stmt (fun db => some (deleteChunks db u er.1.fileId)) >>= fun _ =>
          stmt (assignToPack · u er.1.fileId pk er.2.1 er.2.2) >>= fun _ =>
          (pure (row.storedBytes, frags) : Svc (ℤ × List RemoteShard))) := by
        refine moves_bind hR (moves_query hR _) fun frags => moves_bind hR (wears_stmt ?_) fun _ =>
          moves_bind hR (wears_stmt fun _ _ h => dbWears_assignToPack hpk hin hd h) fun _ =>
          moves_pure hR _
        intro db db' h
        cases h
        exact dbWears_deleteChunks u er.1.fileId
      exact hrest w hok

theorem wears_moveMember {u old pk : Text} {er : PackEntry × ℕ × ℕ} {plain : Bytes}
    (hpk : H pk = some (u, plain)) (hright : Right H er.1) (hin : er.2.1 + er.2.2 ≤ plain.length)
    (hslice : (plain.drop er.2.1).take er.2.2 = er.1.data) :
    Moves (Wears P key H A) (moveMember u old pk er) := by
  have hR := wears_frame P key H A
  refine moves_query_bind hR fun w hok => ?_
  cases hrow : getFile w.db u er.1.fileId with
  | none => exact worn_of_eq rfl rfl
  | some row =>
    rw [orThrow, orFail_some, bind_apply]
    simp only [ofOutcome]
    split
    · exact worn_of_eq rfl rfl
    · next hguard =>
      rw [Bool.or_eq_true, not_or, decide_eq_true_eq, decide_eq_true_eq, not_not, not_not] at hguard
      refine wears_stmt (fun _ _ h => dbWears_assignToPack hpk hin (fun v d hd => ?_) h) w hok
      exact hslice.trans (data_of_guard hok hrow hguard.2 hright hd)

/-! ### Destroying rows and bytes -/

theorem wears_purgeFileRow (u f : Text) : Moves (Wears P key H A) (purgeFileRow u f) := by
  have hR := wears_frame P key H A
  refine moves_bind hR (moves_query hR _) fun frags =>
    moves_bind hR (wears_stmt fun db db' h => ?_) fun _ => moves_pure hR _
  cases h
  exact dbWears_deleteFile u f

theorem wears_storeDelete (frag : Text) : Moves (Wears P key H A) (storeDelete frag) := by
  intro w _
  have hgone : ∀ s, Worn P key H A w { w with store := w.store.set frag none, script := s } := by
    refine fun s => ⟨dbWears_of_eq rfl rfl rfl, fun g _ => ?_⟩
    by_cases hg : g = frag
    · rw [hg]
      exact .inr (ChunkStore.set_same ..)
    · exact .inl (ChunkStore.set_other _ _ hg)
  unfold storeDelete
  split
  · split
    · exact worn_of_eq rfl rfl
    · exact hgone _
  · exact worn_of_eq rfl rfl

theorem wears_purgeLocal (frags : List RemoteShard) :
    Moves (Wears P key H A) (purgeLocalCollectRemote frags) := by
  have hR := wears_frame P key H A
  exact moves_bind hR (moves_collect hR fun s _ => wears_storeDelete s.1) fun _ => moves_pure hR _

theorem wears_purgeFile (u f : Text) : Moves (Wears P key H A) (purgeFile u f) := by
  have hR := wears_frame P key H A
  exact moves_bind hR (moves_query hR _) fun _ => moves_bind hR (moves_outcome hR _) fun _ =>
    moves_bind hR (wears_purgeFileRow u f) fun frags =>
    moves_bind hR (wears_purgeLocal frags) fun _ => moves_pure hR _

theorem wears_emptyTrash (u : Text) : Moves (Wears P key H A) (emptyTrash u) := by
  have hR := wears_frame P key H A
  refine moves_bind hR (wears_transaction ?_) fun r =>
    moves_bind hR (wears_purgeLocal r.2) fun _ => moves_pure hR _
  exact moves_bind hR (moves_query hR _) fun rows =>
    moves_bind hR (moves_collect hR fun r _ => wears_purgeFileRow u r.fileId) fun _ => moves_pure hR _

theorem wears_purgeRetired (policy : RetentionPolicy) (t v : Time) :
    Moves (Wears P key H A) (purgeRetired policy t v) := by
  have hR := wears_frame P key H A
  refine moves_bind hR (wears_transaction ?_) fun r =>
    moves_bind hR (wears_purgeLocal r.2) fun _ => moves_pure hR _
  exact moves_bind hR (moves_query hR _) fun _ => moves_bind hR (moves_query hR _) fun _ =>
    moves_bind hR (moves_query hR _) fun _ => moves_bind hR (moves_query hR _) fun _ =>
    moves_bind hR (moves_collect hR fun c _ => wears_purgeFileRow c.1 c.2.1) fun _ => moves_pure hR _

/-! ### Packing and compaction -/

section
variable {u m : Text} {es : List PackEntry} {built : Bytes × List (ℕ × ℕ)} {now : Time}

theorem wears_packFilesTx (hA : m ∈ A) (hb : buildPack es = .ok built) (hm : H m = some (u, built.1))
    (hright : ∀ e ∈ es, Right H e) :
    Moves (Wears P key H A) (packFilesTx P key u m es built.1 built.2 now) := by
  have hR := wears_frame P key H A
  obtain ⟨-, -, hslices⟩ := buildPack_ok hb
  exact moves_bind hR (moves_collect hR fun er her => wears_packMember hm
      (hright er.1 (List.of_mem_zip her).1) (hslices er her).1 (hslices er her).2) fun _ =>
    moves_bind hR (wears_insertPackRow hA hm) fun _ => moves_pure hR _

theorem wears_packFiles (hA : m ∈ A) (hm : ∀ built, buildPack es = .ok built → H m = some (u, built.1))
    (hright : ∀ e ∈ es, Right H e) : Moves (Wears P key H A) (packFiles P key u es m now) := by
  have hR := wears_frame P key H A
  rw [packFiles]
  split
  · exact moves_outcome hR _
  · exact moves_outcome_bind hR fun built hb =>
      moves_bind hR (wears_transaction (wears_packFilesTx hA hb (hm built hb) hright)) fun r =>
      moves_bind hR (wears_purgeLocal r.2.1) fun _ => moves_pure hR _

theorem wears_moveMembers {old : Text} (hb : buildPack es = .ok built) (hm : H m = some (u, built.1))
    (hright : ∀ e ∈ es, Right H e) :
    Moves (Wears P key H A) (collect (moveMember u old m) (es.zip built.2)) := by
  obtain ⟨-, -, hslices⟩ := buildPack_ok hb
  exact moves_collect (wears_frame P key H A) fun er her => wears_moveMember hm
    (hright er.1 (List.of_mem_zip her).1) (hslices er her).1 (hslices er her).2

theorem wears_compactPack {old : Text} (hA : es ≠ [] → m ∈ A)
    (hm : es ≠ [] → ∀ built, buildPack es = .ok built → H m = some (u, built.1))
    (hright : ∀ e ∈ es, Right H e) : Moves (Wears P key H A) (compactPack P key u old es m now) := by
  have hR := wears_frame P key H A
  refine moves_bind hR (wears_transaction ?_) fun r =>
    moves_bind hR (wears_purgeLocal r.2.2) fun _ => moves_pure hR _
  refine moves_bind hR (moves_query hR _) fun row => moves_bind hR (moves_outcome hR _) fun oldRow => ?_
  split
  · refine moves_bind hR (moves_query hR _) fun members => moves_bind hR (moves_outcome hR _) fun _ => ?_
    split
    · exact moves_bind hR (wears_purgeFileRow u old) fun _ => moves_pure hR _
    · next hne =>
      refine moves_outcome_bind hR fun built hb => ?_
      have hnonempty : es ≠ [] := fun hnil => hne (hnil ▸ rfl)
      have hon := hm hnonempty built hb
      exact moves_bind hR (wears_moveMembers hb hon hright) fun _ =>
        moves_bind hR (wears_insertPackRow (hA hnonempty) hon) fun _ =>
        moves_bind hR (wears_purgeFileRow u old) fun _ => moves_pure hR _
  · exact moves_outcome hR _

end

end

end P2pnas.Store.Chronicle
