import P2pnas.Store.Crashes
import P2pnas.Store.Readable

/-!
# The row of an id and what it reads (`manifest.rs:305-330`, `service.rs:164-212`)

A file id is a primary key, so the table of files is a partial function of it. `pull` reads
a row with chunks of its own through the rows and the bytes of that file alone, and a member
through its container.
-/

namespace P2pnas.Store.Rows
open P2pnas.Lib.Frames P2pnas.Lib.Strings P2pnas.Lib.Tables P2pnas.Core P2pnas.Core.Base
open P2pnas.Core.Crypto P2pnas.Core.Erasure P2pnas.Core.Pipeline P2pnas.Store.Manifest
open P2pnas.Store.Session P2pnas.Store.Reading P2pnas.Store.Service P2pnas.Store.Packing
open P2pnas.Store.Written P2pnas.Store.Roundtrip P2pnas.Store.Crashes P2pnas.Store.Edits

def rowOf (db : Db) (f : Text) : Option FileRec := lookup FileRec.fileId f db.files

section
variable {db : Db} {u f : Text} {r : FileRec}

theorem rowOf_some (h : rowOf db f = some r) : r ∈ db.files ∧ r.fileId = f := by
  have hsel := List.find?_some h
  exact ⟨List.mem_of_find?_eq_some h, of_decide_eq_true hsel⟩

theorem rowOf_mem (h : r ∈ db.files) : rowOf db r.fileId = some r :=
  find?_eq_some db.constraints.fileIds h (decide_eq_true rfl) fun _ hq => of_decide_eq_true hq

theorem getFile_rowOf (h : rowOf db f = some r) (hu : r.userId = u) : getFile db u f = some r.view := by
  obtain ⟨hmem, hid⟩ := rowOf_some h
  have hfind : db.files.find? (isRow u f) = some r := by
    apply find?_eq_some db.constraints.fileIds hmem
    · simp [isRow, hu, hid]
    · intro q hq
      rw [isRow, Bool.and_eq_true, decide_eq_true_eq, decide_eq_true_eq] at hq
      rw [hq.2, hid]
  rw [getFile, hfind, Option.map_some]

theorem rowOf_getFile {v : FileRow} (h : getFile db u f = some v) :
    ∃ r, rowOf db f = some r ∧ r.userId = u ∧ r.view = v := by
  obtain ⟨r, hr, hv⟩ := Option.map_eq_some_iff.mp h
  have hsel := List.find?_some hr
  rw [isRow, Bool.and_eq_true, decide_eq_true_eq, decide_eq_true_eq] at hsel
  have hrow := rowOf_mem (List.mem_of_find?_eq_some hr)
  rw [hsel.2] at hrow
  exact ⟨r, hrow, hsel.1, hv⟩

end

/-! ### What the statements do to the rows -/

section
variable {db db' : Db} {u f : Text}

theorem rowOf_congr (h : db'.files = db.files) (g : Text) : rowOf db' g = rowOf db g := by
  rw [rowOf, rowOf, h]

/-- An `UPDATE` of the row of one user's file. -/
theorem rowOf_updateFiles {set : FileRec → FileRec} {hid : ∀ r, (set r).fileId = r.fileId}
    (h : updateFiles db (isRow u f) set hid = some db') {r : FileRec} (hr : rowOf db f = some r)
    (hu : r.userId = u) (g : Text) :
    rowOf db' g = if g = f then some (set r) else rowOf db g := by
  have hfiles : db'.files = update (fun q => q.fileId = f) set db.files := by
    rw [updateFiles_some h]
    apply update_eq_iff.mpr
    intro q hq
    by_cases hf : q.fileId = f
    · have hqr : q = r := by
        have hrow := rowOf_mem hq
        rw [hf, hr] at hrow
        exact (Option.some.inj hrow).symm
      rw [isRow, hf, hqr, decide_eq_true hu, Bool.true_and]
    · rw [isRow, decide_eq_false hf, Bool.and_false]
  rw [rowOf, hfiles, lookup_update FileRec.fileId hid]
  by_cases hg : g = f
  · have hl : lookup FileRec.fileId f db.files = some r := hr
    rw [if_pos hg, if_pos hg, hg, hl, Option.map_some]
  · rw [if_neg hg, if_neg hg, rowOf]

theorem rowOf_insertFile {row : FileRow} (h : insertFile db row = some db') (g : Text) :
    rowOf db row.fileId = none ∧
      rowOf db' g = if g = row.fileId then some row.toRec else rowOf db g := by
  obtain ⟨hnew, htab⟩ := insertFile_some h
  have hfiles : db'.files = db.files ++ [row.toRec] := by rw [htab]
  refine ⟨(lookup_eq_none FileRec.fileId).mpr hnew, ?_⟩
  rw [rowOf, hfiles]
  exact lookup_concat FileRec.fileId hnew g

theorem rowOf_deleteFile {r : FileRec} (hr : rowOf db f = some r) (hu : r.userId = u) (g : Text) :
    rowOf (deleteFile db u f) g = if g = f then none else rowOf db g := by
  have hfiles : (deleteFile db u f).files = remove FileRec.fileId f db.files := by
    apply List.filter_congr
    intro q hq
    by_cases hf : q.fileId = f
    · have hqr : q = r := by
        have hrow := rowOf_mem hq
        rw [hf, hr] at hrow
        exact (Option.some.inj hrow).symm
      simp [isRow, hqr, hu]
    · simp [isRow, hf]
  rw [rowOf, hfiles]
  exact lookup_remove FileRec.fileId f g

end

/-! ### The chunks of one file -/

/-- The chunk rows of file `f`, their shard rows and the bytes at these stay. -/
structure OwnSame (f : Text) (w w' : World) : Prop where
  chunks : getChunks w'.db f = getChunks w.db f
  shards : ∀ c ∈ getChunks w.db f, getShards w'.db c.chunkId = getShards w.db c.chunkId
  bytes : ∀ c ∈ getChunks w.db f, ∀ s ∈ getShards w.db c.chunkId,
    w'.store s.fragmentId = w.store s.fragmentId

section
variable {f : Text} {w w₁ w' : World}

theorem OwnSame.trans (h : OwnSame f w w₁) (h' : OwnSame f w₁ w') : OwnSame f w w' := by
  refine ⟨h'.chunks.trans h.chunks, fun c hc => ?_, fun c hc s hs => ?_⟩
  · exact (h'.shards c (h.chunks ▸ hc)).trans (h.shards c hc)
  · have hs' : s ∈ getShards w₁.db c.chunkId := by
      rw [h.shards c hc]
      exact hs
    exact (h'.bytes c (h.chunks ▸ hc) s hs').trans (h.bytes c hc s hs)

/-- Nothing but the store changed, and not at a shard row. -/
theorem ownSame_of_store (hdb : w'.db = w.db)
    (hst : ∀ s ∈ w.db.shards, w'.store s.fragmentId = w.store s.fragmentId) : OwnSame f w w' := by
  refine ⟨by rw [hdb], fun c _ => by rw [hdb], fun c _ s hs => ?_⟩
  exact hst s (mem_getShards.mp hs).1

theorem ownSame_of_tables (hch : w'.db.chunks = w.db.chunks) (hsh : w'.db.shards = w.db.shards)
    (hst : w'.store = w.store) : OwnSame f w w' := by
  refine ⟨by rw [getChunks, hch, getChunks], fun c _ => by rw [getShards, hsh, getShards], ?_⟩
  intro c _ s _
  rw [hst]

/-- Chunk rows were removed and took their shard rows along; those of `f` stay. -/
theorem ownSame_of_removed {p : ChunkRow → Bool} (hch : w'.db.chunks = w.db.chunks.filter p)
    (hsh : w'.db.shards = w.db.shards.filter fun s => s.chunkId ∈ w'.db.chunks.map ChunkRow.chunkId)
    (hst : w'.store = w.store) (hkeep : ∀ c ∈ w.db.chunks, c.fileId = f → p c = true) :
    OwnSame f w w' := by
  have hmem : ∀ c ∈ getChunks w.db f, c ∈ w'.db.chunks := by
    intro c hc
    obtain ⟨hc, hcf⟩ := mem_getChunks.mp hc
    rw [hch]
    exact List.mem_filter.mpr ⟨hc, hkeep c hc hcf⟩
  refine ⟨?_, fun c hc => ?_, fun c _ s _ => by rw [hst]⟩
  · rw [getChunks, hch, List.filter_filter, getChunks]
    congr 1
    apply List.filter_congr
    intro c hc
    by_cases hcf : c.fileId = f
    · rw [decide_eq_true hcf, hkeep c hc hcf, Bool.and_true]
    · rw [decide_eq_false hcf, Bool.false_and]
  · rw [getShards, hsh, List.filter_filter, getShards]
    congr 1
    apply List.filter_congr
    intro s _
    by_cases hsc : s.chunkId = c.chunkId
    · rw [decide_eq_true hsc, Bool.true_and, hsc]
      exact decide_eq_true (List.mem_map_of_mem (hmem c hc))
    · rw [decide_eq_false hsc, Bool.false_and]

/-- Chunks of another file were written, their bytes at no shard row of `f`. -/
theorem ownSame_of_written {g : Text} {cs : List ChunkRow} {ss : List ShardRow} (hg : f ≠ g)
    (hch : w'.db.chunks = w.db.chunks ++ cs) (hcs : ∀ c ∈ cs, c.fileId = g)
    (hsh : w'.db.shards = w.db.shards ++ ss)
    (hss : ∀ s ∈ ss, s.chunkId ∈ cs.map ChunkRow.chunkId)
    (hst : ∀ s ∈ w.db.shards, w'.store s.fragmentId = w.store s.fragmentId) : OwnSame f w w' := by
  refine ⟨?_, fun c hc => ?_, fun c _ s hs => hst s (mem_getShards.mp hs).1⟩
  · have hnone : cs.filter (fun c => c.fileId = f) = [] := by
      rw [List.filter_eq_nil_iff]
      intro c hc hcf
      exact hg ((of_decide_eq_true hcf).symm.trans (hcs c hc))
    rw [getChunks, hch, List.filter_append, hnone, List.append_nil, getChunks]
  · have hnone : ss.filter (fun s => s.chunkId = c.chunkId) = [] := by
      rw [List.filter_eq_nil_iff]
      intro s hs hsc
      -- a new shard belongs to a new chunk, and chunk ids are unique
      have hnd := w'.db.constraints.chunkIds
      rw [hch, List.map_append, List.nodup_append] at hnd
      have hold : c.chunkId ∈ w.db.chunks.map ChunkRow.chunkId :=
        List.mem_map_of_mem (mem_getChunks.mp hc).1
      have hnew := hss s hs
      rw [of_decide_eq_true hsc] at hnew
      exact hnd.2.2 _ hold _ hnew rfl
    rw [getShards, hsh, List.filter_append, hnone, List.append_nil, getShards]

end

/-! ### Reading a row -/

section
variable {K : Type} (P : Prims K) (key : K)

/-- What a row reads from the chunks of its own. -/
def ownBytes (w : World) (r : FileRec) : Outcome StoreError Bytes :=
  (pullOwn P key r.view r.fileId).eval w.db w.store

/-- What `pull` returns on a node that stays as it is. -/
def pulled (w : World) (u f : Text) : Outcome StoreError Bytes :=
  (pull P key PULL_DEPTH u f).eval w.db w.store

variable {P key} {w w' : World} {u f : Text} {r : FileRec}

theorem fillSlots_same {ss : List ShardRow}
    (hst : ∀ s ∈ ss, w'.store s.fragmentId = w.store s.fragmentId) (present : List (Option Bytes)) :
    (fillSlots ss present).eval w'.db w'.store = (fillSlots ss present).eval w.db w.store := by
  induction ss generalizing present with
  | nil => rfl
  | cons s ss ih =>
    have hs : Read.storeAnswer w'.store s.fragmentId = Read.storeAnswer w.store s.fragmentId := by
      rw [Read.storeAnswer, Read.storeAnswer, hst s (List.mem_cons_self ..)]
    have hrest := ih fun t ht => hst t (List.mem_cons_of_mem _ ht)
    rw [fillSlots]
    split
    · rw [Read.eval_bind, Read.eval_bind, Read.eval_store, Read.eval_store, hs]
      congr 1
      funext b
      exact hrest _
    · exact hrest present

theorem ownBytes_same (h : OwnSame r.fileId w w') : ownBytes P key w' r = ownBytes P key w r := by
  have hchunk : ∀ (ctx : FileCipher K), ∀ c ∈ getChunks w.db r.fileId,
      (pullChunk P ctx c).eval w'.db w'.store = (pullChunk P ctx c).eval w.db w.store := by
    intro ctx c hc
    rw [pullChunk, Read.eval_bind, Read.eval_bind, Read.eval_shardsOf, Read.eval_shardsOf,
      h.shards c hc, ok_bind, ok_bind, Read.eval_bind, Read.eval_bind, fillSlots_same (h.bytes c hc)]
    rfl
  rw [ownBytes, ownBytes, pullOwn, Read.eval_bind, Read.eval_bind, Read.eval_chunksOf,
    Read.eval_chunksOf, h.chunks, ok_bind, ok_bind, Read.eval_bind, Read.eval_bind, Read.eval_done,
    Read.eval_done]
  congr 1
  funext ctx
  split
  · rfl
  · rw [Read.eval_bind, Read.eval_bind, eval_collect, eval_collect, collect_congr (hchunk ctx)]
    rfl

theorem pull_own (hr : rowOf w.db f = some r) (hu : r.userId = u) (hnone : r.packId = none) (n : ℕ) :
    (pull P key (n + 1) u f).eval w.db w.store = ownBytes P key w r := by
  have hid := (rowOf_some hr).2
  have hview : r.view.packId = none := hnone
  rw [pull, Read.eval_bind, Read.eval_file, ok_bind, getFile_rowOf hr hu, Read.eval_bind,
    Read.eval_orStop, orFail_some, ok_bind]
  simp only [hview]
  rw [ownBytes, hid]

theorem pulled_own (hr : rowOf w.db f = some r) (hu : r.userId = u) (hnone : r.packId = none) :
    pulled P key w u f = ownBytes P key w r := pull_own hr hu hnone 1

theorem pulled_member {c : FileRec} {p : Text} (hr : rowOf w.db f = some r) (hu : r.userId = u)
    (hp : r.packId = some p) (hc : rowOf w.db p = some c) (hcu : c.userId = u)
    (hnone : c.packId = none) :
    pulled P key w u f = ownBytes P key w c >>= fun plain => memberSlice plain r.view := by
  have hview : r.view.packId = some p := hp
  have hpack : c.view.packId.isSome = false := by
    rw [show c.view.packId = none from hnone]
    rfl
  rw [pulled, PULL_DEPTH, pull, Read.eval_bind, Read.eval_file, ok_bind, getFile_rowOf hr hu,
    Read.eval_bind, Read.eval_orStop, orFail_some, ok_bind]
  simp only [hview]
  rw [Read.eval_bind, Read.eval_file, ok_bind, getFile_rowOf hc hcu, Read.eval_bind, Read.eval_orStop,
    orFail_some, ok_bind, hpack, if_neg Bool.false_ne_true, Read.eval_bind, pull_own hc hcu hnone 0]
  rfl

/-- A pull that returns bytes read the chunks of its row, or the range of a member. -/
theorem pulled_ok {b : Bytes} (h : pulled P key w u f = .ok b) :
    ∃ r, rowOf w.db f = some r ∧ r.userId = u ∧
      (r.packId = none ∧ ownBytes P key w r = .ok b ∨
        ∃ p c plain, r.packId = some p ∧ rowOf w.db p = some c ∧ c.userId = u ∧ c.packId = none ∧
          ownBytes P key w c = .ok plain ∧ memberSlice plain r.view = .ok b) := by
  have hpull := h
  rw [pulled, PULL_DEPTH, pull, Read.eval_bind, Read.eval_file, ok_bind, Read.eval_bind,
    Read.eval_orStop] at hpull
  obtain ⟨v, hv, hpull⟩ := bind_eq_ok hpull
  obtain ⟨r, hr, hu, rfl⟩ := rowOf_getFile (orFail_eq_ok hv)
  refine ⟨r, hr, hu, ?_⟩
  cases hp : r.packId with
  | none => exact .inl ⟨rfl, (pulled_own hr hu hp).symm.trans h⟩
  | some p =>
    have hview : r.view.packId = some p := hp
    simp only [hview] at hpull
    rw [Read.eval_bind, Read.eval_file, ok_bind, Read.eval_bind, Read.eval_orStop] at hpull
    obtain ⟨v, hv, hpull⟩ := bind_eq_ok hpull
    obtain ⟨c, hc, hcu, rfl⟩ := rowOf_getFile (orFail_eq_ok hv)
    split at hpull
    · cases hpull
    · next hnone =>
      have hcp : c.packId = none := by
        cases hcp : c.packId with
        | none => rfl
        | some q =>
          have hsome : c.view.packId.isSome = true := congrArg Option.isSome hcp
          exact absurd hsome hnone
      rw [pulled_member hr hu hp hc hcu hcp] at h
      obtain ⟨plain, hplain, hslice⟩ := bind_eq_ok h
      exact .inr ⟨p, c, plain, rfl, hc, hcu, hcp, hplain, hslice⟩

end

end P2pnas.Store.Rows
