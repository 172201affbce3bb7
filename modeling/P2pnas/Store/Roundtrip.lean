import P2pnas.Store.Written

/-!
# Reading back what was written

Any ten of a chunk's stored shards open to its plaintext, so a list of chunks in file order
reassembles to the file, and a local `pull` of a stored file returns its bytes.
-/

namespace P2pnas.Store.Roundtrip
open P2pnas.Lib.Frames P2pnas.Lib.Stripes P2pnas.Lib.Strings P2pnas.Core P2pnas.Core.Base
open P2pnas.Core.Crypto P2pnas.Core.Erasure P2pnas.Core.Pipeline P2pnas.Store.Manifest
open P2pnas.Store.Session P2pnas.Store.Reading P2pnas.Store.Service P2pnas.Store.Written

variable {K : Type} (P : Prims K) (key : K)

/-- The assumed behaviour of the libraries for reading back: AES-GCM, zstd, Reed-Solomon. -/
structure Restores : Prop where
  aead : AeadOpens P
  zstd : ZstdInverts P
  rs : RsRestores P

/-- The cipher the pipeline seals a file with. -/
def fileCipher (u f : Text) (cfg : PipelineConfig) (data : Bytes) : FileCipher K :=
  FileCipher.new P key .V2 (utf8 u) (utf8 f) (chunkCount cfg data)

section
variable {P key} (hP : Restores P) {u f : Text} {cfg : PipelineConfig} {data : Bytes}
  {chunks : List ProcessedChunk}
  (hproc : processV2 P data key (utf8 u) (utf8 f) cfg = .ok chunks)
include hP hproc

/-- Ten genuine shards of chunk `i` open to the `i`-th piece of the file. -/
theorem openRow_held (i : ℕ) (hi : i < chunks.length) {present : List (Option Bytes)}
    (hh : Held chunks[i].shards present) (hten : DATA_SHARDS ≤ present.countP Option.isSome) :
    openRow P (fileCipher P key u f cfg data) (chunkRowFor f chunks[i]) present =
      .ok (piece cfg.chunkSize data i) := by
  obtain ⟨_, hlen, hat⟩ := processV2_spec P hproc
  obtain ⟨c, hc, hchunk⟩ := hat i (by rw [← hlen]; exact hi)
  rw [List.getElem?_eq_getElem hi] at hc
  have hci : chunks[i] = c := Option.some.inj hc
  rw [hci] at hh ⊢
  obtain ⟨hidx, _, henc, hseal, hcomp⟩ := processChunk_spec P hchunk
  have hrec := reconstruct_held P hP.rs henc hh hten
  have hopen := openChunk_sealChunk P hP.aead (fileCipher P key u f cfg data) rfl _ _ i
    (by rw [hlen] at hi; exact hi) hseal
  have hres := restore_maybeCompress P hP.zstd (piece cfg.chunkSize data i) cfg.zstdLevel
  simp only [openRow, chunkRowFor, asU64_natCast, hidx, hrec, wrapErr_ok, ok_bind, hopen, hcomp,
    hres, orFail_some]

/-- The chunks in file order, each with ten of its shards, reassemble to the file. -/
theorem collect_openRow (presents : List (List (Option Bytes)))
    (hlen : presents.length = chunks.length)
    (hh : ∀ i (hi : i < chunks.length) (hi' : i < presents.length),
      Held chunks[i].shards presents[i] ∧ DATA_SHARDS ≤ presents[i].countP Option.isSome) :
    collect (fun cp : ChunkRow × List (Option Bytes) =>
        openRow P (fileCipher P key u f cfg data) cp.1 cp.2)
      ((chunks.map (chunkRowFor f)).zip presents) =
      .ok ((List.range (chunkCount cfg data)).map (piece cfg.chunkSize data)) := by
  obtain ⟨_, hcount, _⟩ := processV2_spec P hproc
  apply collect_of_forall₂
  rw [List.forall₂_iff_get]
  refine ⟨by simp [hlen, hcount], ?_⟩
  intro i hi hi'
  have hic : i < chunks.length := by
    rw [List.length_map, List.length_range, ← hcount] at hi'
    exact hi'
  have hip : i < presents.length := by rw [hlen]; exact hic
  simp only [List.get_eq_getElem, List.getElem_zip, List.getElem_map, List.getElem_range]
  exact openRow_held hP hproc i hic (hh i hic hip).1 (hh i hic hip).2

theorem reassemble_held (file : FileRow) (huser : file.userId = u) (hfile : file.fileId = f)
    (hscheme : file.keyScheme = KeyScheme.V2.asI64) (hcnt : file.chunkCount = chunks.length)
    (presents : List (List (Option Bytes))) (hlen : presents.length = chunks.length)
    (hh : ∀ i (hi : i < chunks.length) (hi' : i < presents.length),
      Held chunks[i].shards presents[i] ∧ DATA_SHARDS ≤ presents[i].countP Option.isSome) :
    reassemble P key file ((chunks.map (chunkRowFor f)).zip presents) = .ok data := by
  obtain ⟨hpos, hcount, _⟩ := processV2_spec P hproc
  have hctx : rowCipher P key file = .ok (fileCipher P key u f cfg data) := by
    simp only [rowCipher, hscheme, huser, hfile, hcnt, asU64_natCast, hcount]
    rfl
  rw [reassemble, hctx, ok_bind, collect_openRow hP hproc presents hlen hh]
  exact congrArg Except.ok (chunks_flatten cfg hpos data)

end

/-! ### The local pull path -/

/-- Filling the slots from shard rows whose bytes are in the store. -/
theorem fillSlots_eval (db : Db) (st : ChunkStore) (cid : Text) (shards : List Bytes)
    (is : List ℕ) (present : List (Option Bytes)) (hlt : ∀ i ∈ is, i < present.length)
    (hread : ∀ i ∈ is, isValidFragmentId (fragmentId P cid i) = true ∧
      st (fragmentId P cid i) = some (shards.getD i [])) :
    ∃ present', (fillSlots (is.map fun i => shardRowFor P cid i (shards.getD i [])) present).eval
        db st = .ok present' ∧ present'.length = present.length ∧
      ∀ j, slot present' j = if j ∈ is then some (shards.getD j []) else slot present j := by
  induction is generalizing present with
  | nil => exact ⟨present, rfl, rfl, fun j => by simp⟩
  | cons i is ih =>
    have hi : i < present.length := hlt i (List.mem_cons_self ..)
    obtain ⟨hv, hb⟩ := hread i (List.mem_cons_self ..)
    obtain ⟨present', he, hl, hslot⟩ := ih (present.set i (some (shards.getD i [])))
      (fun j hj => by rw [List.length_set]; exact hlt j (List.mem_cons_of_mem _ hj))
      (fun j hj => hread j (List.mem_cons_of_mem _ hj))
    refine ⟨present', ?_, by rw [hl, List.length_set], ?_⟩
    · have hidx : asU64 (shardRowFor P cid i (shards.getD i [])).shardIndex = i := rfl
      rw [List.map_cons, fillSlots, hidx, if_pos hi]
      have hans : Read.storeAnswer st (shardRowFor P cid i (shards.getD i [])).fragmentId =
          .ok (shards.getD i []) := by
        change Read.storeAnswer st (fragmentId P cid i) = _
        rw [Read.storeAnswer, if_pos hv, hb, orFail_some]
      rw [Read.eval_bind, Read.eval_store, hans, ok_bind]
      exact he
    · intro j
      rw [hslot j]
      by_cases hji : j ∈ is
      · rw [if_pos hji, if_pos (List.mem_cons_of_mem _ hji)]
      · rw [if_neg hji]
        by_cases hj : j = i
        · subst hj
          rw [if_pos (List.mem_cons_self ..), slot, List.getElem?_set_self hi]
          rfl
        · rw [if_neg (by simp [hj, hji]), slot, slot, List.getElem?_set_ne (Ne.symm hj)]

/-- All fourteen stored shards in their slots. -/
theorem pullChunk_eval {db : Db} {st : ChunkStore} {f : Text} {c : ProcessedChunk}
    (hrows : getShards db (chunkId f c.index) = shardRows P f c) (hheld : ShardsHeld P st f c)
    (ctx : FileCipher K) :
    ∃ present, Held c.shards present ∧ DATA_SHARDS ≤ present.countP Option.isSome ∧
      (pullChunk P ctx (chunkRowFor f c)).eval db st = openRow P ctx (chunkRowFor f c) present := by
  have hget : ∀ i < TOTAL_SHARDS, c.shards[i]? = some (c.shards.getD i []) := by
    intro i hi
    have hlt : i < c.shards.length := Nat.lt_of_lt_of_le hi hheld.full
    rw [List.getD_eq_getElem?_getD, List.getElem?_eq_getElem hlt, Option.getD_some]
  obtain ⟨present, he, hl, hslot⟩ := fillSlots_eval P db st (chunkId f c.index) c.shards
    (List.range TOTAL_SHARDS) (List.replicate TOTAL_SHARDS none)
    (fun i hi => by rw [List.length_replicate]; exact List.mem_range.mp hi)
    (fun i hi => ⟨hheld.valid i (List.mem_range.mp hi),
      (hheld.bytes i (List.mem_range.mp hi)).trans (hget i (List.mem_range.mp hi))⟩)
  rw [List.length_replicate] at hl
  have hheld' : Held c.shards present := by
    refine ⟨hl, fun i b hb => ?_⟩
    rw [hslot i] at hb
    by_cases hi : i < TOTAL_SHARDS
    · rw [if_pos (List.mem_range.mpr hi)] at hb
      rw [hget i hi]
      exact hb
    · rw [if_neg (by simpa using hi), slot, List.getElem?_eq_none (by simpa using hi)] at hb
      cases hb
  refine ⟨present, hheld', ?_, ?_⟩
  · have hall : (List.range TOTAL_SHARDS).countP (fun i => (slot present i).isSome) =
        TOTAL_SHARDS := by
      conv_rhs => rw [← List.length_range (n := TOTAL_SHARDS)]
      rw [List.countP_eq_length]
      intro i hi
      rw [hslot i, if_pos hi]
      rfl
    rw [← hheld'.countP, hall]
    decide
  · have hrow : (chunkRowFor f c).chunkId = chunkId f c.index := rfl
    rw [pullChunk, Read.eval_bind, Read.eval_shardsOf, ok_bind, hrow, hrows, Read.eval_bind]
    rw [shardRows, he, ok_bind, Read.eval_done]

theorem eval_collect {α β : Type} (db : Db) (st : ChunkStore) (g : α → Read β) (as : List α) :
    (collect g as).eval db st = collect (fun a => (g a).eval db st) as := by
  induction as with
  | nil => rfl
  | cons a as ih => simp only [collect, Read.eval_bind, ih, Read.eval_pure]; rfl

variable {P key} in
/-- A stored row with chunks of its own reads back as its bytes. -/
theorem pullOwn_stored (hP : Restores P) {db : Db} {st : ChunkStore} {u f : Text}
    {cfg : PipelineConfig} {data : Bytes} {chunks : List ProcessedChunk}
    (hproc : processV2 P data key (utf8 u) (utf8 f) cfg = .ok chunks)
    (hst : Stored P db st f chunks) (file : FileRow) (huser : file.userId = u)
    (hfile : file.fileId = f) (hscheme : file.keyScheme = KeyScheme.V2.asI64)
    (hcnt : file.chunkCount = chunks.length) (hsize : 0 ≤ file.size) :
    (pullOwn P key file f).eval db st = .ok data := by
  obtain ⟨hpos, hcount, _⟩ := processV2_spec P hproc
  have hctx : rowCipher P key file = .ok (fileCipher P key u f cfg data) := by
    simp only [rowCipher, hscheme, huser, hfile, hcnt, asU64_natCast, hcount]
    rfl
  have hparts : collect (fun c => (pullChunk P (fileCipher P key u f cfg data) c).eval db st)
      (chunks.map (chunkRowFor f)) =
      .ok ((List.range (chunkCount cfg data)).map (piece cfg.chunkSize data)) := by
    apply collect_of_forall₂
    rw [List.forall₂_iff_get]
    refine ⟨by simp [hcount], ?_⟩
    intro i hi hi'
    have hic : i < chunks.length := by rw [List.length_map] at hi; exact hi
    have hmem : chunks[i] ∈ chunks := List.getElem_mem hic
    simp only [List.get_eq_getElem, List.getElem_map, List.getElem_range]
    obtain ⟨present, hh, hten, heq⟩ := pullChunk_eval P (hst.shards _ hmem) (hst.held _ hmem)
      (fileCipher P key u f cfg data)
    rw [heq]
    exact openRow_held hP hproc i hic hh hten
  rw [pullOwn, Read.eval_bind, Read.eval_chunksOf, ok_bind, Read.eval_bind, Read.eval_done, hctx,
    ok_bind, if_neg (by omega), Read.eval_bind, eval_collect, hst.rows, hparts, ok_bind,
    Read.eval_pure]
  exact congrArg Except.ok (chunks_flatten cfg hpos data)

end P2pnas.Store.Roundtrip
