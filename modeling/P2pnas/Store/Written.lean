import P2pnas.Store.Service

/-!
# What `write_chunk_rows` leaves behind

When the call succeeds, every chunk has its row and fourteen shard rows, the bytes of every
shard lie in the store under its fragment id, and each stored shard is the shard of the
materialising encoder. Rows and bytes that were there before stay.
-/

namespace P2pnas.Store.Written
open P2pnas.Lib.Frames P2pnas.Lib.Stripes P2pnas.Lib.Strings P2pnas.Lib.Tables
open P2pnas.Core.Base P2pnas.Core.Erasure P2pnas.Core.Pipeline
open P2pnas.Store.Manifest P2pnas.Store.Session P2pnas.Store.Service

/-! ### Chunk ids -/

theorem colon_not_digit (i : ℕ) : ':' ∉ Nat.toDigits 10 i := by
  intro h
  have hd := Nat.isDigit_of_mem_toDigits (by decide) (by decide) h
  exact absurd hd (by decide)

theorem toDigits_inj {i j : ℕ} (h : Nat.toDigits 10 i = Nat.toDigits 10 j) : i = j := by
  rw [← Nat.ofDigitChars_ten_toDigits (n := i), h, Nat.ofDigitChars_ten_toDigits]

theorem append_cons_inj {c : Char} {f g a b : Text} (ha : c ∉ a) (hb : c ∉ b)
    (h : f ++ c :: a = g ++ c :: b) : f = g ∧ a = b := by
  rcases List.append_eq_append_iff.mp h with ⟨t, hg, ht⟩ | ⟨t, hf, ht⟩
  · cases t with
    | nil =>
      rw [List.append_nil] at hg
      exact ⟨hg.symm, (List.cons.inj ht).2⟩
    | cons d t =>
      have hd := (List.cons.inj ht).2
      exact absurd (by rw [hd]; simp) ha
  · cases t with
    | nil =>
      rw [List.append_nil] at hf
      exact ⟨hf, (List.cons.inj ht).2.symm⟩
    | cons d t =>
      have hd := (List.cons.inj ht).2
      exact absurd (by rw [hd]; simp) hb

/-- A chunk id determines the file and the index: the index has no colon. -/
theorem chunkId_inj {f g : Text} {i j : ℕ} (h : chunkId f i = chunkId g j) : f = g ∧ i = j := by
  obtain ⟨hf, hd⟩ := append_cons_inj (colon_not_digit i) (colon_not_digit j) h
  exact ⟨hf, toDigits_inj hd⟩

/-! ### The bytes of a shard -/

theorem padShard_eq (slice : Bytes) (sl : ℕ) : padShard slice sl = padTo sl 0 slice := by
  unfold padShard
  split
  · rename_i h
    rw [padTo, h, Nat.sub_self, List.replicate_zero, List.append_nil]
  · rfl

/-- The zero-copy data shard, padded, is the stripe of the materialising encoder. -/
theorem padShard_dataShard (cipher : Bytes) (i : ℕ) :
    padShard ((dataShard cipher (shardLen cipher.length) i).getD []) (shardLen cipher.length) =
      paddedShard cipher i := by
  rw [padShard_eq, paddedShard]
  congr 1
  unfold dataShard
  split
  · rename_i h
    have hnil : cipher.drop (i * shardLen cipher.length) = [] := List.drop_eq_nil_of_le h
    rw [Option.getD_none, piece, hnil, List.take_nil]
  · rename_i h
    rw [Option.getD_some, piece]
    have hmul : (i + 1) * shardLen cipher.length =
        i * shardLen cipher.length + shardLen cipher.length := Nat.succ_mul _ _
    rcases Nat.le_total ((i + 1) * shardLen cipher.length) cipher.length with hle | hle
    · rw [Nat.min_eq_left hle, hmul, Nat.add_sub_cancel_left]
    · rw [Nat.min_eq_right hle, List.take_of_length_le (by rw [List.length_drop]),
        List.take_of_length_le (by rw [List.length_drop]; omega)]

/-- A chunk whose shard length is that of its sealed buffer, as the pipeline makes them. -/
def Sized (c : ProcessedChunk) : Prop := c.shardLen = shardLen c.cipher.length

theorem shardBytes_ok {c : ProcessedChunk} (hc : Sized c) {i : ℕ} {b : Bytes}
    (h : shardBytes c i = .ok b) : c.shards[i]? = some b := by
  unfold shardBytes at h
  rw [hc] at h
  rw [ProcessedChunk.shards]
  split at h
  · rename_i hi
    rw [List.getElem?_append_left (by rw [dataShards_length]; exact hi),
      dataShards_getElem? _ _ hi, ← padShard_dataShard]
    exact congrArg some (Except.ok.inj h)
  · rename_i hi
    rw [List.getElem?_append_right (by rw [dataShards_length]; omega), dataShards_length]
    split at h
    · rename_i r hr
      rw [hr]
      exact congrArg some (Except.ok.inj h)
    · cases h

variable {K : Type} (P : Prims K)

/-- Fragment id of shard `i` of chunk `c` of a file. -/
def fragOf (fileId : Text) (c : ProcessedChunk) (i : ℕ) : Text :=
  fragmentId P (chunkId fileId c.index) i

/-- The shard rows of a chunk. -/
def shardRows (fileId : Text) (c : ProcessedChunk) : List ShardRow :=
  (List.range TOTAL_SHARDS).map fun i =>
    shardRowFor P (chunkId fileId c.index) i (c.shards.getD i [])

/-! ### One chunk -/

/-- What `n` shards written in a row leave: the rows appended, the bytes in place, no other
file touched. -/
theorem writeShards_ok {fileId : Text} {c : ProcessedChunk} (hc : Sized c) {is : List ℕ}
    {us : List Unit} {w w' : World}
    (h : collect (writeShard P (chunkId fileId c.index) c) is w = (.ok us, w')) :
    w'.db.files = w.db.files ∧ w'.db.chunks = w.db.chunks ∧ w'.db.folders = w.db.folders ∧
      w'.db.shards = w.db.shards ++ is.map (fun i =>
        shardRowFor P (chunkId fileId c.index) i (c.shards.getD i [])) ∧
      (∀ i ∈ is, c.shards[i]?.isSome ∧ isValidFragmentId (fragOf P fileId c i) = true) ∧
      (∀ i ∈ is, w'.store (fragOf P fileId c i) = c.shards[i]?) ∧
      ∀ g, (∀ i ∈ is, g ≠ fragOf P fileId c i) → w'.store g = w.store g := by
  induction is generalizing us w with
  | nil =>
    obtain ⟨_, rfl⟩ := pure_ok h
    simp
  | cons i is ih =>
    obtain ⟨_, w₁, hone, h⟩ := bind_ok h
    obtain ⟨us', w₂, hrest, h⟩ := bind_ok h
    obtain ⟨_, rfl⟩ := pure_ok h
    -- the shard written first
    unfold writeShard at hone
    obtain ⟨b, wa, ho, hwr⟩ := bind_ok hone
    obtain ⟨hb, rfl⟩ := ofOutcome_ok ho
    obtain ⟨_, wb, hst, hins⟩ := bind_ok hwr
    have hvalid : isValidFragmentId (fragOf P fileId c i) = true := by
      unfold storeWrite at hst
      split at hst
      · assumption
      · cases hst
    obtain ⟨hdb, hstore⟩ := storeWrite_ok hst
    obtain ⟨hins, hstore'⟩ := stmt_ok hins
    have hget := shardBytes_ok hc hb
    obtain ⟨_, hdb'⟩ := insertShard_some hins
    rw [hdb] at hdb'
    obtain ⟨hf, hch, hfo, hsh, hval, hput, hkeep⟩ := ih hrest
    rw [hdb'] at hf hch hfo hsh
    have hd : c.shards.getD i [] = b := by
      rw [List.getD_eq_getElem?_getD, hget, Option.getD_some]
    have hrows : w'.db.shards = wa.db.shards ++ (i :: is).map (fun i =>
        shardRowFor P (chunkId fileId c.index) i (c.shards.getD i [])) := by
      rw [hsh, List.map_cons, hd, List.append_assoc, List.singleton_append]
    refine ⟨hf, hch, hfo, hrows, ?_, ?_, ?_⟩
    · intro j hj
      rcases List.mem_cons.mp hj with rfl | hj
      · exact ⟨by rw [hget]; rfl, hvalid⟩
      · exact hval j hj
    · intro j hj
      rcases List.mem_cons.mp hj with rfl | hj
      · -- a later shard under the same fragment id would have been refused
        have hne : ∀ k ∈ is, fragOf P fileId c j ≠ fragOf P fileId c k := by
          intro k hk heq
          have hnd := w'.db.constraints.shardIds
          rw [hrows, List.map_append, List.map_cons, List.map_cons] at hnd
          have hnot := (List.nodup_cons.mp (List.nodup_append.mp hnd).2.1).1
          rw [List.map_map] at hnot
          exact hnot (List.mem_map.mpr ⟨k, hk, heq.symm⟩)
        rw [hkeep _ hne, hstore', hstore]
        exact (ChunkStore.set_same ..).trans hget.symm
      · exact hput j hj
    · intro g hg
      rw [hkeep g (fun k hk => hg k (List.mem_cons_of_mem _ hk)), hstore', hstore]
      exact ChunkStore.set_other _ _ (hg i (List.mem_cons_self ..))

/-- The chunk has its fourteen shards, each readable under its own fragment id. -/
structure ShardsHeld (st : ChunkStore) (fileId : Text) (c : ProcessedChunk) : Prop where
  full : c.shards.length ≥ TOTAL_SHARDS
  valid : ∀ i < TOTAL_SHARDS, isValidFragmentId (fragOf P fileId c i) = true
  bytes : ∀ i < TOTAL_SHARDS, st (fragOf P fileId c i) = c.shards[i]?

theorem writeChunk_ok {fileId : Text} {c : ProcessedChunk} (hc : Sized c) {w w' : World}
    (h : writeChunk P fileId c w = (.ok (), w')) :
    w'.db.files = w.db.files ∧ w'.db.folders = w.db.folders ∧
      chunkId fileId c.index ∉ w.db.chunks.map ChunkRow.chunkId ∧
      w'.db.chunks = w.db.chunks ++ [chunkRowFor fileId c] ∧
      w'.db.shards = w.db.shards ++ shardRows P fileId c ∧ ShardsHeld P w'.store fileId c ∧
      ∀ g, (∀ i < TOTAL_SHARDS, g ≠ fragOf P fileId c i) → w'.store g = w.store g := by
  unfold writeChunk at h
  obtain ⟨_, w₁, hins, h⟩ := bind_ok h
  obtain ⟨us, w₂, hsh, h⟩ := bind_ok h
  obtain ⟨_, rfl⟩ := pure_ok h
  obtain ⟨hins, hst⟩ := stmt_ok hins
  obtain ⟨hnew, hdb⟩ := insertChunk_some hins
  obtain ⟨hf, hch, hfo, hs, hval, hput, hkeep⟩ := writeShards_ok P hc hsh
  rw [hdb] at hf hch hfo hs
  refine ⟨hf, hfo, hnew, hch, hs, ?_, ?_⟩
  · refine ⟨?_, fun i hi => (hval i (List.mem_range.mpr hi)).2,
      fun i hi => hput i (List.mem_range.mpr hi)⟩
    have hlast := (hval (TOTAL_SHARDS - 1) (List.mem_range.mpr (by decide))).1
    have hlt : TOTAL_SHARDS - 1 < c.shards.length := by
      by_contra hge
      rw [List.getElem?_eq_none (by omega)] at hlast
      cases hlast
    simp only [TOTAL_SHARDS, DATA_SHARDS, PARITY_SHARDS] at hlt ⊢
    omega
  · intro g hg
    rw [hkeep g (fun i hi => hg i (List.mem_range.mp hi)), hst]

/-! ### All chunks of a file -/

theorem writeChunks_ok {fileId : Text} {chunks : List ProcessedChunk} (hc : ∀ c ∈ chunks, Sized c)
    {us : List Unit} {w w' : World} (h : collect (writeChunk P fileId) chunks w = (.ok us, w')) :
    w'.db.files = w.db.files ∧ w'.db.folders = w.db.folders ∧
      w'.db.chunks = w.db.chunks ++ chunks.map (chunkRowFor fileId) ∧
      w'.db.shards = w.db.shards ++ chunks.flatMap (shardRows P fileId) ∧
      (∀ c ∈ chunks, ShardsHeld P w'.store fileId c) ∧
      ∀ g, (∀ c ∈ chunks, ∀ i < TOTAL_SHARDS, g ≠ fragOf P fileId c i) → w'.store g = w.store g := by
  induction chunks generalizing us w with
  | nil =>
    obtain ⟨_, rfl⟩ := pure_ok h
    simp
  | cons c chunks ih =>
    obtain ⟨_, w₁, hone, hmore⟩ := bind_ok h
    obtain ⟨us', w₂, hrest, hret⟩ := bind_ok hmore
    obtain ⟨_, rfl⟩ := pure_ok hret
    obtain ⟨hf, hfo, _, hch, hsh, hheld, hkeep⟩ := writeChunk_ok P (hc c (List.mem_cons_self ..)) hone
    obtain ⟨hf', hfo', hch', hsh', hheld', hkeep'⟩ :=
      ih (fun d hd => hc d (List.mem_cons_of_mem _ hd)) hrest
    have hrows : w'.db.shards = w.db.shards ++ (c :: chunks).flatMap (shardRows P fileId) := by
      rw [hsh', hsh, List.flatMap_cons, List.append_assoc]
    -- the fragments of a later chunk are none of this chunk's
    have hapart : ∀ i < TOTAL_SHARDS, ∀ d ∈ chunks, ∀ j < TOTAL_SHARDS,
        fragOf P fileId c i ≠ fragOf P fileId d j := by
      intro i hi d hd j hj heq
      have hnd := w'.db.constraints.shardIds
      rw [hrows, List.map_append, List.flatMap_cons, List.map_append] at hnd
      have hdis := (List.nodup_append.mp (List.nodup_append.mp hnd).2.1).2.2
      have hleft : fragOf P fileId c i ∈ (shardRows P fileId c).map ShardRow.fragmentId := by
        rw [shardRows, List.map_map]
        exact List.mem_map.mpr ⟨i, List.mem_range.mpr hi, rfl⟩
      have hright : fragOf P fileId c i ∈
          (chunks.flatMap (shardRows P fileId)).map ShardRow.fragmentId := by
        rw [heq, List.map_flatMap]
        refine List.mem_flatMap.mpr ⟨d, hd, ?_⟩
        rw [shardRows, List.map_map]
        exact List.mem_map.mpr ⟨j, List.mem_range.mpr hj, rfl⟩
      exact absurd rfl (hdis _ hleft _ hright)
    refine ⟨hf'.trans hf, hfo'.trans hfo, ?_, hrows, ?_, ?_⟩
    · rw [hch', hch, List.map_cons, List.append_assoc, List.singleton_append]
    · intro d hd
      rcases List.mem_cons.mp hd with rfl | hd
      · refine ⟨hheld.full, hheld.valid, fun i hi => ?_⟩
        rw [hkeep' _ (hapart i hi)]
        exact hheld.bytes i hi
      · exact hheld' d hd
    · intro g hg
      rw [hkeep' g (fun d hd => hg d (List.mem_cons_of_mem _ hd)),
        hkeep g (hg c (List.mem_cons_self ..))]

/-- The rows and bytes of a file written as `chunks`. -/
structure Stored (db : Db) (st : ChunkStore) (fileId : Text) (chunks : List ProcessedChunk) :
    Prop where
  rows : getChunks db fileId = chunks.map (chunkRowFor fileId)
  shards : ∀ c ∈ chunks, getShards db (chunkId fileId c.index) = shardRows P fileId c
  held : ∀ c ∈ chunks, ShardsHeld P st fileId c

/-- The chunks are in order of their index. -/
def Ordered (chunks : List ProcessedChunk) : Prop := chunks.Pairwise fun a b => a.index < b.index

theorem Ordered.eq_of_index {chunks : List ProcessedChunk} (ho : Ordered chunks)
    {c d : ProcessedChunk} (hc : c ∈ chunks) (hd : d ∈ chunks) (hi : c.index = d.index) : c = d := by
  have hnd : (chunks.map ProcessedChunk.index).Nodup := by
    rw [List.Nodup, List.pairwise_map]
    exact ho.imp (fun h => Nat.ne_of_lt h)
  exact eq_of_key hnd hc hd hi

theorem shardRows_sorted (fileId : Text) (c : ProcessedChunk) :
    (shardRows P fileId c).Pairwise fun a b => a.shardIndex ≤ b.shardIndex := by
  rw [shardRows, List.pairwise_map]
  apply List.pairwise_lt_range.imp
  intro i j hij
  exact Int.ofNat_le.mpr (Nat.le_of_lt hij)

theorem filter_shardRows_same (fileId : Text) (c : ProcessedChunk) :
    (shardRows P fileId c).filter (fun s => s.chunkId = chunkId fileId c.index) =
      shardRows P fileId c := by
  rw [List.filter_eq_self]
  intro s hs
  rw [shardRows, List.mem_map] at hs
  obtain ⟨i, _, rfl⟩ := hs
  simp only [shardRowFor, decide_true]

theorem filter_shardRows_other (fileId : Text) {c d : ProcessedChunk} (h : d.index ≠ c.index) :
    (shardRows P fileId d).filter (fun s => s.chunkId = chunkId fileId c.index) = [] := by
  rw [List.filter_eq_nil_iff]
  intro s hs heq
  rw [shardRows, List.mem_map] at hs
  obtain ⟨i, _, rfl⟩ := hs
  exact h (chunkId_inj (of_decide_eq_true heq)).2

/-- Selecting one chunk's shard rows among those of all chunks. -/
theorem filter_flatMap_shardRows (fileId : Text) {chunks : List ProcessedChunk}
    (ho : Ordered chunks) {c : ProcessedChunk} (hc : c ∈ chunks) :
    (chunks.flatMap (shardRows P fileId)).filter
      (fun s => s.chunkId = chunkId fileId c.index) = shardRows P fileId c := by
  induction chunks with
  | nil => cases hc
  | cons d chunks ih =>
    obtain ⟨hd, ho'⟩ := List.pairwise_cons.mp ho
    rw [List.flatMap_cons, List.filter_append]
    by_cases heq : d.index = c.index
    · have hdc : d = c := ho.eq_of_index (List.mem_cons_self ..) hc heq
      subst hdc
      have hnone : (chunks.flatMap (shardRows P fileId)).filter
          (fun s => s.chunkId = chunkId fileId d.index) = [] := by
        rw [List.filter_flatMap, List.flatMap_eq_nil_iff]
        intro e he
        exact filter_shardRows_other P fileId (Nat.ne_of_gt (hd e he))
      rw [filter_shardRows_same, hnone, List.append_nil]
    · have hmem : c ∈ chunks := by
        rcases List.mem_cons.mp hc with rfl | hc
        · exact absurd rfl heq
        · exact hc
      rw [filter_shardRows_other P fileId heq, List.nil_append, ih ho' hmem]

/-- `write_chunk_rows` for a file that had no chunk row stores the file. -/
theorem writeChunkRows_stored {fileId : Text} {chunks : List ProcessedChunk}
    (hc : ∀ c ∈ chunks, Sized c) (ho : Ordered chunks) {w w' : World}
    (hno : ∀ c ∈ w.db.chunks, c.fileId ≠ fileId)
    (h : writeChunkRows P fileId chunks w = (.ok (), w')) :
    Stored P w'.db w'.store fileId chunks := by
  unfold writeChunkRows at h
  obtain ⟨us, w₁, hall, hret⟩ := bind_ok h
  obtain ⟨_, rfl⟩ := pure_ok hret
  obtain ⟨_, _, hch, hsh, hheld, _⟩ := writeChunks_ok P hc hall
  refine ⟨?_, ?_, hheld⟩
  · have hold : w.db.chunks.filter (fun c => c.fileId = fileId) = [] := by
      rw [List.filter_eq_nil_iff]
      intro c hc heq
      exact hno c hc (of_decide_eq_true heq)
    have hnew : (chunks.map (chunkRowFor fileId)).filter (fun c => c.fileId = fileId) =
        chunks.map (chunkRowFor fileId) := by
      rw [List.filter_eq_self]
      intro c hc
      obtain ⟨d, _, rfl⟩ := List.mem_map.mp hc
      simp only [chunkRowFor, decide_true]
    have hsorted : (chunks.map (chunkRowFor fileId)).Pairwise fun a b => a.idx ≤ b.idx := by
      rw [List.pairwise_map]
      exact ho.imp (fun hlt => Int.ofNat_le.mpr (Nat.le_of_lt hlt))
    rw [getChunks, hch, List.filter_append, hold, hnew, List.nil_append, hsorted.insertionSort_eq]
  · intro c hcm
    have hold : w.db.shards.filter (fun s => s.chunkId = chunkId fileId c.index) = [] := by
      rw [List.filter_eq_nil_iff]
      intro s hs heq
      -- a shard of this chunk would belong to a chunk row that was there before
      have hfk := w.db.constraints.shardChunks s hs
      rw [of_decide_eq_true heq] at hfk
      have hnd := w'.db.constraints.chunkIds
      rw [hch, List.map_append, List.nodup_append] at hnd
      have hin : chunkId fileId c.index ∈ (chunks.map (chunkRowFor fileId)).map ChunkRow.chunkId :=
        List.mem_map.mpr ⟨_, List.mem_map_of_mem hcm, rfl⟩
      exact hnd.2.2 _ hfk _ hin rfl
    rw [getShards, hsh, List.filter_append, hold, List.nil_append,
      filter_flatMap_shardRows P fileId ho hcm, (shardRows_sorted P fileId c).insertionSort_eq]

/-! ### The chunks of the pipeline -/

theorem processV2_sized {K : Type} {P : Prims K} {data : Bytes} {key : K} {u f : Bytes}
    {cfg : PipelineConfig} {chunks : List ProcessedChunk}
    (h : processV2 P data key u f cfg = .ok chunks) : ∀ c ∈ chunks, Sized c := by
  obtain ⟨_, hlen, hat⟩ := processV2_spec P h
  intro c hc
  obtain ⟨i, hi, rfl⟩ := List.mem_iff_getElem.mp hc
  obtain ⟨d, hd, hproc⟩ := hat i (by rw [← hlen]; exact hi)
  rw [List.getElem?_eq_getElem hi] at hd
  rw [Option.some.inj hd]
  exact (processChunk_spec P hproc).2.1

theorem processV2_encode {K : Type} {P : Prims K} {data : Bytes} {key : K} {u f : Bytes}
    {cfg : PipelineConfig} {chunks : List ProcessedChunk}
    (h : processV2 P data key u f cfg = .ok chunks) :
    ∀ c ∈ chunks, encode P c.cipher = .ok c.shards := by
  obtain ⟨_, hlen, hat⟩ := processV2_spec P h
  intro c hc
  obtain ⟨i, hi, rfl⟩ := List.mem_iff_getElem.mp hc
  obtain ⟨d, hd, hproc⟩ := hat i (by rw [← hlen]; exact hi)
  rw [List.getElem?_eq_getElem hi] at hd
  rw [Option.some.inj hd]
  exact (processChunk_spec P hproc).2.2.1

theorem processV2_index {K : Type} {P : Prims K} {data : Bytes} {key : K} {u f : Bytes}
    {cfg : PipelineConfig} {chunks : List ProcessedChunk}
    (h : processV2 P data key u f cfg = .ok chunks) (i : ℕ) (hi : i < chunks.length) :
    chunks[i].index = i := by
  obtain ⟨_, hlen, hat⟩ := processV2_spec P h
  obtain ⟨d, hd, hproc⟩ := hat i (by rw [← hlen]; exact hi)
  rw [List.getElem?_eq_getElem hi] at hd
  rw [Option.some.inj hd]
  exact (processChunk_spec P hproc).1

theorem processV2_ordered {K : Type} {P : Prims K} {data : Bytes} {key : K} {u f : Bytes}
    {cfg : PipelineConfig} {chunks : List ProcessedChunk}
    (h : processV2 P data key u f cfg = .ok chunks) : Ordered chunks := by
  rw [Ordered, List.pairwise_iff_getElem]
  intro i j hi hj hij
  rw [processV2_index h i hi, processV2_index h j hj]
  exact hij

end P2pnas.Store.Written
