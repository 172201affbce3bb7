import P2pnas.Core.Sample
import P2pnas.Lib.Window
import P2pnas.Store.Roundtrip

/-!
# Downloading a file (`handlers/files.rs:594-770`)

The shards of a chunk are requested all at once and arrive in any order; the first ten that
pass their hash check win. Chunks are fetched through a sliding window and put back in file
order before they are opened. What a request brings back, from the local store or a peer, is
part of the run.
-/

namespace P2pnas.Node.Download
open P2pnas.Lib.Frames P2pnas.Lib.Strings P2pnas.Lib.Window P2pnas.Core.Base P2pnas.Core.Crypto
open P2pnas.Core.Erasure P2pnas.Core.Pipeline P2pnas.Store.Manifest P2pnas.Store.Session
open P2pnas.Store.Reading P2pnas.Store.Service P2pnas.Store.Written P2pnas.Store.Roundtrip
open P2pnas.Core.Sample

def READ_CHUNK_WINDOW : ℕ := 4

variable {K : Type} (P : Prims K) (key : K)

/-- `fetch_shard_for_read`: the slot, and the bytes that came back if they match the row. -/
def fetchShardForRead (s : ShardRow) (answer : Option Bytes) : ℕ × Option Bytes :=
  (asU64 s.shardIndex, answer.filter (verifyHash P · s.hash))

/-- The loop of `fetch_chunk_shards` over the answers in order of arrival, `got` slots being
filled so far. -/
def takeArrivals (got : ℕ) (present : List (Option Bytes)) :
    List (ℕ × Option Bytes) → List (Option Bytes)
  | [] => present
  | (_, none) :: rest => takeArrivals got present rest
  | (idx, some bytes) :: rest =>
    match present[idx]? with
    | none => takeArrivals got present rest
    | some cell =>
      if cell.isNone then
        if DATA_SHARDS ≤ got + 1 then present.set idx (some bytes)
        else takeArrivals (got + 1) (present.set idx (some bytes)) rest
      else if DATA_SHARDS ≤ got then present
      else takeArrivals got present rest

/-- `fetch_chunk_shards`; `arrivals` are the requests with their answers as they complete. A
task that panics answers nothing. -/
def fetchChunkShards (arrivals : List (ShardRow × Option Bytes)) : List (Option Bytes) :=
  takeArrivals 0 (List.replicate TOTAL_SHARDS none)
    (arrivals.map fun a => fetchShardForRead P a.1 a.2)

/-- A chunk fetch: its place in the file, its row, its slots. -/
abbrev ChunkFetch := ℕ × ChunkRow × List (Option Bytes)

/-- The fetches of a plan, chunk `i` with the arrivals `arr i`. -/
def chunkFetches (plan : List (ChunkRow × List ShardRow))
    (arr : ℕ → List (ShardRow × Option Bytes)) : List ChunkFetch :=
  plan.zipIdx.map fun ci => (ci.2, ci.1.1, fetchChunkShards P (arr ci.2))

/-- `fetch_and_reassemble`: the chunks complete in the order `fetched`, are sorted back into
file order, and reassembled. -/
def fetchAndReassemble (file : FileRow) (fetched : List ChunkFetch) : Outcome StoreError Bytes :=
  reassemble P key file
    ((fetched.insertionSort fun a b => a.1 ≤ b.1).map fun c => (c.2.1, c.2.2))

/-- The completion orders the window allows for a plan. -/
def Fetched (plan : List (ChunkRow × List ShardRow)) (arr : ℕ → List (ShardRow × Option Bytes))
    (fetched : List ChunkFetch) : Prop :=
  (Pool.start READ_CHUNK_WINDOW (chunkFetches P plan arr)).Drains fetched

/-! ### Slots filled in order of arrival -/

theorem set_isSome_countP {present : List (Option Bytes)} {idx : ℕ} {b : Bytes}
    (h : present[idx]? = some none) :
    (present.set idx (some b)).countP Option.isSome = present.countP Option.isSome + 1 := by
  induction present generalizing idx with
  | nil => simp at h
  | cons c present ih =>
    cases idx with
    | zero =>
      rw [List.getElem?_cons_zero] at h
      cases Option.some.inj h
      simp
    | succ idx =>
      rw [List.getElem?_cons_succ] at h
      rw [List.set_cons_succ, List.countP_cons, List.countP_cons, ih h]
      omega

theorem held_set {shards : List Bytes} {present : List (Option Bytes)} (hh : Held shards present) {i : ℕ}
    {b : Bytes} (hb : shards[i]? = some b) : Held shards (present.set i (some b)) := by
  refine ⟨by rw [List.length_set]; exact hh.slots, fun j c hc => ?_⟩
  by_cases hj : j = i
  · subst hj
    by_cases hlt : j < present.length
    · rw [slot, List.getElem?_set_self hlt] at hc
      rw [hb]
      exact hc
    · rw [slot, List.getElem?_eq_none (by rw [List.length_set]; omega)] at hc
      cases hc
  · rw [slot, List.getElem?_set_ne (Ne.symm hj)] at hc
    exact hh.genuine j c hc

theorem held_none (shards : List Bytes) : Held shards (List.replicate TOTAL_SHARDS none) := by
  refine ⟨List.length_replicate .., fun i b hb => ?_⟩
  rw [slot, List.getElem?_replicate] at hb
  split at hb <;> cases hb

/-- Genuine arrivals keep the slots genuine. -/
theorem takeArrivals_held {shards : List Bytes} (arrivals : List (ℕ × Option Bytes)) (got : ℕ)
    (present : List (Option Bytes)) (hh : Held shards present)
    (hgen : ∀ a ∈ arrivals, ∀ b, a.2 = some b → shards[a.1]? = some b) :
    Held shards (takeArrivals got present arrivals) := by
  induction arrivals generalizing got present with
  | nil => exact hh
  | cons a rest ih =>
    have hrest : ∀ a ∈ rest, ∀ b, a.2 = some b → shards[a.1]? = some b :=
      fun a ha => hgen a (List.mem_cons_of_mem _ ha)
    obtain ⟨idx, o⟩ := a
    cases o with
    | none => exact ih got present hh hrest
    | some b =>
      have hb := hgen _ (List.mem_cons_self ..) b rfl
      have hp := held_set hh hb
      rw [takeArrivals]
      split
      · exact ih got present hh hrest
      · split
        · split
          · exact hp
          · exact ih _ _ hp hrest
        · split
          · exact hh
          · exact ih _ _ hh hrest

/-- The indices still to come that would fill an empty slot. -/
def fresh (present : List (Option Bytes)) (arrivals : List (ℕ × Option Bytes)) (i : ℕ) : Bool :=
  (slot present i).isNone && arrivals.any fun a => a.1 = i && a.2.isSome

theorem countP_or_le {α : Type} (p q : α → Bool) (l : List α) :
    l.countP (fun a => p a || q a) ≤ l.countP p + l.countP q := by
  induction l with
  | nil => simp
  | cons a l ih =>
    simp only [List.countP_cons]
    cases p a <;> cases q a <;> simp <;> omega

/-- An arrival that fills nothing leaves the fresh indices as they are. -/
theorem fresh_skip {present : List (Option Bytes)} {idx : ℕ} {o : Option Bytes}
    (rest : List (ℕ × Option Bytes))
    (hno : ∀ i, (slot present i).isNone → i = idx → o = none ∨ present.length ≤ i) :
    (List.range present.length).countP (fresh present ((idx, o) :: rest)) ≤
      (List.range present.length).countP (fresh present rest) := by
  apply List.countP_mono_left
  intro i hi h
  simp only [fresh, List.any_cons, Bool.and_eq_true, Bool.or_eq_true, decide_eq_true_eq] at h ⊢
  refine ⟨h.1, h.2.resolve_left ?_⟩
  rintro ⟨heq, hsome⟩
  rcases hno i h.1 heq.symm with hnone | hlen
  · rw [hnone] at hsome
    cases hsome
  · have hlt := List.mem_range.mp hi
    omega

/-- An arrival that fills a slot makes one index less fresh. -/
theorem fresh_fill {present : List (Option Bytes)} {idx : ℕ} (b : Bytes)
    (rest : List (ℕ × Option Bytes)) (hidx : idx < present.length) :
    (List.range present.length).countP (fresh present ((idx, some b) :: rest)) ≤
      1 + (List.range present.length).countP (fresh (present.set idx (some b)) rest) := by
  have hle : (List.range present.length).countP (fresh present ((idx, some b) :: rest)) ≤
      (List.range present.length).countP (fun i => decide (i = idx) ||
        fresh (present.set idx (some b)) rest i) := by
    apply List.countP_mono_left
    intro i _ h
    by_cases hi : i = idx
    · simp [hi]
    · simp only [fresh, List.any_cons, Bool.and_eq_true, Bool.or_eq_true, decide_eq_true_eq] at h ⊢
      right
      refine ⟨?_, h.2.resolve_left fun hh => hi hh.1.symm⟩
      rw [slot, List.getElem?_set_ne (Ne.symm hi)]
      exact h.1
  have hone : (List.range present.length).countP (fun i => decide (i = idx)) = 1 := by
    have hc1 := (List.nodup_range (n := present.length)).count (a := idx)
    rw [if_pos (List.mem_range.mpr hidx), List.count] at hc1
    rw [← hc1]
    apply List.countP_congr
    intro i _
    simp
  refine (hle.trans (countP_or_le ..)).trans ?_
  rw [hone]

/-- The loop ends with ten slots as soon as the slots filled and the fresh indices to come
make ten. -/
theorem takeArrivals_count (arrivals : List (ℕ × Option Bytes)) (got : ℕ)
    (present : List (Option Bytes)) (hgot : got = present.countP Option.isSome)
    (hten : DATA_SHARDS ≤ got +
      (List.range present.length).countP (fresh present arrivals)) :
    DATA_SHARDS ≤ (takeArrivals got present arrivals).countP Option.isSome := by
  induction arrivals generalizing got present with
  | nil =>
    have h0 : (List.range present.length).countP (fresh present []) = 0 := by
      rw [List.countP_eq_zero]
      intro i _
      simp [fresh]
    rw [takeArrivals, ← hgot]
    omega
  | cons a rest ih =>
    obtain ⟨idx, o⟩ := a
    cases o with
    | none =>
      rw [takeArrivals]
      exact ih got present hgot (Nat.le_trans hten
        (Nat.add_le_add_left (fresh_skip rest fun _ _ _ => .inl rfl) _))
    | some b =>
      rw [takeArrivals]
      split
      · rename_i hnone
        refine ih got present hgot (Nat.le_trans hten (Nat.add_le_add_left (fresh_skip rest ?_) _))
        intro i _ hi
        right
        rw [hi]
        exact List.getElem?_eq_none_iff.mp hnone
      · rename_i cell hcell
        by_cases hc : cell.isNone = true
        · rw [if_pos hc]
          have hcell' : present[idx]? = some none := by
            rw [hcell, Option.isNone_iff_eq_none.mp hc]
          have hcount := set_isSome_countP (b := b) hcell'
          split
          · rename_i hle
            rw [hcount, ← hgot]
            exact hle
          · apply ih (got + 1) _ (by rw [hcount, hgot])
            rw [List.length_set]
            have hfill := fresh_fill b rest (List.getElem?_eq_some_iff.mp hcell').1
            omega
        · rw [if_neg hc]
          split
          · rename_i hle
            rw [← hgot]
            exact hle
          · refine ih got present hgot (Nat.le_trans hten (Nat.add_le_add_left (fresh_skip rest ?_) _))
            intro i hnone hi
            rw [hi, slot, hcell, Option.join_some] at hnone
            exact absurd hnone hc

/-! ### A download of a stored file -/

/-- What a download got for one chunk: every shard was asked for once and answered in some
order, an answer that passes the check is the stored shard, and ten stored shards came. -/
structure Received (st : ChunkStore) (shards : List ShardRow)
    (arrivals : List (ShardRow × Option Bytes)) : Prop where
  asked : (arrivals.map Prod.fst).Perm shards
  genuine : ∀ a ∈ arrivals, ∀ b, a.2 = some b → verifyHash P b a.1.hash = true →
    st a.1.fragmentId = some b
  enough : DATA_SHARDS ≤ arrivals.countP fun a => a.2.isSome && a.2 = st a.1.fragmentId

section
variable {P} {st : ChunkStore} {f : Text} {c : ProcessedChunk}
  {arrivals : List (ShardRow × Option Bytes)}

theorem received_row (hr : Received P st (shardRows P f c) arrivals)
    {a : ShardRow × Option Bytes} (ha : a ∈ arrivals) :
    ∃ i < TOTAL_SHARDS, a.1 = shardRowFor P (chunkId f c.index) i (c.shards.getD i []) := by
  have hmem := hr.asked.subset (List.mem_map_of_mem ha)
  rw [shardRows, List.mem_map] at hmem
  obtain ⟨i, hi, heq⟩ := hmem
  exact ⟨i, List.mem_range.mp hi, heq.symm⟩

/-- The slots a download fills hold only the chunk's shards. -/
theorem received_held (hh : ShardsHeld P st f c)
    (hr : Received P st (shardRows P f c) arrivals) :
    Held c.shards (fetchChunkShards P arrivals) := by
  refine takeArrivals_held _ _ _ (held_none _) fun a ha b hb => ?_
  obtain ⟨a₀, ha₀, rfl⟩ := List.mem_map.mp ha
  obtain ⟨i, hi, hrow⟩ := received_row hr ha₀
  simp only [fetchShardForRead, Option.filter_eq_some_iff] at hb
  have hst := hr.genuine a₀ ha₀ b hb.1 hb.2
  rw [hrow] at hst
  have hbytes := hh.bytes i hi
  simp only [fetchShardForRead, hrow]
  exact hbytes.symm.trans hst

/-- Ten stored shards fill ten slots. -/
theorem received_ten (hh : ShardsHeld P st f c)
    (hr : Received P st (shardRows P f c) arrivals) :
    DATA_SHARDS ≤ (fetchChunkShards P arrivals).countP Option.isSome := by
  apply takeArrivals_count
  · rw [List.countP_replicate]
    rfl
  rw [List.length_replicate, Nat.zero_add]
  set good : ShardRow × Option Bytes → Bool := fun a => a.2.isSome && a.2 = st a.1.fragmentId
  refine Nat.le_trans hr.enough ?_
  rw [List.countP_eq_length_filter, List.countP_eq_length_filter]
  -- the slots of the stored shards that came are distinct and fresh
  have hnodup : ((arrivals.filter good).map fun a => asU64 a.1.shardIndex).Nodup := by
    have hall : ((arrivals.map Prod.fst).map fun s => asU64 s.shardIndex).Nodup := by
      rw [(hr.asked.map _).nodup_iff, shardRows, List.map_map]
      have hid : ((fun s : ShardRow => asU64 s.shardIndex) ∘ fun i =>
          shardRowFor P (chunkId f c.index) i (c.shards.getD i [])) = id := rfl
      rw [hid, List.map_id]
      exact List.nodup_range
    rw [List.map_map] at hall
    exact hall.sublist (List.filter_sublist.map _)
  have hsub : ((arrivals.filter good).map fun a => asU64 a.1.shardIndex) ⊆
      (List.range TOTAL_SHARDS).filter (fresh (List.replicate TOTAL_SHARDS none)
        (arrivals.map fun a => fetchShardForRead P a.1 a.2)) := by
    intro i hi
    obtain ⟨a, ha, rfl⟩ := List.mem_map.mp hi
    obtain ⟨ha, hgood⟩ := List.mem_filter.mp ha
    obtain ⟨i, hi, hrow⟩ := received_row hr ha
    have hidx : asU64 a.1.shardIndex = i := by rw [hrow]; rfl
    rw [hidx, List.mem_filter, fresh, Bool.and_eq_true]
    refine ⟨List.mem_range.mpr hi, ?_, ?_⟩
    · rw [slot, List.getElem?_replicate_of_lt hi]
      rfl
    · rw [List.any_eq_true]
      refine ⟨_, List.mem_map_of_mem ha, ?_⟩
      simp only [good, Bool.and_eq_true, decide_eq_true_eq] at hgood
      obtain ⟨b, hb⟩ := Option.isSome_iff_exists.mp hgood.1
      have hbytes := hh.bytes i hi
      have hfrag : a.1.fragmentId = fragOf P f c i := by rw [hrow]; rfl
      have hshard : c.shards[i]? = some b := by
        rw [← hbytes, ← hfrag, ← hgood.2, hb]
      have hhash : a.1.hash = shardHash P b := by
        rw [hrow]
        simp only [shardRowFor, List.getD_eq_getElem?_getD, hshard, Option.getD_some]
      simp only [fetchShardForRead, hidx, hb, Option.filter, verifyHash, hhash, decide_true,
        Bool.or_true, if_true, Option.isSome_some, Bool.and_self]
  have hle := (List.subperm_of_subset hnodup hsub).length_le
  rw [List.length_map] at hle
  exact hle

end

theorem chunkFetches_sorted (plan : List (ChunkRow × List ShardRow))
    (arr : ℕ → List (ShardRow × Option Bytes)) :
    (chunkFetches P plan arr).Pairwise fun a b => a.1 < b.1 := by
  rw [chunkFetches, List.pairwise_map, List.pairwise_iff_getElem]
  intro i j hi hj hij
  simpa only [List.getElem_zipIdx, Nat.zero_add] using hij

/-- Whatever order the chunks complete in, they are opened in file order. -/
theorem fetchAndReassemble_eq {plan : List (ChunkRow × List ShardRow)}
    {arr : ℕ → List (ShardRow × Option Bytes)} {fetched : List ChunkFetch} (file : FileRow)
    (hf : Fetched P plan arr fetched) :
    fetchAndReassemble P key file fetched = reassemble P key file
      ((plan.map Prod.fst).zip
        ((List.range plan.length).map fun i => fetchChunkShards P (arr i))) := by
  have hsort : fetched.insertionSort (fun a b => a.1 ≤ b.1) = chunkFetches P plan arr :=
    sort_of_perm (start_drains_perm (by decide) hf) (chunkFetches_sorted P plan arr)
  rw [fetchAndReassemble, hsort]
  congr 1
  apply List.ext_getElem
  · simp [chunkFetches]
  · intro i hi hi'
    simp [chunkFetches]

/-- A plan of one chunk has its one completion order. -/
theorem fetched_single {plan : List (ChunkRow × List ShardRow)} (hlen : plan.length = 1)
    (arr : ℕ → List (ShardRow × Option Bytes)) : Fetched P plan arr (chunkFetches P plan arr) := by
  obtain ⟨p, rfl⟩ := List.length_eq_one_iff.mp hlen
  exact .step (.finish _ [] [] _ rfl) (.done _ rfl)

theorem pullPlan_eval {db : Db} {st : ChunkStore} {u f : Text} {file : FileRow}
    {plan : List (ChunkRow × List ShardRow)}
    (h : (pullPlan u f).eval db st = .ok (file, plan)) :
    getFile db u f = some file ∧
      plan = (getChunks db f).map fun c => (c, getShards db c.chunkId) := by
  have hcollect : ∀ cs : List ChunkRow,
      (collect (fun c => do
        let shards ← Read.shardsOf c.chunkId
        return (c, shards)) cs : Read (List (ChunkRow × List ShardRow))).eval db st =
        .ok (cs.map fun c => (c, getShards db c.chunkId)) := by
    intro cs
    rw [eval_collect]
    induction cs with
    | nil => rfl
    | cons c cs ih =>
      rw [collect, ih]
      rfl
  cases hrow : getFile db u f with
  | none =>
    simp only [pullPlan, Read.eval_bind, Read.eval_file, ok_bind, hrow, Read.eval_orStop] at h
    cases h
  | some row =>
    simp only [pullPlan, Read.eval_bind, Read.eval_file, ok_bind, hrow, Read.eval_orStop,
      orFail_some, Read.eval_chunksOf, hcollect, Read.eval_pure] at h
    cases h
    exact ⟨rfl, rfl⟩

/-- A file written by `write_chunk_rows` comes back whole from any ten shards of each chunk,
in any order of arrival, the chunks completing in any order the window allows. -/
theorem download_returns_data (hP : Restores P) (u f : Text) (cfg : PipelineConfig) (data : Bytes)
    (chunks : List ProcessedChunk)
    (hproc : processV2 P data key (utf8 u) (utf8 f) cfg = .ok chunks) (w w' : World)
    (hno : ∀ c ∈ w.db.chunks, c.fileId ≠ f)
    (hwrite : writeChunkRows P f chunks w = (.ok (), w')) (file : FileRow)
    (plan : List (ChunkRow × List ShardRow))
    (hplan : (pullPlan u f).eval w'.db w'.store = .ok (file, plan))
    (hscheme : file.keyScheme = KeyScheme.V2.asI64) (hcount : file.chunkCount = chunks.length)
    (arr : ℕ → List (ShardRow × Option Bytes))
    (harr : ∀ i (hi : i < plan.length), Received P w'.store plan[i].2 (arr i))
    (fetched : List ChunkFetch) (hf : Fetched P plan arr fetched) :
    fetchAndReassemble P key file fetched = .ok data := by
  have hst := writeChunkRows_stored P (processV2_sized hproc) (processV2_ordered hproc) hno hwrite
  obtain ⟨hrow, hplan⟩ := pullPlan_eval hplan
  have hplan' : plan = chunks.map fun c => (chunkRowFor f c, shardRows P f c) := by
    rw [hplan, hst.rows, List.map_map]
    apply List.map_congr_left
    intro c hc
    simp only [Function.comp_apply, Prod.mk.injEq, true_and]
    exact hst.shards c hc
  obtain ⟨r, hr, rfl⟩ : ∃ r, w'.db.files.find? (isRow u f) = some r ∧ r.view = file := by
    rw [getFile, Option.map_eq_some_iff] at hrow
    exact hrow
  have hkey := List.find?_some hr
  simp only [isRow, Bool.and_eq_true, decide_eq_true_eq] at hkey
  rw [fetchAndReassemble_eq P key _ hf]
  have hfst : plan.map Prod.fst = chunks.map (chunkRowFor f) := by
    rw [hplan', List.map_map]
    rfl
  rw [hfst]
  have hlen : plan.length = chunks.length := by rw [hplan', List.length_map]
  refine reassemble_held hP hproc _ hkey.1 hkey.2 hscheme hcount _ (by simp [hlen]) ?_
  intro i hi hi'
  have hip : i < plan.length := by rw [hlen]; exact hi
  have hrec := harr i hip
  have hget : plan[i].2 = shardRows P f chunks[i] := by
    simp only [hplan', List.getElem_map]
  rw [hget] at hrec
  have hheld := hst.held _ (List.getElem_mem hi)
  simp only [List.getElem_map, List.getElem_range]
  exact ⟨received_held hheld hrec, received_ten hheld hrec⟩

/-! A file of three bytes whose first four shards are lost; the others arrive last to first. -/

def sampleData : Bytes := [1, 2, 3]

def sampleChunks : List ProcessedChunk :=
  match processV2 (sample []) sampleData .node (utf8 ['u']) (utf8 ['f']) {} with
  | .ok cs => cs
  | .error _ => []

def sampleFile : FileRow := pushRow (sample []) ['u'] ['p'] ['f'] sampleData 0 sampleChunks ['f']

/-- The manifest with the file row in place and nothing stored yet. -/
def sampleWorld : World where
  db := { Db.empty with
    files := [sampleFile.toRec]
    constraints := by constructor <;> simp [Db.empty] }
  store := fun _ => none
  script := []

def sampleStored : World := (writeChunkRows (sample []) ['f'] sampleChunks sampleWorld).2

def samplePlan : List (ChunkRow × List ShardRow) :=
  sampleChunks.map fun c => (chunkRowFor ['f'] c, shardRows (sample []) ['f'] c)

def sampleArrivals : List (ShardRow × Option Bytes) :=
  (samplePlan.flatMap fun p => p.2.reverse).map fun s =>
    (s, if s.shardIndex < 4 then none else sampleStored.store s.fragmentId)

theorem sampleStored_written :
    writeChunkRows (sample []) ['f'] sampleChunks sampleWorld = (.ok (), sampleStored) := by
  have h : (writeChunkRows (sample []) ['f'] sampleChunks sampleWorld).1 = .ok () := by
    decide +kernel
  rw [sampleStored, ← h]

theorem samplePlan_length : samplePlan.length = 1 := by decide +kernel

theorem sampleArrivals_received (i : ℕ) (hi : i < samplePlan.length) :
    Received (sample []) sampleStored.store samplePlan[i].2 sampleArrivals := by
  have h0 : i = 0 := by
    rw [samplePlan_length] at hi
    omega
  subst h0
  have hans : ∀ a ∈ sampleArrivals, a.2 = none ∨ a.2 = sampleStored.store a.1.fragmentId := by
    intro a ha
    rw [sampleArrivals, List.mem_map] at ha
    obtain ⟨s, _, rfl⟩ := ha
    simp only
    split
    · exact .inl rfl
    · exact .inr rfl
  refine ⟨by revert hi; decide +kernel, ?_, by decide +kernel⟩
  intro a ha b hb _
  rcases hans a ha with hn | hs
  · rw [hn] at hb
    cases hb
  · rw [← hs, hb]

theorem download_returns_sample :
    fetchAndReassemble (sample []) .node sampleFile
      (chunkFetches (sample []) samplePlan fun _ => sampleArrivals) = .ok sampleData :=
  download_returns_data (sample []) .node ⟨sample_aead [], sample_zstd [], sample_rs []⟩ ['u'] ['f']
    {} sampleData sampleChunks rfl sampleWorld sampleStored (by simp [sampleWorld, Db.empty])
    sampleStored_written sampleFile samplePlan (by decide +kernel) rfl
    (by decide +kernel) (fun _ => sampleArrivals) sampleArrivals_received _
    (fetched_single _ samplePlan_length _)

end P2pnas.Node.Download
