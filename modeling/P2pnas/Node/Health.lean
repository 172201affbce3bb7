import P2pnas.Node.Download
import P2pnas.Node.Moves
import P2pnas.Node.RepairPass

/-!
# The durability report of a file (`handlers/files.rs:440-506`)

The report pings the peers, asks where each shard is recorded whether it is there, and judges the
file by its worst chunk. It carries no bytes, a download does. A download leaves out the peers that are
flagged down, and a peer hands out only what it lists; the report looks at neither.
-/

namespace P2pnas.Node.Health
open P2pnas.Lib.Frames P2pnas.Lib.Strings P2pnas.Core P2pnas.Core.Base P2pnas.Core.Erasure
open P2pnas.Core.Pipeline P2pnas.Store.Manifest P2pnas.Store.Session P2pnas.Store.Reading
open P2pnas.Store.Written P2pnas.Store.Roundtrip P2pnas.Node.Queries P2pnas.Node.Download
open P2pnas.Store.Service (LOCAL chunkRowFor)
open P2pnas.Node.Hosting (Host)
open P2pnas.Node.Moves (reachableOf_lookup reachableOf_row)
open P2pnas.Node.Peers (PeerTable PeerRow DOWN)
open P2pnas.Node.Repair (reachableOf)
open P2pnas.Node.RepairPass (moveRow)

/-- The peer table, whether the report and a download can read it, which addresses answer, and what is
stored where. -/
structure Places where
  peers : PeerTable
  listsAll : Bool
  listsUp : Bool
  answers : Text → Bool
  store : ChunkStore
  hosts : Text → Host

/-- The peers that answered a ping of the report. -/
def livePeers (pl : Places) : List (Text × Text) :=
  if pl.listsAll then reachableOf pl.peers.rows fun r => pl.answers r.addr else []

/-- The peers a download asks, whether they answer or not. -/
def readPeers (pl : Places) : List (Text × Text) :=
  if pl.listsUp then reachableOf pl.peers.rows fun r => r.status ≠ DOWN else []

/-- Whether the place a shard is recorded at says it has it. -/
def reachable (pl : Places) (s : ShardRow) : Bool :=
  if s.location = LOCAL then existsFile pl.store s.fragmentId
  else match (livePeers pl).lookup s.location with
    | some addr => has (pl.hosts addr) s.fragmentId
    | none => false

/-- The chunk with the fewest reachable shards. -/
def minReachable (pl : Places) (plan : List (ChunkRow × List ShardRow)) : ℕ :=
  plan.foldl (fun n p => min n (p.2.countP (reachable pl))) TOTAL_SHARDS

structure FileHealth where
  fileId : Text
  path : Text
  size : ℤ
  chunks : ℕ
  minReachable : ℕ
  fullyRedundant : Bool
  recoverable : Bool
  singleFailureSafe : Bool
  atRisk : Bool
  deriving DecidableEq, Repr

def report (pl : Places) (file : FileRow) (plan : List (ChunkRow × List ShardRow)) : FileHealth :=
  let n := minReachable pl plan
  let recoverable : Bool := DATA_SHARDS ≤ n
  let margin := n - DATA_SHARDS
  { fileId := file.fileId
    path := file.path
    size := file.size
    chunks := plan.length
    minReachable := n
    fullyRedundant := TOTAL_SHARDS ≤ n
    recoverable := recoverable
    singleFailureSafe := PARITY_SHARDS ≤ margin
    atRisk := !recoverable || margin < PARITY_SHARDS }

/-- What a download gets from the place a shard is recorded at; a peer that does not answer sends
nothing. -/
def answerOf (pl : Places) (s : ShardRow) : Option Bytes :=
  if s.location = LOCAL then readFile pl.store s.fragmentId
  else ((readPeers pl).lookup s.location).bind fun addr =>
    if pl.answers addr then get (pl.hosts addr) s.fragmentId else none

def delivered (pl : Places) (s : ShardRow) : Bool := (answerOf pl s).isSome

/-- The answers of a download in some order, chunk by chunk. -/
def Arrives (pl : Places) (plan : List (ChunkRow × List ShardRow))
    (arr : ℕ → List (ShardRow × Option Bytes)) : Prop :=
  ∀ i (hi : i < plan.length), (arr i).Perm (plan[i].2.map fun s => (s, answerOf pl s))

/-- A place is gone. -/
def without (pl : Places) (location : Text) : Places where
  peers := {
    rows := pl.peers.rows.filter fun r => r.peerId ≠ location
    unique := pl.peers.unique.sublist (List.filter_sublist.map _) }
  listsAll := pl.listsAll
  listsUp := pl.listsUp
  answers := pl.answers
  store := if location = LOCAL then fun _ => none else pl.store
  hosts := pl.hosts

/-! ### What is reachable and what is delivered -/

section
variable {pl : Places} {plan : List (ChunkRow × List ShardRow)}

theorem existsFile_eq (st : ChunkStore) (frag : Text) : existsFile st frag = (readFile st frag).isSome := by
  unfold existsFile readFile
  cases isValidFragmentId frag with
  | true => rfl
  | false => rfl

variable {K : Type} {P : Prims K} {key : K} {u f : Text} {c : ProcessedChunk} {truth : ChunkStore}
  {arrivals : List (ShardRow × Option Bytes)} {L : Text → Option Text}

/-- A row as it was written. -/
def homeRow (a : ShardRow × Option Bytes) : ShardRow × Option Bytes := ({ a.1 with location := LOCAL }, a.2)

/-- Where a row says its shard is does not matter once the answer is there. -/
theorem fetchChunkShards_home (arrivals : List (ShardRow × Option Bytes)) :
    fetchChunkShards P (arrivals.map homeRow) = fetchChunkShards P arrivals := by
  rw [fetchChunkShards, List.map_map, fetchChunkShards]
  rfl

/-- Every copy that answers is the shard as it was written. -/
def Unspoilt (pl : Places) (truth : ChunkStore) (rows : List ShardRow) : Prop :=
  ∀ s ∈ rows, ∀ b, answerOf pl s = some b → truth s.fragmentId = some b

theorem readFile_some {st : ChunkStore} {frag : Text} {b : Bytes} (h : readFile st frag = some b) : st frag = some b := by
  unfold readFile at h
  split at h
  · exact h
  · cases h

theorem get_some {h : Host} {frag : Text} {b : Bytes} (hb : get h frag = some b) :
    (h.hosted frag).isSome = true ∧ readFile h.store frag = some b := by
  unfold Queries.get at hb
  split at hb
  · next hrow => exact ⟨hrow, hb⟩
  · cases hb

theorem unspoilt_same {pl : Places} (hsame : ∀ addr, (pl.hosts addr).store = pl.store) (rows : List ShardRow) :
    Unspoilt pl pl.store rows := by
  intro s _ b hb
  unfold answerOf at hb
  split at hb
  · exact readFile_some hb
  · obtain ⟨addr, -, hb⟩ := Option.bind_eq_some_iff.mp hb
    rw [Option.ite_none_right_eq_some] at hb
    rw [← hsame addr]
    exact readFile_some (get_some hb.2).2

theorem homeRow_moved : ((shardRows P f c).map (moveRow L)).map (fun s => { s with location := LOCAL }) =
    shardRows P f c := by
  rw [List.map_map, shardRows, List.map_map]
  rfl

theorem countP_answers (rows : List ShardRow) :
    (rows.map fun s => (s, answerOf pl s)).countP (fun a => a.2.isSome) = rows.countP (delivered pl) := by
  rw [List.countP_map]
  rfl

/-- The answers for a chunk, ten of them copies, are what a download needs. -/
theorem received_of_answers (hp : arrivals.Perm (((shardRows P f c).map (moveRow L)).map fun s =>
      (s, answerOf pl s)))
    (hun : Unspoilt pl truth ((shardRows P f c).map (moveRow L)))
    (hten : DATA_SHARDS ≤ ((shardRows P f c).map (moveRow L)).countP (delivered pl)) :
    Received P truth (shardRows P f c) (arrivals.map homeRow) := by
  have hmem : ∀ a ∈ arrivals, a.1 ∈ (shardRows P f c).map (moveRow L) ∧ a.2 = answerOf pl a.1 := by
    intro a ha
    obtain ⟨s, hs, rfl⟩ := List.mem_map.mp (hp.subset ha)
    exact ⟨hs, rfl⟩
  refine ⟨?_, fun a ha b hb _ => ?_, ?_⟩
  · have hrows := (hp.map Prod.fst).map fun s : ShardRow => { s with location := LOCAL }
    have hfst : ((((shardRows P f c).map (moveRow L)).map fun s => (s, answerOf pl s)).map Prod.fst) =
        (shardRows P f c).map (moveRow L) := by
      rw [List.map_map]
      exact List.map_id _
    rw [hfst, homeRow_moved, List.map_map] at hrows
    rw [List.map_map]
    exact hrows
  · obtain ⟨a', ha', rfl⟩ := List.mem_map.mp ha
    obtain ⟨hrow, hans⟩ := hmem a' ha'
    exact hun a'.1 hrow b (hans ▸ hb)
  · rw [← countP_answers, ← hp.countP_eq] at hten
    rw [List.countP_map]
    refine le_trans hten (List.countP_mono_left fun a ha hsome => ?_)
    obtain ⟨hrow, hans⟩ := hmem a ha
    obtain ⟨b, hb⟩ := Option.isSome_iff_exists.mp hsome
    have htrue : truth a.1.fragmentId = some b := hun a.1 hrow b (hans ▸ hb)
    simp [homeRow, hb, htrue]

/-- The manifest after some shards have been moved, each to a location. -/
def relocated (db : Db) (moves : List (Text × Text)) : Db :=
  moves.foldl (fun db m => setShardLocation db m.1 m.2) db

theorem relocated_rows (db : Db) (moves : List (Text × Text)) :
    (relocated db moves).files = db.files ∧ (relocated db moves).chunks = db.chunks ∧
      ∃ L, (relocated db moves).shards = db.shards.map (moveRow L) := by
  induction moves generalizing db with
  | nil =>
    refine ⟨rfl, rfl, fun _ => none, ?_⟩
    have hid : moveRow (fun _ => none) = id := rfl
    rw [hid, List.map_id]
    rfl
  | cons m moves ih =>
    obtain ⟨hfiles, hchunks, L, hL⟩ := ih (setShardLocation db m.1 m.2)
    refine ⟨hfiles, hchunks, fun g => (L g).or (if g = m.1 then some m.2 else none), ?_⟩
    have hset : (setShardLocation db m.1 m.2).shards = db.shards.map fun s =>
        if s.fragmentId = m.1 then { s with location := m.2 } else s := by
      simp only [setShardLocation, Lib.Tables.update, decide_eq_true_eq]
    rw [relocated, List.foldl_cons, ← relocated, hL, hset, List.map_map]
    refine List.map_congr_left fun s _ => ?_
    by_cases hs : s.fragmentId = m.1
    · cases hL : L m.1 with
      | none => simp [moveRow, hs, hL]
      | some l => simp [moveRow, hs, hL]
    · simp [moveRow, hs]

theorem getShards_relocated {db db' : Db} (h : db'.shards = db.shards.map (moveRow L)) (chunkId : Text) :
    getShards db' chunkId = (getShards db chunkId).map (moveRow L) := by
  have hsort : ∀ l : List ShardRow, (l.insertionSort fun a b => a.shardIndex ≤ b.shardIndex).map (moveRow L) =
      (l.map (moveRow L)).insertionSort fun a b => a.shardIndex ≤ b.shardIndex :=
    fun l => List.map_insertionSort _ _ _ _ fun _ _ _ _ => Iff.rfl
  rw [getShards, getShards, hsort, h, List.filter_map]
  rfl

/-- What `pull_plan` lists of a file whose shards have been moved. -/
theorem plan_relocated {db : Db} {st : ChunkStore} {chunks : List ProcessedChunk} {file : FileRow}
    {plan : List (ChunkRow × List ShardRow)} {moves : List (Text × Text)} (hst : Stored P db truth f chunks)
    (hplan : (pullPlan u f).eval (relocated db moves) st = .ok (file, plan)) :
    getFile db u f = some file ∧
      ∃ L, plan = chunks.map fun c => (chunkRowFor f c, (shardRows P f c).map (moveRow L)) := by
  obtain ⟨hfiles, hchunks, L, hL⟩ := relocated_rows db moves
  obtain ⟨hrow, hplan⟩ := pullPlan_eval hplan
  rw [getFile, hfiles] at hrow
  refine ⟨hrow, L, ?_⟩
  have hrows : getChunks (relocated db moves) f = chunks.map (chunkRowFor f) := by
    rw [getChunks, hchunks]
    exact hst.rows
  rw [hplan, hrows, List.map_map]
  refine List.map_congr_left fun c hc => ?_
  rw [Function.comp_apply, getShards_relocated hL]
  exact congrArg (fun rows => (chunkRowFor f c, rows.map (moveRow L))) (hst.shards c hc)

/-! ### When a place is gone -/

theorem lookup_without {ps : List (Text × Text)} {l l' : Text} (h : l' ≠ l) :
    (ps.filter fun p => p.1 ≠ l).lookup l' = ps.lookup l' := by
  induction ps with
  | nil => rfl
  | cons p ps ih =>
    obtain ⟨x, a⟩ := p
    by_cases hx : x = l
    · have hne : (l' == x) = false := by simp [hx, h]
      rw [List.filter_cons_of_neg (by simp [hx]), ih, List.lookup_cons, hne]
    · rw [List.filter_cons_of_pos (by simp [hx]), List.lookup_cons, List.lookup_cons, ih]

theorem readPeers_without (pl : Places) (l : Text) :
    readPeers (without pl l) = (readPeers pl).filter fun p => p.1 ≠ l := by
  have hrows : ∀ rows : List PeerRow, reachableOf (rows.filter fun r => r.peerId ≠ l) (fun r => r.status ≠ DOWN) =
      (reachableOf rows fun r => r.status ≠ DOWN).filter fun p => p.1 ≠ l := by
    intro rows
    rw [reachableOf, reachableOf, List.filter_map, List.filter_filter, List.filter_filter]
    congr 1
    exact List.filter_congr fun r _ => Bool.and_comm ..
  unfold readPeers without
  dsimp only
  split
  · exact hrows _
  · rfl

theorem answerOf_without {l : Text} {s : ShardRow} (h : s.location ≠ l) :
    answerOf (without pl l) s = answerOf pl s := by
  have hstore : s.location = LOCAL → (without pl l).store = pl.store := fun hlocal =>
    if_neg fun hl => h (hlocal.trans hl.symm)
  unfold answerOf
  split
  · next hlocal => rw [hstore hlocal]
  · rw [readPeers_without, lookup_without h]
    rfl

theorem lookup_gone (ps : List (Text × Text)) (l : Text) : (ps.filter fun p => p.1 ≠ l).lookup l = none := by
  rw [List.lookup_eq_none_iff]
  intro p hp
  have hne := of_decide_eq_true (List.mem_filter.mp hp).2
  simpa using Ne.symm hne

theorem answerOf_gone {l : Text} {s : ShardRow} (h : s.location = l) : answerOf (without pl l) s = none := by
  unfold answerOf
  split
  · next hlocal =>
    have hstore : (without pl l).store = fun _ => none := if_pos (h ▸ hlocal)
    simp [hstore, readFile]
  · rw [readPeers_without, h, lookup_gone]
    rfl

theorem Unspoilt.without {rows : List ShardRow} (h : Unspoilt pl truth rows) (l : Text) :
    Unspoilt (without pl l) truth rows := by
  intro s hs b hb
  by_cases hl : s.location = l
  · rw [answerOf_gone hl] at hb
    cases hb
  · rw [answerOf_without hl] at hb
    exact h s hs b hb

/-- A download of a file whose rows have been moved. -/
theorem download_moved (hP : Restores P) {cfg : PipelineConfig} {data : Bytes} {chunks : List ProcessedChunk}
    (hproc : processV2 P data key (utf8 u) (utf8 f) cfg = .ok chunks)
    (hheld : ∀ c ∈ chunks, ShardsHeld P truth f c) {file : FileRow} (huser : file.userId = u)
    (hfile : file.fileId = f) (hscheme : file.keyScheme = Crypto.KeyScheme.V2.asI64)
    (hcount : file.chunkCount = chunks.length)
    (hun : ∀ c ∈ chunks, Unspoilt pl truth ((shardRows P f c).map (moveRow L)))
    (hten : ∀ c ∈ chunks, DATA_SHARDS ≤ ((shardRows P f c).map (moveRow L)).countP (delivered pl))
    {plan : List (ChunkRow × List ShardRow)}
    (hplan : plan = chunks.map fun c => (chunkRowFor f c, (shardRows P f c).map (moveRow L)))
    {arr : ℕ → List (ShardRow × Option Bytes)} (harr : Arrives pl plan arr) {fetched : List ChunkFetch}
    (hf : Fetched P plan arr fetched) : fetchAndReassemble P key file fetched = .ok data := by
  have hlen : plan.length = chunks.length := by rw [hplan, List.length_map]
  have hfst : plan.map Prod.fst = chunks.map (chunkRowFor f) := by
    rw [hplan, List.map_map]
    rfl
  rw [fetchAndReassemble_eq P key _ hf, hfst]
  refine reassemble_held hP hproc _ huser hfile hscheme hcount _ (by simp [hlen]) ?_
  intro i hi hi'
  have hc := List.getElem_mem hi
  have hp := harr i (hlen ▸ hi)
  have hget : plan[i].2 = (shardRows P f chunks[i]).map (moveRow L) := by simp only [hplan, List.getElem_map]
  rw [hget] at hp
  have hrec := received_of_answers hp (hun _ hc) (hten _ hc)
  simp only [List.getElem_map, List.getElem_range]
  rw [← fetchChunkShards_home]
  exact ⟨received_held (hheld _ hc) hrec, received_ten (hheld _ hc) hrec⟩

end

/-! ### A file with four shards on a peer -/

def sampleMoves : List (Text × Text) :=
  (samplePlan.flatMap fun p => p.2.filter (·.shardIndex < 4)).map fun s => (s.fragmentId, ['b'])

def movedPlan : List (ChunkRow × List ShardRow) :=
  samplePlan.map fun p => (p.1, p.2.map fun s => if s.shardIndex < 4 then { s with location := ['b'] } else s)

def samplePlaces : Places where
  peers := {
    rows := [⟨['b'], ['x'], "active".toList, none, none, 100⟩]
    unique := List.nodup_singleton _ }
  listsAll := true
  listsUp := true
  answers := fun _ => true
  store := sampleStored.store
  hosts := fun _ => {
    peers := fun _ => none
    hosted := fun _ => some ⟨['m'], 4096, 0⟩
    nodeLocal := some (1000000, 16384)
    store := sampleStored.store }

theorem sampleChunks_processed :
    processV2 (Sample.sample []) sampleData .node (utf8 ['u']) (utf8 ['f']) {} = .ok sampleChunks := rfl

theorem samplePlaces_store : samplePlaces.store = sampleStored.store := by rw [samplePlaces]

theorem sampleStored_stored : Stored (Sample.sample []) sampleStored.db samplePlaces.store ['f'] sampleChunks := by
  rw [samplePlaces_store]
  exact writeChunkRows_stored _ (processV2_sized sampleChunks_processed) (processV2_ordered sampleChunks_processed)
    (by simp [sampleWorld, Db.empty]) sampleStored_written

theorem movedPlan_listed : (pullPlan ['u'] ['f']).eval (relocated sampleStored.db sampleMoves) samplePlaces.store =
    .ok (sampleFile, movedPlan) := by decide +kernel

theorem sampleFile_scheme : sampleFile.keyScheme = Crypto.KeyScheme.V2.asI64 := by decide +kernel

theorem sampleFile_count : sampleFile.chunkCount = sampleChunks.length := by decide +kernel

end P2pnas.Node.Health
