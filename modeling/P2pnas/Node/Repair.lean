import P2pnas.Node.Download
import P2pnas.Node.Peers

/-!
# Repairing a chunk (`repair.rs:341-655`)

A pass classifies the shards of a chunk, fetches ten that pass their hash check, rebuilds all
fourteen and places the missing ones. What a fetch brings back is chosen by whoever holds the
shard, so every answer is an argument. A reliability score is the integer `f64::total_cmp`
orders it by.
-/

namespace P2pnas.Node.Repair
open P2pnas.Lib.Frames P2pnas.Lib.Strings P2pnas.Core P2pnas.Core.Base P2pnas.Core.Erasure
open P2pnas.Core.Pipeline P2pnas.Core.Sample P2pnas.Store.Manifest P2pnas.Store.Session
open P2pnas.Store.Service P2pnas.Store.Written P2pnas.Node.Download P2pnas.Node.Peers

def CRITICAL_MARGIN : ℕ := 2

/-- `ShardState` (`repair.rs:110-122`). -/
inductive ShardState where
  | Live
  | Grace
  | Lost
  deriving DecidableEq, Repr

structure ChunkPlan where
  live : ℕ
  deferred : ℕ
  missing : List ℕ
  deriving DecidableEq, Repr

/-- `plan_chunk` (`repair.rs:401-417`). -/
def planChunk (states : List (Option ShardState)) : ChunkPlan :=
  let live := states.countP (· = some .Live)
  let critical : Bool := live < DATA_SHARDS + CRITICAL_MARGIN
  let rebuild (s : Option ShardState) : Bool := s = some .Lost || (s = some .Grace && critical)
  { live := live
    deferred := states.countP fun s => s = some .Grace && !critical
    missing := (states.zipIdx.filter fun si => rebuild si.1).map Prod.snd }

/-- A chunk to repair (`repair.rs:137-150`). -/
structure Degraded where
  margin : ℕ
  chunk : ChunkRow
  shardAt : List (Option ShardRow)
  states : List (Option ShardState)
  missing : List ℕ
  deriving DecidableEq, Repr

/-- The rows of a chunk by index; the last row of an index wins. -/
def indexShards (rows : List ShardRow) : List (Option ShardRow) :=
  rows.foldl (fun at' s => at'.set (asU64 s.shardIndex) (some s)) (List.replicate TOTAL_SHARDS none)

/-- `assess_chunk` (`repair.rs:341-385`), with the verdict `classify_shard` reaches for each
row. -/
def assessChunk (classify : ShardRow → ShardState) (chunk : ChunkRow) (rows : List ShardRow) :
    Option Degraded :=
  let shardAt := indexShards rows
  let states := shardAt.map (Option.map classify)
  let plan := planChunk states
  if plan.missing.isEmpty then none
  else if plan.live < DATA_SHARDS then none
  else some {
    margin := plan.live - DATA_SHARDS
    chunk := chunk
    shardAt := shardAt
    states := states
    missing := plan.missing }

/-! ### Where a rebuilt shard goes (`repair.rs:490-532`) -/

/-- The key of 100.0. -/
def LOCAL_RELIABILITY : ℤ := 4636737291354636288

/-- Peers by id, with the value a map holds for each. -/
abbrev PeerMap (α : Type) := List (Text × α)

structure PeerView where
  reachable : PeerMap Text
  reliability : PeerMap ℤ
  deriving DecidableEq, Repr

structure Rank where
  crowded : Bool
  held : ℕ
  score : ℤ
  deriving DecidableEq, Repr

def rank (locCount : Text → ℕ) (reliability : PeerMap ℤ) (c : Text) : Rank where
  crowded := PARITY_SHARDS ≤ locCount c
  held := locCount c
  score := if c = LOCAL then LOCAL_RELIABILITY else (reliability.lookup c).getD 0

/-- `a` comes after `b` in the order of `min_by`. -/
def ranksAfter (a b : Rank × Text) : Bool :=
  if a.1.crowded ≠ b.1.crowded then a.1.crowded
  else if a.1.held ≠ b.1.held then b.1.held < a.1.held
  else if a.1.score ≠ b.1.score then a.1.score < b.1.score
  else !textLe a.2 b.2

/-- `choose_target`: the least candidate, this node first among equals. -/
def chooseTarget (locCount : Text → ℕ) (view : PeerView) : Text :=
  (view.reachable.map Prod.fst).foldl (fun best c =>
    if ranksAfter (rank locCount view.reliability best, best)
      (rank locCount view.reliability c, c) then c else best) LOCAL

/-- The request `place_shard` makes (`repair.rs:646-672`): none for this node itself, and none
for a peer that did not answer. -/
def placeRequest (reachable : PeerMap Text) (target frag : Text) (shardIndex : ℤ) (bytes : Bytes) :
    Option Sent :=
  if target = LOCAL then none
  else (reachable.lookup target).map fun addr => ⟨target, addr, frag, shardIndex, bytes⟩

/-- The peers of the table that answered the probe, by id. -/
def reachableOf (rows : List PeerRow) (answers : PeerRow → Bool) : PeerMap Text :=
  (rows.filter answers).map fun r => (r.peerId, r.addr)

theorem placeRequest_mem {rows : List PeerRow} {answers : PeerRow → Bool} {target frag : Text}
    {shardIndex : ℤ} {bytes : Bytes} {m : Sent}
    (h : placeRequest (reachableOf rows answers) target frag shardIndex bytes = some m) :
    ∃ r ∈ rows, answers r = true ∧ r.peerId = m.peerId := by
  rw [placeRequest] at h
  split at h
  · cases h
  · obtain ⟨addr, haddr, rfl⟩ := Option.map_eq_some_iff.mp h
    obtain ⟨_, _, heq, _⟩ := List.lookup_eq_some_iff.mp haddr
    have hmem : (target, addr) ∈ reachableOf rows answers := by
      rw [heq]
      simp
    obtain ⟨r, hr, hpair⟩ := List.mem_map.mp hmem
    exact ⟨r, (List.mem_filter.mp hr).1, (List.mem_filter.mp hr).2, congrArg Prod.fst hpair⟩

/-! ### The repair of one chunk -/

section
variable {K : Type} (P : Prims K)

/-- `regen_chunk_shards` (`service.rs:675-678`). -/
def regenChunkShards (present : List (Option Bytes)) (cipherLen : ℕ) : Outcome StoreError (List Bytes) := do
  let cipher ← wrapErr .core (reconstruct P present cipherLen)
  wrapErr .core (encode P cipher)

/-- `fetch_shard` (`repair.rs:607-626`): the answer, if it matches the row's hash. -/
def fetchShard (s : ShardRow) (answer : Option Bytes) : Option Bytes :=
  answer.filter (verifyHash P · s.hash)

/-- The bytes repair gets for slot `i`, when it is live. -/
def fetchAt (d : Degraded) (answers : ℕ → Option Bytes) (i : ℕ) : Option Bytes :=
  if d.states[i]?.join = some .Live then
    d.shardAt[i]?.join.bind fun s => fetchShard P s (answers i)
  else none

/-- The fetch loop over the slots `is`, `got` shards being in hand. -/
def fetchSurvivors (d : Degraded) (answers : ℕ → Option Bytes) (got : ℕ) :
    List ℕ → List (Option Bytes)
  | [] => []
  | i :: is =>
    if DATA_SHARDS ≤ got then List.replicate (is.length + 1) none
    else match fetchAt P d answers i with
      | some b => some b :: fetchSurvivors d answers (got + 1) is
      | none => none :: fetchSurvivors d answers got is

/-- One `place_shard` call and whether it was accepted. -/
structure Placement where
  index : ℕ
  fragment : Text
  target : Text
  bytes : Bytes
  accepted : Bool
  deriving DecidableEq, Repr

/-- The shards of the chunk that stay, by location. -/
def keptAt (d : Degraded) (location : Text) : ℕ :=
  (d.shardAt.zip d.states).countP fun ss =>
    (ss.2 = some .Live || ss.2 = some .Grace) && ss.1.any (fun s => s.location = location)

/-- The placement loop (`repair.rs:470-486`); `accepts i` is the answer for shard `i`. -/
def placeMissing (d : Degraded) (view : PeerView) (all : List Bytes) (accepts : ℕ → Bool)
    (locCount : Text → ℕ) : List ℕ → List Placement
  | [] => []
  | i :: is =>
    match all[i]? with
    | none => placeMissing d view all accepts locCount is
    | some bytes =>
      let target := chooseTarget locCount view
      let frag := (d.shardAt[i]?.join.map ShardRow.fragmentId).getD []
      let locCount' := if accepts i then
        (fun l => if l = target then locCount l + 1 else locCount l) else locCount
      ⟨i, frag, target, bytes, accepts i⟩ :: placeMissing d view all accepts locCount' is

/-- `repair_chunk` (`repair.rs:421-488`): the shards it sends out. -/
def repairChunk (d : Degraded) (view : PeerView) (answers : ℕ → Option Bytes)
    (accepts : ℕ → Bool) : List Placement :=
  let present := fetchSurvivors P d answers 0 (List.range TOTAL_SHARDS)
  if present.countP Option.isSome < DATA_SHARDS then []
  else match regenChunkShards P present (asU64 d.chunk.cipherLen) with
    | .ok all => placeMissing d view all accepts (keptAt d) d.missing
    | .error _ => []

/-- A chunk waiting for repair, with what its fetches bring back and which placements are
accepted. -/
structure Pending where
  chunk : Degraded
  answers : ℕ → Option Bytes
  accepts : ℕ → Bool

/-- The view `repair_all` takes of the peers (`repair.rs:241-278`). -/
def viewOf (rows : List PeerRow) (answers : PeerRow → Bool) : PeerView where
  reachable := reachableOf rows answers
  reliability := rows.map fun r => (r.peerId, r.reliability)

/-- The requests of the repair phase of `repair_all` (`repair.rs:313-315`), chunk by chunk. -/
def repairSent (view : PeerView) (pending : List Pending) : List Sent :=
  pending.flatMap fun p => (repairChunk P p.chunk view p.answers p.accepts).filterMap fun pl =>
    placeRequest view.reachable pl.target pl.fragment pl.index pl.bytes

end

/-! ### The fetched shards are the stored ones -/

section
variable {K : Type} {P : Prims K}

theorem fetchSurvivors_length (d : Degraded) (answers : ℕ → Option Bytes) (got : ℕ) (is : List ℕ) :
    (fetchSurvivors P d answers got is).length = is.length := by
  induction is generalizing got with
  | nil => rfl
  | cons i is ih =>
    rw [fetchSurvivors]
    split
    · simp
    · split <;> simp [ih]

/-- A filled slot was filled by the fetch at its index. -/
theorem fetchSurvivors_getElem? {d : Degraded} {answers : ℕ → Option Bytes} {got : ℕ} {is : List ℕ}
    {k : ℕ} {b : Bytes} (h : (fetchSurvivors P d answers got is)[k]? = some (some b)) :
    ∃ i, is[k]? = some i ∧ fetchAt P d answers i = some b := by
  induction is generalizing got k with
  | nil => simp [fetchSurvivors] at h
  | cons i is ih =>
    rw [fetchSurvivors] at h
    split at h
    · rw [List.getElem?_replicate] at h
      split at h <;> cases h
    · cases k with
      | zero =>
        refine ⟨i, rfl, ?_⟩
        split at h
        · rename_i b' hb'
          rw [List.getElem?_cons_zero] at h
          rw [hb']
          exact Option.some.inj h
        · cases Option.some.inj h
      | succ k =>
        split at h
        · rw [List.getElem?_cons_succ] at h
          exact ih h
        · rw [List.getElem?_cons_succ] at h
          exact ih h

/-- The loop falls short of ten only when fewer than ten fetches pass. -/
theorem fetchSurvivors_countP (d : Degraded) (answers : ℕ → Option Bytes) (got : ℕ) (is : List ℕ) :
    (fetchSurvivors P d answers got is).countP Option.isSome ≤
      is.countP fun i => (fetchAt P d answers i).isSome := by
  induction is generalizing got with
  | nil => simp [fetchSurvivors]
  | cons i is ih =>
    rw [fetchSurvivors]
    split
    · rw [List.countP_replicate]
      simp
    · cases hf : fetchAt P d answers i with
      | none => simpa [hf] using ih got
      | some b => simpa [hf] using ih (got + 1)

/-- The rows a repair sees: those of the chunk, wherever each shard lives by now. -/
def Relocated (rows stored : List ShardRow) : Prop :=
  rows.map (fun r => { r with location := LOCAL }) = stored

theorem relocated_row {f : Text} {c : ProcessedChunk} {rows : List ShardRow}
    (hr : Relocated rows (shardRows P f c)) {r : ShardRow} (h : r ∈ rows) :
    asU64 r.shardIndex < TOTAL_SHARDS ∧ r.fragmentId = fragOf P f c (asU64 r.shardIndex) ∧
      r.hash = shardHash P (c.shards.getD (asU64 r.shardIndex) []) := by
  have hmem := List.mem_map_of_mem (f := fun r : ShardRow => { r with location := LOCAL }) h
  rw [hr, shardRows, List.mem_map] at hmem
  obtain ⟨i, hi, heq⟩ := hmem
  have hidx : r.shardIndex = ((i : ℕ) : ℤ) := (congrArg ShardRow.shardIndex heq).symm
  rw [hidx, asU64_natCast]
  exact ⟨List.mem_range.mp hi, (congrArg ShardRow.fragmentId heq).symm,
    (congrArg ShardRow.hash heq).symm⟩

/-- A row found at a slot is one of the rows, and the slot is its index. -/
theorem indexShards_some {rows : List ShardRow} {i : ℕ} {s : ShardRow}
    (h : (indexShards rows)[i]?.join = some s) : s ∈ rows ∧ asU64 s.shardIndex = i := by
  have hfold : ∀ (l : List ShardRow) (a : List (Option ShardRow)),
      (l.foldl (fun a s => a.set (asU64 s.shardIndex) (some s)) a)[i]?.join = some s →
        (s ∈ l ∧ asU64 s.shardIndex = i) ∨ a[i]?.join = some s := by
    intro l
    induction l with
    | nil => intro a ha; exact .inr ha
    | cons r l ih =>
      intro a ha
      rcases ih _ ha with ⟨hin, hidx⟩ | hin
      · exact .inl ⟨List.mem_cons_of_mem _ hin, hidx⟩
      · simp only at hin
        by_cases hi : i = asU64 r.shardIndex
        · by_cases hlt : i < a.length
          · rw [← hi, List.getElem?_set_self hlt] at hin
            have hrs : r = s := Option.some.inj hin
            exact .inl ⟨hrs ▸ List.mem_cons_self .., hrs ▸ hi.symm⟩
          · rw [List.getElem?_eq_none (by rw [List.length_set]; omega)] at hin
            cases hin
        · rw [List.getElem?_set_ne (Ne.symm hi)] at hin
          exact .inr hin
  rcases hfold rows _ h with hin | hin
  · exact hin
  · rw [List.getElem?_replicate] at hin
    split at hin <;> cases hin

/-- Only a slot with a row can be missing. -/
theorem assessChunk_some {classify : ShardRow → ShardState} {chunk : ChunkRow}
    {rows : List ShardRow} {d : Degraded} (h : assessChunk classify chunk rows = some d) :
    d.chunk = chunk ∧ d.shardAt = indexShards rows ∧
      ∀ i ∈ d.missing, ∃ s, (indexShards rows)[i]?.join = some s := by
  unfold assessChunk at h
  simp only at h
  split at h
  · cases h
  · split at h
    · cases h
    · cases h
      refine ⟨rfl, rfl, fun i hi => ?_⟩
      simp only [planChunk, List.mem_map, List.mem_filter] at hi
      obtain ⟨⟨st, k⟩, ⟨hmem, hst⟩, rfl⟩ := hi
      have hget := List.mem_zipIdx_iff_getElem?.mp hmem
      simp only [List.getElem?_map] at hget
      obtain ⟨o, ho, hmap⟩ := Option.map_eq_some_iff.mp hget
      cases o with
      | none =>
        rw [Option.map_none] at hmap
        rw [← hmap] at hst
        simp at hst
      | some s => exact ⟨s, by rw [ho, Option.join_some]⟩

/-- No other byte string has the hash of one of the shards. -/
def HashPins (P : Prims K) (shards : List Bytes) : Prop :=
  ∀ s ∈ shards, ∀ b, shardHash P b = shardHash P s → b = s

/-- Rebuilding from ten genuine shards gives the stored shards, byte for byte. -/
theorem regenChunkShards_held (hr : RsRestores P) {cipher : Bytes} {shards : List Bytes}
    {present : List (Option Bytes)} (he : encode P cipher = .ok shards) (hh : Held shards present)
    (hten : DATA_SHARDS ≤ present.countP Option.isSome) :
    regenChunkShards P present cipher.length = .ok shards := by
  rw [regenChunkShards, reconstruct_held P hr he hh hten, wrapErr_ok, ok_bind, he, wrapErr_ok]

/-- A fetch that passes the check brought the stored shard. -/
theorem fetchAt_genuine {st : ChunkStore} {f : Text} {c : ProcessedChunk} {rows : List ShardRow}
    {d : Degraded} {answers : ℕ → Option Bytes} (hheld : ShardsHeld P st f c)
    (hpins : HashPins P c.shards) (hrows : Relocated rows (shardRows P f c))
    (hhash : ∀ r ∈ rows, r.hash ≠ []) (hat : d.shardAt = indexShards rows) (i : ℕ) (b : Bytes)
    (h : fetchAt P d answers i = some b) : c.shards[i]? = some b := by
  unfold fetchAt at h
  split at h
  · obtain ⟨s, hs, hb⟩ := Option.bind_eq_some_iff.mp h
    rw [hat] at hs
    obtain ⟨hmem, hsi⟩ := indexShards_some hs
    obtain ⟨hlt, _, hsh⟩ := relocated_row hrows hmem
    rw [hsi] at hlt hsh
    rw [fetchShard, Option.filter_eq_some_iff, verifyHash, Bool.or_eq_true, decide_eq_true_eq] at hb
    have hmatch := hb.2.resolve_left (by simpa using hhash s hmem)
    have hget : c.shards[i]? = some (c.shards.getD i []) := by
      rw [List.getD_eq_getElem?_getD,
        List.getElem?_eq_getElem (Nat.lt_of_lt_of_le hlt hheld.full), Option.getD_some]
    rw [hget, hpins _ (List.mem_of_getElem? hget) b (hmatch.trans hsh)]
  · cases h

theorem fetchSurvivors_held {shards : List Bytes} {d : Degraded} {answers : ℕ → Option Bytes}
    (hfetch : ∀ i b, fetchAt P d answers i = some b → shards[i]? = some b) :
    Held shards (fetchSurvivors P d answers 0 (List.range TOTAL_SHARDS)) := by
  refine ⟨by rw [fetchSurvivors_length, List.length_range], fun i b hb => ?_⟩
  rw [slot, Option.join_eq_some_iff] at hb
  obtain ⟨j, hj, hfj⟩ := fetchSurvivors_getElem? hb
  have hlt := (List.getElem?_eq_some_iff.mp hj).1
  rw [List.length_range] at hlt
  rw [List.getElem?_range hlt] at hj
  rw [Option.some.inj hj]
  exact hfetch j b hfj

theorem placeMissing_mem {d : Degraded} {view : PeerView} {all : List Bytes} {accepts : ℕ → Bool}
    {locCount : Text → ℕ} {is : List ℕ} {p : Placement}
    (h : p ∈ placeMissing d view all accepts locCount is) :
    p.index ∈ is ∧ all[p.index]? = some p.bytes ∧
      p.fragment = (d.shardAt[p.index]?.join.map ShardRow.fragmentId).getD [] := by
  induction is generalizing locCount with
  | nil => cases h
  | cons i is ih =>
    rw [placeMissing] at h
    split at h
    · obtain ⟨hi, hrest⟩ := ih h
      exact ⟨List.mem_cons_of_mem _ hi, hrest⟩
    · rename_i bytes hbytes
      rcases List.mem_cons.mp h with rfl | h
      · exact ⟨List.mem_cons_self .., hbytes, rfl⟩
      · obtain ⟨hi, hrest⟩ := ih h
        exact ⟨List.mem_cons_of_mem _ hi, hrest⟩

end

variable {K : Type} (P : Prims K) (key : K)

/-- Whatever the holders of its shards answer, repair places only the shards that were
written, and nothing when fewer than ten answers pass the hash check. -/
theorem repairChunk_places_stored (hrs : RsRestores P) (u f : Text) (cfg : PipelineConfig)
    (data : Bytes) (chunks : List ProcessedChunk)
    (hproc : processV2 P data key (utf8 u) (utf8 f) cfg = .ok chunks) (w w' : World)
    (hno : ∀ c ∈ w.db.chunks, c.fileId ≠ f)
    (hwrite : writeChunkRows P f chunks w = (.ok (), w')) (c : ProcessedChunk) (hc : c ∈ chunks)
    (hpins : HashPins P c.shards) (rows : List ShardRow)
    (hrows : Relocated rows (getShards w'.db (chunkId f c.index)))
    (hhash : ∀ r ∈ rows, r.hash ≠ []) (classify : ShardRow → ShardState) (d : Degraded)
    (hd : assessChunk classify (chunkRowFor f c) rows = some d) (view : PeerView)
    (answers : ℕ → Option Bytes) (accepts : ℕ → Bool) :
    (∀ p ∈ repairChunk P d view answers accepts,
      p.fragment = fragmentId P (chunkId f c.index) p.index ∧
        w'.store p.fragment = some p.bytes ∧
        ∃ r ∈ rows, r.fragmentId = p.fragment ∧ r.hash = shardHash P p.bytes) ∧
    ((List.range TOTAL_SHARDS).countP (fun i => (fetchAt P d answers i).isSome) < DATA_SHARDS →
      repairChunk P d view answers accepts = []) ∧
    ∀ present, Held c.shards present → DATA_SHARDS ≤ present.countP Option.isSome →
      ∃ all, regenChunkShards P present (asU64 d.chunk.cipherLen) = .ok all ∧
        ∀ i < TOTAL_SHARDS, w'.store (fragmentId P (chunkId f c.index) i) = all[i]? := by
  have hst := writeChunkRows_stored P (processV2_sized hproc) (processV2_ordered hproc) hno hwrite
  have hheld := hst.held c hc
  rw [hst.shards c hc] at hrows
  obtain ⟨hchunk, hat, hmissing⟩ := assessChunk_some hd
  have hlen : asU64 d.chunk.cipherLen = c.cipher.length := by rw [hchunk]; rfl
  have henc := processV2_encode hproc c hc
  have hfetch : ∀ i b, fetchAt P d answers i = some b → c.shards[i]? = some b :=
    fetchAt_genuine hheld hpins hrows hhash hat
  have hsurv : Held c.shards (fetchSurvivors P d answers 0 (List.range TOTAL_SHARDS)) :=
    fetchSurvivors_held hfetch
  refine ⟨?_, ?_, ?_⟩
  · intro p hp
    unfold repairChunk at hp
    simp only at hp
    split at hp
    · cases hp
    · rename_i hten
      rw [hlen, regenChunkShards_held hrs henc hsurv (by omega)] at hp
      obtain ⟨hidx, hbytes, hfrag⟩ := placeMissing_mem hp
      obtain ⟨s, hs⟩ := hmissing _ hidx
      obtain ⟨hmem, hsi⟩ := indexShards_some hs
      obtain ⟨hlt, hsf, hsh⟩ := relocated_row hrows hmem
      rw [hsi] at hlt hsf hsh
      rw [hat, hs, Option.map_some, Option.getD_some] at hfrag
      have hget : c.shards.getD p.index [] = p.bytes := by
        rw [List.getD_eq_getElem?_getD, hbytes, Option.getD_some]
      refine ⟨hfrag.trans hsf, ?_, s, hmem, hfrag.symm, hsh.trans (by rw [hget])⟩
      rw [hfrag, hsf, hheld.bytes _ hlt, hbytes]
  · intro hfew
    have hle := fetchSurvivors_countP (P := P) d answers 0 (List.range TOTAL_SHARDS)
    rw [repairChunk, if_pos (by omega)]
  · intro present hh hten
    refine ⟨c.shards, ?_, fun i hi => hheld.bytes i hi⟩
    rw [hlen]
    exact regenChunkShards_held hrs henc hh hten

/-! The sample file again: shards 0 and 1 are lost, the holder of shard 2 answers with zeros. -/

def sampleKnown : List Bytes := sampleChunks.flatMap ProcessedChunk.shards

def sampleWritten : World := (writeChunkRows (sample sampleKnown) ['f'] sampleChunks sampleWorld).2

theorem sampleWritten_eq :
    writeChunkRows (sample sampleKnown) ['f'] sampleChunks sampleWorld = (.ok (), sampleWritten) := by
  have h : (writeChunkRows (sample sampleKnown) ['f'] sampleChunks sampleWorld).1 = .ok () := by
    decide +kernel
  rw [sampleWritten, ← h]

def sampleChunk : ProcessedChunk := sampleChunks.headD ⟨0, [], false, 0, [], 0, []⟩

def sampleRows : List ShardRow := getShards sampleWritten.db (chunkId ['f'] sampleChunk.index)

def sampleClassify (s : ShardRow) : ShardState := if s.shardIndex < 2 then .Lost else .Live

def sampleAnswers (i : ℕ) : Option Bytes :=
  if i = 2 then some [0] else sampleChunk.shards[i]?

def sampleDegraded : Degraded :=
  (assessChunk sampleClassify (chunkRowFor ['f'] sampleChunk) sampleRows).getD
    ⟨0, chunkRowFor ['f'] sampleChunk, [], [], []⟩

theorem sample_places_stored :
    (repairChunk (sample sampleKnown) sampleDegraded ⟨[], []⟩ sampleAnswers fun _ => true).length = 2 ∧
      ∀ p ∈ repairChunk (sample sampleKnown) sampleDegraded ⟨[], []⟩ sampleAnswers fun _ => true,
        sampleWritten.store p.fragment = some p.bytes :=
  ⟨by decide +kernel, fun p hp => ((repairChunk_places_stored (sample sampleKnown) .node
    (sample_rs _) ['u'] ['f'] {} sampleData sampleChunks rfl sampleWorld sampleWritten
    (by simp [sampleWorld, Db.empty]) sampleWritten_eq sampleChunk (by decide +kernel)
    (fun s hs b hb => digestSample_inj (by decide +kernel) (by decide +kernel)
      (List.mem_flatMap.mpr ⟨sampleChunk, by decide +kernel, hs⟩) (hexEncode_inj hb))
    sampleRows (by rw [Relocated]; decide +kernel) (by decide +kernel) sampleClassify sampleDegraded
    (by decide +kernel) ⟨[], []⟩ sampleAnswers (fun _ => true)).1 p hp).2.1⟩

end P2pnas.Node.Repair
