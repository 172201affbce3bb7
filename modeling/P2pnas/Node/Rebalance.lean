import P2pnas.Node.Placement
import P2pnas.Node.Repair

/-!
# Locality rebalance (`rebalance.rs`)

A pass plans the ideal number of shards for each location and moves the difference: shards
beyond a location's target form a pool, and the locations short of theirs take from it, this
node first and then the peers near to far. The shards of a chunk are grouped in a hash map,
so the order in which locations give is an argument.
-/

namespace P2pnas.Node.Rebalance
open P2pnas.Lib.Frames P2pnas.Lib.Strings P2pnas.Core.Base P2pnas.Core.Erasure
open P2pnas.Store.Manifest P2pnas.Store.Service P2pnas.Node.Peers P2pnas.Node.Placement
open P2pnas.Node.Repair

/-- How many shards of a chunk each location should hold. -/
def targetCounts (layout : List (Option ℕ)) (ids : List Text) (loc : Text) : ℕ :=
  layout.countP fun
    | none => loc = LOCAL
    | some p => ids[p]? = some loc

/-- A chunk of a pass: its shard rows and the order its locations are visited in. -/
structure ChunkShards where
  shards : List ShardRow
  order : List Text

/-- The pool of shards to move and the shards that stay, by location. -/
structure Donors where
  pool : List ShardRow
  current : Text → List ShardRow

/-- One location gives what it holds beyond its target, if it can be reached. -/
def donate (target : Text → ℕ) (reachable : PeerMap Text) (d : Donors) (loc : Text) : Donors :=
  let here := d.current loc
  if loc = LOCAL || (reachable.lookup loc).isSome then
    { pool := d.pool ++ (here.drop (target loc)).reverse
      current := fun l => if l = loc then here.take (target loc) else d.current l }
  else d

def donors (target : Text → ℕ) (reachable : PeerMap Text) (c : ChunkShards) : Donors :=
  c.order.foldl (donate target reachable)
    ⟨[], fun l => c.shards.filter fun s => s.location = l⟩

/-- The moves of a chunk: receivers take from the end of the pool until they reach their
target. -/
def takeMoves (target : Text → ℕ) (current : Text → List ShardRow) :
    List Text → List ShardRow → List (ShardRow × Text)
  | [], _ => []
  | loc :: locs, pool =>
    let n := target loc - (current loc).length
    ((pool.reverse.take n).map fun s => (s, loc)) ++
      takeMoves target current locs (pool.reverse.drop n).reverse

/-- What a pass meets: whether the peer table can be read, the latency of the peers that
answer, the chunks of the files, the bytes each fetch brings and whether a placement is
accepted. -/
structure RebalancePass where
  readsPeers : Bool
  rtt : PeerRow → Option ℤ
  chunks : List ChunkShards
  fetch : ShardRow → Option Bytes
  accepts : ShardRow → Text → Bool

section
variable {K : Type} (P : Prims K)

/-- The request of `move_shard` (`rebalance.rs:154-177`). -/
def moveRequest (reachable : PeerMap Text) (fetch : ShardRow → Option Bytes) (s : ShardRow)
    (dest : Text) : Option Sent :=
  if s.location = dest then none
  else match fetchShard P s (fetch s) with
    | none => none
    | some bytes =>
      if s.hash ≠ [] && shardHash P bytes ≠ s.hash then none
      else placeRequest reachable dest s.fragmentId s.shardIndex bytes

/-- What a pass did: its requests and the shards whose placement was accepted. -/
structure Rebalanced where
  sent : List Sent
  moved : List (ShardRow × Text)

/-- `rebalance_all` (`rebalance.rs:30-148`). -/
def rebalanceAll (sc : Scores) (zoneOfAddr : Text → Option Text) (me : Text) (t : PeerTable)
    (p : RebalancePass) : Rebalanced :=
  let rows := (t.others p.readsPeers me).filter fun r => r.status ≠ DOWN
  let live := livePeers p.rtt rows
  if live.isEmpty then ⟨[], []⟩
  else
    let reachable := reachableOf rows fun r => (p.rtt r).isSome
    let ids := live.map fun rm => rm.1.peerId
    let layout := planPlacementZoned sc (candidates zoneOfAddr live) none PARITY_SHARDS TOTAL_SHARDS
    let target := targetCounts layout ids
    let moves := p.chunks.flatMap fun c =>
      let d := donors target reachable c
      takeMoves target d.current (LOCAL :: ids) d.pool
    ⟨moves.filterMap fun m => moveRequest P reachable p.fetch m.1 m.2,
      moves.filter fun m => m.1.location ≠ m.2 && (fetchShard P m.1 (p.fetch m.1)).isSome &&
        p.accepts m.1 m.2⟩

/-- A pass sends only to peers of the table that answered. -/
theorem rebalanceAll_mem {sc : Scores} {zoneOfAddr : Text → Option Text} {me : Text} {t : PeerTable}
    {p : RebalancePass} {m : Sent} (h : m ∈ (rebalanceAll P sc zoneOfAddr me t p).sent) :
    ∃ r ∈ t.others p.readsPeers me, r.status ≠ DOWN ∧ (p.rtt r).isSome = true ∧
      r.peerId = m.peerId := by
  simp only [rebalanceAll] at h
  split at h
  · cases h
  · obtain ⟨mv, _, hreq⟩ := List.mem_filterMap.mp h
    rw [moveRequest] at hreq
    split at hreq
    · cases hreq
    · split at hreq
      · cases hreq
      · split at hreq
        · cases hreq
        · obtain ⟨r, hr, hans, hid⟩ := placeRequest_mem hreq
          obtain ⟨hrow, hstatus⟩ := List.mem_filter.mp hr
          exact ⟨r, hrow, of_decide_eq_true hstatus, hans, hid⟩

end

end P2pnas.Node.Rebalance
