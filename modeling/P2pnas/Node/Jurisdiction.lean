import P2pnas.Node.ManifestBackup
import P2pnas.Node.Rebalance

/-!
# Where shards go when countries are restricted

All paths that send shards to peers, run in any order on one peer table: the distribution of
an uploaded file or a pack, repair passes, rebalances and manifest backups. The log keeps every
`StoreShard` request with the country that was on record for its peer. Only the distribution
looks at countries; the other three send to whoever answers.
-/

namespace P2pnas.Node.Jurisdiction
open P2pnas.Lib.Frames P2pnas.Lib.Strings P2pnas.Lib.Runs P2pnas.Core P2pnas.Core.Base
open P2pnas.Store.Manifest P2pnas.Node.Peers P2pnas.Node.Placement P2pnas.Node.Repair
open P2pnas.Node.Rebalance P2pnas.Node.ManifestBackup

/-- A repair pass: whether the peer table can be read, who answers, and the chunks it ends up
repairing. -/
structure RepairPass where
  readsPeers : Bool
  answers : PeerRow → Bool
  pending : List Pending

/-- What a node does with shards of its own; the peer table changes in between as it likes. -/
inductive Action where
  | distribute (up : Upload)
  | repair (p : RepairPass)
  | rebalance (p : RebalancePass)
  | backup (p : Pass)
  | peersChange (t : PeerTable)

structure Sender where
  table : PeerTable
  events : List BackupEvent
  log : List (Sent × Option Text)

/-- The requests with the countries on record. -/
def recorded (t : PeerTable) (sent : List Sent) : List (Sent × Option Text) :=
  sent.map fun m => (m, t.countryOf m.peerId)

section
variable {K : Type} (P : Prims K) (key : K) (me : Text) (sc : Scores)
  (zoneOfAddr : Text → Option Text) (allow : List Text)

/-- A backup pass on this peer table. -/
def Pass.on (p : Pass) (t : PeerTable) : Pass := { p with peers := p.peers.map fun _ => t.rows }

def step (s : Sender) : Action → Sender
  | .distribute up =>
    let d := distributeShards sc zoneOfAddr me allow s.table up
    { s with table := d.table, log := s.log ++ recorded d.table d.sent }
  | .repair p =>
    let view := viewOf (s.table.others p.readsPeers me) p.answers
    { s with log := s.log ++ recorded s.table (repairSent P view p.pending) }
  | .rebalance p =>
    { s with log := s.log ++ recorded s.table (rebalanceAll P sc zoneOfAddr me s.table p).sent }
  | .backup p =>
    let r := runBackup P key me s.events (Pass.on p s.table)
    { s with events := r.events, log := s.log ++ recorded s.table r.sent }
  | .peersChange t => { s with table := t }

/-- Distributions record what they learn, and the other passes are answered only by peers with
an allowed country on record. -/
def Compliant (s : Sender) : Action → Prop
  | .distribute up => RecordsCountries up s.table.rows
  | .repair p => ∀ r ∈ s.table.others p.readsPeers me, p.answers r = true →
      jurisdictionAllowed allow r.country = true
  | .rebalance p => ∀ r ∈ s.table.others p.readsPeers me, r.status ≠ DOWN →
      (p.rtt r).isSome = true → jurisdictionAllowed allow r.country = true
  | .backup p => ∀ r ∈ s.table.others p.peers.isSome me, p.answers r = true →
      jurisdictionAllowed allow r.country = true
  | .peersChange _ => True

end

theorem others_mem {t : PeerTable} {works : Bool} {me : Text} {r : PeerRow}
    (h : r ∈ t.others works me) : r ∈ t.rows := by
  rw [PeerTable.others] at h
  split at h
  · exact (List.mem_filter.mp h).1
  · cases h

section
variable {K : Type} {P : Prims K} {key : K} {me : Text} {sc : Scores}
  {zoneOfAddr : Text → Option Text} {allow : List Text}

theorem repairSent_mem {rows : List PeerRow} {answers : PeerRow → Bool} {pending : List Pending}
    {m : Sent} (h : m ∈ repairSent P (viewOf rows answers) pending) :
    ∃ r ∈ rows, answers r = true ∧ r.peerId = m.peerId := by
  obtain ⟨p, _, hp⟩ := List.mem_flatMap.mp h
  obtain ⟨pl, _, hpl⟩ := List.mem_filterMap.mp hp
  exact placeRequest_mem hpl

/-- A backup goes round-robin over the peers that answered. -/
theorem runBackup_mem {events : List BackupEvent} {p : Pass} {t : PeerTable} {m : Sent}
    (h : m ∈ (runBackup P key me events (Pass.on p t)).sent) :
    ∃ r ∈ t.others p.peers.isSome me, p.answers r = true ∧ r.peerId = m.peerId := by
  have hplaced : ∀ {version : ℕ} {shards : List Bytes},
      m ∈ placements P me (reachablePeers me (Pass.on p t)) version shards →
      ∃ r ∈ t.others p.peers.isSome me, p.answers r = true ∧ r.peerId = m.peerId := by
    intro version shards hm
    obtain ⟨s, _, hs⟩ := List.mem_filterMap.mp hm
    obtain ⟨pa, hpa, rfl⟩ := Option.map_eq_some_iff.mp hs
    have hmem := List.mem_of_getElem? hpa
    rw [reachablePeers, List.mem_insertionSort] at hmem
    obtain ⟨r, hr, rfl⟩ := List.mem_map.mp hmem
    obtain ⟨hrow, hok⟩ := List.mem_filter.mp hr
    rw [Bool.and_eq_true] at hok
    refine ⟨r, ?_, hok.2, rfl⟩
    rw [PeerTable.others]
    cases hp : p.peers with
    | none => simp [Pass.on, hp] at hrow
    | some rows =>
      rw [Pass.on, hp, Option.map_some, Option.getD_some] at hrow
      rw [Option.isSome_some, if_pos rfl]
      exact List.mem_filter.mpr ⟨hrow, hok.1⟩
  rw [runBackup] at h
  simp only at h
  split at h
  · cases h
  · split at h
    · cases h
    · split at h
      · cases h
      · split at h
        · cases h
        · cases h
        · cases h
        · split at h
          · cases h
          · split at h
            · exact hplaced h
            · exact hplaced h

theorem recorded_allowed {t : PeerTable} {works : Bool} {sent : List Sent} {p : PeerRow → Prop}
    (hsent : ∀ m ∈ sent, ∃ r ∈ t.others works me, p r ∧ r.peerId = m.peerId)
    (hp : ∀ r ∈ t.others works me, p r → jurisdictionAllowed allow r.country = true) :
    ∀ mc ∈ recorded t sent, jurisdictionAllowed allow mc.2 = true := by
  intro mc hmc
  obtain ⟨m, hm, rfl⟩ := List.mem_map.mp hmc
  obtain ⟨r, hr, hpr, hid⟩ := hsent m hm
  simp only
  rw [← hid, PeerTable.countryOf_row t (others_mem hr)]
  exact hp r hr hpr

theorem step_allowed (s : Sender) (a : Action)
    (hs : ∀ mc ∈ s.log, jurisdictionAllowed allow mc.2 = true) (hok : Compliant me allow s a) :
    ∀ mc ∈ (step P key me sc zoneOfAddr allow s a).log, jurisdictionAllowed allow mc.2 = true := by
  have happend : ∀ new : List (Sent × Option Text),
      (∀ mc ∈ new, jurisdictionAllowed allow mc.2 = true) →
      ∀ mc ∈ s.log ++ new, jurisdictionAllowed allow mc.2 = true := by
    intro new hnew mc hmc
    exact (List.mem_append.mp hmc).elim (hs mc) (hnew mc)
  cases a with
  | distribute up =>
    refine happend _ ?_
    intro mc hmc
    obtain ⟨m, hm, rfl⟩ := List.mem_map.mp hmc
    exact distributeShards_allowed hok hm
  | repair p =>
    exact happend _ (recorded_allowed (p := fun r => p.answers r = true)
      (fun m hm => repairSent_mem hm) hok)
  | rebalance p =>
    have hsent : ∀ m ∈ (rebalanceAll P sc zoneOfAddr me s.table p).sent,
        ∃ r ∈ s.table.others p.readsPeers me,
          (r.status ≠ DOWN ∧ (p.rtt r).isSome = true) ∧ r.peerId = m.peerId := by
      intro m hm
      obtain ⟨r, hr, hstatus, hrtt, hid⟩ := rebalanceAll_mem P hm
      exact ⟨r, hr, ⟨hstatus, hrtt⟩, hid⟩
    exact happend _ (recorded_allowed hsent fun r hr hp => hok r hr hp.1 hp.2)
  | backup p =>
    exact happend _ (recorded_allowed (p := fun r => p.answers r = true)
      (fun m hm => runBackup_mem hm) hok)
  | peersChange t => exact hs

/-- In every run whose passes are compliant, no shard was ever sent to a peer without a country
on the list. -/
theorem run_allowed (hallow : allow ≠ []) (t : PeerTable) (events : List BackupEvent)
    (actions : List Action)
    (hok : AllMeet (step P key me sc zoneOfAddr allow) (Compliant me allow) ⟨t, events, []⟩ actions) :
    ∀ mc ∈ (run (step P key me sc zoneOfAddr allow) ⟨t, events, []⟩ actions).log,
      ∃ country ∈ allow, mc.2 = some country := by
  have hall := run_invariant
    (I := fun s : Sender => ∀ mc ∈ s.log, jurisdictionAllowed allow mc.2 = true)
    step_allowed (fun mc h => absurd h List.not_mem_nil) hok
  intro mc hmc
  have h := hall mc hmc
  rw [jurisdictionAllowed, Bool.or_eq_true] at h
  rcases h with h | h
  · exact absurd (List.isEmpty_iff.mp h) hallow
  · cases hc : mc.2 with
    | none => rw [hc] at h; cases h
    | some country =>
      rw [hc] at h
      exact ⟨country, by simpa using h, rfl⟩

end

/-! ### Passes that forget the list -/

def FR : Text := ['F', 'R']
def US : Text := ['U', 'S']

/-- A table with one peer. -/
def onePeer (country : Option Text) : PeerTable where
  rows := [⟨['b'], ['x'], [], country, none, 0⟩]
  unique := List.nodup_singleton _

def flatScores : Scores where
  peer := fun _ _ _ _ => 0
  own := fun _ n => n

def localShards : List ShardRow :=
  (List.range 14).map fun i => ⟨[Char.ofNat (97 + i)], ['c'], i, P2pnas.Store.Service.LOCAL, []⟩

def sampleRebalance : RebalancePass where
  readsPeers := true
  rtt := fun _ => some 5
  chunks := [⟨localShards, [P2pnas.Store.Service.LOCAL]⟩]
  fetch := fun _ => some [1]
  accepts := fun _ _ => true

def runFrom (t : PeerTable) (actions : List Action) : Sender :=
  run (step (Sample.sample []) .node sampleMe flatScores (fun _ => none) [FR]) ⟨t, [], []⟩ actions

/-- With France alone on the list, a rebalance and a backup each send shards to a peer recorded
in the United States. -/
theorem passes_ignore_country :
    (¬ ∀ mc ∈ (runFrom (onePeer (some US)) [.rebalance sampleRebalance]).log,
      ∃ country ∈ [FR], mc.2 = some country) ∧
    ¬ ∀ mc ∈ (runFrom (onePeer (some US)) [.backup (samplePass 0 [1] true)]).log,
      ∃ country ∈ [FR], mc.2 = some country := by
  have hreb : ∃ mc ∈ (runFrom (onePeer (some US)) [.rebalance sampleRebalance]).log,
      mc.2 = some US := by decide +kernel
  have hbak : ∃ mc ∈ (runFrom (onePeer (some US)) [.backup (samplePass 0 [1] true)]).log,
      mc.2 = some US := by decide +kernel
  have hno : ¬ ∃ country ∈ [FR], some US = some country := by decide
  constructor
  · intro h
    obtain ⟨mc, hmc, hus⟩ := hreb
    exact hno (hus ▸ h mc hmc)
  · intro h
    obtain ⟨mc, hmc, hus⟩ := hbak
    exact hno (hus ▸ h mc hmc)

/-- A distribution that learns its peer's country. -/
def sampleUpload : Upload where
  readsPeers := true
  geo := fun _ => .resolved (some FR)
  records := fun _ => true
  rtt := fun _ => some 5
  plan := some [(⟨['c'], ['f'], 0, [], false, 1, 17, 64⟩, localShards)]
  readLocal := fun _ => some [1]
  acks := fun _ _ => true

/-- The distribution records the country, so the backup after it complies as well; shards are
sent. -/
theorem sample_run_allowed :
    (runFrom (onePeer none) [.distribute sampleUpload, .backup (samplePass 0 [1] true)]).log ≠ [] ∧
      ∀ mc ∈ (runFrom (onePeer none)
        [.distribute sampleUpload, .backup (samplePass 0 [1] true)]).log,
        ∃ country ∈ [FR], mc.2 = some country := by
  refine ⟨by decide +kernel, run_allowed (by decide) _ _ _ ⟨?_, ?_, trivial⟩⟩
  · exact fun _ _ _ _ _ => rfl
  · change ∀ r ∈ PeerTable.others _ _ _, _ → _
    decide +kernel

end P2pnas.Node.Jurisdiction
