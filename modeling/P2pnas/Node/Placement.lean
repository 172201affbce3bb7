import P2pnas.Node.Peers
import P2pnas.Store.Service

/-!
# Choosing hosts for new shards (`placement.rs`, `handlers/files.rs:266-437`)

`plan_placement_zoned` assigns the shards of a chunk greedily under a cap for each location
and each failure zone. `distribute_shards` vets the peers by country, pings them, plans, and
moves every planned shard to its peer or to one of the next two. Latencies and scores are the
integers `f64::total_cmp` orders them by; the score of a location is a parameter, and so is
the zone derived from an address.
-/

namespace P2pnas.Node.Placement
open P2pnas.Lib.Frames P2pnas.Lib.Strings P2pnas.Core.Erasure P2pnas.Store.Manifest
open P2pnas.Store.Service P2pnas.Node.Peers

/-! ### The plan of one chunk -/

structure PeerCandidate where
  rtt : ℤ
  zone : Option Text
  reliability : ℤ
  deriving DecidableEq, Repr

/-- The score of peer `i` among the candidates and of the node itself, at a parity and with a
number of shards already there (`placement.rs:176-193`). -/
structure Scores where
  peer : List PeerCandidate → ℕ → ℕ → ℕ → ℤ
  own : ℕ → ℕ → ℤ

def zoneKey (i : ℕ) (p : PeerCandidate) : Text :=
  match p.zone.filter (· ≠ []) with
  | some z => "zone:".toList ++ z
  | none => "unzoned-peer:".toList ++ (toString i).toList

def selfKey (selfZone : Option Text) : Text :=
  match selfZone.filter (· ≠ []) with
  | some z => "zone:".toList ++ z
  | none => "zone:@self".toList

/-- The counters of the greedy. -/
structure Counts where
  zone : Text → ℕ
  peer : ℕ → ℕ
  self : ℕ

section
variable (sc : Scores) (peers : List PeerCandidate) (selfZone : Option Text) (parity : ℕ)

/-- The best location under the caps, with its score; `none` when all are full. -/
def bestLocation (honorZones : Bool) (c : Counts) : Option (Option ℕ × ℤ) :=
  let own : Option (Option ℕ × ℤ) :=
    if c.self < parity && (!honorZones || c.zone (selfKey selfZone) < parity) then
      some (none, sc.own parity c.self)
    else none
  peers.zipIdx.foldl (fun best pi =>
    if parity ≤ c.peer pi.2 then best
    else if honorZones && parity ≤ c.zone (zoneKey pi.2 pi.1) then best
    else
      let score := sc.peer peers parity pi.2 (c.peer pi.2)
      if best.all (fun b => score < b.2) then some (some pi.2, score) else best) own

/-- One shard: the zone caps are dropped only when they leave nowhere to go. -/
def placeOne (c : Counts) : Option ℕ × Counts :=
  let choice := (bestLocation sc peers selfZone parity true c).or
    (bestLocation sc peers selfZone parity false c)
  let bump (key : Text) (z : Text) : ℕ := if z = key then c.zone z + 1 else c.zone z
  match choice.bind Prod.fst with
  | some i =>
    let key := match peers[i]? with
      | some p => zoneKey i p
      | none => []
    (some i, { c with
      peer := fun j => if j = i then c.peer j + 1 else c.peer j
      zone := bump key })
  | none => (none, { c with self := c.self + 1, zone := bump (selfKey selfZone) })

/-- `plan_placement_zoned` (`placement.rs:133-216`). -/
def planPlacementZoned (total : ℕ) : List (Option ℕ) :=
  ((List.range total).foldl (fun acc _ =>
    let next := placeOne sc peers selfZone parity acc.2
    (acc.1 ++ [next.1], next.2)) ([], ⟨fun _ => 0, fun _ => 0, 0⟩)).1

end

/-- `jurisdiction_allowed` (`placement.rs:220-222`). -/
def jurisdictionAllowed (allow : List Text) (country : Option Text) : Bool :=
  allow.isEmpty || country.any (fun c => c ∈ allow)

/-! ### Moving a file's shards to peers -/

/-- `GeoOutcome`. -/
inductive GeoOutcome where
  | resolved (country : Option Text)
  | unavailable
  deriving DecidableEq, Repr

/-- What a distribution meets: whether the peer table can be read, the GeoIP answer for a peer
and whether recording it works, the latency of the peers that answer, the file's plan (`none`
when it cannot be read), the local bytes, and the answer to attempt `off` for a fragment. -/
structure Upload where
  readsPeers : Bool
  geo : PeerRow → GeoOutcome
  records : PeerRow → Bool
  rtt : PeerRow → Option ℤ
  plan : Option (List (ChunkRow × List ShardRow))
  readLocal : Text → Option Bytes
  acks : Text → ℕ → Bool

/-- The vetting loop: the peers kept (`none`: GeoIP is unavailable, nothing is distributed)
and the table with the countries recorded on the way. -/
def vetPeers (allow : List Text) (up : Upload) :
    List PeerRow → PeerTable → Option (List PeerRow) × PeerTable
  | [], t => (some [], t)
  | r :: rs, t =>
    match r.country with
    | some c =>
      let rest := vetPeers allow up rs t
      (rest.1.map fun kept => if jurisdictionAllowed allow (some c) then r :: kept else kept, rest.2)
    | none =>
      match up.geo r with
      | .unavailable => (none, t)
      | .resolved country =>
        let t' := match country with
          | some c => if up.records r then t.setCountry r.peerId c else t
          | none => t
        let rest := vetPeers allow up rs t'
        (rest.1.map fun kept => if jurisdictionAllowed allow country then r :: kept else kept, rest.2)

/-- The peers that answered, near to far. -/
def livePeers (rtt : PeerRow → Option ℤ) (peers : List PeerRow) : List (PeerRow × ℤ) :=
  (peers.filterMap fun r => (rtt r).map fun ms => (r, ms)).insertionSort fun a b => a.2 ≤ b.2

def candidates (zoneOfAddr : Text → Option Text) (live : List (PeerRow × ℤ)) : List PeerCandidate :=
  live.map fun rm => {
    rtt := rm.2
    zone := rm.1.zone.or (zoneOfAddr rm.1.addr)
    reliability := rm.1.reliability }

/-- A shard, its primary peer and its index. -/
structure Planned where
  fragmentId : Text
  primary : ℕ
  shardIndex : ℤ
  deriving DecidableEq, Repr

/-- `None` in the layout keeps the shard on this node. -/
def plannedShards (layout : List (Option ℕ)) (plan : List (ChunkRow × List ShardRow)) :
    List Planned :=
  (plan.flatMap Prod.snd).filterMap fun s =>
    (layout[asU64 s.shardIndex]?.join).map fun p => ⟨s.fragmentId, p, s.shardIndex⟩

/-- The requests for one shard: the primary, then the next peers, until one acknowledges. -/
def tryPeers (peers : List PeerRow) (acks : ℕ → Bool) (pl : Planned) (data : Bytes) :
    List ℕ → List Sent × Option Text
  | [] => ([], none)
  | off :: offs =>
    match peers[(pl.primary + off) % peers.length]? with
    | none => ([], none)
    | some r =>
      let msg : Sent := ⟨r.peerId, r.addr, pl.fragmentId, pl.shardIndex, data⟩
      if acks off then ([msg], some r.peerId)
      else
        let rest := tryPeers peers acks pl data offs
        (msg :: rest.1, rest.2)

/-- What a distribution did: the peer table, the requests, and the shards that moved, with
their new host (`set_location` is called and the local file deleted for these). -/
structure Distributed where
  table : PeerTable
  sent : List Sent
  moved : List (Text × Text)

/-- `distribute_shards` (`handlers/files.rs:266-437`). -/
def distributeShards (sc : Scores) (zoneOfAddr : Text → Option Text) (me : Text)
    (allow : List Text) (t : PeerTable) (up : Upload) : Distributed :=
  let rows := (t.others up.readsPeers me).filter fun r => r.status ≠ DOWN
  let vetted := if allow.isEmpty then (some rows, t) else vetPeers allow up rows t
  match vetted.1 with
  | none => ⟨vetted.2, [], []⟩
  | some kept =>
    let live := livePeers up.rtt kept
    if live.isEmpty then ⟨vetted.2, [], []⟩
    else match up.plan with
      | none => ⟨vetted.2, [], []⟩
      | some plan =>
        let layout := planPlacementZoned sc (candidates zoneOfAddr live) none PARITY_SHARDS
          TOTAL_SHARDS
        let peers := live.map Prod.fst
        let tries := (plannedShards layout plan).filterMap fun pl =>
          (up.readLocal pl.fragmentId).map fun data =>
            (pl, tryPeers peers (up.acks pl.fragmentId) pl data (List.range (min peers.length 3)))
        ⟨vetted.2, tries.flatMap fun r => r.2.1,
          tries.filterMap fun r => r.2.2.map fun peer => (r.1.fragmentId, peer)⟩

/-! ### Where the shards of a distribution go -/

theorem livePeers_mem {rtt : PeerRow → Option ℤ} {peers : List PeerRow} {rm : PeerRow × ℤ}
    (h : rm ∈ livePeers rtt peers) : rm.1 ∈ peers := by
  rw [livePeers, List.mem_insertionSort] at h
  obtain ⟨r, hr, hrm⟩ := List.mem_filterMap.mp h
  obtain ⟨ms, _, rfl⟩ := Option.map_eq_some_iff.mp hrm
  exact hr

theorem livePeers_ids (rtt : PeerRow → Option ℤ) (rows : List PeerRow) :
    ((livePeers rtt rows).map fun rm => rm.1.peerId).Perm
      ((rows.filter fun r => (rtt r).isSome).map PeerRow.peerId) := by
  have hids : ((rows.filterMap fun r => (rtt r).map fun ms => (r, ms)).map fun rm => rm.1.peerId) =
      (rows.filter fun r => (rtt r).isSome).map PeerRow.peerId := by
    induction rows with
    | nil => rfl
    | cons r rows ih =>
      cases hr : rtt r with
      | none => simpa [hr] using ih
      | some ms => simpa [hr] using ih
  rw [← hids]
  exact (List.perm_insertionSort _ _).map _

theorem tryPeers_mem {peers : List PeerRow} {acks : ℕ → Bool} {pl : Planned} {data : Bytes}
    {offs : List ℕ} {m : Sent} (h : m ∈ (tryPeers peers acks pl data offs).1) :
    ∃ r ∈ peers, m.peerId = r.peerId := by
  induction offs with
  | nil => cases h
  | cons off offs ih =>
    rw [tryPeers] at h
    cases hr : peers[(pl.primary + off) % peers.length]? with
    | none => rw [hr] at h; cases h
    | some r =>
      rw [hr] at h
      simp only at h
      split at h
      · rw [List.mem_singleton] at h
        exact ⟨r, List.mem_of_getElem? hr, by rw [h]⟩
      · rcases List.mem_cons.mp h with rfl | h
        · exact ⟨r, List.mem_of_getElem? hr, rfl⟩
        · exact ih h

/-- Every country the vetting learns gets recorded. -/
def RecordsCountries (up : Upload) (rows : List PeerRow) : Prop :=
  ∀ r ∈ rows, r.country = none → ∀ c, up.geo r = .resolved (some c) → up.records r = true

theorem vetPeers_other {allow : List Text} {up : Upload} {rows : List PeerRow} {t : PeerTable}
    {id : Text} (h : id ∉ rows.map PeerRow.peerId) :
    (vetPeers allow up rows t).2.countryOf id = t.countryOf id := by
  induction rows generalizing t with
  | nil => rfl
  | cons r rs ih =>
    rw [List.map_cons, List.mem_cons, not_or] at h
    rw [vetPeers]
    cases r.country with
    | some c => exact ih h.2
    | none =>
      cases up.geo r with
      | unavailable => rfl
      | resolved country =>
        simp only
        rw [ih h.2]
        cases country with
        | none => rfl
        | some c =>
          simp only
          split
          · exact PeerTable.countryOf_setCountry_other t h.1 c
          · rfl

/-- The peers the vetting keeps have an allowed country on record afterwards. -/
theorem vetPeers_allowed {allow : List Text} {up : Upload} {rows kept : List PeerRow}
    {t : PeerTable} (hrec : RecordsCountries up rows) (hrows : ∀ r ∈ rows, r ∈ t.rows)
    (hn : (rows.map PeerRow.peerId).Nodup) (h : (vetPeers allow up rows t).1 = some kept) :
    ∀ r ∈ kept, jurisdictionAllowed allow
      ((vetPeers allow up rows t).2.countryOf r.peerId) = true := by
  induction rows generalizing t kept with
  | nil =>
    cases h
    intro r hr
    cases hr
  | cons r rs ih =>
    rw [List.map_cons, List.nodup_cons] at hn
    have hrecs : RecordsCountries up rs := fun r' hr' => hrec r' (List.mem_cons_of_mem _ hr')
    have hr : r ∈ t.rows := hrows r (List.mem_cons_self ..)
    have hrest : ∀ r' ∈ rs, r' ∈ t.rows := fun r' hr' => hrows r' (List.mem_cons_of_mem _ hr')
    -- the head keeps the country it has when the rest is vetted on the table `t'`
    have hhead : ∀ (t' : PeerTable) (country : Option Text), (∀ r' ∈ rs, r' ∈ t'.rows) →
        (jurisdictionAllowed allow country = true → jurisdictionAllowed allow
          (t'.countryOf r.peerId) = true) →
        ∀ kept, ((vetPeers allow up rs t').1.map fun kept =>
          if jurisdictionAllowed allow country then r :: kept else kept) = some kept →
        ∀ r' ∈ kept, jurisdictionAllowed allow
          ((vetPeers allow up rs t').2.countryOf r'.peerId) = true := by
      intro t' country hrest' hcountry kept hkept r' hr'
      obtain ⟨kept', hk', rfl⟩ := Option.map_eq_some_iff.mp hkept
      split at hr'
      · rename_i hallowed
        rcases List.mem_cons.mp hr' with rfl | hr'
        · rw [vetPeers_other hn.1]
          exact hcountry hallowed
        · exact ih hrecs hrest' hn.2 hk' r' hr'
      · exact ih hrecs hrest' hn.2 hk' r' hr'
    rw [vetPeers] at h ⊢
    cases hc : r.country with
    | some c =>
      simp only [hc] at h ⊢
      refine hhead t (some c) hrest ?_ kept h
      intro hallowed
      rw [PeerTable.countryOf_row t hr, hc]
      exact hallowed
    | none =>
      simp only [hc] at h ⊢
      cases hg : up.geo r with
      | unavailable => rw [hg] at h; cases h
      | resolved country =>
        simp only [hg] at h ⊢
        cases country with
        | none =>
          refine hhead t none hrest ?_ kept h
          intro hallowed
          rw [PeerTable.countryOf_row t hr, hc]
          exact hallowed
        | some c =>
          have hworks := hrec r (List.mem_cons_self ..) hc c hg
          simp only [hworks, if_true] at h ⊢
          refine hhead (t.setCountry r.peerId c) (some c) ?_ ?_ kept h
          · intro r' hr'
            refine P2pnas.Lib.Tables.mem_update.mpr ⟨r', hrest r' hr', .inr ⟨?_, rfl⟩⟩
            have hne : r'.peerId ≠ r.peerId := fun heq =>
              hn.1 (heq ▸ List.mem_map_of_mem (f := PeerRow.peerId) hr')
            simp [hne]
          · intro hallowed
            rw [PeerTable.countryOf_setCountry_same t hr c]
            exact hallowed

/-- With a list in force, every shard of a distribution goes to a peer with an allowed country
on record. -/
theorem distributeShards_allowed {sc : Scores} {zoneOfAddr : Text → Option Text} {me : Text}
    {allow : List Text} {t : PeerTable} {up : Upload} (hrec : RecordsCountries up t.rows) {m : Sent}
    (h : m ∈ (distributeShards sc zoneOfAddr me allow t up).sent) :
    jurisdictionAllowed allow
      ((distributeShards sc zoneOfAddr me allow t up).table.countryOf m.peerId) = true := by
  by_cases hempty : allow.isEmpty = true
  · simp only [jurisdictionAllowed, hempty, Bool.true_or]
  · set rows := (t.others up.readsPeers me).filter fun r => r.status ≠ DOWN with hrows
    have hsub : rows.Sublist t.rows := by
      rw [hrows, PeerTable.others]
      split
      · exact List.filter_sublist.trans List.filter_sublist
      · exact List.nil_sublist _
    have hn : (rows.map PeerRow.peerId).Nodup := t.unique.sublist (hsub.map _)
    simp only [distributeShards, hempty, ← hrows, if_false, Bool.false_eq_true] at h ⊢
    cases hv : (vetPeers allow up rows t).1 with
    | none => rw [hv] at h; cases h
    | some kept =>
      have hall := vetPeers_allowed (fun r hr => hrec r (hsub.subset hr))
        (fun r hr => hsub.subset hr) hn hv
      simp only [hv] at h ⊢
      split at h
      · cases h
      · cases hp : up.plan with
        | none => rw [hp] at h; cases h
        | some plan =>
          simp only [hp] at h ⊢
          obtain ⟨tr, htr, hm⟩ := List.mem_flatMap.mp h
          obtain ⟨pl, _, hpl⟩ := List.mem_filterMap.mp htr
          obtain ⟨data, _, rfl⟩ := Option.map_eq_some_iff.mp hpl
          obtain ⟨r, hr, hid⟩ := tryPeers_mem hm
          obtain ⟨rm, hrm, rfl⟩ := List.mem_map.mp hr
          rw [hid]
          split
          · exact hall _ (livePeers_mem hrm)
          · exact hall _ (livePeers_mem hrm)

end P2pnas.Node.Placement
