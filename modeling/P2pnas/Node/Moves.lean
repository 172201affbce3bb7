import P2pnas.Node.Rebalance

/-!
# Moving one shard (`handlers/files.rs:403-435`, `rebalance.rs:154-178`, `repair.rs:607-667`)

The state is one shard: its row in the manifest, the copy in this node's store and what the hosts
keep, by address. Every step of a move meets an outcome of its own. A request that is not
acknowledged may have been carried out all the same; an acknowledged shard stays where it is until
a delete arrives there.
-/

namespace P2pnas.Node.Moves
open P2pnas.Lib.Frames P2pnas.Lib.Strings P2pnas.Core.Base P2pnas.Core.Sample
open P2pnas.Store.Manifest P2pnas.Store.Service P2pnas.Store.Session P2pnas.Node.Peers
open P2pnas.Node.Placement P2pnas.Node.Repair

structure Shard where
  row : ShardRow
  here : Option Bytes
  hosts : Text → Option Bytes

/-- What a request came to: acknowledged, carried out with its answer lost, or neither. -/
inductive Reply where
  | acked
  | carriedOut
  | failed
  deriving DecidableEq, Repr

/-- The copy at a location, the addresses of the peers being those of the map. -/
def Shard.at (s : Shard) (addrOf : PeerMap Text) (location : Text) : Option Bytes :=
  if location = LOCAL then s.here else (addrOf.lookup location).bind s.hosts

/-- The address of every peer of the table. -/
def addrs (t : PeerTable) : PeerMap Text := reachableOf t.rows fun _ => true

/-- The recorded location holds the bytes. -/
def Held (t : PeerTable) (s : Shard) (bytes : Bytes) : Prop := s.at (addrs t) s.row.location = some bytes

instance (t : PeerTable) (s : Shard) (bytes : Bytes) : Decidable (Held t s bytes) :=
  inferInstanceAs (Decidable (_ = _))

/-! ### The steps -/

def Shard.put (s : Shard) (addr : Text) (copy : Option Bytes) : Shard :=
  { s with hosts := fun a => if a = addr then copy else s.hosts a }

/-- `StoreShard` to an address. -/
def Shard.send (s : Shard) (reply : Reply) (addr : Text) (bytes : Bytes) : Shard :=
  if reply = .failed then s else s.put addr (some bytes)

/-- `set_location`. -/
def Shard.setLocation (s : Shard) (works : Bool) (location : Text) : Shard :=
  if works then { s with row := { s.row with location := location } } else s

/-- `store.delete`. -/
def Shard.delete (s : Shard) (works : Bool) : Shard := if works then { s with here := none } else s

/-! ### The task of `distribute_shards` -/

structure Handoff where
  reads : Bool
  store : ℕ → Reply
  records : Bool
  deletes : Bool

def Handoff.acks (o : Handoff) (off : ℕ) : Bool := o.store off = .acked

/-- The loop over the primary peer and the next ones. -/
def offer (peers : List PeerRow) (pl : Planned) (o : Handoff) (bytes : Bytes) : List ℕ → Shard → Shard
  | [], s => s
  | off :: offs, s =>
    match peers[(pl.primary + off) % peers.length]? with
    | none => s
    | some r =>
      let s' := s.send (o.store off) r.addr bytes
      if o.acks off then (s'.setLocation o.records r.peerId).delete o.deletes
      else offer peers pl o bytes offs s'

/-- The shard as it was planned. -/
def Shard.planned (s : Shard) (primary : ℕ) : Planned := ⟨s.row.fragmentId, primary, s.row.shardIndex⟩

def offsets (peers : List PeerRow) : List ℕ := List.range (min peers.length 3)

def handOff (peers : List PeerRow) (primary : ℕ) (o : Handoff) (s : Shard) : Shard :=
  match if o.reads then s.here else none with
  | none => s
  | some bytes => offer peers (s.planned primary) o bytes (offsets peers) s

/-- The peer that acknowledges the shard. -/
def acceptor (peers : List PeerRow) (pl : Planned) (o : Handoff) (bytes : Bytes) (offs : List ℕ) : Option Text :=
  (tryPeers peers o.acks pl bytes offs).2

/-- The addresses that come to hold what is sent. -/
def overwritten (peers : List PeerRow) (pl : Planned) (o : Handoff) : List ℕ → List Text
  | [] => []
  | off :: offs =>
    match peers[(pl.primary + off) % peers.length]? with
    | none => []
    | some r => (if o.store off = .failed then [] else [r.addr]) ++
        if o.acks off then [] else overwritten peers pl o offs

/-! ### `move_shard` of the rebalance -/

structure Relocation where
  fetches : Bool
  place : Reply
  writes : Event
  records : Bool
  drops : Bool

section
variable {K : Type} (P : Prims K)

/-- `fetch_shard` and the second look at the hash. -/
def fetched (reachable : PeerMap Text) (o : Relocation) (s : Shard) : Option Bytes :=
  (fetchShard P s.row (if o.fetches then s.at reachable s.row.location else none)).filter
    fun bytes => s.row.hash.isEmpty || shardHash P bytes = s.row.hash

/-- `place_shard`. -/
def placeShard (reachable : PeerMap Text) (dest : Text) (o : Relocation) (bytes : Bytes) (s : Shard) :
    Shard × Bool :=
  if dest = LOCAL then
    match o.writes with
    | .works => ({ s with here := some bytes }, true)
    | .fails none => (s, false)
    | .fails (some n) => ({ s with here := some (bytes.take n) }, false)
  else match reachable.lookup dest with
    | none => (s, false)
    | some addr => (s.send o.place addr bytes, o.place = .acked)

/-- `drop_shard`. -/
def dropShard (reachable : PeerMap Text) (location : Text) (o : Relocation) (s : Shard) : Shard :=
  if location = LOCAL then s.delete o.drops
  else match reachable.lookup location with
    | none => s
    | some addr => if o.drops then s.put addr none else s

/-- `move_shard`. -/
def moveShard (reachable : PeerMap Text) (dest : Text) (o : Relocation) (s : Shard) : Shard × Bool :=
  if s.row.location = dest then (s, false)
  else match fetched P reachable o s with
    | none => (s, false)
    | some bytes =>
      let p := placeShard reachable dest o bytes s
      if !p.2 then (p.1, false)
      else (dropShard reachable s.row.location o (p.1.setLocation o.records dest), true)

/-- The destination took the shard. -/
def placed (reachable : PeerMap Text) (dest : Text) (o : Relocation) : Bool :=
  if dest = LOCAL then o.writes = .works else (reachable.lookup dest).isSome && o.place = .acked

/-! ### Both tasks -/

/-- A task with what its steps come to. The peers are rows of the table that were vetted and
answered a probe. -/
inductive Task where
  | distribute (vetted : PeerRow → Bool) (rtt : PeerRow → Option ℤ) (primary : ℕ) (o : Handoff)
  | rebalance (answers : PeerRow → Bool) (dest : Text) (o : Relocation)

/-- The peers of a distribution, near to far. -/
def peersOf (t : PeerTable) (vetted : PeerRow → Bool) (rtt : PeerRow → Option ℤ) : List PeerRow :=
  (livePeers rtt (t.rows.filter vetted)).map Prod.fst

def Task.run (t : PeerTable) : Task → Shard → Shard
  | .distribute vetted rtt primary o, s => handOff (peersOf t vetted rtt) primary o s
  | .rebalance answers dest o, s => (moveShard P (reachableOf t.rows answers) dest o s).1

/-- Where the manifest says the shard is once a peer has taken it, or nobody has. -/
def Handoff.location (o : Handoff) (s : Shard) (taken : Option Text) : Text :=
  if o.records then taken.getD s.row.location else s.row.location

/-- The local copy is deleted only when the manifest points elsewhere, and other bytes that this
node has under the shard's id do not reach the location the manifest points to. -/
def Handoff.Keeps (t : PeerTable) (peers : List PeerRow) (primary : ℕ) (o : Handoff) (s : Shard) (bytes : Bytes) : Prop :=
  ∀ data, o.reads = true → s.here = some data →
    let taken := acceptor peers (s.planned primary) o data (offsets peers)
    let location := o.location s taken
    (location = LOCAL → ¬ (taken.isSome ∧ o.deletes = true)) ∧
      (data = bytes ∨ location ≠ LOCAL ∧
        ∀ a ∈ (addrs t).lookup location, a ∉ overwritten peers (s.planned primary) o (offsets peers))

/-- The old copy is dropped only when the move is recorded and the new copy is not at the same
address. -/
def Relocation.Keeps (reachable : PeerMap Text) (dest : Text) (o : Relocation) (s : Shard) : Prop :=
  s.row.location ≠ dest → (fetched P reachable o s).isSome → placed reachable dest o = true → o.drops = true →
    o.records = true ∧ (s.row.location = LOCAL ∨ dest = LOCAL ∨
      reachable.lookup dest ≠ reachable.lookup s.row.location)

def Task.Keeps (t : PeerTable) (s : Shard) (bytes : Bytes) : Task → Prop
  | .distribute vetted rtt primary o => o.Keeps t (peersOf t vetted rtt) primary s bytes
  | .rebalance answers dest o => o.Keeps P (reachableOf t.rows answers) dest s

end

/-! ### Addresses -/

theorem reachableOf_lookup {rows : List PeerRow} {answers : PeerRow → Bool}
    (hn : (rows.map PeerRow.peerId).Nodup) {r : PeerRow} (hr : r ∈ rows) (ha : answers r = true) :
    (reachableOf rows answers).lookup r.peerId = some r.addr := by
  induction rows with
  | nil => cases hr
  | cons x rows ih =>
    rw [List.map_cons, List.nodup_cons] at hn
    rcases List.mem_cons.mp hr with rfl | hr
    · simp only [reachableOf, List.filter_cons, ha, if_true, List.map_cons, List.lookup_cons_self]
    · have hne : r.peerId ≠ x.peerId := by
        intro he
        exact hn.1 (List.mem_map.mpr ⟨r, hr, he⟩)
      have hrest := ih hn.2 hr
      cases hx : answers x with
      | true =>
        simp only [reachableOf, List.filter_cons, hx, if_true, List.map_cons, List.lookup_cons,
          beq_eq_false_iff_ne.mpr hne]
        exact hrest
      | false =>
        simp only [reachableOf, List.filter_cons, hx, Bool.false_eq_true, if_false]
        exact hrest

theorem reachableOf_row {rows : List PeerRow} {answers : PeerRow → Bool} {id addr : Text}
    (h : (reachableOf rows answers).lookup id = some addr) : ∃ r ∈ rows, r.peerId = id ∧ r.addr = addr := by
  obtain ⟨_, _, heq, _⟩ := List.lookup_eq_some_iff.mp h
  have hmem : (id, addr) ∈ reachableOf rows answers := by
    rw [heq]
    simp
  obtain ⟨r, hr, hpair⟩ := List.mem_map.mp hmem
  exact ⟨r, (List.mem_filter.mp hr).1, congrArg Prod.fst hpair, congrArg Prod.snd hpair⟩

section
variable {t : PeerTable}

theorem addrs_row {r : PeerRow} (hr : r ∈ t.rows) : (addrs t).lookup r.peerId = some r.addr :=
  reachableOf_lookup t.unique hr rfl

/-- A peer that answers is reached at the address of the table. -/
theorem addrs_reachable {answers : PeerRow → Bool} {id addr : Text}
    (h : (reachableOf t.rows answers).lookup id = some addr) : (addrs t).lookup id = some addr := by
  obtain ⟨r, hr, rfl, rfl⟩ := reachableOf_row h
  exact addrs_row hr

theorem peersOf_mem {vetted : PeerRow → Bool} {rtt : PeerRow → Option ℤ} {r : PeerRow}
    (h : r ∈ peersOf t vetted rtt) : r ∈ t.rows := by
  obtain ⟨rm, hrm, rfl⟩ := List.mem_map.mp h
  exact (List.mem_filter.mp (livePeers_mem hrm)).1

end

/-! ### The loop over the peers -/

section
variable {peers : List PeerRow} {pl : Planned} {o : Handoff} {bytes : Bytes}

@[simp] theorem send_row (s : Shard) (reply : Reply) (addr : Text) (b : Bytes) :
    (s.send reply addr b).row = s.row := by
  unfold Shard.send
  split
  · rfl
  · rfl

@[simp] theorem send_here (s : Shard) (reply : Reply) (addr : Text) (b : Bytes) :
    (s.send reply addr b).here = s.here := by
  unfold Shard.send
  split
  · rfl
  · rfl

theorem send_hosts (s : Shard) (reply : Reply) (addr : Text) (b : Bytes) (a : Text) :
    (s.send reply addr b).hosts a =
      if reply ≠ .failed ∧ a = addr then some b else s.hosts a := by
  unfold Shard.send
  by_cases hr : reply = .failed
  · rw [if_pos hr, if_neg fun h => h.1 hr]
  · rw [if_neg hr]
    by_cases ha : a = addr
    · rw [if_pos ⟨hr, ha⟩]
      exact if_pos ha
    · rw [if_neg fun h => ha h.2]
      exact if_neg ha

@[simp] theorem setLocation_here (s : Shard) (w : Bool) (l : Text) : (s.setLocation w l).here = s.here := by
  cases w <;> rfl

@[simp] theorem setLocation_hosts (s : Shard) (w : Bool) (l : Text) : (s.setLocation w l).hosts = s.hosts := by
  cases w <;> rfl

@[simp] theorem setLocation_location (s : Shard) (w : Bool) (l : Text) :
    (s.setLocation w l).row.location = if w then l else s.row.location := by
  cases w <;> rfl

@[simp] theorem delete_row (s : Shard) (w : Bool) : (s.delete w).row = s.row := by
  cases w <;> rfl

@[simp] theorem delete_hosts (s : Shard) (w : Bool) : (s.delete w).hosts = s.hosts := by
  cases w <;> rfl

@[simp] theorem delete_here (s : Shard) (w : Bool) : (s.delete w).here = if w then none else s.here := by
  cases w <;> rfl

theorem acked_of_acks {off : ℕ} (h : o.acks off = true) : o.store off = .acked := of_decide_eq_true h

theorem acceptor_cons (off : ℕ) (offs : List ℕ) :
    acceptor peers pl o bytes (off :: offs) =
      match peers[(pl.primary + off) % peers.length]? with
      | none => none
      | some r => if o.acks off then some r.peerId else acceptor peers pl o bytes offs := by
  unfold acceptor
  rw [tryPeers]
  cases peers[(pl.primary + off) % peers.length]? with
  | none => rfl
  | some r =>
    cases hack : o.acks off with
    | true => simp only [if_true]
    | false => simp only [Bool.false_eq_true, if_false]

@[simp] theorem location_none (s : Shard) : o.location s none = s.row.location := by
  unfold Handoff.location
  split
  · rfl
  · rfl

/-- The loop records the peer that acknowledges, and only then deletes the local copy. -/
theorem offer_cases (offs : List ℕ) (s : Shard) :
    (offer peers pl o bytes offs s).row.location = o.location s (acceptor peers pl o bytes offs) ∧
    (offer peers pl o bytes offs s).here =
      (if (acceptor peers pl o bytes offs).isSome ∧ o.deletes = true then none else s.here) ∧
    ∀ a, (offer peers pl o bytes offs s).hosts a =
      if a ∈ overwritten peers pl o offs then some bytes else s.hosts a := by
  induction offs generalizing s with
  | nil => exact ⟨(location_none s).symm, rfl, fun a => rfl⟩
  | cons off offs ih =>
    rw [acceptor_cons]
    unfold offer overwritten
    cases hr : peers[(pl.primary + off) % peers.length]? with
    | none => exact ⟨(location_none s).symm, rfl, fun a => rfl⟩
    | some r =>
      cases hack : o.acks off with
      | true =>
        have hreply : o.store off = .acked := acked_of_acks hack
        simp only [if_true, delete_row, setLocation_location, send_row, delete_here, setLocation_here,
          send_here, delete_hosts, setLocation_hosts, send_hosts, hreply]
        refine ⟨rfl, ?_, fun a => ?_⟩
        · cases o.deletes <;> rfl
        · simp
      | false =>
        obtain ⟨hloc, hhere, hhosts⟩ := ih (s.send (o.store off) r.addr bytes)
        simp only [Bool.false_eq_true, if_false]
        refine ⟨?_, ?_, fun a => ?_⟩
        · rw [hloc]
          unfold Handoff.location
          rw [send_row]
        · rw [hhere, send_here]
        · rw [hhosts, send_hosts]
          by_cases ha : a ∈ overwritten peers pl o offs
          · rw [if_pos ha, if_pos (List.mem_append_right _ ha)]
          · rw [if_neg ha]
            by_cases hf : o.store off = .failed
            · simp [hf, ha]
            · simp [hf, ha]

/-- The peer that acknowledged is a row whose host got the bytes. -/
theorem acceptor_some {offs : List ℕ} {id : Text} (h : acceptor peers pl o bytes offs = some id) :
    ∃ r ∈ peers, r.peerId = id ∧ r.addr ∈ overwritten peers pl o offs := by
  induction offs with
  | nil => cases h
  | cons off offs ih =>
    rw [acceptor_cons] at h
    unfold overwritten
    cases hr : peers[(pl.primary + off) % peers.length]? with
    | none =>
      rw [hr] at h
      cases h
    | some r =>
      rw [hr] at h
      cases hack : o.acks off with
      | true =>
        simp only [hack, if_true, Option.some.injEq] at h
        refine ⟨r, List.mem_of_getElem? hr, h, ?_⟩
        rw [acked_of_acks hack]
        exact List.mem_append_left _ (List.mem_singleton.mpr rfl)
      | false =>
        simp only [hack, Bool.false_eq_true, if_false] at h
        obtain ⟨r', hr', hid, hmem⟩ := ih h
        exact ⟨r', hr', hid, List.mem_append_right _ hmem⟩

end

section
variable {K : Type} {P : Prims K} {t : PeerTable} {s : Shard} {bytes : Bytes}

theorem at_local (addrOf : PeerMap Text) : s.at addrOf LOCAL = s.here := if_pos rfl

theorem at_peer {addrOf : PeerMap Text} {location : Text} (h : location ≠ LOCAL) :
    s.at addrOf location = (addrOf.lookup location).bind s.hosts := if_neg h

/-- What is held where the manifest points to after the loop. -/
theorem offer_held_iff {peers : List PeerRow} {pl : Planned} {o : Handoff} {data : Bytes} {offs : List ℕ}
    (hs : Held t s bytes) (hdata : s.here = some data) (hpeers : ∀ r ∈ peers, r ∈ t.rows) :
    let taken := acceptor peers pl o data offs
    Held t (offer peers pl o data offs s) bytes ↔
      (o.location s taken = LOCAL → ¬ (taken.isSome ∧ o.deletes = true)) ∧
        (data = bytes ∨ o.location s taken ≠ LOCAL ∧
          ∀ a ∈ (addrs t).lookup (o.location s taken), a ∉ overwritten peers pl o offs) := by
  intro taken
  obtain ⟨hloc, hhere, hhosts⟩ := @offer_cases peers pl o data offs s
  unfold Held
  rw [hloc]
  by_cases hl : o.location s taken = LOCAL
  · -- the copy that counts is the one on this node
    rw [hl, at_local, hhere]
    change (if taken.isSome ∧ o.deletes = true then none else s.here) = some bytes ↔ _
    by_cases hdel : taken.isSome ∧ o.deletes = true
    · rw [if_pos hdel]
      simp [hdel]
    · rw [if_neg hdel, hdata]
      simp [hdel]
  · rw [at_peer hl]
    -- the recorded peer is the one that took the shard, or the one before
    have hbefore : (∀ a ∈ (addrs t).lookup (o.location s taken), a ∉ overwritten peers pl o offs) →
        o.location s taken = s.row.location := by
      intro hno
      cases htaken : taken with
      | none => exact location_none s
      | some id =>
        obtain ⟨r, hr, hid, hover⟩ := acceptor_some htaken
        unfold Handoff.location
        cases hrec : o.records with
        | false => rfl
        | true =>
          have hat : o.location s taken = r.peerId := by
            rw [htaken, hid]
            exact if_pos hrec
          rw [hat] at hno
          exact absurd hover (hno r.addr (addrs_row (hpeers r hr)))
    cases hlook : (addrs t).lookup (o.location s taken) with
    | none =>
      have hsame := hbefore (by rw [hlook]; nofun)
      unfold Held at hs
      rw [← hsame, at_peer hl, hlook] at hs
      cases hs
    | some a =>
      rw [Option.bind_some, hhosts]
      by_cases ha : a ∈ overwritten peers pl o offs
      · rw [if_pos ha, Option.some.injEq]
        simp [hl, ha]
      · rw [if_neg ha]
        have hsame := hbefore (by
          rw [hlook]
          intro x hx
          cases hx
          exact ha)
        unfold Held at hs
        rw [← hsame, at_peer hl, hlook, Option.bind_some] at hs
        simp [hl, ha, hs]

theorem handOff_keeps_iff (hs : Held t s bytes) (vetted : PeerRow → Bool) (rtt : PeerRow → Option ℤ)
    (primary : ℕ) (o : Handoff) :
    Held t (handOff (peersOf t vetted rtt) primary o s) bytes ↔
      o.Keeps t (peersOf t vetted rtt) primary s bytes := by
  set peers := peersOf t vetted rtt with hpeers
  unfold handOff
  by_cases hread : ∃ data, o.reads = true ∧ s.here = some data
  · obtain ⟨data, hreads, hdata⟩ := hread
    rw [if_pos hreads, hdata]
    dsimp only
    have hkeeps : o.Keeps t peers primary s bytes ↔
        (o.location s (acceptor peers (s.planned primary) o data (offsets peers)) = LOCAL →
          ¬ ((acceptor peers (s.planned primary) o data (offsets peers)).isSome ∧ o.deletes = true)) ∧
        (data = bytes ∨ o.location s (acceptor peers (s.planned primary) o data (offsets peers)) ≠ LOCAL ∧
          ∀ a ∈ (addrs t).lookup (o.location s (acceptor peers (s.planned primary) o data (offsets peers))),
            a ∉ overwritten peers (s.planned primary) o (offsets peers)) := by
      constructor
      · intro h
        exact h data hreads hdata
      · intro h data' _ hdata'
        cases hdata.symm.trans hdata'
        exact h
    rw [hkeeps]
    exact offer_held_iff hs hdata fun r hr => peersOf_mem hr
  · have hnone : (if o.reads then s.here else none) = none := by
      by_contra hne
      obtain ⟨data, hdata⟩ := Option.ne_none_iff_exists'.mp hne
      refine hread ⟨data, ?_⟩
      split at hdata
      · next hr => exact ⟨hr, hdata⟩
      · cases hdata
    rw [hnone]
    refine iff_of_true hs ?_
    intro data hreads hdata
    exact absurd ⟨data, hreads, hdata⟩ hread

/-! ### One relocation -/

/-- What was fetched is what the recorded location holds. -/
theorem fetched_held (hs : Held t s bytes) {answers : PeerRow → Bool} {o : Relocation} {data : Bytes}
    (h : fetched P (reachableOf t.rows answers) o s = some data) :
    data = bytes ∧ (s.row.location ≠ LOCAL →
      (reachableOf t.rows answers).lookup s.row.location = (addrs t).lookup s.row.location) := by
  unfold fetched fetchShard at h
  obtain ⟨hfetch, -⟩ := Option.filter_eq_some_iff.mp h
  obtain ⟨hread, -⟩ := Option.filter_eq_some_iff.mp hfetch
  split at hread
  · unfold Held at hs
    by_cases hl : s.row.location = LOCAL
    · rw [hl, at_local] at hs hread
      exact ⟨Option.some.inj (hread.symm.trans hs), fun hne => absurd hl hne⟩
    · rw [at_peer hl] at hs hread
      obtain ⟨addr, haddr, hhost⟩ := Option.bind_eq_some_iff.mp hread
      have htable := addrs_reachable haddr
      rw [htable, Option.bind_some, hhost] at hs
      exact ⟨Option.some.inj hs, fun _ => haddr.trans htable.symm⟩
  · cases hread

/-- A placement writes the bytes at the destination, or tears a local file. -/
theorem placeShard_cases (reachable : PeerMap Text) (dest : Text) (o : Relocation) (data : Bytes) (s : Shard) :
    (placeShard reachable dest o data s).1.row = s.row ∧
    (placeShard reachable dest o data s).2 = placed reachable dest o ∧
    (dest ≠ LOCAL → (placeShard reachable dest o data s).1.here = s.here) ∧
    (∀ a, (placeShard reachable dest o data s).1.hosts a = s.hosts a ∨
      (placeShard reachable dest o data s).1.hosts a = some data) ∧
    (placed reachable dest o = true → (placeShard reachable dest o data s).1.at reachable dest = some data) := by
  unfold placeShard placed
  by_cases hd : dest = LOCAL
  · rw [if_pos hd, if_pos hd]
    subst hd
    rcases o.writes with _ | _ | n
    · exact ⟨rfl, rfl, fun h => absurd rfl h, fun a => .inl rfl, fun _ => if_pos rfl⟩
    · exact ⟨rfl, rfl, fun h => absurd rfl h, fun a => .inl rfl, nofun⟩
    · exact ⟨rfl, rfl, fun h => absurd rfl h, fun a => .inl rfl, nofun⟩
  · rw [if_neg hd, if_neg hd]
    cases hlook : reachable.lookup dest with
    | none => exact ⟨rfl, rfl, fun _ => rfl, fun a => .inl rfl, nofun⟩
    | some addr =>
      refine ⟨send_row .., by simp, fun _ => send_here .., fun a => ?_, fun hp => ?_⟩
      · dsimp only
        rw [send_hosts]
        split
        · exact .inr rfl
        · exact .inl rfl
      · have hack : o.place = .acked := by simpa using hp
        rw [at_peer hd, hlook, Option.bind_some, send_hosts, hack]
        exact if_pos ⟨nofun, rfl⟩

/-- Two maps that agree on a peer give the same copy. -/
theorem at_congr {m m' : PeerMap Text} {location : Text}
    (h : location ≠ LOCAL → m.lookup location = m'.lookup location) : s.at m location = s.at m' location := by
  unfold Shard.at
  split
  · rfl
  · next hl => rw [h hl]

theorem lookup_placed {answers : PeerRow → Bool} {dest : Text} {o : Relocation}
    (h : placed (reachableOf t.rows answers) dest o = true) (hd : dest ≠ LOCAL) :
    (reachableOf t.rows answers).lookup dest = (addrs t).lookup dest := by
  unfold placed at h
  rw [if_neg hd, Bool.and_eq_true] at h
  obtain ⟨addr, haddr⟩ := Option.isSome_iff_exists.mp h.1
  exact haddr.trans (addrs_reachable haddr).symm

@[simp] theorem dropShard_row (reachable : PeerMap Text) (location : Text) (o : Relocation) (s : Shard) :
    (dropShard reachable location o s).row = s.row := by
  unfold dropShard
  split
  · exact delete_row ..
  · split
    · rfl
    · split
      · rfl
      · rfl

theorem dropShard_spared {reachable : PeerMap Text} {location : Text} {o : Relocation} (h : o.drops = false)
    (s : Shard) : dropShard reachable location o s = s := by
  unfold dropShard Shard.delete
  rw [h]
  split
  · rfl
  · split
    · rfl
    · rfl

/-- What the manifest points to after the drop, both copies being there before it. -/
theorem dropShard_held_iff {reachable : PeerMap Text} {dest : Text} {o : Relocation} (hdrop : o.drops = true)
    (hne : s.row.location ≠ dest) (hold : s.at reachable s.row.location = some bytes)
    (hnew : s.at reachable dest = some bytes) :
    (dropShard reachable s.row.location o (s.setLocation o.records dest)).at reachable
        (if o.records then dest else s.row.location) = some bytes ↔
      o.records = true ∧ (s.row.location = LOCAL ∨ dest = LOCAL ∨
        reachable.lookup dest ≠ reachable.lookup s.row.location) := by
  unfold dropShard
  by_cases hl : s.row.location = LOCAL
  · -- the local copy goes
    rw [if_pos hl, hl]
    have hd : dest ≠ LOCAL := fun hd => hne (hl.trans hd.symm)
    cases hrec : o.records with
    | false =>
      simp only [Bool.false_eq_true, if_false, at_local, delete_here, hdrop, if_true]
      simp
    | true =>
      simp only [if_true, at_peer hd, delete_hosts, setLocation_hosts]
      rw [at_peer hd] at hnew
      simp [hnew]
  · rw [if_neg hl]
    rw [at_peer hl] at hold
    obtain ⟨addr, haddr, -⟩ := Option.bind_eq_some_iff.mp hold
    rw [haddr]
    dsimp only
    rw [if_pos hdrop]
    cases hrec : o.records with
    | false =>
      simp only [Bool.false_eq_true, if_false, at_peer hl, haddr, Option.bind_some, Shard.put, if_true]
      simp
    | true =>
      simp only [if_true, hl, false_or, true_and]
      by_cases hd : dest = LOCAL
      · rw [hd, at_local] at hnew ⊢
        simp only [Shard.put, setLocation_here, hnew, true_or]
      · rw [at_peer hd] at hnew ⊢
        obtain ⟨addr', haddr', hhost⟩ := Option.bind_eq_some_iff.mp hnew
        simp only [haddr', Option.bind_some, Shard.put, setLocation_hosts, hd, false_or]
        by_cases heq : addr' = addr
        · simp [heq]
        · simp [heq, hhost]

theorem moveShard_keeps_iff (hs : Held t s bytes) (answers : PeerRow → Bool) (dest : Text) (o : Relocation) :
    Held t (moveShard P (reachableOf t.rows answers) dest o s).1 bytes ↔
      o.Keeps P (reachableOf t.rows answers) dest s := by
  set reachable := reachableOf t.rows answers with hreach
  unfold moveShard Relocation.Keeps
  by_cases hsame : s.row.location = dest
  · rw [if_pos hsame]
    exact iff_of_true hs fun hne => absurd hsame hne
  · rw [if_neg hsame]
    cases hf : fetched P reachable o s with
    | none => exact iff_of_true hs fun _ hsome => absurd hsome (by simp)
    | some data =>
      obtain ⟨rfl, haddr⟩ := fetched_held hs hf
      obtain ⟨hrow, hplaced, hhere, hhosts, hat⟩ := placeShard_cases reachable dest o data s
      set s₁ := (placeShard reachable dest o data s).1 with hs₁
      -- the old copy is still there when the new one is written
      have hold : s₁.at (addrs t) s₁.row.location = some data := by
        unfold Held at hs
        rw [hrow]
        by_cases hl : s.row.location = LOCAL
        · rw [hl, at_local] at hs ⊢
          rw [hhere fun hd => hsame (hl.trans hd.symm), hs]
        · rw [at_peer hl] at hs ⊢
          obtain ⟨addr, hlook, hhost⟩ := Option.bind_eq_some_iff.mp hs
          rw [hlook, Option.bind_some]
          rcases hhosts addr with h | h
          · rw [h, hhost]
          · exact h
      dsimp only
      rw [hplaced]
      cases hp : placed reachable dest o with
      | false => exact iff_of_true hold fun _ _ h => absurd h (by simp)
      | true =>
        have hnew := hat hp
        have hdest : s₁.at reachable dest = s₁.at (addrs t) dest := at_congr (lookup_placed hp)
        have hfinal : ∀ s' : Shard, s'.at (addrs t) (if o.records then dest else s.row.location) =
            s'.at reachable (if o.records then dest else s.row.location) := by
          intro s'
          split
          · exact (at_congr (lookup_placed hp)).symm
          · exact (at_congr haddr).symm
        have hwhere : (dropShard reachable s.row.location o (s₁.setLocation o.records dest)).row.location =
            if o.records then dest else s.row.location := by
          rw [dropShard_row, setLocation_location, hrow]
        simp only [Bool.not_true, Bool.false_eq_true, if_false]
        unfold Held
        rw [hwhere]
        cases hdrop : o.drops with
        | false =>
          refine iff_of_true ?_ fun _ _ _ h => absurd h (by simp)
          rw [dropShard_spared hdrop]
          unfold Shard.at
          rw [setLocation_here, setLocation_hosts]
          change s₁.at (addrs t) (if o.records then dest else s.row.location) = some data
          split
          · exact hdest.symm.trans hnew
          · rw [← hrow]
            exact hold
        | true =>
          have hold' : s₁.at reachable s₁.row.location = some data := by
            rw [hrow, at_congr haddr, ← hrow]
            exact hold
          have hne : s₁.row.location ≠ dest := by rwa [hrow]
          have hkey := dropShard_held_iff hdrop hne hold' hnew
          rw [hrow] at hkey
          rw [hfinal, hkey]
          exact ⟨fun h _ _ _ _ => h, fun h => h hsame rfl trivial rfl⟩

/-- After either task the recorded location still holds the shard exactly when no copy is dropped
that the manifest still points to. -/
theorem task_keeps_iff (task : Task) (hs : Held t s bytes) :
    Held t (task.run P t s) bytes ↔ task.Keeps P t s bytes := by
  cases task with
  | distribute vetted rtt primary o => exact handOff_keeps_iff hs vetted rtt primary o
  | rebalance answers dest o => exact moveShard_keeps_iff hs answers dest o

end

/-! ### A shard handed to one peer -/

def onePeer : PeerTable := ⟨[⟨['b'], ['x'], [], none, none, 0⟩], by decide⟩

def oneShard : Shard := ⟨⟨['f'], ['c'], 0, LOCAL, []⟩, some [1], fun _ => none⟩

/-- The peer acknowledges; the manifest is updated or not, the local copy is deleted. -/
def handed (records : Bool) : Task := .distribute (fun _ => true) (fun _ => some 1) 0 ⟨true, fun _ => .acked, records, true⟩

theorem handed_kept : Held onePeer oneShard [1] ∧ Held onePeer ((handed true).run (sample []) onePeer oneShard) [1] := by
  have hs : Held onePeer oneShard [1] := by decide +kernel
  refine ⟨hs, (task_keeps_iff (handed true) hs).mpr ?_⟩
  intro data _ hdata
  cases hdata
  exact ⟨by decide +kernel, .inl rfl⟩

/-- The update of the manifest fails and the local copy is deleted all the same. -/
theorem handed_lost :
    Held onePeer oneShard [1] ∧ ¬ Held onePeer ((handed false).run (sample []) onePeer oneShard) [1] := by
  decide +kernel

end P2pnas.Node.Moves
