import P2pnas.Dht.Overlay

/-!
# Who announced a TCP port (`dht.rs:283-337`, `508-572`, `696-767`)

`mark_verified` proves a UDP address and with it every entry at that address, also one that a
third party relayed with a TCP port of its own choice. The node that owns the address may
never have announced that port. Where every entry at a proved address names a port its owner
announced, or is rewritten by the very datagram that proves it, all contact data that is given
away is self-announced.
-/

namespace P2pnas.Dht.Provenance
open P2pnas.Lib.Runs P2pnas.Dht.Table P2pnas.Dht.Overlay

variable (cfg : Config)

/-- The owner of the address said in a datagram from it that this is its port. -/
def Announced (st : Overlay) (addr : SocketAddr) (port : UInt16) : Prop :=
  ∃ r ∈ st.received, r.src = addr ∧ r.msg.sender.2 = port

instance (st : Overlay) (addr : SocketAddr) (port : UInt16) : Decidable (Announced st addr port) :=
  inferInstanceAs (Decidable (∃ r ∈ st.received, r.src = addr ∧ r.msg.sender.2 = port))

/-- What is given away was announced by the address it is given away for. -/
structure SelfAnnounced (st : Overlay) : Prop where
  listed : ∀ n ∈ listed cfg true st, Announced st n.udp n.p2pPort
  exported : ∀ n ∈ exported cfg st, Announced st n.udp n.p2pPort

/-- An answer that proves an address finds there only ports announced from it, by this datagram
or by an earlier one. -/
def Vouched (st : Overlay) : Event → Prop
  | .datagram msg src c => cfg.policy.acceptsIp src.ip = true → solicited msg src c.now st = true →
      ∀ n ∈ st.table.all, n.udp = src → Announced st src n.p2pPort ∨ n.p2pPort = msg.sender.2
  | _ => True

/-! ### Inside one datagram -/

/-- `handle` up to its first learning: `mark_verified` has given the table back. -/
def proved (msg : DhtMsg) (src : SocketAddr) (c : Clock) (st : Overlay) : Overlay :=
  let r := if msg.isAnswer then st.sources.takePending src c.now else (st.sources, false)
  let st := { st with sources := r.1 }
  if r.2 then { st with table := st.table.markVerified src c.marked } else st

/-- The records absorbed so far. -/
def absorbed (now : Instant) (recs : List NodeRec) (st : Overlay) : Overlay :=
  recs.foldl (fun st r => match relayed cfg now r with
    | some node => (learn cfg node st).1
    | none => st) st

/-- The states in which another task can find the table while an event is handled. Every other
call holds the table throughout, or only sends. -/
def glimpses (st : Overlay) : Event → List Overlay
  | .datagram msg src c =>
    let st := hear ⟨msg, src, c.now, c.marked⟩ st
    if !cfg.policy.acceptsIp src.ip then [st]
    else st :: proved msg src c st ::
      (recordsOf msg).inits.map fun recs => absorbed cfg c.now recs (sight cfg msg src c st)
  | _ => []

section
variable {cfg}

structure Sourced (st : Overlay) : Prop where
  filed : st.table.Filed
  entries : ∀ n ∈ st.table.all, n.verified = true → Announced st n.udp n.p2pPort

theorem Sourced.selfAnnounced {st : Overlay} (h : Sourced st) : SelfAnnounced cfg st := by
  refine ⟨fun n hn => ?_, fun n hn => ?_⟩
  · obtain ⟨hmem, hver⟩ := List.mem_filter.mp (List.mem_filter.mp hn).1
    exact h.entries n hmem hver
  · obtain ⟨hmem, hver⟩ := List.mem_filter.mp (List.mem_of_mem_take hn)
    rw [Bool.and_eq_true] at hver
    exact h.entries n hmem hver.1

/-- The acts that prove no address. -/
def ProvesNone : Act → Prop
  | .mark .. => False
  | .learn node | .insert node => node.verified = false
  | _ => True

theorem refreshed_unproved {node : Node} (h : node.verified = false) (e : Node) :
    RoutingTable.refreshed e node = { e with lastSeen := node.lastSeen } := by
  unfold RoutingTable.refreshed
  rw [h, if_neg Bool.false_ne_true]

/-- Learning keeps it where a node comes as verified with a port of its own only. -/
theorem learn_sourced {node : Node} {st : Overlay} (h : Sourced st)
    (hnode : node.verified = true → Announced st node.udp node.p2pPort) :
    Sourced (learn cfg node st).1 := by
  refine ⟨@act_filed cfg (.learn node) st h.filed, fun n hn hver => ?_⟩
  unfold Announced
  rw [(learn_logs node st).1]
  change Announced st n.udp n.p2pPort
  rcases mem_learn hn with hn | ⟨-, rfl | ⟨e, he, -, rfl⟩⟩
  · exact h.entries n hn hver
  · exact hnode hver
  · cases hv : node.verified with
    | false =>
      rw [refreshed_unproved hv] at hver ⊢
      exact h.entries e he hver
    | true =>
      rw [RoutingTable.refreshed, if_pos hv]
      exact hnode hv

theorem act_sourced (a : Act) (st : Overlay) (ha : ProvesNone a) (h : Sourced st) :
    Sourced (a.run cfg st) := by
  cases a with
  | take src now | allowPing addr now => exact ⟨h.filed, h.entries⟩
  | mark src now => exact absurd ha id
  | learn node => exact learn_sourced h fun hv => absurd (ha.symm.trans hv) Bool.false_ne_true
  | insert node =>
    refine ⟨@act_filed cfg (.insert node) st h.filed, fun n hn hver => ?_⟩
    rcases RoutingTable.mem_add hn with hn | rfl | ⟨e, he, -, rfl⟩
    · exact h.entries n hn hver
    · rw [show n.verified = false from ha] at hver
      cases hver
    · rw [refreshed_unproved ha] at hver ⊢
      exact h.entries e he hver
  | send msg addr now =>
    change Sourced (Overlay.send cfg msg addr now st)
    rcases @send_cases cfg msg addr now st with heq | ⟨-, heq⟩
    · rw [heq]
      exact h
    · rw [heq]
      exact ⟨h.filed, h.entries⟩

theorem proved_sourced {msg : DhtMsg} {src : SocketAddr} {c : Clock} {st : Overlay} (h : Sourced st)
    (hvouched : solicited msg src c.now st = true → ∀ n ∈ st.table.all, n.udp = src →
      Announced st src n.p2pPort) : Sourced (proved msg src c st) := by
  unfold proved
  cases ha : msg.isAnswer with
  | false => exact ⟨h.filed, h.entries⟩
  | true =>
    have hs : (st.sources.takePending src c.now).2 = solicited msg src c.now st := by
      rw [solicited, ha, Bool.true_and, SourceState.takePending]
    simp only [if_true, hs]
    split
    · next hsol =>
      refine ⟨h.filed.markVerified src c.marked, fun n hn hver => ?_⟩
      obtain ⟨e, he, rfl⟩ := RoutingTable.mem_markVerified.mp hn
      change Announced st _ _
      unfold RoutingTable.marked at hver ⊢
      split
      · next hsrc => exact hsrc ▸ hvouched hsol e he hsrc
      · next hsrc =>
        rw [if_neg hsrc] at hver
        exact h.entries e he hver
    · exact ⟨h.filed, h.entries⟩

theorem proved_received (msg : DhtMsg) (src : SocketAddr) (c : Clock) (st : Overlay) :
    (proved msg src c st).received = st.received := by
  unfold proved
  cases msg.isAnswer with
  | false => rfl
  | true =>
    simp only [if_true]
    split
    · rfl
    · rfl

/-- What follows `proved`: the sender is learned. -/
theorem sight_eq (msg : DhtMsg) (src : SocketAddr) (c : Clock) (st : Overlay) :
    sight cfg msg src c st = match unhex msg.sender.1 with
      | some id => (learn cfg ⟨id, src, msg.sender.2, solicited msg src c.now st, c.now⟩
          (proved msg src c st)).1
      | none => proved msg src c st := by
  unfold sight proved solicited SourceState.takePending
  cases msg.isAnswer with
  | false => rfl
  | true => rfl

theorem sight_sourced {msg : DhtMsg} {src : SocketAddr} {c : Clock} {st : Overlay}
    (hown : Announced st src msg.sender.2) (h : Sourced (proved msg src c st)) :
    Sourced (sight cfg msg src c st) := by
  rw [sight_eq]
  cases unhex msg.sender.1 with
  | none => exact h
  | some id =>
    refine learn_sourced h fun _ => ?_
    unfold Announced
    rw [proved_received]
    exact hown

theorem hear_sourced {r : Received} {st : Overlay} (h : Sourced st) : Sourced (hear r st) := by
  refine ⟨h.filed, fun n hn hver => ?_⟩
  obtain ⟨r', hr, hsrc, hport⟩ := h.entries n hn hver
  exact ⟨r', List.mem_cons_of_mem _ hr, hsrc, hport⟩

/-- The states of a datagram, from its arrival to the learning of its sender. -/
theorem datagram_sourced {msg : DhtMsg} {src : SocketAddr} {c : Clock} {st : Overlay} (h : Sourced st)
    (he : Vouched cfg st (.datagram msg src c)) (hip : cfg.policy.acceptsIp src.ip = true) :
    Sourced (proved msg src c (hear ⟨msg, src, c.now, c.marked⟩ st)) ∧
      Sourced (sight cfg msg src c (hear ⟨msg, src, c.now, c.marked⟩ st)) := by
  have hown : Announced (hear ⟨msg, src, c.now, c.marked⟩ st) src msg.sender.2 :=
    ⟨_, List.mem_cons_self .., rfl, rfl⟩
  have hproved : Sourced (proved msg src c (hear ⟨msg, src, c.now, c.marked⟩ st)) := by
    refine proved_sourced (hear_sourced h) fun hsol n hn hsrc => ?_
    rcases he hip hsol n hn hsrc with ⟨r, hr, hrs, hport⟩ | heq
    · exact ⟨r, List.mem_cons_of_mem _ hr, hrs, hport⟩
    · exact heq ▸ hown
  exact ⟨hproved, sight_sourced hown hproved⟩

theorem relayed_unproved {now : Instant} {r : NodeRec} {node : Node} (h : relayed cfg now r = some node) :
    node.verified = false := by
  unfold relayed at h
  split at h
  · cases h
    rfl
  · cases h

theorem absorbed_sourced {now : Instant} (recs : List NodeRec) {st : Overlay} (h : Sourced st) :
    Sourced (absorbed cfg now recs st) := by
  refine @foldl_keeps cfg Sourced ProvesNone act_sourced _ _ _ (fun r _ st' _ => ?_) _ h
  cases hn : relayed cfg now r with
  | none => exact .inl rfl
  | some node => exact .inr ⟨.learn node, relayed_unproved hn, rfl⟩

theorem step_sourced (st : Overlay) (e : Event) (h : Sourced st) (he : Vouched cfg st e) :
    Sourced (step cfg st e) := by
  cases e with
  | datagram msg src c =>
    change Sourced (handle cfg msg src c st)
    unfold handle
    dsimp only
    cases hip : cfg.policy.acceptsIp src.ip with
    | false => exact hear_sourced h
    | true =>
      apply reply_keeps act_sourced (datagram_sourced h he hip).2
      refine ⟨trivial, fun _ _ _ _ => trivial, trivial, trivial, fun node hnode => ?_⟩
      obtain ⟨r, _, hr⟩ := List.mem_filterMap.mp hnode
      exact relayed_unproved hr
  | importNodes snapshot now =>
    exact importNodes_keeps act_sourced h fun _ _ _ _ _ _ _ _ _ => rfl
  | bootstrap hosts clock => exact bootstrap_keeps act_sourced h fun _ _ => trivial
  | refresh clock =>
    exact refresh_keeps act_sourced h (fun _ _ _ _ => trivial) (fun _ _ _ => trivial)
      fun _ _ _ => trivial

theorem glimpses_sourced {st : Overlay} {e : Event} (h : Sourced st) (he : Vouched cfg st e) :
    ∀ st' ∈ glimpses cfg st e, Sourced st' := by
  intro st' hst'
  cases e with
  | datagram msg src c =>
    unfold glimpses at hst'
    dsimp only at hst'
    cases hip : cfg.policy.acceptsIp src.ip with
    | false =>
      rw [hip] at hst'
      cases List.mem_singleton.mp hst'
      exact hear_sourced h
    | true =>
      rw [hip] at hst'
      obtain ⟨hproved, hsight⟩ := datagram_sourced h he hip
      rcases List.mem_cons.mp hst' with rfl | hst'
      · exact hear_sourced h
      rcases List.mem_cons.mp hst' with rfl | hst'
      · exact hproved
      · obtain ⟨recs, -, rfl⟩ := List.mem_map.mp hst'
        exact absorbed_sourced recs hsight
  | _ => cases hst'

theorem start_sourced : Sourced (start cfg) := by
  refine ⟨RoutingTable.Filed.new cfg.selfId, fun n hn => ?_⟩
  obtain ⟨b, hb, hn⟩ := RoutingTable.mem_all.mp hn
  rw [(List.mem_replicate.mp hb).2] at hn
  cases hn

end

/-- Where every proof of an address finds only vouched entries there, all contact data given
away is self-announced, between the events and in the midst of each. -/
theorem run_selfAnnounced (es : List Event) (h : AllMeet (step cfg) (Vouched cfg) (start cfg) es) :
    SelfAnnounced cfg (run (step cfg) (start cfg) es) ∧
      ∀ before e after, es = before ++ e :: after →
        ∀ st ∈ glimpses cfg (run (step cfg) (start cfg) before) e, SelfAnnounced cfg st := by
  refine ⟨(run_invariant step_sourced start_sourced h).selfAnnounced, ?_⟩
  rintro before e after rfl st hst
  have hmet : AllMeet (step cfg) (Vouched cfg) (start cfg) before := allMeet_prefix h
  have hbefore : Sourced (run (step cfg) (start cfg) before) :=
    run_invariant step_sourced start_sourced hmet
  exact (glimpses_sourced hbefore (allMeet_middle h) st hst).selfAnnounced

/-- A stranger relays host 7 with a TCP port; the refresh asks the host, which answers. -/
def relayedThenAsked (relayedPort : UInt16) (answer : DhtMsg) : List Event :=
  [.datagram (.nodes (hex (idOf 1 0)) 7000 [⟨hex (idOf 2 0), "57.129.12.7".toList, 7001, relayedPort⟩])
      (hostAt 66 7001) (.at 0),
    .refresh fun _ => 1, .datagram answer (hostAt 7 7001) (.at 2)]

theorem honestRelay_selfAnnounced :
    (listed sampleConfig true (run (step sampleConfig) (start sampleConfig)
      (relayedThenAsked 7000 (.pong (hex (idOf 2 0)) 7000)))).length = 1 ∧
    SelfAnnounced sampleConfig (run (step sampleConfig) (start sampleConfig)
      (relayedThenAsked 7000 (.pong (hex (idOf 2 0)) 7000))) := by
  refine ⟨by decide +kernel, (run_selfAnnounced sampleConfig
    (relayedThenAsked 7000 (.pong (hex (idOf 2 0)) 7000)) ⟨fun _ hsol => ?_, trivial, fun _ _ => ?_,
    trivial⟩).1⟩
  · have hno : solicited (.nodes (hex (idOf 1 0)) 7000 [⟨hex (idOf 2 0), "57.129.12.7".toList, 7001, 7000⟩])
        (hostAt 66 7001) 0 (start sampleConfig) = false := by decide +kernel
    exact absurd (hno.symm.trans hsol) (by decide)
  · have hport : ∀ n ∈ (run (step sampleConfig) (start sampleConfig)
        ((relayedThenAsked 7000 (.pong (hex (idOf 2 0)) 7000)).take 2)).table.all,
        n.udp = hostAt 7 7001 → n.p2pPort = 7000 := by decide +kernel
    exact fun n hn hudp => .inr (hport n hn hudp)

/-- The relayed port is another one and the host answers under its own id: the port that it
never announced is given away. -/
theorem strangePort_listed :
    ¬ SelfAnnounced sampleConfig (run (step sampleConfig) (start sampleConfig)
      (relayedThenAsked 2222 (.pong (hex (idOf 3 0)) 7000))) := by
  intro h
  have hlisted : ¬ ∀ n ∈ listed sampleConfig true (run (step sampleConfig) (start sampleConfig)
      (relayedThenAsked 2222 (.pong (hex (idOf 3 0)) 7000))),
      Announced (run (step sampleConfig) (start sampleConfig)
        (relayedThenAsked 2222 (.pong (hex (idOf 3 0)) 7000))) n.udp n.p2pPort := by decide +kernel
  exact hlisted h.listed

end P2pnas.Dht.Provenance
