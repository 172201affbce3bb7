import P2pnas.Dht.Overlay

/-!
# The addresses a node keeps and asks (`dht.rs:117-138`, `531-592`, `680-767`)

Five places filter addresses and each looks at something else: `import_nodes` at the UDP port
and the TCP port, `learn` at the TCP port only, `send` at no port. A UDP port below 1024
enters the table where a datagram comes from one or a relayed record names one, and the next
refresh asks there; where no datagram does, every entry and every query meets the policy.
-/

namespace P2pnas.Dht.Contact
open P2pnas.Lib.Strings P2pnas.Lib.Runs P2pnas.Dht.Table P2pnas.Dht.Overlay

variable (cfg : Config)

/-- An address the policy accepts with a port one may contact. -/
def InPolicy (addr : SocketAddr) : Prop :=
  cfg.policy.acceptsIp addr.ip = true ∧ isContactablePort addr.port = true

/-- The address policy holds of every entry and of every query sent to an entry. -/
structure Contactable (st : Overlay) : Prop where
  entries : ∀ n ∈ st.table.all, InPolicy cfg n.udp ∧ isContactablePort n.p2pPort = true
  queries : ∀ q ∈ st.sent, q.msg.isAnswer = false → q.known = true → InPolicy cfg q.addr

/-- The UDP ports a datagram would teach are contactable: that of its source, where the sender
is learned, and those of the records absorbed. -/
def PortsOpen : Event → Prop
  | .datagram msg src c => cfg.policy.acceptsIp src.ip = true →
      ∀ n ∈ (senderNode msg src c.now).toList ++ hearsay cfg msg c.now,
        learnable cfg n = true → isContactablePort n.udp.port = true
  | _ => True

section
variable {cfg}

theorem learnable_in {node : Node} (h : learnable cfg node = true) :
    cfg.policy.acceptsIp node.udp.ip = true ∧ isContactablePort node.p2pPort = true := by
  unfold learnable AddrPolicy.accepts at h
  rw [Bool.and_eq_true, Bool.and_eq_true] at h
  exact ⟨h.2.2, h.2.1⟩

/-- What an act may bring into the table. -/
def Opens : Act → Prop
  | .learn node => learnable cfg node = true → isContactablePort node.udp.port = true
  | .insert node => InPolicy cfg node.udp ∧ isContactablePort node.p2pPort = true
  | _ => True

theorem act_contactable (a : Act) (st : Overlay) (ha : @Opens cfg a) (h : Contactable cfg st) :
    Contactable cfg (a.run cfg st) := by
  have hrefreshed : ∀ {node : Node} {e : Node}, e ∈ st.table.all → InPolicy cfg node.udp →
      isContactablePort node.p2pPort = true → InPolicy cfg (RoutingTable.refreshed e node).udp ∧
        isContactablePort (RoutingTable.refreshed e node).p2pPort = true := by
    intro node e he hudp hp2p
    unfold RoutingTable.refreshed
    split
    · exact ⟨hudp, hp2p⟩
    · exact h.entries e he
  cases a with
  | take src now | allowPing addr now => exact ⟨h.entries, h.queries⟩
  | mark src now =>
    refine ⟨fun n hn => ?_, h.queries⟩
    obtain ⟨e, he, rfl⟩ := RoutingTable.mem_markVerified.mp hn
    unfold RoutingTable.marked
    split
    · exact h.entries e he
    · exact h.entries e he
  | learn node =>
    refine ⟨fun n hn => ?_, fun q hq => ?_⟩
    · rcases mem_learn hn with hn | ⟨hl, rfl | ⟨e, he, -, rfl⟩⟩
      · exact h.entries n hn
      · exact ⟨⟨(learnable_in hl).1, ha hl⟩, (learnable_in hl).2⟩
      · exact hrefreshed he ⟨(learnable_in hl).1, ha hl⟩ (learnable_in hl).2
    · change q ∈ (Overlay.learn cfg node st).1.sent at hq
      rw [(learn_logs node st).2] at hq
      exact h.queries q hq
  | insert node =>
    refine ⟨fun n hn => ?_, h.queries⟩
    rcases RoutingTable.mem_add hn with hn | rfl | ⟨e, he, -, rfl⟩
    · exact h.entries n hn
    · exact ha
    · exact hrefreshed he ha.1 ha.2
  | send msg addr now =>
    rcases send_cases msg addr now st with heq | ⟨-, heq⟩
    · change Contactable cfg (Overlay.send cfg msg addr now st)
      rw [heq]
      exact h
    · change Contactable cfg (Overlay.send cfg msg addr now st)
      rw [heq]
      refine ⟨h.entries, fun q hq hans hknown => ?_⟩
      rcases List.mem_cons.mp hq with rfl | hq
      · -- an entry was at the address, so the address is that entry's
        obtain ⟨n, hn, hudp⟩ := List.any_eq_true.mp hknown
        rw [← of_decide_eq_true hudp]
        exact (h.entries n hn).1
      · exact h.queries q hq hans hknown

theorem step_contactable (st : Overlay) (e : Event) (h : Contactable cfg st) (he : PortsOpen cfg e) :
    Contactable cfg (step cfg st e) := by
  cases e with
  | datagram msg src c =>
    apply handle_keeps act_contactable ⟨h.entries, h.queries⟩
    intro hip
    have hports := he hip
    refine ⟨fun _ => trivial, fun _ => trivial, fun id hid hl => ?_, trivial, fun _ _ _ _ => trivial,
      trivial, trivial, fun node hnode => ?_⟩
    · have hmem : (⟨id, src, msg.sender.2, false, c.now⟩ : Node) ∈ (senderNode msg src c.now).toList := by
        rw [senderNode, hid]
        exact List.mem_singleton.mpr rfl
      exact hports ⟨id, src, msg.sender.2, false, c.now⟩ (List.mem_append_left _ hmem) hl
    · exact hports node (List.mem_append_right _ hnode)
  | importNodes snapshot now =>
    apply importNodes_keeps act_contactable h
    intro r _ id ip _ _ _ hacc hp2p
    unfold AddrPolicy.accepts at hacc
    rw [Bool.and_eq_true] at hacc
    exact ⟨⟨hacc.2, hacc.1⟩, hp2p⟩
  | bootstrap hosts clock => exact bootstrap_keeps act_contactable h fun _ _ => trivial
  | refresh clock =>
    exact refresh_keeps act_contactable h (fun _ _ _ _ => trivial) (fun _ _ _ => trivial)
      fun _ _ _ => trivial

end

theorem start_contactable : Contactable cfg (start cfg) := by
  refine ⟨fun n hn => ?_, fun q hq => absurd hq List.not_mem_nil⟩
  obtain ⟨b, hb, hn⟩ := RoutingTable.mem_all.mp hn
  rw [(List.mem_replicate.mp hb).2] at hn
  cases hn

/-- Where no datagram teaches a privileged UDP port, the policy holds throughout. -/
theorem run_contactable (es : List Event)
    (h : AllMeet (step cfg) (fun _ e => PortsOpen cfg e) (start cfg) es) :
    Contactable cfg (run (step cfg) (start cfg) es) :=
  run_invariant step_contactable (start_contactable cfg) h

/-- A ping from a source port that one may contact, then a refresh. -/
def openPort : List Event :=
  [.datagram (.ping (hex (idOf 1 0)) 7000) (hostAt 7 7001) (.at 0), .refresh fun _ => 1]

theorem openPort_contactable :
    (run (step sampleConfig) (start sampleConfig) openPort).sent.length = 7 ∧
      Contactable sampleConfig (run (step sampleConfig) (start sampleConfig) openPort) := by
  refine ⟨by decide +kernel, run_contactable sampleConfig openPort ?_⟩
  refine ⟨fun _ n hn _ => ?_, trivial, trivial⟩
  have hall : ∀ n ∈ (senderNode (.ping (hex (idOf 1 0)) 7000) (hostAt 7 7001) 0).toList ++
      hearsay sampleConfig (.ping (hex (idOf 1 0)) 7000) 0, isContactablePort n.udp.port = true := by
    decide +kernel
  exact hall n hn

/-- The same from port 53: the entry stays, and the refresh asks there. -/
theorem privilegedPort_kept :
    ¬ Contactable sampleConfig (run (step sampleConfig) (start sampleConfig)
      [.datagram (.ping (hex (idOf 1 0)) 7000) (hostAt 7 53) (.at 0), .refresh fun _ => 1]) := by
  intro h
  have hentry : ¬ ∀ n ∈ (run (step sampleConfig) (start sampleConfig)
      [.datagram (.ping (hex (idOf 1 0)) 7000) (hostAt 7 53) (.at 0),
        .refresh fun _ => 1]).table.all, isContactablePort n.udp.port = true := by
    decide +kernel
  exact hentry fun n hn => (h.entries n hn).1.2

end P2pnas.Dht.Contact
