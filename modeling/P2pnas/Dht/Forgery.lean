import P2pnas.Dht.Overlay

/-!
# A forged source address (`dht.rs:328-341`, `382-405`, `574-592`, `696-767`)

An answer carries nothing that its query made known, so any answer-type datagram that claims
an address within `PENDING_TTL` of a query to it proves that address, and a stranger can have
the query sent. Where no answer comes in under the address at such a time, its entries stay
unverified, it is answered with few records and it is never given away.
-/

namespace P2pnas.Dht.Forgery
open P2pnas.Lib.Runs P2pnas.Dht.Table P2pnas.Dht.Overlay

variable (cfg : Config) (a : SocketAddr)

/-- The address has never been taken for proved. -/
structure Unproved (st : Overlay) : Prop where
  entries : ∀ n ∈ st.table.all, n.udp = a → n.verified = false
  answers : ∀ q ∈ st.sent, q.addr = a → ∀ s p recs, q.msg = .nodes s p recs → recs.length ≤ K_UNVERIFIED
  listed : ∀ n ∈ listed cfg true st, n.udp ≠ a
  exported : ∀ n ∈ exported cfg st, n.udp ≠ a

/-- No answer arrives under the address while a query to it is outstanding. -/
def Unanswered (st : Overlay) : Event → Prop
  | .datagram msg src c => src = a → solicited msg a c.now st = false
  | _ => True

section
variable {cfg a}

/-- The part that the acts keep; the rest follows from it. -/
structure Guarded (a : SocketAddr) (st : Overlay) : Prop where
  entries : ∀ n ∈ st.table.all, n.udp = a → n.verified = false
  answers : ∀ q ∈ st.sent, q.addr = a → ∀ s p recs, q.msg = .nodes s p recs → recs.length ≤ K_UNVERIFIED

theorem Guarded.unproved {st : Overlay} (h : Guarded a st) : Unproved cfg a st := by
  refine ⟨h.entries, h.answers, fun n hn hudp => ?_, fun n hn hudp => ?_⟩
  · obtain ⟨hmem, hver⟩ := List.mem_filter.mp (List.mem_filter.mp hn).1
    rw [h.entries n hmem hudp] at hver
    cases hver
  · obtain ⟨hmem, hver⟩ := List.mem_filter.mp (List.mem_of_mem_take hn)
    rw [h.entries n hmem hudp] at hver
    cases hver

/-- The acts that prove nothing about the address. -/
def Harmless (a : SocketAddr) : Act → Prop
  | .mark src _ => src ≠ a
  | .learn node | .insert node => node.udp = a → node.verified = false
  | .send msg addr _ => addr = a → ∀ s p recs, msg = .nodes s p recs → recs.length ≤ K_UNVERIFIED
  | _ => True

theorem harmless_send {msg : DhtMsg} (h : ∀ s p recs, msg ≠ .nodes s p recs) (addr : SocketAddr)
    (now : Instant) : Harmless a (.send msg addr now) := fun _ s p recs heq => absurd heq (h s p recs)

theorem harmless_find (id : NodeId) (addr : SocketAddr) (now : Instant) :
    Harmless a (.send (myFind cfg id) addr now) :=
  harmless_send (fun _ _ _ heq => by cases heq) addr now

theorem harmless_ping (addr : SocketAddr) (now : Instant) : Harmless a (.send (myPing cfg) addr now) :=
  harmless_send (fun _ _ _ heq => by cases heq) addr now

theorem refreshed_guarded {st : Overlay} (h : Guarded a st) {e node : Node} (he : e ∈ st.table.all)
    (hnode : node.udp = a → node.verified = false) (hudp : (RoutingTable.refreshed e node).udp = a) :
    (RoutingTable.refreshed e node).verified = false := by
  unfold RoutingTable.refreshed at hudp ⊢
  cases hv : node.verified with
  | true =>
    rw [hv, if_pos rfl] at hudp
    rw [hnode hudp] at hv
    cases hv
  | false =>
    rw [hv, if_neg Bool.false_ne_true] at hudp
    exact h.entries e he hudp

theorem act_guarded (act : Act) (st : Overlay) (hact : Harmless a act) (h : Guarded a st) :
    Guarded a (act.run cfg st) := by
  cases act with
  | take src now | allowPing addr now => exact ⟨h.entries, h.answers⟩
  | mark src now =>
    refine ⟨fun n hn hudp => ?_, h.answers⟩
    obtain ⟨e, he, rfl⟩ := RoutingTable.mem_markVerified.mp hn
    unfold RoutingTable.marked at hudp ⊢
    split
    · next hsrc =>
      rw [if_pos hsrc] at hudp
      exact absurd (hsrc.symm.trans hudp) hact
    · next hsrc =>
      rw [if_neg hsrc] at hudp
      exact h.entries e he hudp
  | learn node =>
    refine ⟨fun n hn hudp => ?_, fun q hq => ?_⟩
    · rcases mem_learn hn with hn | ⟨-, rfl | ⟨e, he, -, rfl⟩⟩
      · exact h.entries n hn hudp
      · exact hact hudp
      · exact refreshed_guarded h he hact hudp
    · change q ∈ (Overlay.learn cfg node st).1.sent at hq
      rw [(learn_logs node st).2] at hq
      exact h.answers q hq
  | insert node =>
    refine ⟨fun n hn hudp => ?_, h.answers⟩
    rcases RoutingTable.mem_add hn with hn | rfl | ⟨e, he, -, rfl⟩
    · exact h.entries n hn hudp
    · exact hact hudp
    · exact refreshed_guarded h he hact hudp
  | send msg addr now =>
    change Guarded a (Overlay.send cfg msg addr now st)
    rcases send_cases msg addr now st with heq | ⟨-, heq⟩
    · rw [heq]
      exact h
    · rw [heq]
      refine ⟨h.entries, fun q hq => ?_⟩
      rcases List.mem_cons.mp hq with rfl | hq
      · exact hact
      · exact h.answers q hq

theorem step_guarded (st : Overlay) (e : Event) (h : Guarded a st) (he : Unanswered a st e) :
    Guarded a (step cfg st e) := by
  cases e with
  | datagram msg src c =>
    apply handle_keeps act_guarded ⟨h.entries, h.answers⟩
    intro _
    have hsol : src = a → solicited msg src c.now st = false := by
      rintro rfl
      exact he rfl
    refine ⟨fun _ => trivial, fun hs hsrc => ?_, fun id _ => hsol, ?_,
      fun st' h' recs hlen hsrc s p rs heq => ?_, trivial, harmless_ping src c.sent, ?_⟩
    · have hs' : solicited msg src c.now st = true := hs
      rw [hsol hsrc] at hs'
      cases hs'
    · exact harmless_send (fun _ _ _ heq => by cases heq) src c.now
    · -- the address is no verified source, so few records were wanted
      have hun : st'.table.isVerifiedSource src = false := by
        rw [Bool.eq_false_iff]
        intro hver
        obtain ⟨n, hn, hboth⟩ := List.any_eq_true.mp hver
        rw [Bool.and_eq_true, decide_eq_true_eq] at hboth
        rw [h'.entries n hn (hboth.1.trans hsrc)] at hboth
        cases hboth.2
      rw [hun] at hlen
      cases heq
      exact hlen
    · intro node hnode _
      obtain ⟨r, _, hr⟩ := List.mem_filterMap.mp hnode
      unfold relayed at hr
      split at hr
      · cases hr
        rfl
      · cases hr
  | importNodes snapshot now =>
    exact importNodes_keeps act_guarded h fun _ _ _ _ _ _ _ _ _ _ => rfl
  | bootstrap hosts clock =>
    exact bootstrap_keeps act_guarded h fun addr now => harmless_find _ addr now
  | refresh clock =>
    exact refresh_keeps act_guarded h (fun id n _ now => harmless_find id n.udp now)
      (fun _ _ _ => trivial) fun n _ now => harmless_ping n.udp now

theorem start_guarded : Guarded a (start cfg) := by
  refine ⟨fun n hn => ?_, fun q hq => absurd hq List.not_mem_nil⟩
  obtain ⟨b, hb, hn⟩ := RoutingTable.mem_all.mp hn
  rw [(List.mem_replicate.mp hb).2] at hn
  cases hn

end

/-- An address that is never answered for while it is asked is never taken for proved. -/
theorem run_unproved (es : List Event) (h : AllMeet (step cfg) (Unanswered a) (start cfg) es) :
    Unproved cfg a (run (step cfg) (start cfg) es) :=
  (run_invariant step_guarded start_guarded h).unproved

/-- A stranger asks under a silent address and lets the challenge go unanswered. -/
def forgedQuestion : List Event :=
  [.datagram (.findNode (hex (idOf 1 0)) 7000 (hex (idOf 2 0))) (hostAt 7 7001) (.at 0)]

theorem forgedQuestion_unproved :
    (run (step sampleConfig) (start sampleConfig) forgedQuestion).sent.length = 2 ∧
      Unproved sampleConfig (hostAt 7 7001)
        (run (step sampleConfig) (start sampleConfig) forgedQuestion) := by
  refine ⟨by decide +kernel, run_unproved sampleConfig _ forgedQuestion ?_⟩
  exact ⟨fun _ => by decide +kernel, trivial⟩

/-- The same, and then a forged `Pong`: the silent address is verified and listed. -/
theorem forgedAnswer_proves :
    ¬ Unproved sampleConfig (hostAt 7 7001) (run (step sampleConfig) (start sampleConfig)
      [.datagram (.findNode (hex (idOf 1 0)) 7000 (hex (idOf 2 0))) (hostAt 7 7001) (.at 0),
        .datagram (.pong (hex (idOf 1 0)) 7000) (hostAt 7 7001) (.at 1)]) := by
  intro h
  have hlisted : ¬ ∀ n ∈ listed sampleConfig true (run (step sampleConfig) (start sampleConfig)
      [.datagram (.findNode (hex (idOf 1 0)) 7000 (hex (idOf 2 0))) (hostAt 7 7001) (.at 0),
        .datagram (.pong (hex (idOf 1 0)) 7000) (hostAt 7 7001) (.at 1)]), n.udp ≠ hostAt 7 7001 := by
    decide +kernel
  exact hlisted h.listed

end P2pnas.Dht.Forgery
