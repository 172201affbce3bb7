import Mathlib.Data.List.Dedup
import P2pnas.Dht.Overlay
import P2pnas.Lib.Budget

/-!
# What one host may teach (`dht.rs:67-70`, `365-380`, `680-694`, `712-764`)

`learn` charges a new id to the address in the record. For the sender of a datagram that is the
host itself; for a record that it relays it is whatever the record says, so a host that relays
records of strangers spends their budgets and not its own. Where it relays, of ids that are
not known, only records of its own address, its budget bounds what it creates.
-/

namespace P2pnas.Dht.Budget
open P2pnas.Lib.Tables P2pnas.Lib.Runs P2pnas.Lib.Budget P2pnas.Dht.Table P2pnas.Dht.Overlay

variable (cfg : Config) (s : IpAddr)

/-- When datagrams from the host brought new ids into the table. -/
def created (st : Overlay) : List Instant :=
  (st.decisions.filter fun d => d.entered && d.heard.head?.any fun r => r.src.ip = s).map
    fun d => d.node.lastSeen

/-- In each window of the host it created no more than its budget, and nothing outside. -/
structure WithinBudget (st : Overlay) : Prop where
  windows : ∀ start used, st.sources.slotOf s = some (start, used) →
    (created s st).countP (fun t => start ≤ t && t ≤ start + LEARN_WINDOW) ≤ LEARN_PER_WINDOW
  outside : st.sources.slotOf s = none → created s st = []

/-- The addresses that a datagram may be charged to. -/
def ipsOf : Event → List IpAddr
  | .datagram msg src c => src.ip :: (hearsay cfg msg c.now).map fun n => n.udp.ip
  | _ => []

/-- The host relays records of its own address and of entries that are not silent. -/
def OwnRecords (st : Overlay) : Event → Prop
  | .datagram msg src c => src.ip = s → cfg.policy.acceptsIp s = true →
      ∀ n ∈ hearsay cfg msg c.now, learnable cfg n = true →
        n.udp.ip = s ∨ ∃ e ∈ st.table.all, e.id = n.id ∧ RoutingTable.stale c.now e = false
  | _ => True

/-- The clock is monotonic. -/
def InOrder : Event → Prop
  | .datagram _ _ c => c.now ≤ c.marked
  | _ => True

section
variable {cfg s}

/-! ### The budget of a source -/

theorem pruned_few {ρ : Type} (live : ρ → Bool) {rows : List ρ} (h : rows.length < MAX_TRACKED_SOURCES) :
    SourceState.pruned live rows = rows := by
  rw [SourceState.pruned, if_neg (Nat.not_le.mpr h)]

/-- With few sources tracked, `allow_learn` charges the budget of the address. -/
theorem allowLearn_few {b : SourceState} (ip : IpAddr) (now : Instant)
    (h : b.learn.length < MAX_TRACKED_SOURCES) :
    (b.allowLearn ip now).1.learn =
        upsert Prod.fst (ip, (charge LEARN_PER_WINDOW LEARN_WINDOW (b.slotOf ip) now).1) b.learn ∧
      (b.allowLearn ip now).2 = (charge LEARN_PER_WINDOW LEARN_WINDOW (b.slotOf ip) now).2 := by
  have hprune : (b.prune now).learn = b.learn := pruned_few _ h
  unfold SourceState.allowLearn charge windowAt SourceState.slotOf
  dsimp only
  rw [hprune]
  split
  · split
    · exact ⟨rfl, rfl⟩
    · exact ⟨rfl, rfl⟩
  · split
    · exact ⟨rfl, rfl⟩
    · exact ⟨rfl, rfl⟩

theorem slotOf_upsert {b b' : SourceState} {ip : IpAddr} {w : Instant × ℕ}
    (h : b'.learn = upsert Prod.fst (ip, w) b.learn) (k : IpAddr) :
    b'.slotOf k = if k = ip then some w else b.slotOf k := by
  rw [SourceState.slotOf, h, lookup_upsert Prod.fst (ip, w) k]
  split
  · rfl
  · rfl

theorem slotOf_congr {b b' : SourceState} (h : b'.learn = b.learn) (k : IpAddr) :
    b'.slotOf k = b.slotOf k := by
  rw [SourceState.slotOf, SourceState.slotOf, h]

/-! ### What the acts keep -/

/-- Few sources are tracked, and what the host created is covered by its budget. -/
structure Covered (ips : List IpAddr) (s : IpAddr) (st : Overlay) : Prop where
  filed : st.table.Filed
  nodup : (st.sources.learn.map Prod.fst).Nodup
  seen : ∀ k ∈ st.sources.learn.map Prod.fst, k ∈ ips
  covers : Covers LEARN_PER_WINDOW LEARN_WINDOW (st.sources.slotOf s) (created s st)

variable {ips : List IpAddr}

theorem Covered.withinBudget {st : Overlay} (h : Covered ips s st) : WithinBudget s st := by
  refine ⟨fun start used hw => ?_, fun hnone => ?_⟩
  · have hc := h.covers
    rw [hw] at hc
    exact @Spans.bounded _ _ (start, used) _ hc
  · have hc := h.covers
    rw [hnone] at hc
    exact hc

theorem Covered.few {st : Overlay} (hfew : ips.length < MAX_TRACKED_SOURCES) (h : Covered ips s st) :
    st.sources.learn.length < MAX_TRACKED_SOURCES := by
  have hle := (List.subperm_of_subset h.nodup h.seen).length_le
  rw [List.length_map] at hle
  omega

/-- Acts other than `learn` leave the budgets and the decisions alone. -/
theorem act_quiet (a : Act) (st : Overlay) (ha : ∀ node, a ≠ .learn node)
    (hfew : st.sources.learn.length < MAX_TRACKED_SOURCES) :
    (a.run cfg st).sources.learn = st.sources.learn ∧ (a.run cfg st).decisions = st.decisions ∧
      (a.run cfg st).received = st.received := by
  cases a with
  | take src now | mark src now | insert node => exact ⟨rfl, rfl, rfl⟩
  | learn node => exact absurd rfl (ha node)
  | allowPing addr now =>
    refine ⟨?_, rfl, rfl⟩
    show (st.sources.allowPing addr now).1.learn = st.sources.learn
    rw [SourceState.allowPing, apply_ite Prod.fst, apply_ite SourceState.learn, ite_self]
    exact pruned_few _ hfew
  | send msg addr now =>
    show (Overlay.send cfg msg addr now st).sources.learn = st.sources.learn ∧
      (Overlay.send cfg msg addr now st).decisions = st.decisions ∧
      (Overlay.send cfg msg addr now st).received = st.received
    rcases @send_cases cfg msg addr now st with heq | ⟨-, heq⟩
    · rw [heq]
      exact ⟨rfl, rfl, rfl⟩
    · rw [heq]
      refine ⟨?_, rfl, rfl⟩
      dsimp only
      split
      · rfl
      · exact pruned_few _ hfew

theorem act_covered (hfew : ips.length < MAX_TRACKED_SOURCES) (a : Act) (st : Overlay)
    (ha : ∀ node, a ≠ .learn node) (h : Covered ips s st) : Covered ips s (a.run cfg st) := by
  obtain ⟨hlearn, hdec, -⟩ := @act_quiet cfg a st ha (h.few hfew)
  refine ⟨act_filed a st h.filed, by rw [hlearn]; exact h.nodup, by rw [hlearn]; exact h.seen, ?_⟩
  rw [slotOf_congr hlearn, created, hdec]
  exact h.covers

/-! ### A datagram -/

variable {r : Received} {known : List Node}

/-- While a datagram is handled; the known nodes are in the table and not silent. -/
structure Handling (ips : List IpAddr) (s : IpAddr) (r : Received) (known : List Node)
    (st : Overlay) : Prop where
  covered : Covered ips s st
  heard : st.received.head? = some r
  known : ∀ n ∈ known, ∃ e ∈ st.table.all, e.id = n.id ∧ RoutingTable.stale r.now e = false

/-- The acts of a datagram that stay within the budget of the host. -/
def Charged (cfg : Config) (ips : List IpAddr) (s : IpAddr) (r : Received) (known : List Node) :
    Act → Prop
  | .mark _ t => r.now ≤ t
  | .learn node => node.lastSeen = r.now ∧ node.udp.ip ∈ ips ∧
      (r.src.ip = s → learnable cfg node = true → node.udp.ip = s ∨ node ∈ known)
  | .insert _ => False
  | _ => True

theorem created_tableAdd {st : Overlay} (hheard : st.received.head? = some r) (node : Node) :
    created s (tableAdd node st).1 =
      if (st.table.add node).2 = true ∧ r.src.ip = s then node.lastSeen :: created s st
      else created s st := by
  simp only [created, tableAdd, List.filter_cons, hheard, Option.any_some, Bool.and_eq_true,
    decide_eq_true_eq]
  split
  · rfl
  · rfl

theorem Handling.table {st st' : Overlay} (h : Handling ips s r known st)
    (hcovered : Covered ips s st') (hreceived : st'.received = st.received)
    (hkept : ∀ e ∈ st.table.all, RoutingTable.stale r.now e = false →
      ∃ e' ∈ st'.table.all, e'.id = e.id ∧ RoutingTable.stale r.now e' = false) :
    Handling ips s r known st' := by
  refine ⟨hcovered, by rw [hreceived]; exact h.heard, fun n hn => ?_⟩
  obtain ⟨e, he, hid, hfresh⟩ := h.known n hn
  obtain ⟨e', he', hid', hfresh'⟩ := hkept e he hfresh
  exact ⟨e', he', hid'.trans hid, hfresh'⟩

/-- `learn` asks the budget of an address: the sources it tracks are still few. -/
theorem Covered.asked {st : Overlay} (h : Covered ips s st) {ip : IpAddr} {w : Instant × ℕ}
    (hip : ip ∈ ips) {b : SourceState} (hb : b.learn = upsert Prod.fst (ip, w) st.sources.learn) :
    (b.learn.map Prod.fst).Nodup ∧ ∀ k ∈ b.learn.map Prod.fst, k ∈ ips := by
  rw [hb]
  refine ⟨nodup_upsert Prod.fst h.nodup _, fun k hk => ?_⟩
  obtain ⟨row, hrow, rfl⟩ := List.mem_map.mp hk
  rcases mem_upsert Prod.fst hrow with rfl | hrow
  · exact hip
  · exact h.seen _ (List.mem_map_of_mem hrow)

/-- A `learn` that the budget of its address refuses. -/
theorem refused_covered (hfew : ips.length < MAX_TRACKED_SOURCES) {ip : IpAddr} {now : Instant}
    {st : Overlay} (h : Covered ips s st) (hip : ip ∈ ips) :
    Covered ips s { st with sources := (st.sources.allowLearn ip now).1 } := by
  obtain ⟨hlearn, -⟩ := allowLearn_few ip now (h.few hfew)
  obtain ⟨hnodup, hseen⟩ := h.asked hip hlearn
  refine ⟨h.filed, hnodup, hseen, ?_⟩
  change Covers _ _ ((st.sources.allowLearn ip now).1.slotOf s) (created s st)
  rw [slotOf_upsert hlearn]
  split
  · next hs =>
    subst hs
    exact h.covers.charge now
  · exact h.covers

/-- A charged `learn` that reaches the table. -/
theorem admit_covered (hfew : ips.length < MAX_TRACKED_SOURCES) {node : Node} {st : Overlay}
    (h : Covered ips s st) (hheard : st.received.head? = some r) (hip : node.udp.ip ∈ ips)
    (hown : r.src.ip = s → node.udp.ip = s)
    (hlet : (st.sources.allowLearn node.udp.ip node.lastSeen).2 = true) :
    Covered ips s (tableAdd node
      { st with sources := (st.sources.allowLearn node.udp.ip node.lastSeen).1 }).1 := by
  obtain ⟨hlearn, hallowed⟩ := allowLearn_few node.udp.ip node.lastSeen (h.few hfew)
  obtain ⟨hnodup, hseen⟩ := h.asked hip hlearn
  refine ⟨h.filed.add node, hnodup, hseen, ?_⟩
  rw [hallowed] at hlet
  rw [@created_tableAdd s r
    { st with sources := (st.sources.allowLearn node.udp.ip node.lastSeen).1 } hheard]
  change Covers _ _ ((st.sources.allowLearn node.udp.ip node.lastSeen).1.slotOf s)
    (if (st.table.add node).2 = true ∧ r.src.ip = s then node.lastSeen :: created s st else created s st)
  rw [slotOf_upsert hlearn]
  by_cases hs : s = node.udp.ip
  · rw [if_pos hs]
    subst hs
    split
    · exact h.covers.spend hlet
    · exact h.covers.charge node.lastSeen
  · rw [if_neg hs, if_neg fun hr => hs (hown hr.2).symm]
    exact h.covers

theorem act_handling (hfew : ips.length < MAX_TRACKED_SOURCES) (a : Act) (st : Overlay)
    (ha : Charged cfg ips s r known a) (h : Handling ips s r known st) :
    Handling ips s r known (a.run cfg st) := by
  have hquiet : (∀ node, a ≠ .learn node) → (∀ e ∈ st.table.all, RoutingTable.stale r.now e = false →
      ∃ e' ∈ (a.run cfg st).table.all, e'.id = e.id ∧ RoutingTable.stale r.now e' = false) →
      Handling ips s r known (a.run cfg st) := fun hne hkept =>
    h.table (act_covered hfew a st hne h.covered) (act_quiet a st hne (h.covered.few hfew)).2.2 hkept
  cases a with
  | take src now | allowPing addr now =>
    exact hquiet (fun _ heq => by cases heq) fun e he hf => ⟨e, he, rfl, hf⟩
  | insert node => exact absurd ha id
  | mark src now =>
    refine hquiet (fun _ heq => by cases heq) fun e he hf => ?_
    refine ⟨_, RoutingTable.mem_markVerified.mpr ⟨e, he, rfl⟩, ?_⟩
    unfold RoutingTable.marked
    split
    · have hnow : r.now ≤ now := ha
      refine ⟨rfl, ?_⟩
      show decide (STALE_AFTER < r.now - now) = false
      rw [Nat.sub_eq_zero_of_le hnow]
      rfl
    · exact ⟨rfl, hf⟩
  | send msg addr now =>
    refine hquiet (fun _ heq => by cases heq) fun e he hf => ⟨e, ?_, rfl, hf⟩
    change e ∈ (Overlay.send cfg msg addr now st).table.all
    rcases @send_cases cfg msg addr now st with heq | ⟨-, heq⟩
    · rw [heq]
      exact he
    · rw [heq]
      exact he
  | learn node =>
    obtain ⟨hseen, hip, hown⟩ := ha
    change Handling ips s r known (Overlay.learn cfg node st).1
    have hkept : ∀ e ∈ st.table.all, RoutingTable.stale r.now e = false →
        ∃ e' ∈ (st.table.add node).1.all, e'.id = e.id ∧ RoutingTable.stale r.now e' = false := by
      intro e he hf
      rw [← hseen] at hf ⊢
      exact h.covered.filed.add_fresh he hf
    rcases @learn_cases cfg node st with ⟨-, heq⟩ | ⟨hl, ⟨hc, heq⟩ | ⟨hc, ⟨-, heq⟩ | ⟨hlet, heq⟩⟩⟩
    · rw [heq]
      exact h
    · rw [heq]
      refine h.table ⟨h.covered.filed.add node, h.covered.nodup, h.covered.seen, ?_⟩ rfl hkept
      rw [created_tableAdd h.heard, RoutingTable.add_contained hc,
        if_neg fun hr => Bool.false_ne_true hr.1]
      exact h.covered.covers
    · rw [heq]
      exact h.table (refused_covered hfew h.covered hip) rfl fun e he hf => ⟨e, he, rfl, hf⟩
    · rw [heq]
      refine h.table (admit_covered hfew h.covered h.heard hip (fun hr => ?_) hlet) rfl hkept
      -- a known node is contained, and a contained one is not charged
      refine (hown hr hl).resolve_right fun hk => ?_
      obtain ⟨e, he, hid, -⟩ := h.known node hk
      have hin := h.covered.filed.contains_iff.mpr ⟨e, he, hid⟩
      rw [hc] at hin
      cases hin

/-! ### Runs -/

theorem step_covered (hfew : ips.length < MAX_TRACKED_SOURCES) (st : Overlay) (e : Event)
    (h : Covered ips s st)
    (he : (OwnRecords cfg s st e ∧ InOrder e) ∧ ∀ k ∈ ipsOf cfg e, k ∈ ips) :
    Covered ips s (step cfg st e) := by
  cases e with
  | datagram msg src c =>
    obtain ⟨⟨hown, hclock⟩, hips⟩ := he
    -- of the host's records, those of foreign addresses are known
    have hhandled : ∀ known, (∀ n ∈ known, ∃ e ∈ st.table.all, e.id = n.id ∧
          RoutingTable.stale c.now e = false) →
        (cfg.policy.acceptsIp src.ip = true → src.ip = s → ∀ n ∈ hearsay cfg msg c.now,
          learnable cfg n = true → n.udp.ip = s ∨ n ∈ known) →
        Handling ips s ⟨msg, src, c.now, c.marked⟩ known (handle cfg msg src c st) := by
      intro known hknown hrecords
      apply handle_keeps (act_handling hfew) ⟨⟨h.filed, h.nodup, h.seen, h.covers⟩, rfl, hknown⟩
      intro hip
      refine ⟨fun _ => trivial, fun _ => hclock, fun id _ => ?_, trivial, fun _ _ _ _ => trivial,
        trivial, trivial, fun node hnode => ?_⟩
      · exact ⟨rfl, hips src.ip (List.mem_cons_self ..), fun hs _ => .inl hs⟩
      · refine ⟨?_, hips _ (List.mem_cons_of_mem _ (List.mem_map_of_mem hnode)),
          fun hs hl => hrecords hip hs node hnode hl⟩
        obtain ⟨rec, _, hrec⟩ := List.mem_filterMap.mp hnode
        unfold relayed at hrec
        split at hrec
        · cases hrec
          rfl
        · cases hrec
    by_cases hs : src.ip = s
    · by_cases hip : cfg.policy.acceptsIp s = true
      · refine (hhandled ((hearsay cfg msg c.now).filter fun n => learnable cfg n && n.udp.ip ≠ s)
          (fun n hn => ?_) fun _ _ n hn hl => ?_).covered
        · obtain ⟨hn, hsel⟩ := List.mem_filter.mp hn
          rw [Bool.and_eq_true] at hsel
          exact (hown hs hip n hn hsel.1).resolve_left (of_decide_eq_true hsel.2)
        · by_cases hns : n.udp.ip = s
          · exact .inl hns
          · refine .inr (List.mem_filter.mpr ⟨hn, ?_⟩)
            rw [hl, Bool.true_and]
            exact decide_eq_true hns
      · refine (hhandled [] (fun n hn => absurd hn List.not_mem_nil) fun hip' _ => ?_).covered
        rw [hs] at hip'
        exact absurd hip' hip
    · exact (hhandled [] (fun n hn => absurd hn List.not_mem_nil) fun _ hs' => absurd hs' hs).covered
  | importNodes snapshot now =>
    exact importNodes_keeps (act_covered hfew) h fun _ _ _ _ _ _ _ _ _ _ heq => by cases heq
  | bootstrap hosts clock =>
    exact bootstrap_keeps (act_covered hfew) h fun _ _ _ heq => by cases heq
  | refresh clock =>
    exact refresh_keeps (act_covered hfew) h (fun _ _ _ _ _ heq => by cases heq)
      (fun _ _ _ _ heq => by cases heq) fun _ _ _ _ heq => by cases heq

theorem start_covered : Covered ips s (start cfg) :=
  ⟨RoutingTable.Filed.new cfg.selfId, List.nodup_nil, fun _ hk => absurd hk List.not_mem_nil, rfl⟩

end

/-- A host that relays only records of its own address and of known entries stays within its
budget, in every window. -/
theorem run_withinBudget (es : List Event)
    (hfew : ((es.flatMap (ipsOf cfg)).dedup).length < MAX_TRACKED_SOURCES)
    (hclock : ∀ e ∈ es, InOrder e) (h : AllMeet (step cfg) (OwnRecords cfg s) (start cfg) es) :
    WithinBudget s (run (step cfg) (start cfg) es) := by
  have hall := (h.and_forall hclock).and_forall (Q := fun e => ∀ k ∈ ipsOf cfg e,
    k ∈ (es.flatMap (ipsOf cfg)).dedup)
    fun e he k hk => List.mem_dedup.mpr (List.mem_flatMap.mpr ⟨e, he, hk⟩)
  exact (run_invariant (step_covered hfew) start_covered hall).withinBudget

/-- Host 66 sends `Nodes` datagrams of eight records each, the first byte of an id counted up. -/
def relays (ip : String) (firsts : List UInt8) : List Event :=
  firsts.map fun first => .datagram (.nodes (hex (idOf 64 0)) 7000 ((List.range 8).map fun i =>
    ⟨hex (idOf (first + UInt8.ofNat i) 0), ip.toList, 7001, 7000⟩)) (hostAt 66 7001) (.at 0)

/-- The records of one datagram are its own: they count as it does. -/
theorem ownRelays_withinBudget :
    (created (hostAt 66 7001).ip (run (step sampleConfig) (start sampleConfig)
      (relays "57.129.12.66" [16]))).length = 9 ∧
    WithinBudget (hostAt 66 7001).ip (run (step sampleConfig) (start sampleConfig)
      (relays "57.129.12.66" [16])) := by
  refine ⟨by decide +kernel, run_withinBudget sampleConfig _ _ (by decide +kernel) (fun e he => ?_)
    ⟨fun _ _ n hn _ => .inl ?_, trivial⟩⟩
  · cases List.mem_singleton.mp he
    exact Nat.le_refl 0
  · have hown : ∀ n ∈ hearsay sampleConfig (.nodes (hex (idOf 64 0)) 7000 ((List.range 8).map fun i =>
        ⟨hex (idOf (16 + UInt8.ofNat i) 0), "57.129.12.66".toList, 7001, 7000⟩)) 0,
        n.udp.ip = (hostAt 66 7001).ip := by decide +kernel
    exact hown n hn

/-- Two datagrams of a stranger's records: seventeen new ids in one window. -/
theorem foreignRelays_overspend :
    (((relays "57.129.12.7" [16, 32]).flatMap (ipsOf sampleConfig)).dedup).length <
        MAX_TRACKED_SOURCES ∧
      ¬ WithinBudget (hostAt 66 7001).ip (run (step sampleConfig) (start sampleConfig)
        (relays "57.129.12.7" [16, 32])) := by
  refine ⟨by decide +kernel, fun h => ?_⟩
  have hslot : (run (step sampleConfig) (start sampleConfig)
      (relays "57.129.12.7" [16, 32])).sources.slotOf (hostAt 66 7001).ip = some (0, 1) := by
    decide +kernel
  have hover : ¬ (created (hostAt 66 7001).ip (run (step sampleConfig) (start sampleConfig)
      (relays "57.129.12.7" [16, 32]))).countP (fun t => 0 ≤ t && t ≤ 0 + LEARN_WINDOW) ≤
      LEARN_PER_WINDOW := by
    decide +kernel
  exact hover (h.windows 0 1 hslot)

end P2pnas.Dht.Budget
