import P2pnas.Dht.Overlay

/-!
# Who keeps a bucket full (`dht.rs:62-65`, `261-337`, `680-767`)

An entry is up for eviction after `STALE_AFTER` without a packet from it, but `add` sets
`last_seen` at every sighting of its id: a relayed record of it, or a datagram that names it from
another address, counts as well as its own packet, and a packet from its address under another id
counts for nothing. Where every datagram sights just what is at its own address, a bucket refuses
only for entries that spoke, and gives up only entries that were silent.
-/

namespace P2pnas.Dht.Freshness
open P2pnas.Lib.Runs P2pnas.Dht.Table P2pnas.Dht.Overlay

variable (cfg : Config)

/-- The entry's address sent a datagram within `STALE_AFTER` of the decision. -/
def Spoke (d : Decision) (e : Node) : Prop :=
  ∃ r ∈ d.heard, r.src = e.udp ∧ d.node.lastSeen - r.marked ≤ STALE_AFTER

/-- The entry's address sent nothing within `STALE_AFTER` of the decision. -/
def Silent (d : Decision) (e : Node) : Prop :=
  ∀ r ∈ d.heard, r.src = e.udp → STALE_AFTER < d.node.lastSeen - r.now

def Evicted (d : Decision) (e : Node) : Prop := ∀ k ∈ d.kept, k.id ≠ e.id

/-- A bucket refuses a newcomer only for entries that spoke, and gives up a silent one, a
verified one only where no unverified one is silent. -/
structure Unfrozen (d : Decision) : Prop where
  refused : d.entered = false → (∀ e ∈ d.incumbents, e.id ≠ d.node.id) → ∀ e ∈ d.incumbents, Spoke d e
  silent : ∀ e ∈ d.incumbents, Evicted d e → Silent d e
  preferred : ∀ e ∈ d.incumbents, Evicted d e → e.verified = true →
    ∀ u ∈ d.incumbents, u.verified = false → Spoke d u

/-- The traffic in question: datagrams that come in one after the other, and no snapshot. -/
def InTime (st : Overlay) : Event → Prop
  | .datagram _ _ c => c.now ≤ c.marked ∧ ∀ r ∈ st.received, r.now ≤ c.now
  | .importNodes .. => False
  | _ => True

/-- A datagram sights what is at its own address and nothing else: unless it answers a query,
the sender's entry is there and is the only one there, and each record it relays names that
address again. -/
def SightsOwn (st : Overlay) : Event → Prop
  | .datagram msg src c => cfg.policy.acceptsIp src.ip = true →
      (solicited msg src c.now st = false →
        (∀ n ∈ senderNode msg src c.now, learnable cfg n = true →
          ∀ e ∈ st.table.all, e.id = n.id → e.udp = src) ∧
        ∀ e ∈ st.table.all, e.udp = src →
          ∃ n ∈ senderNode msg src c.now, n.id = e.id ∧ learnable cfg n = true) ∧
      ∀ n ∈ hearsay cfg msg c.now, learnable cfg n = true →
        n.udp = src ∧ ∀ e ∈ st.table.all, e.id = n.id → e.udp = src
  | _ => True

instance (st : Overlay) : ∀ e, Decidable (InTime st e)
  | .datagram _ _ c => inferInstanceAs (Decidable (c.now ≤ c.marked ∧ ∀ r ∈ st.received, r.now ≤ c.now))
  | .importNodes .. => inferInstanceAs (Decidable False)
  | .bootstrap .. | .refresh _ => inferInstanceAs (Decidable True)

instance (st : Overlay) : ∀ e, Decidable (SightsOwn cfg st e)
  | .datagram msg src c => inferInstanceAs (Decidable (cfg.policy.acceptsIp src.ip = true →
      (solicited msg src c.now st = false →
        (∀ n ∈ senderNode msg src c.now, learnable cfg n = true →
          ∀ e ∈ st.table.all, e.id = n.id → e.udp = src) ∧
        ∀ e ∈ st.table.all, e.udp = src →
          ∃ n ∈ senderNode msg src c.now, n.id = e.id ∧ learnable cfg n = true) ∧
      ∀ n ∈ hearsay cfg msg c.now, learnable cfg n = true →
        n.udp = src ∧ ∀ e ∈ st.table.all, e.id = n.id → e.udp = src))
  | .importNodes .. | .bootstrap .. | .refresh _ => inferInstanceAs (Decidable True)

section
variable {cfg}

/-- `last_seen` lies between the latest datagram from the address and the end of one. -/
structure Sighted (cfg : Config) (st : Overlay) : Prop where
  filed : st.table.Filed
  allowed : ∀ e ∈ st.table.all, cfg.policy.acceptsIp e.udp.ip = true
  spoke : ∀ e ∈ st.table.all, ∃ r ∈ st.received, r.src = e.udp ∧ e.lastSeen ≤ r.marked
  seen : ∀ e ∈ st.table.all, ∀ r ∈ st.received, r.src = e.udp → r.now ≤ e.lastSeen
  decided : ∀ d ∈ st.decisions, Unfrozen d

/-! ### One decision -/

theorem bucketOf_add {t : RoutingTable} (h : t.Filed) (node : Node) :
    bucketOf t node.id = [] ∧ bucketOf (t.add node).1 node.id = [] ∨
      ∃ i, t.indexOf node.id = some i ∧ bucketOf t node.id = t.bucketAt i ∧
        bucketOf (t.add node).1 node.id = (RoutingTable.addTo (t.bucketAt i) node).1 ∧
        (t.add node).2 = (RoutingTable.addTo (t.bucketAt i) node).2 := by
  rcases RoutingTable.add_eq t node with ⟨hi, heq⟩ | ⟨i, hi, heq⟩
  · have hnil : bucketOf t node.id = [] := by
      rw [bucketOf, hi]
      rfl
    rw [heq]
    exact .inl ⟨hnil, hnil⟩
  · refine .inr ⟨i, hi, ?_, ?_, by rw [heq]⟩
    · rw [bucketOf, hi]
      rfl
    · rw [heq, bucketOf]
      change ((t.indexOf node.id).map _).getD [] = _
      rw [hi, Option.map_some, Option.getD_some, RoutingTable.bucketAt_set (h.index_lt hi), if_pos rfl]

theorem unfrozen_none (node : Node) (entered : Bool) (heard : List Received) :
    Unfrozen ⟨node, [], [], entered, heard⟩ :=
  ⟨fun _ _ _ he => absurd he List.not_mem_nil, fun _ he => absurd he List.not_mem_nil,
    fun _ he => absurd he List.not_mem_nil⟩

/-- Where `last_seen` says what was heard, the rule of the bucket means what it says. -/
theorem unfrozen_add {t : RoutingTable} {heard : List Received} (node : Node) (hfiled : t.Filed)
    (hspoke : ∀ e ∈ t.all, ∃ r ∈ heard, r.src = e.udp ∧ e.lastSeen ≤ r.marked)
    (hseen : ∀ e ∈ t.all, ∀ r ∈ heard, r.src = e.udp → r.now ≤ e.lastSeen) :
    Unfrozen ⟨node, bucketOf t node.id, bucketOf (t.add node).1 node.id, (t.add node).2, heard⟩ := by
  rcases bucketOf_add hfiled node with ⟨hb, hk⟩ | ⟨i, -, hb, hk, he⟩
  · rw [hb, hk]
    exact unfrozen_none node _ heard
  rw [hb, hk, he]
  have halive : ∀ e ∈ t.bucketAt i, RoutingTable.stale node.lastSeen e = false →
      Spoke ⟨node, t.bucketAt i, (RoutingTable.addTo (t.bucketAt i) node).1,
        (RoutingTable.addTo (t.bucketAt i) node).2, heard⟩ e := by
    intro e hmem hfresh
    obtain ⟨r, hr, hsrc, hlast⟩ := hspoke e (RoutingTable.mem_all_of_bucketAt hmem)
    have hrecent : ¬ STALE_AFTER < node.lastSeen - e.lastSeen := of_decide_eq_false hfresh
    exact ⟨r, hr, hsrc, (Nat.sub_le_sub_left hlast _).trans (Nat.not_lt.mp hrecent)⟩
  refine ⟨fun hrefused hnew e hmem => ?_, fun e hmem hout r hr hsrc => ?_,
    fun e hmem hout hver u hu hunver => ?_⟩
  · apply halive e hmem
    change (RoutingTable.addTo (t.bucketAt i) node).2 = false at hrefused
    rcases RoutingTable.addTo_cases (t.bucketAt i) node with
      ⟨x, hx, hid, -⟩ | ⟨-, ⟨-, hadd⟩ | ⟨-, ⟨v, j, -, hadd⟩ | ⟨hnone, -⟩⟩⟩
    · exact absurd hid (hnew x hx)
    · rw [hadd] at hrefused
      cases hrefused
    · rw [hadd] at hrefused
      cases hrefused
    · exact RoutingTable.victim_none hnone e hmem
  · obtain ⟨j, hv⟩ := RoutingTable.addTo_evicts hmem hout
    obtain ⟨-, hstale, -⟩ := RoutingTable.victim_some hv
    have hlong : STALE_AFTER < node.lastSeen - e.lastSeen := of_decide_eq_true hstale
    have hlast := hseen e (RoutingTable.mem_all_of_bucketAt hmem) r hr hsrc
    exact hlong.trans_le (Nat.sub_le_sub_left hlast _)
  · obtain ⟨j, hv⟩ := RoutingTable.addTo_evicts hmem hout
    obtain ⟨-, -, hleast⟩ := RoutingTable.victim_some hv
    apply halive u hu
    cases hstale : RoutingTable.stale node.lastSeen u with
    | false => rfl
    | true =>
      -- an unverified silent entry would have come first
      have hle := hleast u hu hstale
      rw [hver, hunver, Prod.Lex.toLex_le_toLex] at hle
      rcases hle with hlt | ⟨heq, -⟩
      · exact absurd (show true < false from hlt) (by decide)
      · cases heq

/-- The refresh of an entry that is there decides nothing. -/
theorem unfrozen_refresh {t : RoutingTable} {heard : List Received} (node : Node) (hfiled : t.Filed)
    {x : Node} (hx : x ∈ t.all) (hxid : x.id = node.id) :
    Unfrozen ⟨node, bucketOf t node.id, bucketOf (t.add node).1 node.id, (t.add node).2, heard⟩ := by
  rcases bucketOf_add hfiled node with ⟨hb, hk⟩ | ⟨i, hi, hb, hk, he⟩
  · rw [hb, hk]
    exact unfrozen_none node _ heard
  rw [hb, hk, he]
  obtain ⟨j, hj⟩ := RoutingTable.bucketAt_of_mem hx
  have hji : some j = some i := (hfiled.home j x hj).symm.trans (hxid ▸ hi)
  cases hji
  have hstay : ∀ e ∈ t.bucketAt i, ∃ k ∈ (RoutingTable.addTo (t.bucketAt i) node).1, k.id = e.id := by
    intro e hmem
    rcases RoutingTable.addTo_cases (t.bucketAt i) node with ⟨y, hy, hid, hadd⟩ | ⟨hne, -⟩
    · rw [hadd]
      have hperm := @RoutingTable.erased_ids node _ _ hy hid
      exact List.mem_map.mp (hperm.symm.subset (List.mem_map_of_mem hmem))
    · exact absurd hxid (hne x hj)
  have hkept : ∀ e ∈ t.bucketAt i, ¬ Evicted ⟨node, t.bucketAt i,
      (RoutingTable.addTo (t.bucketAt i) node).1, (RoutingTable.addTo (t.bucketAt i) node).2, heard⟩ e := by
    intro e hmem hout
    obtain ⟨k, hk, hkid⟩ := hstay e hmem
    exact hout k hk hkid
  exact ⟨fun _ hnew => absurd hxid (hnew x hj), fun e hmem hout => absurd hout (hkept e hmem),
    fun e hmem hout => absurd hout (hkept e hmem)⟩

/-! ### A datagram -/

variable {r : Received} {known : List NodeId}

/-- While a datagram is handled, and its own address has been sighted. -/
structure Handling (cfg : Config) (r : Received) (known : List NodeId) (st : Overlay) : Prop where
  sighted : Sighted cfg st
  heard : r ∈ st.received
  latest : ∀ q ∈ st.received, q.now ≤ r.now
  own : ∀ e ∈ st.table.all, e.id ∈ known → e.udp = r.src

/-- The acts of a datagram that sight what is at its address. -/
def Sights (cfg : Config) (r : Received) (known : List NodeId) : Act → Prop
  | .learn node => node.lastSeen = r.now ∧ (learnable cfg node = true → node.udp = r.src ∧
      (node.verified = false → node.id ∈ known))
  | .insert _ | .mark .. => False
  | _ => True

theorem learnable_ip {node : Node} (h : learnable cfg node = true) :
    cfg.policy.acceptsIp node.udp.ip = true := by
  unfold learnable AddrPolicy.accepts at h
  rw [Bool.and_eq_true, Bool.and_eq_true] at h
  exact h.2.2

theorem refreshed_seen (e node : Node) : (RoutingTable.refreshed e node).lastSeen = node.lastSeen := by
  unfold RoutingTable.refreshed
  split
  · rfl
  · rfl

/-- Every entry that `add` touches is at the address of the datagram and was seen with it. -/
theorem admit_handling {node : Node} {st : Overlay} (horder : r.now ≤ r.marked)
    (h : Handling cfg r known st) (hl : learnable cfg node = true) (hnow : node.lastSeen = r.now)
    (hudp : node.udp = r.src)
    (hplain : node.verified = false → ∀ e ∈ st.table.all, e.id = node.id → e.udp = r.src) :
    Handling cfg r known (tableAdd node st).1 := by
  have hentry : ∀ n ∈ (st.table.add node).1.all, n ∈ st.table.all ∨
      n.udp = r.src ∧ n.lastSeen = r.now := by
    intro n hn
    rcases RoutingTable.mem_add hn with hn | rfl | ⟨e, he, hid, rfl⟩
    · exact .inl hn
    · exact .inr ⟨hudp, hnow⟩
    · refine .inr ⟨?_, by rw [refreshed_seen, hnow]⟩
      unfold RoutingTable.refreshed
      cases hver : node.verified with
      | true => exact hudp
      | false => exact hplain hver e he hid
  refine ⟨⟨h.sighted.filed.add node, fun n hn => ?_, fun n hn => ?_, fun n hn q hq hsrc => ?_,
    fun d hd => ?_⟩, h.heard, h.latest, fun n hn hid => ?_⟩
  · rcases hentry n hn with hn | ⟨hn, -⟩
    · exact h.sighted.allowed n hn
    · rw [hn, ← hudp]
      exact learnable_ip hl
  · rcases hentry n hn with hn | ⟨hn, hlast⟩
    · exact h.sighted.spoke n hn
    · exact ⟨r, h.heard, hn.symm, hlast ▸ horder⟩
  · rcases hentry n hn with hn | ⟨-, hlast⟩
    · exact h.sighted.seen n hn q hq hsrc
    · rw [hlast]
      exact h.latest q hq
  · rcases List.mem_cons.mp hd with rfl | hd
    · exact unfrozen_add node h.sighted.filed h.sighted.spoke h.sighted.seen
    · exact h.sighted.decided d hd
  · rcases hentry n hn with hn | ⟨hn, -⟩
    · exact h.own n hn hid
    · exact hn

theorem act_handling (horder : r.now ≤ r.marked) (a : Act) (st : Overlay) (ha : Sights cfg r known a)
    (h : Handling cfg r known st) : Handling cfg r known (a.run cfg st) := by
  have hasked : ∀ sources, Handling cfg r known { st with sources := sources } := fun _ =>
    ⟨⟨h.sighted.filed, h.sighted.allowed, h.sighted.spoke, h.sighted.seen, h.sighted.decided⟩, h.heard,
      h.latest, h.own⟩
  cases a with
  | take src now | allowPing addr now => exact hasked _
  | mark src now => exact absurd ha id
  | insert node => exact absurd ha id
  | send msg addr now =>
    change Handling cfg r known (Overlay.send cfg msg addr now st)
    rcases send_cases msg addr now st with heq | ⟨-, heq⟩
    · rw [heq]
      exact h
    · rw [heq]
      exact ⟨⟨h.sighted.filed, h.sighted.allowed, h.sighted.spoke, h.sighted.seen, h.sighted.decided⟩,
        h.heard, h.latest, h.own⟩
  | learn node =>
    obtain ⟨hnow, hnode⟩ := ha
    change Handling cfg r known (Overlay.learn cfg node st).1
    have hplain : learnable cfg node = true → node.verified = false →
        ∀ e ∈ st.table.all, e.id = node.id → e.udp = r.src := fun hl hver e he hid =>
      h.own e he (hid ▸ (hnode hl).2 hver)
    rcases learn_cases node st with ⟨-, heq⟩ | ⟨hl, ⟨-, heq⟩ | ⟨-, ⟨-, heq⟩ | ⟨-, heq⟩⟩⟩
    · rw [heq]
      exact h
    · rw [heq]
      exact admit_handling horder h hl hnow (hnode hl).1 (hplain hl)
    · rw [heq]
      exact hasked _
    · rw [heq]
      exact admit_handling horder (hasked _) hl hnow (hnode hl).1 (hplain hl)

/-- Hearing a datagram leaves what was sighted, but at its own address. -/
structure Arrived (cfg : Config) (r : Received) (st : Overlay) : Prop where
  filed : st.table.Filed
  allowed : ∀ e ∈ st.table.all, cfg.policy.acceptsIp e.udp.ip = true
  spoke : ∀ e ∈ st.table.all, ∃ q ∈ st.received, q.src = e.udp ∧ e.lastSeen ≤ q.marked
  seen : ∀ e ∈ st.table.all, ∀ q ∈ st.received, q.src = e.udp → e.udp = r.src ∨ q.now ≤ e.lastSeen
  decided : ∀ d ∈ st.decisions, Unfrozen d
  heard : r ∈ st.received
  latest : ∀ q ∈ st.received, q.now ≤ r.now

/-- The answer to a query: its address is marked, then the sender is learned. -/
theorem Arrived.marked {st : Overlay} (horder : r.now ≤ r.marked) (h : Arrived cfg r st)
    (hown : ∀ e ∈ st.table.all, e.id ∈ known → e.udp = r.src) (sources : SourceState) :
    Handling cfg r known
      { st with table := st.table.markVerified r.src r.marked, sources := sources } := by
  have hentry : ∀ n ∈ (st.table.markVerified r.src r.marked).all, ∃ e ∈ st.table.all,
      n.id = e.id ∧ n.udp = e.udp ∧
        (e.udp = r.src ∧ n.lastSeen = r.marked ∨ e.udp ≠ r.src ∧ n.lastSeen = e.lastSeen) := by
    intro n hn
    obtain ⟨e, he, rfl⟩ := RoutingTable.mem_markVerified.mp hn
    refine ⟨e, he, ?_⟩
    unfold RoutingTable.marked
    split
    · next hsrc => exact ⟨rfl, rfl, .inl ⟨hsrc, rfl⟩⟩
    · next hsrc => exact ⟨rfl, rfl, .inr ⟨hsrc, rfl⟩⟩
  refine ⟨⟨h.filed.markVerified _ _, fun n hn => ?_, fun n hn => ?_, fun n hn q hq hsrc => ?_,
    h.decided⟩, h.heard, h.latest, fun n hn hid => ?_⟩
  · obtain ⟨e, he, -, hudp, -⟩ := hentry n hn
    rw [hudp]
    exact h.allowed e he
  · obtain ⟨e, he, -, hudp, ⟨hsrc, hlast⟩ | ⟨-, hlast⟩⟩ := hentry n hn
    · exact ⟨r, h.heard, (hudp.trans hsrc).symm, hlast.le⟩
    · rw [hudp, hlast]
      exact h.spoke e he
  · obtain ⟨e, he, -, hudp, ⟨-, hlast⟩ | ⟨hne, hlast⟩⟩ := hentry n hn
    · rw [hlast]
      exact (h.latest q hq).trans horder
    · rw [hlast]
      rw [hudp] at hsrc
      exact (h.seen e he q hq hsrc).resolve_left hne
  · obtain ⟨e, he, heid, hudp, -⟩ := hentry n hn
    rw [hudp]
    rw [heid] at hid
    exact hown e he hid

/-- Where no entry is at the address there is nothing to sight. -/
theorem Arrived.handling {st : Overlay} (h : Arrived cfg r st)
    (hown : ∀ e ∈ st.table.all, e.id ∈ known → e.udp = r.src)
    (hnone : ∀ e ∈ st.table.all, e.udp ≠ r.src) : Handling cfg r known st :=
  ⟨⟨h.filed, h.allowed, h.spoke,
    fun e he q hq hsrc => (h.seen e he q hq hsrc).resolve_left (hnone e he), h.decided⟩,
    h.heard, h.latest, hown⟩

/-- The sender's own entry is refreshed by its datagram. -/
theorem Arrived.named {node : Node} {st : Overlay} (horder : r.now ≤ r.marked) (h : Arrived cfg r st)
    (hown : ∀ e ∈ st.table.all, e.id ∈ known → e.udp = r.src) (hl : learnable cfg node = true)
    (hudp : node.udp = r.src) (hnow : node.lastSeen = r.now) (hver : node.verified = false)
    (hid : ∀ e ∈ st.table.all, e.udp = r.src → e.id = node.id)
    (hin : ∃ e ∈ st.table.all, e.udp = r.src) : Handling cfg r known (learn cfg node st).1 := by
  obtain ⟨x, hx, hxsrc⟩ := hin
  have hxid := hid x hx hxsrc
  have hc : st.table.contains node.id = true := h.filed.contains_iff.mpr ⟨x, hx, hxid⟩
  have heq : learn cfg node st = tableAdd node st := by
    rcases @learn_cases cfg node st with ⟨hnot, -⟩ | ⟨-, ⟨-, heq⟩ | ⟨hno, -⟩⟩
    · rw [hl] at hnot
      cases hnot
    · exact heq
    · rw [hc] at hno
      cases hno
  have hentry : ∀ n ∈ (st.table.add node).1.all, n ∈ st.table.all ∧ n.udp ≠ r.src ∨
      n.udp = r.src ∧ n.lastSeen = r.now ∧ n.id = node.id := by
    intro n hn
    by_cases hnid : n.id = node.id
    · refine .inr ?_
      rcases h.filed.add_own hn hnid with rfl | ⟨e, he, heid, rfl⟩
      · exact ⟨hudp, hnow, rfl⟩
      · have hex := h.filed.eq_of_id he hx (heid.trans hxid.symm)
        refine ⟨?_, by rw [refreshed_seen, hnow], hnid⟩
        rw [RoutingTable.refreshed, hver, if_neg Bool.false_ne_true, hex]
        exact hxsrc
    · rcases RoutingTable.mem_add hn with hn | rfl | ⟨e, -, heid, rfl⟩
      · exact .inl ⟨hn, fun hsrc => hnid (hid n hn hsrc)⟩
      · exact absurd rfl hnid
      · rw [RoutingTable.refreshed_id] at hnid
        exact absurd heid hnid
  rw [heq]
  refine ⟨⟨h.filed.add node, fun n hn => ?_, fun n hn => ?_, fun n hn q hq hsrc => ?_,
    fun d hd => ?_⟩, h.heard, h.latest, fun n hn hk => ?_⟩
  · rcases hentry n hn with ⟨hn, -⟩ | ⟨hn, -, -⟩
    · exact h.allowed n hn
    · rw [hn, ← hudp]
      exact learnable_ip hl
  · rcases hentry n hn with ⟨hn, -⟩ | ⟨hn, hlast, -⟩
    · exact h.spoke n hn
    · exact ⟨r, h.heard, hn.symm, hlast ▸ horder⟩
  · rcases hentry n hn with ⟨hn, hne⟩ | ⟨-, hlast, -⟩
    · exact (h.seen n hn q hq hsrc).resolve_left hne
    · rw [hlast]
      exact h.latest q hq
  · rcases List.mem_cons.mp hd with rfl | hd
    · exact unfrozen_refresh node h.filed hx hxid
    · exact h.decided d hd
  · rcases hentry n hn with ⟨hn, -⟩ | ⟨hn, -, -⟩
    · exact hown n hn hk
    · exact hn

/-- The sender of a datagram that answers no query. -/
theorem Arrived.sender {msg : DhtMsg} {src : SocketAddr} {now marked : Instant} {st : Overlay}
    (horder : now ≤ marked) (h : Arrived cfg ⟨msg, src, now, marked⟩ st)
    (hown : ∀ e ∈ st.table.all, e.id ∈ known → e.udp = src)
    (hknown : ∀ n ∈ senderNode msg src now, learnable cfg n = true → n.id ∈ known)
    (honly : ∀ e ∈ st.table.all, e.udp = src →
      ∃ n ∈ senderNode msg src now, n.id = e.id ∧ learnable cfg n = true) :
    Handling cfg ⟨msg, src, now, marked⟩ known (match unhex msg.sender.1 with
      | some id => (learn cfg ⟨id, src, msg.sender.2, false, now⟩ st).1
      | none => st) := by
  unfold senderNode at hknown honly
  cases hid : unhex msg.sender.1 with
  | none =>
    rw [hid] at honly
    refine h.handling hown fun e he hsrc => ?_
    obtain ⟨n, hn, -⟩ := honly e he hsrc
    cases hn
  | some id =>
    rw [hid] at hknown honly
    by_cases hex : ∃ e ∈ st.table.all, e.udp = src
    · obtain ⟨x, hx, hxsrc⟩ := hex
      obtain ⟨n, hn, -, hl⟩ := honly x hx hxsrc
      cases hn
      refine h.named horder hown hl rfl rfl rfl (fun e he hsrc => ?_) ⟨x, hx, hxsrc⟩
      obtain ⟨n, hn, heid, -⟩ := honly e he hsrc
      cases hn
      exact heid.symm
    · refine act_handling horder (.learn _) st ⟨rfl, fun hl => ⟨rfl, fun _ => ?_⟩⟩
        (h.handling hown fun e he hsrc => hex ⟨e, he, hsrc⟩)
      exact hknown _ rfl hl

theorem sight_handling {msg : DhtMsg} {src : SocketAddr} {c : Clock} {st : Overlay}
    (horder : c.now ≤ c.marked) (h : Arrived cfg ⟨msg, src, c.now, c.marked⟩ st)
    (hown : ∀ e ∈ st.table.all, e.id ∈ known → e.udp = src)
    (hknown : solicited msg src c.now st = false →
      ∀ n ∈ senderNode msg src c.now, learnable cfg n = true → n.id ∈ known)
    (honly : solicited msg src c.now st = false → ∀ e ∈ st.table.all, e.udp = src →
      ∃ n ∈ senderNode msg src c.now, n.id = e.id ∧ learnable cfg n = true) :
    Handling cfg ⟨msg, src, c.now, c.marked⟩ known (sight cfg msg src c st) := by
  unfold sight
  cases ha : msg.isAnswer with
  | false =>
    have hs : solicited msg src c.now st = false := by rw [solicited, ha, Bool.false_and]
    exact h.sender horder hown (hknown hs) (honly hs)
  | true =>
    have hs : (st.sources.takePending src c.now).2 = solicited msg src c.now st := by
      rw [solicited, ha, Bool.true_and, SourceState.takePending]
    simp only [if_true, hs]
    cases hsol : solicited msg src c.now st with
    | false =>
      have htaken : Arrived cfg ⟨msg, src, c.now, c.marked⟩
          { st with sources := (st.sources.takePending src c.now).1 } :=
        ⟨h.filed, h.allowed, h.spoke, h.seen, h.decided, h.heard, h.latest⟩
      exact htaken.sender horder hown (hknown hsol) (honly hsol)
    | true =>
      have hmarked := h.marked horder hown (st.sources.takePending src c.now).1
      rw [if_pos rfl]
      cases hid : unhex msg.sender.1 with
      | none => exact hmarked
      | some id =>
        refine act_handling horder (.learn _) _ ⟨rfl, fun _ => ⟨rfl, fun hver => ?_⟩⟩ hmarked
        cases hver

/-! ### Runs -/

/-- The acts between datagrams. -/
def Quiet : Act → Prop
  | .send .. | .allowPing .. => True
  | _ => False

theorem act_sighted (a : Act) (st : Overlay) (ha : Quiet a) (h : Sighted cfg st) :
    Sighted cfg (a.run cfg st) := by
  cases a with
  | allowPing addr now => exact ⟨h.filed, h.allowed, h.spoke, h.seen, h.decided⟩
  | take src now | mark src now | learn node | insert node => exact absurd ha id
  | send msg addr now =>
    change Sighted cfg (Overlay.send cfg msg addr now st)
    rcases send_cases msg addr now st with heq | ⟨-, heq⟩
    · rw [heq]
      exact h
    · rw [heq]
      exact ⟨h.filed, h.allowed, h.spoke, h.seen, h.decided⟩

theorem handle_sighted {msg : DhtMsg} {src : SocketAddr} {c : Clock} {st : Overlay}
    (h : Sighted cfg st) (hown : SightsOwn cfg st (.datagram msg src c))
    (htime : InTime st (.datagram msg src c)) : Sighted cfg (handle cfg msg src c st) := by
  obtain ⟨horder, hlater⟩ := htime
  have hspoke : ∀ e ∈ st.table.all, ∃ q ∈ (hear ⟨msg, src, c.now, c.marked⟩ st).received,
      q.src = e.udp ∧ e.lastSeen ≤ q.marked := by
    intro e he
    obtain ⟨q, hq, hsrc⟩ := h.spoke e he
    exact ⟨q, List.mem_cons_of_mem _ hq, hsrc⟩
  unfold handle
  dsimp only
  cases hip : cfg.policy.acceptsIp src.ip with
  | false =>
    refine ⟨h.filed, h.allowed, hspoke, fun e he q hq hsrc => ?_, h.decided⟩
    rcases List.mem_cons.mp hq with rfl | hq
    · have hall := h.allowed e he
      rw [← hsrc, hip] at hall
      cases hall
    · exact h.seen e he q hq hsrc
  | true =>
    obtain ⟨hplain, hrecords⟩ := hown hip
    have harrived : Arrived cfg ⟨msg, src, c.now, c.marked⟩
        (hear ⟨msg, src, c.now, c.marked⟩ st) := by
      refine ⟨h.filed, h.allowed, hspoke, fun e he q hq hsrc => ?_, h.decided,
        List.mem_cons_self .., fun q hq => ?_⟩
      · rcases List.mem_cons.mp hq with rfl | hq
        · exact .inl hsrc.symm
        · exact .inr (h.seen e he q hq hsrc)
      · rcases List.mem_cons.mp hq with rfl | hq
        · exact Nat.le_refl _
        · exact hlater q hq
    -- the ids that the datagram may refresh without a proof
    have hhandled : ∀ known : List NodeId, (∀ e ∈ st.table.all, e.id ∈ known → e.udp = src) →
        (solicited msg src c.now st = false →
          ∀ n ∈ senderNode msg src c.now, learnable cfg n = true → n.id ∈ known) →
        (∀ n ∈ hearsay cfg msg c.now, learnable cfg n = true → n.id ∈ known) →
        Sighted cfg (reply cfg msg src c (sight cfg msg src c (hear ⟨msg, src, c.now, c.marked⟩ st))) := by
      intro known hknown hsender hhearsay
      have hsight := sight_handling horder harrived hknown hsender fun hsol => (hplain hsol).2
      refine (reply_keeps (act_handling horder) hsight ⟨trivial, fun _ _ _ _ => trivial, trivial, trivial,
        fun node hnode => ⟨?_, fun hl => ⟨(hrecords node hnode hl).1, fun _ => hhearsay node hnode hl⟩⟩⟩).sighted
      obtain ⟨rec, _, hrec⟩ := List.mem_filterMap.mp hnode
      unfold relayed at hrec
      split at hrec
      · cases hrec
        rfl
      · cases hrec
    have hheard : ∀ e ∈ st.table.all,
        e.id ∈ ((hearsay cfg msg c.now).filter (learnable cfg)).map Node.id → e.udp = src := by
      intro e he hid
      obtain ⟨n, hn, hnid⟩ := List.mem_map.mp hid
      obtain ⟨hn, hl⟩ := List.mem_filter.mp hn
      exact (hrecords n hn hl).2 e he hnid.symm
    have hin : ∀ n ∈ hearsay cfg msg c.now, learnable cfg n = true →
        n.id ∈ ((hearsay cfg msg c.now).filter (learnable cfg)).map Node.id := fun n hn hl =>
      List.mem_map_of_mem (List.mem_filter.mpr ⟨hn, hl⟩)
    cases hsol : solicited msg src c.now st with
    | true =>
      refine hhandled _ hheard (fun hsol' => ?_) hin
      rw [hsol] at hsol'
      cases hsol'
    | false =>
      refine hhandled (((senderNode msg src c.now).toList.filter (learnable cfg)).map Node.id ++
        ((hearsay cfg msg c.now).filter (learnable cfg)).map Node.id) (fun e he hid => ?_)
        (fun _ n hn hl => ?_) fun n hn hl => List.mem_append_right _ (hin n hn hl)
      · rcases List.mem_append.mp hid with hid | hid
        · obtain ⟨n, hn, hnid⟩ := List.mem_map.mp hid
          obtain ⟨hn, hl⟩ := List.mem_filter.mp hn
          exact (hplain hsol).1 n (Option.mem_toList.mp hn) hl e he hnid.symm
        · exact hheard e he hid
      · apply List.mem_append_left
        exact List.mem_map_of_mem (List.mem_filter.mpr ⟨Option.mem_toList.mpr hn, hl⟩)

theorem step_sighted (st : Overlay) (e : Event) (h : Sighted cfg st)
    (he : SightsOwn cfg st e ∧ InTime st e) : Sighted cfg (step cfg st e) := by
  cases e with
  | datagram msg src c => exact handle_sighted h he.1 he.2
  | importNodes snapshot now => exact absurd he.2 id
  | bootstrap hosts clock => exact bootstrap_keeps act_sighted h fun _ _ => trivial
  | refresh clock =>
    exact refresh_keeps act_sighted h (fun _ _ _ _ => trivial) (fun _ _ _ => trivial)
      fun _ _ _ => trivial

theorem start_sighted : Sighted cfg (start cfg) := by
  have hnone : ∀ n, n ∉ (start cfg).table.all := by
    intro n hn
    obtain ⟨b, hb, hn⟩ := RoutingTable.mem_all.mp hn
    rw [(List.mem_replicate.mp hb).2] at hn
    cases hn
  exact ⟨RoutingTable.Filed.new cfg.selfId, fun n hn => absurd hn (hnone n),
    fun n hn => absurd hn (hnone n), fun n hn => absurd hn (hnone n),
    fun d hd => absurd hd List.not_mem_nil⟩

end

/-- Where every datagram sights what is at its own address and nothing else, hearsay keeps no
bucket full. -/
theorem run_unfrozen (es : List Event) (htime : AllMeet (step cfg) InTime (start cfg) es)
    (h : AllMeet (step cfg) (SightsOwn cfg) (start cfg) es) :
    ∀ d ∈ (run (step cfg) (start cfg) es).decisions, Unfrozen d :=
  (run_invariant step_sighted start_sighted (h.and htime)).decided

/-- A ping from the host with that first byte in its id and last byte in its address. -/
def pingOf (d : UInt8) (now : Instant) : Event :=
  .datagram (.ping (hex (idOf d 0)) 7000) (hostAt d 7001) (.at now)

/-- Eight hosts fill a bucket, a ninth is refused, and when they are silent a tenth gets in. -/
def pings : List Event :=
  ([16, 17, 18, 19, 20, 21, 22, 23, 24].map fun d => pingOf d 0) ++ [pingOf 25 (STALE_AFTER + 1)]

theorem pings_unfrozen :
    (run (step sampleConfig) (start sampleConfig) pings).decisions.map Decision.entered =
      true :: false :: List.replicate 8 true ∧
    ∀ d ∈ (run (step sampleConfig) (start sampleConfig) pings).decisions, Unfrozen d :=
  ⟨by decide +kernel, run_unfrozen sampleConfig pings (by decide +kernel) (by decide +kernel)⟩

/-- Host 66 relays eight records for one bucket, then a host of that bucket pings. -/
def relayedFirst : List Event :=
  [.datagram (.nodes (hex (idOf 64 0)) 7000 ((List.range 8).map fun i =>
      ⟨hex (idOf (16 + UInt8.ofNat i) 0), "57.129.12.7".toList, 7001, 7000⟩)) (hostAt 66 7001) (.at 0),
    pingOf 24 1]

/-- Eight relayed records fill a bucket and keep a live host out, and none of them ever spoke. -/
theorem hearsay_freezes :
    AllMeet (step sampleConfig) InTime (start sampleConfig) relayedFirst ∧
      ¬ ∀ d ∈ (run (step sampleConfig) (start sampleConfig) relayedFirst).decisions, Unfrozen d := by
  refine ⟨by decide +kernel, fun h => ?_⟩
  have hunspoken : ¬ ∀ d ∈ (run (step sampleConfig) (start sampleConfig) relayedFirst).decisions,
      d.entered = false → (∀ e ∈ d.incumbents, e.id ≠ d.node.id) →
        ∀ e ∈ d.incumbents, ∃ r ∈ d.heard, r.src = e.udp ∧ d.node.lastSeen - r.marked ≤ STALE_AFTER := by
    decide +kernel
  exact hunspoken fun d hd => (h d hd).refused

end P2pnas.Dht.Freshness
