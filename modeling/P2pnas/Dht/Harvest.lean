import P2pnas.Dht.AddrText

/-!
# What the discovery loop harvests (`discovery/dht.rs:67-103`)

A round of the loop takes the texts of the verified entries that the policy accepts, reads each one
back as a socket address, and registers those it still accepts. The texts have no brackets, so they
are read back as what they were written from on IPv4 and as nothing on IPv6.
-/

namespace P2pnas.Dht.Harvest
open P2pnas.Lib.Strings P2pnas.Lib.Runs P2pnas.Dht.Table P2pnas.Dht.Overlay P2pnas.Dht.AddrText

/-- A node whose texts are those of the standard library. -/
def nodeConfig (selfId : NodeId) (p2pPort : UInt16) (policy : AddrPolicy) : Config :=
  ⟨selfId, p2pPort, policy, parseIp, showIp⟩

def contactable (addr : Text) (policy : AddrPolicy) : Bool :=
  match parseSocketAddr addr with
  | some sa => policy.accepts sa.ip sa.port
  | none => false

/-- The addresses that a round of the loop registers, in order. -/
def harvested (cfg : Config) (st : Overlay) : List Text :=
  (peerAddrsVerified cfg st).filter fun addr => contactable addr cfg.policy

/-- The entry goes the whole way from the table to a peer. -/
structure Harvested (cfg : Config) (st : Overlay) (n : Node) : Prop where
  produced : addrText cfg n ∈ peerAddrsVerified cfg st
  exact : ∃ sa, parseSocketAddr (addrText cfg n) = some sa ∧ sa.ip = n.udp.ip ∧ sa.port = n.p2pPort
  accepted : contactable (addrText cfg n) cfg.policy = true
  reached : addrText cfg n ∈ harvested cfg st

/-- `IpAddr::is_ipv4`. -/
def isIpv4 : IpAddr → Bool
  | .v4 .. => true
  | .v6 .. => false

/-- `peer_addrs_verified` has a text for each entry. -/
theorem addrText_produced {cfg : Config} {st : Overlay} {n : Node} (hn : n ∈ st.table.all)
    (hv : n.verified = true) (ha : cfg.policy.accepts n.udp.ip n.p2pPort = true) :
    addrText cfg n ∈ peerAddrsVerified cfg st := by
  have hlisted : n ∈ listed cfg true st := by
    rw [listed, List.mem_filter, List.mem_filter]
    exact ⟨⟨hn, by simp [hv]⟩, ha⟩
  exact List.mem_map_of_mem hlisted

theorem contactable_v4 {policy : AddrPolicy} (a b c d : UInt8) (port : UInt16) :
    contactable (showIp (.v4 a b c d) ++ ':' :: Nat.toDigits 10 port.toNat) policy =
      policy.accepts (.v4 a b c d) port := by
  have hshow : showIp (.v4 a b c d) = showV4 a b c d := rfl
  rw [contactable, hshow, parseSocketAddr_showV4]
  rfl

/-- The text of an IPv6 entry is refused under every policy. -/
theorem contactable_v6 {policy : AddrPolicy} (s₀ s₁ s₂ s₃ s₄ s₅ s₆ s₇ : UInt16) (port : UInt16) :
    contactable (showIp (.v6 s₀ s₁ s₂ s₃ s₄ s₅ s₆ s₇) ++ ':' :: Nat.toDigits 10 port.toNat) policy = false := by
  rw [contactable, ((showIp_colon s₀ s₁ s₂ s₃ s₄ s₅ s₆ s₇).append _).parseSocketAddr]

/-- A verified entry that the policy accepts is harvested exactly on IPv4. -/
theorem harvested_iff (selfId : NodeId) (p2pPort : UInt16) (policy : AddrPolicy) (st : Overlay) (n : Node)
    (hn : n ∈ st.table.all) (hv : n.verified = true) (ha : policy.accepts n.udp.ip n.p2pPort = true) :
    Harvested (nodeConfig selfId p2pPort policy) st n ↔ isIpv4 n.udp.ip = true := by
  have hproduced : addrText (nodeConfig selfId p2pPort policy) n ∈
      peerAddrsVerified (nodeConfig selfId p2pPort policy) st := addrText_produced hn hv ha
  cases hip : n.udp.ip with
  | v4 a b c d =>
    have htext : addrText (nodeConfig selfId p2pPort policy) n =
        showIp (.v4 a b c d) ++ ':' :: Nat.toDigits 10 n.p2pPort.toNat := by
      rw [addrText, hip]
      rfl
    have haccepted : contactable (addrText (nodeConfig selfId p2pPort policy) n) policy = true := by
      rw [htext, contactable_v4, ← hip]
      exact ha
    refine ⟨fun _ => rfl, fun _ => ⟨hproduced, ?_, haccepted, List.mem_filter.mpr ⟨hproduced, haccepted⟩⟩⟩
    exact ⟨.new (.v4 a b c d) n.p2pPort, htext ▸ parseSocketAddr_showV4 a b c d n.p2pPort, hip.symm, rfl⟩
  | v6 s₀ s₁ s₂ s₃ s₄ s₅ s₆ s₇ =>
    have htext : addrText (nodeConfig selfId p2pPort policy) n =
        showIp (.v6 s₀ s₁ s₂ s₃ s₄ s₅ s₆ s₇) ++ ':' :: Nat.toDigits 10 n.p2pPort.toNat := by
      rw [addrText, hip]
      rfl
    constructor
    · intro h
      have haccepted := h.accepted
      rw [htext, contactable_v6] at haccepted
      cases haccepted
    · intro h
      cases h

/-! ### A host that proves its address -/

/-- The host asks, is challenged, and answers. -/
def proved (ip : IpAddr) : List Event :=
  [.datagram (.findNode (hex (idOf 2 0)) 7000 (hex (idOf 2 0))) (.new ip 7001) (.at 0),
    .datagram (.pong (hex (idOf 2 0)) 7000) (.new ip 7001) (.at 1)]

/-- The state after that of a node at the strict policy, and the entry of the host. -/
def afterProof (ip : IpAddr) : Overlay :=
  run (step (nodeConfig (idOf 0 0) 7000 .publicOnly)) (start (nodeConfig (idOf 0 0) 7000 .publicOnly)) (proved ip)

def entryOf (ip : IpAddr) : Node := ⟨idOf 2 0, .new ip 7001, 7000, true, 1⟩

theorem v4Host_harvested :
    Harvested (nodeConfig (idOf 0 0) 7000 .publicOnly) (afterProof (.v4 57 129 12 7)) (entryOf (.v4 57 129 12 7)) := by
  have hn : entryOf (.v4 57 129 12 7) ∈ (afterProof (.v4 57 129 12 7)).table.all := by decide +kernel
  have ha : AddrPolicy.publicOnly.accepts (entryOf (.v4 57 129 12 7)).udp.ip 7000 = true := by decide +kernel
  exact (harvested_iff (idOf 0 0) 7000 .publicOnly _ _ hn rfl ha).mpr rfl

/-- `2a01:e0a::1` proves its address, the policy accepts it, and it is not harvested. -/
theorem v6Host_lost :
    entryOf (.v6 0x2a01 0xe0a 0 0 0 0 0 1) ∈ (afterProof (.v6 0x2a01 0xe0a 0 0 0 0 0 1)).table.all ∧
    (entryOf (.v6 0x2a01 0xe0a 0 0 0 0 0 1)).verified = true ∧
    AddrPolicy.publicOnly.accepts (.v6 0x2a01 0xe0a 0 0 0 0 0 1) 7000 = true ∧
    peerAddrsVerified (nodeConfig (idOf 0 0) 7000 .publicOnly) (afterProof (.v6 0x2a01 0xe0a 0 0 0 0 0 1)) =
      ["2a01:e0a::1:7000".toList] ∧
    harvested (nodeConfig (idOf 0 0) 7000 .publicOnly) (afterProof (.v6 0x2a01 0xe0a 0 0 0 0 0 1)) = [] ∧
    ¬ Harvested (nodeConfig (idOf 0 0) 7000 .publicOnly) (afterProof (.v6 0x2a01 0xe0a 0 0 0 0 0 1))
      (entryOf (.v6 0x2a01 0xe0a 0 0 0 0 0 1)) := by
  have hnone : harvested (nodeConfig (idOf 0 0) 7000 .publicOnly) (afterProof (.v6 0x2a01 0xe0a 0 0 0 0 0 1)) = [] := by
    decide +kernel
  refine ⟨by decide +kernel, rfl, by decide +kernel, by decide +kernel, hnone, fun h => ?_⟩
  have hreached := h.reached
  rw [hnone] at hreached
  exact List.not_mem_nil hreached

end P2pnas.Dht.Harvest
