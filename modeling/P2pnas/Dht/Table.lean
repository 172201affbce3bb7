import Mathlib.Data.List.MinMax
import Mathlib.Data.List.Sort
import Mathlib.Data.Prod.Lex
import P2pnas.Lib.Strings
import P2pnas.Lib.Tables

/-!
# Addresses, ids and the routing table of the overlay (`dht.rs:45-363`)

A node of the overlay has a 160-bit id and a UDP address; the table files what is known of
the others into buckets by the distance of their ids. A bucket of `K` gives a silent entry
up for a newcomer and otherwise keeps what it has.
-/

namespace P2pnas.Dht.Table
open P2pnas.Lib.Frames P2pnas.Lib.Strings P2pnas.Lib.Tables

def ID_LEN : ℕ := 20
def K : ℕ := 8
def K_UNVERIFIED : ℕ := 2
def MAX_NODES_PER_MSG : ℕ := K

/-- The monotonic clock in nanoseconds. `saturating_duration_since` is the subtraction. -/
abbrev Instant := ℕ

def SECOND : Instant := 1000000000
def STALE_AFTER : Instant := 15 * 60 * SECOND

/-! ### Addresses -/

inductive IpAddr where
  | v4 (a b c d : UInt8)
  | v6 (s₀ s₁ s₂ s₃ s₄ s₅ s₆ s₇ : UInt16)
  deriving DecidableEq, Repr

/-- `flowinfo` and `scope_id` are those of a `SocketAddrV6`. -/
structure SocketAddr where
  ip : IpAddr
  port : UInt16
  flowinfo : UInt32
  scopeId : UInt32
  deriving DecidableEq, Repr

/-- `SocketAddr::new`. -/
def SocketAddr.new (ip : IpAddr) (port : UInt16) : SocketAddr := ⟨ip, port, 0, 0⟩

def isRoutableV4 (a b c d : UInt8) : Bool :=
  let unspecified := a = 0 && b = 0 && c = 0 && d = 0
  let loopback := a = 127
  let isPrivate := a = 10 || (a = 172 && b &&& 0xf0 = 16) || (a = 192 && b = 168)
  let linkLocal := a = 169 && b = 254
  let broadcast := a = 255 && b = 255 && c = 255 && d = 255
  let multicast := 224 ≤ a && a ≤ 239
  let documentation := (a = 192 && b = 0 && c = 2) || (a = 198 && b = 51 && c = 100) ||
    (a = 203 && b = 0 && c = 113)
  let thisNetwork := a = 0
  let cgnat := a = 100 && 64 ≤ b && b < 128
  let benchmarking := a = 198 && (b = 18 || b = 19)
  let reserved := 240 ≤ a
  !(unspecified || loopback || isPrivate || linkLocal || broadcast || multicast || documentation ||
    thisNetwork || cgnat || benchmarking || reserved)

/-- The IPv4 address in `::ffff:a.b.c.d` is judged as one. -/
def isRoutableIp : IpAddr → Bool
  | .v4 a b c d => isRoutableV4 a b c d
  | .v6 0 0 0 0 0 0xffff ab cd =>
    isRoutableV4 (ab >>> 8).toUInt8 ab.toUInt8 (cd >>> 8).toUInt8 cd.toUInt8
  | .v6 s₀ s₁ s₂ s₃ s₄ s₅ s₆ s₇ =>
    let unspecified := s₀ = 0 && s₁ = 0 && s₂ = 0 && s₃ = 0 && s₄ = 0 && s₅ = 0 && s₆ = 0 && s₇ = 0
    let loopback := s₀ = 0 && s₁ = 0 && s₂ = 0 && s₃ = 0 && s₄ = 0 && s₅ = 0 && s₆ = 0 && s₇ = 1
    let multicast := s₀ &&& 0xff00 = 0xff00
    let uniqueLocal := s₀ &&& 0xfe00 = 0xfc00
    let linkLocal := s₀ &&& 0xffc0 = 0xfe80
    let documentation := s₀ = 0x2001 && s₁ = 0x0db8
    let discard := s₀ = 0x0100 && s₁ = 0 && s₂ = 0 && s₃ = 0
    let embedded := s₀ = 0 && s₁ = 0 && s₂ = 0 && s₃ = 0 && s₄ = 0 && s₅ = 0
    !(unspecified || loopback || multicast || uniqueLocal || linkLocal || documentation || discard ||
      embedded)

def IpAddr.isUnspecified : IpAddr → Bool
  | .v4 a b c d => a = 0 && b = 0 && c = 0 && d = 0
  | .v6 s₀ s₁ s₂ s₃ s₄ s₅ s₆ s₇ =>
    s₀ = 0 && s₁ = 0 && s₂ = 0 && s₃ = 0 && s₄ = 0 && s₅ = 0 && s₆ = 0 && s₇ = 0

def IpAddr.isMulticast : IpAddr → Bool
  | .v4 a _ _ _ => 224 ≤ a && a ≤ 239
  | .v6 s₀ _ _ _ _ _ _ _ => s₀ &&& 0xff00 = 0xff00

def isBroadcast : IpAddr → Bool
  | .v4 a b c d => a = 255 && b = 255 && c = 255 && d = 255
  | .v6 .. => false

inductive AddrPolicy where
  | publicOnly
  | allowPrivate
  deriving DecidableEq, Repr

def AddrPolicy.acceptsIp (p : AddrPolicy) (ip : IpAddr) : Bool :=
  match p with
  | .publicOnly => isRoutableIp ip
  | .allowPrivate => !(ip.isUnspecified || ip.isMulticast || isBroadcast ip)

def isContactablePort (port : UInt16) : Bool := 1024 ≤ port

def AddrPolicy.accepts (p : AddrPolicy) (ip : IpAddr) (port : UInt16) : Bool :=
  isContactablePort port && p.acceptsIp ip

/-! ### Ids -/

structure NodeId where
  bytes : Bytes
  len : bytes.length = ID_LEN
  deriving DecidableEq

def xor (a b : NodeId) : NodeId where
  bytes := List.zipWith (· ^^^ ·) a.bytes b.bytes
  len := by rw [List.length_zipWith, a.len, b.len, Nat.min_self]

def bucketIndexFrom (i : ℕ) : Bytes → Option ℕ
  | [] => none
  | b :: bs => if b ≠ 0 then some (i * 8 + (7 - Nat.log2 b.toNat)) else bucketIndexFrom (i + 1) bs

/-- The position of the most significant bit of a distance; none for the node itself. -/
def bucketIndex (distance : NodeId) : Option ℕ := bucketIndexFrom 0 distance.bytes

def hex (id : NodeId) : Text := hexEncode id.bytes

/-- `u8::from_str_radix(_, 16)` of two characters; a leading plus sign is accepted. -/
def fromStrRadix (c d : Char) : Option Byte :=
  if c = '+' then (hexValue d).map UInt8.ofNat
  else match hexValue c, hexValue d with
    | some hi, some lo => some (UInt8.ofNat (hi * 16 + lo))
    | _, _ => none

def unhexPairs : Text → Option Bytes
  | [] => some []
  | [_] => none
  | c :: d :: s =>
    match fromStrRadix c d, unhexPairs s with
    | some b, some bs => some (b :: bs)
    | _, _ => none

def unhex (s : Text) : Option NodeId :=
  if byteLen s = ID_LEN * 2 then
    match unhexPairs s with
    | some bs => if h : bs.length = ID_LEN then some ⟨bs, h⟩ else none
    | none => none
  else none

/-- Byte arrays compared from the front. -/
def bytesLe : Bytes → Bytes → Bool
  | [], _ => true
  | _ :: _, [] => false
  | a :: as, b :: bs => a < b || (a == b && bytesLe as bs)

/-! ### The table -/

structure Node where
  id : NodeId
  udp : SocketAddr
  p2pPort : UInt16
  verified : Bool
  lastSeen : Instant
  deriving DecidableEq

structure RoutingTable where
  selfId : NodeId
  buckets : List (List Node)
  deriving DecidableEq

namespace RoutingTable

def new (selfId : NodeId) : RoutingTable := ⟨selfId, List.replicate (ID_LEN * 8) []⟩

/-- The bucket an id belongs to, with its index. -/
def indexOf (t : RoutingTable) (id : NodeId) : Option ℕ := bucketIndex (xor t.selfId id)

def bucketAt (t : RoutingTable) (i : ℕ) : List Node := t.buckets.getD i []

def contains (t : RoutingTable) (id : NodeId) : Bool :=
  match t.indexOf id with
  | some i => (t.bucketAt i).any fun n => n.id = id
  | none => false

/-- What a sighting makes of the entry with its id: an unproved one moves no address. -/
def refreshed (existing node : Node) : Node :=
  if node.verified then
    { existing with
      lastSeen := node.lastSeen, udp := node.udp, p2pPort := node.p2pPort, verified := true }
  else { existing with lastSeen := node.lastSeen }

/-- `STALE_AFTER` without a sighting. -/
def stale (now : Instant) (n : Node) : Bool := STALE_AFTER < now - n.lastSeen

/-- The entry a full bucket gives up: among the silent ones the first with the least
`(verified, last_seen)`. -/
def victim (now : Instant) (b : List Node) : Option (Node × ℕ) :=
  (b.zipIdx.filter fun p => stale now p.1).argmin fun p => toLex (p.1.verified, p.1.lastSeen)

/-- `add` on the bucket of the id. -/
def addTo (b : List Node) (node : Node) : List Node × Bool :=
  match b.find? fun n => n.id = node.id with
  | some existing => ((b.eraseP fun n => n.id = node.id) ++ [refreshed existing node], false)
  | none =>
    if b.length < K then (b ++ [node], true)
    else match victim node.lastSeen b with
      | some v => (b.set v.2 node, true)
      | none => (b, false)

/-- `RoutingTable::add` (`dht.rs:283-326`): the table, and whether a new id entered it. -/
def add (t : RoutingTable) (node : Node) : RoutingTable × Bool :=
  match t.indexOf node.id with
  | none => (t, false)
  | some i =>
    let r := addTo (t.bucketAt i) node
    ({ t with buckets := t.buckets.set i r.1 }, r.2)

/-- What a proved address makes of an entry. -/
def marked (addr : SocketAddr) (now : Instant) (n : Node) : Node :=
  if n.udp = addr then { n with verified := true, lastSeen := now } else n

def markVerified (t : RoutingTable) (addr : SocketAddr) (now : Instant) : RoutingTable :=
  { t with buckets := t.buckets.map (List.map (marked addr now)) }

def all (t : RoutingTable) : List Node := t.buckets.flatten

def isVerifiedSource (t : RoutingTable) (addr : SocketAddr) : Bool :=
  t.all.any fun n => n.udp = addr && n.verified

/-- The `count` entries closest to `target`. -/
def closest (t : RoutingTable) (target : NodeId) (count : ℕ) : List Node :=
  (t.all.insertionSort fun a b =>
    bytesLe (xor a.id target).bytes (xor b.id target).bytes = true).take count

/-! ### Where an entry comes from -/

section
variable {t : RoutingTable} {n node : Node}

theorem mem_all : n ∈ t.all ↔ ∃ b ∈ t.buckets, n ∈ b := List.mem_flatten

theorem mem_all_of_bucketAt {i : ℕ} (h : n ∈ t.bucketAt i) : n ∈ t.all := by
  rw [bucketAt, List.getD_eq_getElem?_getD] at h
  cases hb : t.buckets[i]? with
  | none =>
    rw [hb] at h
    cases h
  | some b =>
    rw [hb] at h
    exact mem_all.mpr ⟨b, List.mem_of_getElem? hb, h⟩

theorem mem_closest {target : NodeId} {count : ℕ} (h : n ∈ t.closest target count) : n ∈ t.all :=
  (List.mem_insertionSort _).mp (List.mem_of_mem_take h)

theorem mem_markVerified {addr : SocketAddr} {now : Instant} :
    n ∈ (t.markVerified addr now).all ↔ ∃ e ∈ t.all, n = marked addr now e := by
  rw [mem_all]
  constructor
  · rintro ⟨b, hb, hn⟩
    obtain ⟨b₀, hb₀, rfl⟩ := List.mem_map.mp hb
    obtain ⟨e, he, rfl⟩ := List.mem_map.mp hn
    exact ⟨e, mem_all.mpr ⟨b₀, hb₀, he⟩, rfl⟩
  · rintro ⟨e, he, rfl⟩
    obtain ⟨b, hb, he⟩ := mem_all.mp he
    exact ⟨_, List.mem_map_of_mem hb, List.mem_map_of_mem he⟩

/-! ### One bucket -/

section
variable {b : List Node} {now : Instant}

theorem victim_some {v : Node} {i : ℕ} (h : victim now b = some (v, i)) :
    b[i]? = some v ∧ stale now v = true ∧
      ∀ e ∈ b, stale now e = true → toLex (v.verified, v.lastSeen) ≤ toLex (e.verified, e.lastSeen) := by
  have hmem := List.argmin_mem h
  obtain ⟨hidx, hstale⟩ := List.mem_filter.mp hmem
  refine ⟨List.mem_zipIdx_iff_getElem?.mp hidx, hstale, fun e he hs => ?_⟩
  obtain ⟨j, hj⟩ := List.mem_iff_getElem?.mp he
  have hin : (e, j) ∈ b.zipIdx.filter fun p => stale now p.1 :=
    List.mem_filter.mpr ⟨List.mem_zipIdx_iff_getElem?.mpr hj, hs⟩
  exact List.le_of_mem_argmin (f := fun p : Node × ℕ => toLex (p.1.verified, p.1.lastSeen)) hin h

theorem victim_none (h : victim now b = none) : ∀ e ∈ b, stale now e = false := by
  intro e he
  have hnil := List.argmin_eq_none.mp h
  obtain ⟨j, hj⟩ := List.mem_iff_getElem?.mp he
  have hnot := List.filter_eq_nil_iff.mp hnil (e, j) (List.mem_zipIdx_iff_getElem?.mpr hj)
  simpa using hnot

/-- A sighting refreshes, fills, replaces or is refused. -/
theorem addTo_cases (b : List Node) (node : Node) :
    (∃ e ∈ b, e.id = node.id ∧
      addTo b node = ((b.eraseP fun n => n.id = node.id) ++ [refreshed e node], false)) ∨
    (∀ e ∈ b, e.id ≠ node.id) ∧
      (b.length < K ∧ addTo b node = (b ++ [node], true) ∨
        K ≤ b.length ∧
          ((∃ v i, victim node.lastSeen b = some (v, i) ∧ addTo b node = (b.set i node, true)) ∨
            victim node.lastSeen b = none ∧ addTo b node = (b, false))) := by
  unfold addTo
  split
  · next existing hf =>
    have hid := List.find?_some hf
    exact .inl ⟨existing, List.mem_of_find?_eq_some hf, of_decide_eq_true hid, rfl⟩
  · next hf =>
    have hne : ∀ e ∈ b, e.id ≠ node.id := fun e he => by simpa using List.find?_eq_none.mp hf e he
    refine .inr ⟨hne, ?_⟩
    split
    · next hlt => exact .inl ⟨hlt, rfl⟩
    · next hge =>
      refine .inr ⟨Nat.not_lt.mp hge, ?_⟩
      split
      · next v hv => exact .inl ⟨v.1, v.2, hv, rfl⟩
      · next hv => exact .inr ⟨hv, rfl⟩

theorem mem_addTo (h : n ∈ (addTo b node).1) :
    n ∈ b ∨ n = node ∨ ∃ e ∈ b, e.id = node.id ∧ n = refreshed e node := by
  rcases addTo_cases b node with ⟨e, he, hid, heq⟩ | ⟨-, ⟨-, heq⟩ | ⟨-, ⟨v, i, -, heq⟩ | ⟨-, heq⟩⟩⟩
  · rw [heq] at h
    rcases List.mem_append.mp h with h | h
    · exact .inl (List.mem_of_mem_eraseP h)
    · exact .inr (.inr ⟨e, he, hid, List.mem_singleton.mp h⟩)
  · rw [heq] at h
    rcases List.mem_append.mp h with h | h
    · exact .inl h
    · exact .inr (.inl (List.mem_singleton.mp h))
  · rw [heq] at h
    rcases List.mem_or_eq_of_mem_set h with h | h
    · exact .inl h
    · exact .inr (.inl h)
  · rw [heq] at h
    exact .inl h

end

/-- What `add` did to the bucket of the id. -/
theorem add_eq (t : RoutingTable) (node : Node) :
    t.indexOf node.id = none ∧ t.add node = (t, false) ∨
      ∃ i, t.indexOf node.id = some i ∧
        t.add node = ({ t with buckets := t.buckets.set i (addTo (t.bucketAt i) node).1 },
          (addTo (t.bucketAt i) node).2) := by
  cases hi : t.indexOf node.id with
  | none => exact .inl ⟨rfl, by rw [add, hi]⟩
  | some i => exact .inr ⟨i, rfl, by rw [add, hi]⟩

/-- An entry after `add`: untouched, the node itself, or the entry with its id refreshed. -/
theorem mem_add (h : n ∈ (t.add node).1.all) :
    n ∈ t.all ∨ n = node ∨ ∃ e ∈ t.all, e.id = node.id ∧ n = refreshed e node := by
  rcases add_eq t node with ⟨-, heq⟩ | ⟨i, -, heq⟩
  · rw [heq] at h
    exact .inl h
  · rw [heq] at h
    obtain ⟨b, hb, hn⟩ := mem_all.mp h
    rcases List.mem_or_eq_of_mem_set hb with hb | rfl
    · exact .inl (mem_all.mpr ⟨b, hb, hn⟩)
    · rcases mem_addTo hn with hn | hn | ⟨e, he, hid, hn⟩
      · exact .inl (mem_all_of_bucketAt hn)
      · exact .inr (.inl hn)
      · exact .inr (.inr ⟨e, mem_all_of_bucketAt he, hid, hn⟩)

/-! ### Filing -/

theorem bucketIndexFrom_lt {i k : ℕ} {bs : Bytes} (h : bucketIndexFrom i bs = some k) :
    k < (i + bs.length) * 8 := by
  induction bs generalizing i with
  | nil => cases h
  | cons b bs ih =>
    rw [bucketIndexFrom] at h
    rw [List.length_cons]
    split at h
    · cases h
      omega
    · have hk := ih h
      omega

/-- Every entry is in the bucket of its id, once, and no bucket is above `K`. -/
structure Filed (t : RoutingTable) : Prop where
  size : t.buckets.length = ID_LEN * 8
  home : ∀ i, ∀ n ∈ t.bucketAt i, t.indexOf n.id = some i
  unique : ∀ i, ((t.bucketAt i).map Node.id).Nodup
  bounded : ∀ i, (t.bucketAt i).length ≤ K

theorem Filed.index_lt (h : Filed t) {id : NodeId} {i : ℕ} (hi : t.indexOf id = some i) :
    i < t.buckets.length := by
  have hlt := bucketIndexFrom_lt hi
  rw [(xor t.selfId id).len] at hlt
  rw [h.size]
  omega

theorem bucketAt_of_mem {n : Node} (h : n ∈ t.all) : ∃ i, n ∈ t.bucketAt i := by
  obtain ⟨b, hb, hn⟩ := mem_all.mp h
  obtain ⟨i, hi⟩ := List.mem_iff_getElem?.mp hb
  exact ⟨i, by rwa [bucketAt, List.getD_eq_getElem?_getD, hi]⟩

theorem Filed.eq_of_id (h : Filed t) {m : Node} (hn : n ∈ t.all) (hm : m ∈ t.all) (hid : n.id = m.id) :
    n = m := by
  obtain ⟨i, hi⟩ := bucketAt_of_mem hn
  obtain ⟨j, hj⟩ := bucketAt_of_mem hm
  have hij : some i = some j := (h.home i n hi).symm.trans (hid ▸ h.home j m hj)
  cases hij
  exact List.inj_on_of_nodup_map (h.unique i) hi hj hid

theorem Filed.contains_iff (h : Filed t) {id : NodeId} :
    t.contains id = true ↔ ∃ n ∈ t.all, n.id = id := by
  unfold contains
  constructor
  · intro hc
    split at hc
    · next i _ =>
      obtain ⟨n, hn, hid⟩ := List.any_eq_true.mp hc
      exact ⟨n, mem_all_of_bucketAt hn, of_decide_eq_true hid⟩
    · cases hc
  · rintro ⟨n, hn, rfl⟩
    obtain ⟨i, hi⟩ := bucketAt_of_mem hn
    rw [h.home i n hi]
    exact List.any_eq_true.mpr ⟨n, hi, decide_eq_true rfl⟩

theorem bucketAt_set {i : ℕ} (hi : i < t.buckets.length) (b : List Node) (j : ℕ) :
    bucketAt { t with buckets := t.buckets.set i b } j = if j = i then b else t.bucketAt j := by
  simp only [bucketAt, List.getD_eq_getElem?_getD, List.getElem?_set]
  by_cases hj : i = j
  · subst hj
    rw [if_pos rfl, if_pos hi, if_pos rfl, Option.getD_some]
  · rw [if_neg hj, if_neg (Ne.symm hj)]

theorem refreshed_id (e : Node) : (refreshed e node).id = e.id := by
  unfold refreshed
  split
  · rfl
  · rfl

/-- A refreshed bucket has the same ids, in another order. -/
theorem erased_ids {b : List Node} {e : Node} (he : e ∈ b) (hid : e.id = node.id) :
    ((b.eraseP (fun n => n.id = node.id) ++ [refreshed e node]).map Node.id).Perm (b.map Node.id) := by
  have hsel : (fun n : Node => decide (n.id = node.id)) e = true := decide_eq_true hid
  obtain ⟨a, l₁, l₂, -, ha, hb, herase⟩ :=
    List.exists_of_eraseP (p := fun n : Node => decide (n.id = node.id)) he hsel
  have haid : a.id = node.id := of_decide_eq_true ha
  rw [herase, hb, List.map_append, List.map_append, List.map_append, List.map_cons, List.map_cons,
    List.map_nil, refreshed_id, hid, haid, List.append_assoc]
  exact List.Perm.append_left _ (List.perm_append_singleton _ _)

theorem Filed.new (selfId : NodeId) : Filed (RoutingTable.new selfId) := by
  have hnil : ∀ i, (RoutingTable.new selfId).bucketAt i = [] := by
    intro i
    rw [bucketAt, RoutingTable.new, List.getD_eq_getElem?_getD, List.getElem?_replicate]
    split
    · rfl
    · rfl
  refine ⟨List.length_replicate, fun i n hn => ?_, fun i => ?_, fun i => ?_⟩
  · rw [hnil i] at hn
    cases hn
  · rw [hnil i]
    exact List.nodup_nil
  · rw [hnil i]
    exact Nat.zero_le _

theorem Filed.markVerified (h : Filed t) (addr : SocketAddr) (now : Instant) :
    Filed (t.markVerified addr now) := by
  have hid : ∀ n, (marked addr now n).id = n.id := by
    intro n
    unfold marked
    split
    · rfl
    · rfl
  have hat : ∀ i, (t.markVerified addr now).bucketAt i = (t.bucketAt i).map (marked addr now) := by
    intro i
    rw [bucketAt, RoutingTable.markVerified, List.getD_eq_getElem?_getD, List.getElem?_map, bucketAt,
      List.getD_eq_getElem?_getD]
    cases t.buckets[i]? with
    | none => rfl
    | some b => rfl
  have hids : Node.id ∘ marked addr now = Node.id := funext hid
  refine ⟨by rw [RoutingTable.markVerified, List.length_map, h.size], fun i n hn => ?_, fun i => ?_,
    fun i => ?_⟩
  · rw [hat i] at hn
    obtain ⟨e, he, rfl⟩ := List.mem_map.mp hn
    rw [hid e]
    exact h.home i e he
  · rw [hat i, List.map_map, hids]
    exact h.unique i
  · rw [hat i, List.length_map]
    exact h.bounded i

theorem addTo_unique {b : List Node} (hb : (b.map Node.id).Nodup) :
    ((addTo b node).1.map Node.id).Nodup := by
  rcases addTo_cases b node with ⟨e, he, hid, heq⟩ | ⟨hne, ⟨-, heq⟩ | ⟨-, ⟨v, i, -, heq⟩ | ⟨-, heq⟩⟩⟩
  · rw [heq]
    exact (erased_ids he hid).nodup_iff.mpr hb
  · rw [heq]
    refine nodup_concat hb fun hm => ?_
    obtain ⟨e, he, hid⟩ := List.mem_map.mp hm
    exact hne e he hid
  · rw [heq, List.map_set]
    refine hb.set fun hm => ?_
    obtain ⟨e, he, hid⟩ := List.mem_map.mp hm
    exact hne e he hid
  · rw [heq]
    exact hb

theorem addTo_bounded {b : List Node} (hb : b.length ≤ K) : (addTo b node).1.length ≤ K := by
  rcases addTo_cases b node with ⟨e, he, hid, heq⟩ | ⟨-, ⟨hlt, heq⟩ | ⟨-, ⟨v, i, -, heq⟩ | ⟨-, heq⟩⟩⟩
  · have hlen := (erased_ids he hid).length_eq
    rw [List.length_map, List.length_map] at hlen
    rw [heq, hlen]
    exact hb
  · rw [heq, List.length_append, List.length_singleton]
    exact hlt
  · rw [heq, List.length_set]
    exact hb
  · rw [heq]
    exact hb

theorem Filed.add (h : Filed t) (node : Node) : Filed (t.add node).1 := by
  rcases add_eq t node with ⟨-, heq⟩ | ⟨i, hi, heq⟩
  · rw [heq]
    exact h
  · rw [heq]
    have hlt := h.index_lt hi
    refine ⟨by rw [List.length_set]; exact h.size, fun j n hn => ?_, fun j => ?_, fun j => ?_⟩
    · change t.indexOf n.id = some j
      rw [bucketAt_set hlt] at hn
      split at hn
      · next hji =>
        rw [hji]
        rcases mem_addTo hn with hn | rfl | ⟨e, he, -, rfl⟩
        · exact h.home i n hn
        · exact hi
        · rw [refreshed_id]
          exact h.home i e he
      · exact h.home j n hn
    · rw [bucketAt_set hlt]
      split
      · exact addTo_unique (h.unique i)
      · exact h.unique j
    · rw [bucketAt_set hlt]
      split
      · exact addTo_bounded (h.bounded i)
      · exact h.bounded j

/-- An id that is in the table enters it no second time. -/
theorem add_contained (h : t.contains node.id = true) : (t.add node).2 = false := by
  unfold contains at h
  rcases add_eq t node with ⟨-, heq⟩ | ⟨i, hi, heq⟩
  · rw [heq]
  · rw [hi] at h
    obtain ⟨e, he, hid⟩ := List.any_eq_true.mp h
    rw [heq]
    rcases addTo_cases (t.bucketAt i) node with ⟨_, _, _, hadd⟩ | ⟨hne, -⟩
    · rw [hadd]
    · exact absurd (of_decide_eq_true hid) (hne e he)

/-- Only a victim leaves its bucket. -/
theorem addTo_evicts {b : List Node} {e : Node} (he : e ∈ b)
    (hout : ∀ k ∈ (addTo b node).1, k.id ≠ e.id) : ∃ i, victim node.lastSeen b = some (e, i) := by
  rcases addTo_cases b node with ⟨x, hx, hid, heq⟩ | ⟨-, ⟨-, heq⟩ | ⟨-, ⟨v, i, hv, heq⟩ | ⟨-, heq⟩⟩⟩
  · rw [heq] at hout
    have hmem := (@erased_ids node _ _ hx hid).symm.subset (List.mem_map_of_mem he)
    obtain ⟨k, hk, hkid⟩ := List.mem_map.mp hmem
    exact absurd hkid (hout k hk)
  · rw [heq] at hout
    exact absurd rfl (hout e (List.mem_append_left _ he))
  · obtain ⟨hget, -, -⟩ := victim_some hv
    obtain ⟨j, hj⟩ := List.mem_iff_getElem?.mp he
    rw [heq] at hout
    by_cases hij : i = j
    · subst hij
      rw [hget] at hj
      cases hj
      exact ⟨i, hv⟩
    · have hmem : e ∈ b.set i node := by
        apply List.mem_of_getElem? (i := j)
        rw [List.getElem?_set_ne hij, hj]
      exact absurd rfl (hout e hmem)
  · rw [heq] at hout
    exact absurd rfl (hout e he)

/-- An entry that is not silent stays in its bucket, at most refreshed. -/
theorem addTo_fresh {b : List Node} {e : Node} (he : e ∈ b) (hf : stale node.lastSeen e = false) :
    ∃ e' ∈ (addTo b node).1, e'.id = e.id ∧ stale node.lastSeen e' = false := by
  rcases addTo_cases b node with ⟨x, hx, hid, heq⟩ | ⟨-, ⟨-, heq⟩ | ⟨-, ⟨v, i, hv, heq⟩ | ⟨-, heq⟩⟩⟩
  · rw [heq]
    by_cases heid : e.id = node.id
    · refine ⟨refreshed x node, List.mem_append_right _ (List.mem_singleton.mpr rfl), ?_, ?_⟩
      · rw [refreshed_id, hid, heid]
      · have hseen : (refreshed x node).lastSeen = node.lastSeen := by
          unfold refreshed
          split
          · rfl
          · rfl
        rw [stale, hseen, Nat.sub_self]
        rfl
    · have hkept : e ∈ b.eraseP fun n => n.id = node.id :=
        (List.mem_eraseP_of_neg (by simpa using heid)).mpr he
      exact ⟨e, List.mem_append_left _ hkept, rfl, hf⟩
  · rw [heq]
    exact ⟨e, List.mem_append_left _ he, rfl, hf⟩
  · obtain ⟨hget, hstale, -⟩ := victim_some hv
    obtain ⟨j, hj⟩ := List.mem_iff_getElem?.mp he
    have hij : i ≠ j := by
      rintro rfl
      rw [hget] at hj
      cases hj
      rw [hstale] at hf
      cases hf
    rw [heq]
    refine ⟨e, List.mem_of_getElem? (i := j) ?_, rfl, hf⟩
    rw [List.getElem?_set_ne hij, hj]
  · rw [heq]
    exact ⟨e, he, rfl, hf⟩

theorem Filed.add_fresh (h : Filed t) {e : Node} (he : e ∈ t.all)
    (hf : stale node.lastSeen e = false) :
    ∃ e' ∈ (t.add node).1.all, e'.id = e.id ∧ stale node.lastSeen e' = false := by
  rcases add_eq t node with ⟨-, heq⟩ | ⟨i, hi, heq⟩
  · rw [heq]
    exact ⟨e, he, rfl, hf⟩
  · have hlt := h.index_lt hi
    have hat : ∀ j, (t.add node).1.bucketAt j =
        if j = i then (addTo (t.bucketAt i) node).1 else t.bucketAt j := by
      intro j
      rw [heq, bucketAt_set hlt]
    obtain ⟨j, hj⟩ := bucketAt_of_mem he
    by_cases hji : j = i
    · subst hji
      obtain ⟨e', he', hid, hf'⟩ := addTo_fresh hj hf
      refine ⟨e', mem_all_of_bucketAt (i := j) ?_, hid, hf'⟩
      rw [hat j, if_pos rfl]
      exact he'
    · refine ⟨e, mem_all_of_bucketAt (i := j) ?_, rfl, hf⟩
      rw [hat j, if_neg hji]
      exact hj

/-- After `add`, the entry with the id of the node is the node or was refreshed by it. -/
theorem Filed.add_own (h : Filed t) (hn : n ∈ (t.add node).1.all) (hid : n.id = node.id) :
    n = node ∨ ∃ e ∈ t.all, e.id = node.id ∧ n = refreshed e node := by
  have hf := h.add node
  rcases mem_add hn with hold | hn' | hn'
  · rcases add_eq t node with ⟨hi, heq⟩ | ⟨i, hi, heq⟩
    · obtain ⟨j, hj⟩ := bucketAt_of_mem hold
      have hhome := h.home j n hj
      rw [hid, hi] at hhome
      cases hhome
    · have hlt := h.index_lt hi
      have hin : ∀ m ∈ (addTo (t.bucketAt i) node).1, m ∈ (t.add node).1.all := by
        intro m hm
        apply mem_all_of_bucketAt (i := i)
        rw [heq, bucketAt_set hlt, if_pos rfl]
        exact hm
      obtain ⟨j, hj⟩ := bucketAt_of_mem hold
      have hji : some j = some i := (h.home j n hj).symm.trans (hid ▸ hi)
      cases hji
      rcases addTo_cases (t.bucketAt i) node with ⟨e, he, heid, hadd⟩ | ⟨hne, -⟩
      · have hr : refreshed e node ∈ (addTo (t.bucketAt i) node).1 := by
          rw [hadd]
          exact List.mem_append_right _ (List.mem_singleton.mpr rfl)
        have hsame := hf.eq_of_id hn (hin _ hr) (by rw [refreshed_id, heid, hid])
        exact .inr ⟨e, mem_all_of_bucketAt he, heid, hsame⟩
      · exact absurd hid (hne n hj)
  · exact .inl hn'
  · exact .inr hn'

end

end RoutingTable

end P2pnas.Dht.Table
