import P2pnas.Dht.Table
import P2pnas.Lib.Runs
import P2pnas.Lib.Tables

/-!
# A node of the overlay (`dht.rs:365-767`)

The bookkeeping of sources, the messages, and the calls of a node: it handles datagrams one
after the other, and between them it imports a snapshot, asks its bootstrap hosts and
refreshes. Every reading of the clock is an argument. A call is a list of acts, each of which
touches the table or the bookkeeping once; what a node did is logged beside its state.
-/

namespace P2pnas.Dht.Overlay
open P2pnas.Lib.Strings P2pnas.Lib.Tables P2pnas.Lib.Runs P2pnas.Dht.Table

def LEARN_PER_WINDOW : ℕ := 16
def LEARN_WINDOW : Instant := 60 * SECOND
def PENDING_TTL : Instant := 120 * SECOND
def PING_MIN_INTERVAL : Instant := 30 * SECOND
def VERIFY_BATCH : ℕ := 8
def MAX_TRACKED_SOURCES : ℕ := 4096
def MAX_PERSIST_NODES : ℕ := 512

/-! ### Bookkeeping of sources (`dht.rs:365-430`) -/

structure SourceState where
  learn : List (IpAddr × Instant × ℕ)
  pending : List (SocketAddr × Instant)
  pinged : List (SocketAddr × Instant)
  deriving DecidableEq

namespace SourceState

def empty : SourceState := ⟨[], [], []⟩

/-- A map at its bound drops what has expired, or everything. -/
def pruned {ρ : Type} (live : ρ → Bool) (rows : List ρ) : List ρ :=
  if MAX_TRACKED_SOURCES ≤ rows.length then
    let kept := rows.filter live
    if MAX_TRACKED_SOURCES ≤ kept.length then [] else kept
  else rows

def prune (s : SourceState) (now : Instant) : SourceState where
  learn := pruned (fun r => now - r.2.1 ≤ LEARN_WINDOW) s.learn
  pending := pruned (fun r => now - r.2 ≤ PENDING_TTL) s.pending
  pinged := pruned (fun r => now - r.2 ≤ PING_MIN_INTERVAL) s.pinged

/-- The budget of a source: the start of its window and what it created in it. -/
def slotOf (s : SourceState) (ip : IpAddr) : Option (Instant × ℕ) :=
  (lookup Prod.fst ip s.learn).map Prod.snd

def allowLearn (s : SourceState) (ip : IpAddr) (now : Instant) : SourceState × Bool :=
  let s := s.prune now
  let slot := (s.slotOf ip).getD (now, 0)
  let slot := if LEARN_WINDOW < now - slot.1 then (now, 0) else slot
  if LEARN_PER_WINDOW ≤ slot.2 then ({ s with learn := upsert Prod.fst (ip, slot) s.learn }, false)
  else ({ s with learn := upsert Prod.fst (ip, slot.1, slot.2 + 1) s.learn }, true)

def noteQuery (s : SourceState) (addr : SocketAddr) (now : Instant) : SourceState :=
  let s := s.prune now
  { s with pending := upsert Prod.fst (addr, now) s.pending }

def askedAt (s : SourceState) (addr : SocketAddr) : Option Instant :=
  (lookup Prod.fst addr s.pending).map Prod.snd

/-- An outstanding query to the address that has not expired. -/
def asked (s : SourceState) (addr : SocketAddr) (now : Instant) : Bool :=
  match s.askedAt addr with
  | some t => now - t ≤ PENDING_TTL
  | none => false

def takePending (s : SourceState) (addr : SocketAddr) (now : Instant) : SourceState × Bool :=
  ({ s with pending := remove Prod.fst addr s.pending }, s.asked addr now)

def allowPing (s : SourceState) (addr : SocketAddr) (now : Instant) : SourceState × Bool :=
  let s := s.prune now
  let recent := match (lookup Prod.fst addr s.pinged).map Prod.snd with
    | some t => decide (now - t < PING_MIN_INTERVAL)
    | none => false
  if recent then (s, false)
  else ({ s with pinged := upsert Prod.fst (addr, now) s.pinged }, true)

end SourceState

/-! ### Messages (`dht.rs:432-482`) -/

structure PersistNode where
  id : Text
  ip : Text
  udpPort : UInt16
  p2pPort : UInt16
  deriving DecidableEq

structure NodeRec where
  id : Text
  ip : Text
  udpPort : UInt16
  p2pPort : UInt16
  deriving DecidableEq

inductive DhtMsg where
  | ping (sender : Text) (p2p : UInt16)
  | pong (sender : Text) (p2p : UInt16)
  | findNode (sender : Text) (p2p : UInt16) (target : Text)
  | nodes (sender : Text) (p2p : UInt16) (nodes : List NodeRec)
  deriving DecidableEq

def DhtMsg.sender : DhtMsg → Text × UInt16
  | .ping s p | .pong s p | .findNode s p _ | .nodes s p _ => (s, p)

def DhtMsg.isAnswer : DhtMsg → Bool
  | .pong .. | .nodes .. => true
  | _ => false

/-! ### The state of a node -/

/-- What a node is set up with. The text of an IP address is read and written by the
standard library. -/
structure Config where
  selfId : NodeId
  p2pPort : UInt16
  policy : AddrPolicy
  parseIp : Text → Option IpAddr
  showIp : IpAddr → Text

/-- A datagram that arrived, with the readings of the clock while it was handled. -/
structure Received where
  msg : DhtMsg
  src : SocketAddr
  now : Instant
  marked : Instant
  deriving DecidableEq

/-- A node that passed the policy and the budget: the bucket before and after, and what had
arrived by then. -/
structure Decision where
  node : Node
  incumbents : List Node
  kept : List Node
  entered : Bool
  heard : List Received
  deriving DecidableEq

/-- A datagram that left, and whether the table had an entry at its address. -/
structure Sent where
  msg : DhtMsg
  addr : SocketAddr
  known : Bool
  deriving DecidableEq

/-- The table and the bookkeeping; then what was received, sent and decided, latest first. -/
structure Overlay where
  table : RoutingTable
  sources : SourceState
  received : List Received
  sent : List Sent
  decisions : List Decision
  deriving DecidableEq

variable (cfg : Config)

def start : Overlay := ⟨RoutingTable.new cfg.selfId, .empty, [], [], []⟩

def hear (r : Received) (st : Overlay) : Overlay := { st with received := r :: st.received }

/-- `send` (`dht.rs:574-592`); what it returns feeds a line of the log. -/
def send (msg : DhtMsg) (addr : SocketAddr) (now : Instant) (st : Overlay) : Overlay :=
  if !cfg.policy.acceptsIp addr.ip then st
  else { st with
    sources := if msg.isAnswer then st.sources else st.sources.noteQuery addr now
    sent := ⟨msg, addr, st.table.all.any fun n => n.udp = addr⟩ :: st.sent }

def bucketOf (t : RoutingTable) (id : NodeId) : List Node := ((t.indexOf id).map t.bucketAt).getD []

/-- `table.add(node)` for a node that passed the policy and the budget. -/
def tableAdd (node : Node) (st : Overlay) : Overlay × Bool :=
  let r := st.table.add node
  ({ st with
    table := r.1
    decisions := ⟨node, bucketOf st.table node.id, bucketOf r.1 node.id, r.2, st.received⟩ ::
      st.decisions }, r.2)

/-- The node is another one, at an address the policy accepts. -/
def learnable (node : Node) : Bool :=
  node.id ≠ cfg.selfId && cfg.policy.accepts node.udp.ip node.p2pPort

/-- `learn` (`dht.rs:680-694`). -/
def learn (node : Node) (st : Overlay) : Overlay × Bool :=
  if !learnable cfg node then (st, false)
  else if st.table.contains node.id then tableAdd node st
  else
    let r := st.sources.allowLearn node.udp.ip node.lastSeen
    let st := { st with sources := r.1 }
    if r.2 then tableAdd node st else (st, false)

def myFind (target : NodeId) : DhtMsg := .findNode (hex cfg.selfId) cfg.p2pPort (hex target)
def myPing : DhtMsg := .ping (hex cfg.selfId) cfg.p2pPort

def recordOf (n : Node) : NodeRec := ⟨hex n.id, cfg.showIp n.udp.ip, n.udp.port, n.p2pPort⟩

/-- The entry a relayed record asks for. -/
def relayed (now : Instant) (r : NodeRec) : Option Node :=
  match unhex r.id, cfg.parseIp r.ip with
  | some id, some ip => some ⟨id, .new ip r.udpPort, r.p2pPort, false, now⟩
  | _, _ => none

/-- The readings of the clock while a datagram is handled: at its start, when its source is
marked, when a challenge is sent. -/
structure Clock where
  now : Instant
  marked : Instant
  sent : Instant
  deriving DecidableEq

/-- The answer to a `FindNode`, and the challenge of an unverified questioner. -/
def answerFind (src : SocketAddr) (target : Text) (c : Clock) (st : Overlay) : Overlay :=
  let verifiedSrc := st.table.isVerifiedSource src
  let want := if verifiedSrc then K else K_UNVERIFIED
  let target := (unhex target).getD cfg.selfId
  let recs := (st.table.closest target want).map (recordOf cfg)
  let st := send cfg (.nodes (hex cfg.selfId) cfg.p2pPort recs) src c.now st
  if verifiedSrc then st
  else
    let r := st.sources.allowPing src c.now
    let st := { st with sources := r.1 }
    if r.2 then send cfg (myPing cfg) src c.sent st else st

/-- An answer to an outstanding query proves its source; the sender is learned. -/
def sight (msg : DhtMsg) (src : SocketAddr) (c : Clock) (st : Overlay) : Overlay :=
  let r := if msg.isAnswer then st.sources.takePending src c.now else (st.sources, false)
  let solicited := r.2
  let st := { st with sources := r.1 }
  let st := if solicited then { st with table := st.table.markVerified src c.marked } else st
  match unhex msg.sender.1 with
  | some id => (learn cfg ⟨id, src, msg.sender.2, solicited, c.now⟩ st).1
  | none => st

/-- Answer or absorb. -/
def reply (msg : DhtMsg) (src : SocketAddr) (c : Clock) (st : Overlay) : Overlay :=
  match msg with
  | .ping .. => send cfg (.pong (hex cfg.selfId) cfg.p2pPort) src c.now st
  | .findNode _ _ target => answerFind cfg src target c st
  | .nodes _ _ recs => (recs.take MAX_NODES_PER_MSG).foldl (fun st r =>
      match relayed cfg c.now r with
      | some node => (learn cfg node st).1
      | none => st) st
  | .pong .. => st

/-- `handle` (`dht.rs:696-767`). -/
def handle (msg : DhtMsg) (src : SocketAddr) (c : Clock) (st : Overlay) : Overlay :=
  let st := hear ⟨msg, src, c.now, c.marked⟩ st
  if !cfg.policy.acceptsIp src.ip then st
  else reply cfg msg src c (sight cfg msg src c st)

/-- `import_nodes` (`dht.rs:531-549`). -/
def importNodes (snapshot : List PersistNode) (now : Instant) (st : Overlay) : Overlay :=
  (snapshot.take MAX_PERSIST_NODES).foldl (fun st r =>
    match unhex r.id, cfg.parseIp r.ip with
    | some id, some ip =>
      if id = cfg.selfId || !cfg.policy.accepts ip r.udpPort || !isContactablePort r.p2pPort then st
      else { st with table := (st.table.add ⟨id, .new ip r.udpPort, r.p2pPort, false, now⟩).1 }
    | _, _ => st) st

/-- `bootstrap` (`dht.rs:603-624`): each host as it was read or looked up. -/
def bootstrap (hosts : List (Option SocketAddr)) (clock : ℕ → Instant) (st : Overlay) : Overlay :=
  hosts.zipIdx.foldl (fun st h =>
    match h.1 with
    | some sa => send cfg (myFind cfg cfg.selfId) sa (clock h.2) st
    | none => st) st

def flipBit (id : NodeId) (bit : ℕ) : NodeId where
  bytes := id.bytes.modify (bit / 8) fun b => b ^^^ (0x80 >>> UInt8.ofNat (bit % 8))
  len := by rw [List.length_modify, id.len]

def refreshTargets : List NodeId := cfg.selfId :: [0, 1, 2, 4].map (flipBit cfg.selfId)

/-- The entries a refresh asks: the closest known ones. -/
def asksOf (t : RoutingTable) : List (DhtMsg × SocketAddr) :=
  (refreshTargets cfg).flatMap fun id =>
    (t.closest cfg.selfId K).map fun n => (myFind cfg id, n.udp)

/-- The entries a refresh challenges. -/
def unproved (t : RoutingTable) : List SocketAddr :=
  ((t.all.filter fun n => !n.verified).map Node.udp).take VERIFY_BATCH

/-- One challenge of a refresh, the clock read before it and when it is sent. -/
def challenge (addr : SocketAddr) (now sent : Instant) (st : Overlay) : Overlay :=
  let r := st.sources.allowPing addr now
  let st := { st with sources := r.1 }
  if r.2 then send cfg (myPing cfg) addr sent st else st

/-- `refresh` (`dht.rs:630-650`). -/
def refresh (clock : ℕ → Instant) (st : Overlay) : Overlay :=
  let asks := asksOf cfg st.table
  let pings := unproved st.table
  let st := asks.zipIdx.foldl (fun st q => send cfg q.1.1 q.1.2 (clock q.2) st) st
  pings.zipIdx.foldl (fun st a =>
    challenge cfg a.1 (clock (asks.length + 2 * a.2)) (clock (asks.length + 2 * a.2 + 1)) st) st

/-! ### What a node gives away (`dht.rs:508-572`) -/

/-- The verified entries that `peer_addrs_verified` lists. -/
def listed (verifiedOnly : Bool) (st : Overlay) : List Node :=
  (st.table.all.filter fun n => !verifiedOnly || n.verified).filter fun n =>
    cfg.policy.accepts n.udp.ip n.p2pPort

def addrText (n : Node) : Text := cfg.showIp n.udp.ip ++ ':' :: Nat.toDigits 10 n.p2pPort.toNat

def collectAddrs (verifiedOnly : Bool) (st : Overlay) : List Text :=
  (listed cfg verifiedOnly st).map (addrText cfg)

def peerAddrs (st : Overlay) : List Text := collectAddrs cfg false st
def peerAddrsVerified (st : Overlay) : List Text := collectAddrs cfg true st

/-- The entries `export_nodes` writes. -/
def exported (st : Overlay) : List Node :=
  (st.table.all.filter fun n => n.verified && cfg.policy.accepts n.udp.ip n.p2pPort).take
    MAX_PERSIST_NODES

def persistOf (n : Node) : PersistNode := ⟨hex n.id, cfg.showIp n.udp.ip, n.udp.port, n.p2pPort⟩

def exportNodes (st : Overlay) : List PersistNode := (exported cfg st).map (persistOf cfg)

/-! ### Runs -/

inductive Event where
  | datagram (msg : DhtMsg) (src : SocketAddr) (clock : Clock)
  | importNodes (snapshot : List PersistNode) (now : Instant)
  | bootstrap (hosts : List (Option SocketAddr)) (clock : ℕ → Instant)
  | refresh (clock : ℕ → Instant)

def step (st : Overlay) : Event → Overlay
  | .datagram msg src c => handle cfg msg src c st
  | .importNodes snapshot now => importNodes cfg snapshot now st
  | .bootstrap hosts clock => bootstrap cfg hosts clock st
  | .refresh clock => refresh cfg clock st

/-- What a datagram says of its sender. -/
def senderNode (msg : DhtMsg) (src : SocketAddr) (now : Instant) : Option Node :=
  (unhex msg.sender.1).map fun id => ⟨id, src, msg.sender.2, false, now⟩

/-- The records that a node absorbs from a datagram. -/
def recordsOf : DhtMsg → List NodeRec
  | .nodes _ _ recs => recs.take MAX_NODES_PER_MSG
  | _ => []

/-- What a datagram says of others. -/
def hearsay (msg : DhtMsg) (now : Instant) : List Node := (recordsOf msg).filterMap (relayed cfg now)

/-! ### Acts

A call touches the state act by act. What every act keeps that the call may lead to, the call
keeps. -/

inductive Act where
  | take (src : SocketAddr) (now : Instant)
  | mark (src : SocketAddr) (now : Instant)
  | learn (node : Node)
  | insert (node : Node)
  | send (msg : DhtMsg) (addr : SocketAddr) (now : Instant)
  | allowPing (addr : SocketAddr) (now : Instant)

def Act.run : Act → Overlay → Overlay
  | .take src now, st => { st with sources := (st.sources.takePending src now).1 }
  | .mark src now, st => { st with table := st.table.markVerified src now }
  | .learn node, st => (Overlay.learn cfg node st).1
  | .insert node, st => { st with table := (st.table.add node).1 }
  | .send msg addr now, st => Overlay.send cfg msg addr now st
  | .allowPing addr now, st => { st with sources := (st.sources.allowPing addr now).1 }

/-- The datagram answers a query of this node that is still outstanding. -/
def solicited (msg : DhtMsg) (src : SocketAddr) (now : Instant) (st : Overlay) : Bool :=
  msg.isAnswer && st.sources.asked src now

section
variable {cfg}

/-- `learn` refuses the node, its source has no budget left, or the table decides. -/
theorem learn_cases (node : Node) (st : Overlay) :
    learnable cfg node = false ∧ learn cfg node st = (st, false) ∨
      learnable cfg node = true ∧
        (st.table.contains node.id = true ∧ learn cfg node st = tableAdd node st ∨
          st.table.contains node.id = false ∧
            ((st.sources.allowLearn node.udp.ip node.lastSeen).2 = false ∧ learn cfg node st =
                ({ st with sources := (st.sources.allowLearn node.udp.ip node.lastSeen).1 }, false) ∨
              (st.sources.allowLearn node.udp.ip node.lastSeen).2 = true ∧ learn cfg node st =
                tableAdd node
                  { st with sources := (st.sources.allowLearn node.udp.ip node.lastSeen).1 })) := by
  unfold learn
  cases hl : learnable cfg node with
  | false => exact .inl ⟨rfl, rfl⟩
  | true =>
    refine .inr ⟨rfl, ?_⟩
    cases hc : st.table.contains node.id with
    | true => exact .inl ⟨rfl, rfl⟩
    | false =>
      refine .inr ⟨rfl, ?_⟩
      cases ha : (st.sources.allowLearn node.udp.ip node.lastSeen).2 with
      | false =>
        refine .inl ⟨rfl, ?_⟩
        dsimp only
        rw [ha]
        rfl
      | true =>
        refine .inr ⟨rfl, ?_⟩
        dsimp only
        rw [ha]
        rfl

/-- An entry after `learn`. -/
theorem mem_learn {node n : Node} {st : Overlay} (h : n ∈ (learn cfg node st).1.table.all) :
    n ∈ st.table.all ∨ learnable cfg node = true ∧
      (n = node ∨ ∃ e ∈ st.table.all, e.id = node.id ∧ n = RoutingTable.refreshed e node) := by
  rcases learn_cases node st with ⟨-, heq⟩ | ⟨hl, ⟨-, heq⟩ | ⟨-, ⟨-, heq⟩ | ⟨-, heq⟩⟩⟩
  · rw [heq] at h
    exact .inl h
  · rw [heq] at h
    exact (RoutingTable.mem_add h).imp_right fun h => ⟨hl, h⟩
  · rw [heq] at h
    exact .inl h
  · rw [heq] at h
    exact (RoutingTable.mem_add h).imp_right fun h => ⟨hl, h⟩

theorem learn_logs (node : Node) (st : Overlay) :
    (learn cfg node st).1.received = st.received ∧ (learn cfg node st).1.sent = st.sent := by
  rcases learn_cases node st with ⟨-, heq⟩ | ⟨-, ⟨-, heq⟩ | ⟨-, ⟨-, heq⟩ | ⟨-, heq⟩⟩⟩
  all_goals
    rw [heq]
    exact ⟨rfl, rfl⟩

/-- What `send` leaves. -/
theorem send_cases (msg : DhtMsg) (addr : SocketAddr) (now : Instant) (st : Overlay) :
    send cfg msg addr now st = st ∨
      cfg.policy.acceptsIp addr.ip = true ∧ send cfg msg addr now st = { st with
        sources := if msg.isAnswer then st.sources else st.sources.noteQuery addr now
        sent := ⟨msg, addr, st.table.all.any fun n => n.udp = addr⟩ :: st.sent } := by
  unfold send
  cases hip : cfg.policy.acceptsIp addr.ip with
  | false => exact .inl rfl
  | true => exact .inr ⟨rfl, rfl⟩

end

variable {cfg} in
/-- Entries stay filed by their ids. -/
theorem act_filed (a : Act) (st : Overlay) (h : st.table.Filed) : (a.run cfg st).table.Filed := by
  cases a with
  | take src now | allowPing addr now => exact h
  | mark src now => exact h.markVerified src now
  | insert node => exact h.add node
  | learn node =>
    change (Overlay.learn cfg node st).1.table.Filed
    rcases @learn_cases cfg node st with ⟨-, heq⟩ | ⟨-, ⟨-, heq⟩ | ⟨-, ⟨-, heq⟩ | ⟨-, heq⟩⟩⟩
    · rw [heq]
      exact h
    · rw [heq]
      exact h.add node
    · rw [heq]
      exact h
    · rw [heq]
      exact h.add node
  | send msg addr now =>
    change (Overlay.send cfg msg addr now st).table.Filed
    rcases @send_cases cfg msg addr now st with heq | ⟨-, heq⟩
    · rw [heq]
      exact h
    · rw [heq]
      exact h

section
variable {cfg} {J : Overlay → Prop} {ok : Act → Prop}
  (hkeep : ∀ a st, ok a → J st → J (a.run cfg st))
include hkeep

theorem foldl_keeps {α : Type} {f : Overlay → α → Overlay} {as : List α}
    (hf : ∀ a ∈ as, ∀ st, J st → f st a = st ∨ ∃ act, ok act ∧ f st a = act.run cfg st) {st : Overlay}
    (h : J st) : J (as.foldl f st) := by
  induction as generalizing st with
  | nil => exact h
  | cons a as ih =>
    apply ih fun b hb => hf b (List.mem_cons_of_mem _ hb)
    rcases hf a (List.mem_cons_self ..) st h with heq | ⟨act, hact, heq⟩
    · rw [heq]
      exact h
    · rw [heq]
      exact hkeep act st hact h

theorem challenge_keeps {addr : SocketAddr} {now sent : Instant} (hping : ok (.allowPing addr now))
    (hsend : ok (.send (myPing cfg) addr sent)) {st : Overlay} (h : J st) :
    J (challenge cfg addr now sent st) := by
  have hallowed := hkeep _ st hping h
  unfold challenge
  dsimp only
  split
  · exact hkeep _ _ hsend hallowed
  · exact hallowed

/-- The acts an answer may lead to. -/
structure Replies (cfg : Config) (J : Overlay → Prop) (ok : Act → Prop) (msg : DhtMsg)
    (src : SocketAddr) (c : Clock) : Prop where
  pong : ok (.send (.pong (hex cfg.selfId) cfg.p2pPort) src c.now)
  records : ∀ st, J st → ∀ recs : List NodeRec,
    recs.length ≤ (if st.table.isVerifiedSource src then K else K_UNVERIFIED) →
    ok (.send (.nodes (hex cfg.selfId) cfg.p2pPort recs) src c.now)
  allowPing : ok (.allowPing src c.now)
  challenge : ok (.send (myPing cfg) src c.sent)
  relayed : ∀ node ∈ hearsay cfg msg c.now, ok (.learn node)

/-- The acts a datagram may lead to, once the node has heard it. -/
structure Permitted (cfg : Config) (J : Overlay → Prop) (ok : Act → Prop) (msg : DhtMsg)
    (src : SocketAddr) (c : Clock) (st : Overlay) : Prop where
  take : msg.isAnswer = true → ok (.take src c.now)
  mark : solicited msg src c.now st = true → ok (.mark src c.marked)
  sender : ∀ id, unhex msg.sender.1 = some id →
    ok (.learn ⟨id, src, msg.sender.2, solicited msg src c.now st, c.now⟩)
  replies : Replies cfg J ok msg src c

theorem sight_keeps {msg : DhtMsg} {src : SocketAddr} {c : Clock} {st : Overlay} (h : J st)
    (hok : Permitted cfg J ok msg src c st) : J (sight cfg msg src c st) := by
  have hlearn : ∀ st', J st' → J (match unhex msg.sender.1 with
      | some id => (learn cfg ⟨id, src, msg.sender.2, solicited msg src c.now st, c.now⟩ st').1
      | none => st') := by
    intro st' h'
    cases hid : unhex msg.sender.1 with
    | none => exact h'
    | some id => exact hkeep _ _ (hok.sender id hid) h'
  unfold sight
  cases ha : msg.isAnswer with
  | false =>
    have hs : solicited msg src c.now st = false := by rw [solicited, ha, Bool.false_and]
    rw [hs] at hlearn
    exact hlearn _ h
  | true =>
    have hs : (st.sources.takePending src c.now).2 = solicited msg src c.now st := by
      rw [solicited, ha, Bool.true_and, SourceState.takePending]
    have htaken := hkeep _ _ (hok.take ha) h
    simp only [if_true, hs]
    apply hlearn
    split
    · next hsol => exact hkeep _ _ (hok.mark hsol) htaken
    · exact htaken

theorem reply_keeps {msg : DhtMsg} {src : SocketAddr} {c : Clock} {st' : Overlay} (h : J st')
    (hok : Replies cfg J ok msg src c) : J (reply cfg msg src c st') := by
  cases msg with
  | ping s p => exact hkeep _ _ hok.pong h
  | pong s p => exact h
  | findNode s p target =>
    unfold reply answerFind
    dsimp only
    have hlen : ((st'.table.closest ((unhex target).getD cfg.selfId)
        (if st'.table.isVerifiedSource src then K else K_UNVERIFIED)).map (recordOf cfg)).length ≤
        (if st'.table.isVerifiedSource src then K else K_UNVERIFIED) := by
      rw [List.length_map, RoutingTable.closest, List.length_take]
      exact Nat.min_le_left _ _
    have hsent := hkeep _ _ (hok.records st' h _ hlen) h
    cases hv : st'.table.isVerifiedSource src with
    | true =>
      rw [hv] at hsent
      exact hsent
    | false =>
      rw [hv] at hsent
      exact challenge_keeps hkeep hok.allowPing hok.challenge hsent
  | nodes s p recs =>
    apply foldl_keeps hkeep (fun r hr st' _ => ?_) h
    cases hn : relayed cfg c.now r with
    | none => exact .inl rfl
    | some node => exact .inr ⟨_, hok.relayed node (List.mem_filterMap.mpr ⟨r, hr, hn⟩), rfl⟩

theorem handle_keeps {msg : DhtMsg} {src : SocketAddr} {c : Clock} {st : Overlay}
    (hheard : J (hear ⟨msg, src, c.now, c.marked⟩ st))
    (hok : cfg.policy.acceptsIp src.ip = true →
      Permitted cfg J ok msg src c (hear ⟨msg, src, c.now, c.marked⟩ st)) :
    J (handle cfg msg src c st) := by
  unfold handle
  cases hip : cfg.policy.acceptsIp src.ip with
  | false => exact hheard
  | true => exact reply_keeps hkeep (sight_keeps hkeep hheard (hok hip)) (hok hip).replies

theorem importNodes_keeps {snapshot : List PersistNode} {now : Instant} {st : Overlay} (h : J st)
    (hok : ∀ r ∈ snapshot.take MAX_PERSIST_NODES, ∀ id ip, unhex r.id = some id →
      cfg.parseIp r.ip = some ip → id ≠ cfg.selfId → cfg.policy.accepts ip r.udpPort = true →
      isContactablePort r.p2pPort = true →
      ok (.insert ⟨id, .new ip r.udpPort, r.p2pPort, false, now⟩)) :
    J (importNodes cfg snapshot now st) := by
  apply foldl_keeps hkeep (fun r hr st' _ => ?_) h
  split
  · next id ip hid hip =>
    split
    · exact .inl rfl
    · next hgood =>
      simp only [Bool.or_eq_true, decide_eq_true_eq, Bool.not_eq_true', not_or, Bool.not_eq_false]
        at hgood
      exact .inr ⟨_, hok r hr id ip hid hip hgood.1.1 hgood.1.2 hgood.2, rfl⟩
  · exact .inl rfl

theorem bootstrap_keeps {hosts : List (Option SocketAddr)} {clock : ℕ → Instant} {st : Overlay}
    (h : J st) (hok : ∀ addr now, ok (.send (myFind cfg cfg.selfId) addr now)) :
    J (bootstrap cfg hosts clock st) := by
  apply foldl_keeps hkeep (fun host _ st' _ => ?_) h
  split
  · next sa _ => exact .inr ⟨_, hok sa _, rfl⟩
  · exact .inl rfl

theorem refresh_keeps {clock : ℕ → Instant} {st : Overlay} (h : J st)
    (hask : ∀ id, ∀ n ∈ st.table.all, ∀ now, ok (.send (myFind cfg id) n.udp now))
    (hping : ∀ n ∈ st.table.all, ∀ now, ok (.allowPing n.udp now))
    (hsend : ∀ n ∈ st.table.all, ∀ now, ok (.send (myPing cfg) n.udp now)) :
    J (refresh cfg clock st) := by
  have hasks : J ((asksOf cfg st.table).zipIdx.foldl
      (fun st q => send cfg q.1.1 q.1.2 (clock q.2) st) st) := by
    apply foldl_keeps hkeep (fun q hq st' _ => ?_) h
    have hmem : q.1 ∈ asksOf cfg st.table := List.fst_mem_of_mem_zipIdx hq
    obtain ⟨id, _, hq'⟩ := List.mem_flatMap.mp hmem
    obtain ⟨n, hn, heq⟩ := List.mem_map.mp hq'
    rw [← heq]
    exact .inr ⟨_, hask id n (RoutingTable.mem_closest hn) _, rfl⟩
  have hloop : ∀ (pings : List (SocketAddr × ℕ)),
      (∀ a ∈ pings, a.1 ∈ unproved st.table) → ∀ st', J st' →
      J (pings.foldl (fun st' a => challenge cfg a.1 (clock ((asksOf cfg st.table).length + 2 * a.2))
        (clock ((asksOf cfg st.table).length + 2 * a.2 + 1)) st') st') := by
    intro pings
    induction pings with
    | nil => exact fun _ st' h => h
    | cons a pings ih =>
      intro hmem st' h
      have ha := List.mem_of_mem_take (hmem a (List.mem_cons_self ..))
      obtain ⟨n, hn, heq⟩ := List.mem_map.mp ha
      have hn' := (List.mem_filter.mp hn).1
      apply ih fun b hb => hmem b (List.mem_cons_of_mem _ hb)
      exact challenge_keeps hkeep (heq ▸ hping n hn' _) (heq ▸ hsend n hn' _) h
  exact hloop _ (fun a ha => List.fst_mem_of_mem_zipIdx ha) _ hasks

end

/-! ### A node to run -/

/-- One decimal octet, without leading zeros. -/
def octet (s : Text) : Option UInt8 :=
  if s.isEmpty || 3 < s.length || !s.all Char.isDigit || (s.head? = some '0' && 1 < s.length) then none
  else
    let n := s.foldl (fun n c => n * 10 + (c.toNat - 48)) 0
    if n < 256 then some (UInt8.ofNat n) else none

def parseIpv4 (s : Text) : Option IpAddr :=
  match (splitOn '.' s).map octet with
  | [some a, some b, some c, some d] => some (.v4 a b c d)
  | _ => none

def showIpv4 : IpAddr → Text
  | .v4 a b c d => Nat.toDigits 10 a.toNat ++ '.' :: Nat.toDigits 10 b.toNat ++ '.' ::
      Nat.toDigits 10 c.toNat ++ '.' :: Nat.toDigits 10 d.toNat
  | .v6 .. => []

/-- The id with these first two bytes. -/
def idOf (a b : UInt8) : NodeId := ⟨a :: b :: List.replicate 18 0, rfl⟩

/-- A node at the strict policy that knows IPv4 texts. -/
def sampleConfig : Config := ⟨idOf 0 0, 7000, .publicOnly, parseIpv4, showIpv4⟩

/-- A host of the overlay. -/
def hostAt (d : UInt8) (port : UInt16) : SocketAddr := .new (.v4 57 129 12 d) port

/-- All readings of a call at one moment. -/
def Clock.at (now : Instant) : Clock := ⟨now, now, now⟩

end P2pnas.Dht.Overlay
