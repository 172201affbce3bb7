import Mathlib.Data.FinEnum
import P2pnas.Lib.Runs
import P2pnas.Node.Wire

/-!
# Handshakes with a malicious node in the network (`client.rs:193-257`, `server.rs:134-266`)

Honest nodes open authenticated sessions to each other and to a malicious node, and listen for
connections of both; the malicious node writes what it likes on its own connections. Frames
between two honest nodes arrive as they were sent. Any number of connections are open, and
their steps interleave. What the honest nodes sign and accept is recorded on the side.
-/

namespace P2pnas.Node.Relay
open P2pnas.Lib.Frames P2pnas.Lib.Strings P2pnas.Lib.Runs P2pnas.Node.Wire
open P2pnas.Node.Hosting (AuthenticatedPeer)

section
variable {ι K : Type} (E : Ed25519 K) (node : ι → NodeKeys K)

/-- Where an `authenticated_session` stands. -/
inductive Phase where
  | awaitPong (nonce : Nonce) (msg : P2pMessage)
  | awaitOk (msg : P2pMessage)
  | awaitReply
  deriving DecidableEq

/-- A connection with the frames in flight; an end that is `none` is the malicious node.
`phase` is the session of an honest initiator, `session` the state of an honest listener. -/
structure Conn (ι : Type) where
  initiator : Option ι
  listener : Option ι
  phase : Option Phase
  session : Option PeerAuthSession
  toListener : List P2pMessage
  toInitiator : List P2pMessage

/-- The challenge an honest listener waits for an answer to. -/
def Conn.challenge (cn : Conn ι) : Option Nonce := cn.session.bind (·.challenge)

/-- A pong transcript handed to the signer. -/
structure Pong (ι : Type) where
  node : ι
  nonce : Bytes
  peerIp : Text

/-- An `AuthProof` an honest initiator sent, and to whom. -/
structure Proof (ι : Type) where
  node : ι
  against : Option ι
  verifier : Text
  challenge : Bytes
  message : P2pMessage

/-- An `AuthProof` an honest listener accepted; `busy` are the nodes that were in a session
with the malicious node at that moment. -/
structure Acceptance (ι : Type) where
  verifier : ι
  opener : Option ι
  peer : AuthenticatedPeer
  message : P2pMessage
  busy : List ι

structure State (ι : Type) where
  conns : List (Conn ι)
  minted : List Nonce
  pongs : List (Pong ι)
  proofs : List (Proof ι)
  accepted : List (Acceptance ι)

def start : State ι := ⟨[], [], [], [], []⟩

inductive Event (ι : Type) where
  /-- An honest node starts `authenticated_session` and writes its `AuthPing`. -/
  | dial (i : ι) (target : Option ι) (nonce : Nonce) (msg : P2pMessage)
  /-- The malicious node connects to an honest one. -/
  | intrude (v : ι)
  /-- The malicious node writes a frame on a connection of its own. -/
  | send (c : ℕ) (m : P2pMessage)
  /-- The listener reads a frame and answers; `fresh` is what the generator gives. -/
  | serve (c : ℕ) (ans : ShardAnswers) (peerIp : Text) (fresh : Option Nonce)
  /-- The initiator reads a frame and goes on. -/
  | resume (c : ℕ)
  /-- A side times out or hangs up. -/
  | giveUp (c : ℕ)
  | close (c : ℕ)

/-- The nodes in a session with the malicious node. -/
def State.busy (s : State ι) : List ι :=
  s.conns.filterMap fun cn => if cn.listener.isNone && cn.phase.isSome then cn.initiator else none

def State.put (s : State ι) (c : ℕ) (cn : Conn ι) : State ι := { s with conns := s.conns.set c cn }

def dial (s : State ι) (i : ι) (target : Option ι) (nonce : Nonce) (msg : P2pMessage) : State ι :=
  if (node i).signer.isNone then s
  else { s with
    conns := s.conns ++ [{
      initiator := some i
      listener := target
      phase := some (.awaitPong nonce msg)
      session := target.map fun _ => .new
      toListener := [.authPing (node i).peerId (node i).apiPort nonce.1]
      toInitiator := [] }] }

def intrude (s : State ι) (v : ι) : State ι :=
  { s with conns := s.conns ++ [⟨none, some v, none, some .new, [], []⟩] }

def send (s : State ι) (c : ℕ) (m : P2pMessage) : State ι :=
  match s.conns[c]? with
  | none => s
  | some cn =>
    match cn.initiator, cn.listener with
    | none, _ => s.put c { cn with toListener := cn.toListener ++ [m] }
    | some _, none => s.put c { cn with toInitiator := cn.toInitiator ++ [m] }
    | some _, some _ => s

def pongsOf (v : ι) (peerIp : Text) : P2pMessage → List (Pong ι)
  | .authPing _ _ nonce => if nonce.length = NONCE_LEN then [⟨v, nonce, peerIp⟩] else []
  | _ => []

def acceptedOf (s : State ι) (v : ι) (opener : Option ι) : P2pMessage → P2pMessage → List (Acceptance ι)
  | .authProof p pk sg, .authOk _ => [⟨v, opener, ⟨p, pk⟩, .authProof p pk sg, s.busy⟩]
  | _, _ => []

def serve (s : State ι) (c : ℕ) (ans : ShardAnswers) (peerIp : Text) (fresh : Option Nonce) : State ι :=
  match s.conns[c]? with
  | none => s
  | some cn =>
    match cn.listener, cn.session, cn.toListener with
    | some v, some ss, m :: rest =>
      match readFrame m with
      | .error _ => s.put c { cn with session := none, toListener := rest }
      | .ok m =>
        let (ss', resp) := respond E (node v) ans peerIp fresh ss m
        { s with
          conns := s.conns.set c { cn with
            session := some ss'
            toListener := rest
            toInitiator := cn.toInitiator ++ [resp] }
          minted := fresh.toList ++ s.minted
          pongs := pongsOf v peerIp m ++ s.pongs
          accepted := acceptedOf s v cn.initiator m resp ++ s.accepted }
    | _, _, _ => s

/-- What an initiator makes of the answer to its `AuthPing`. -/
def answerPong (nd : NodeKeys K) (nonce : Nonce) (m : P2pMessage) :
    Except IoError (Text × Bytes × P2pMessage) := do
  let m ← readFrame m
  let (remote, challenge) ← checkAuthPong E nonce m
  match nd.signer with
  | none => .error ⟨.other, "no signing key".toList⟩
  | some k =>
    let proof ← authProof E k nd.peerId remote challenge
    return (remote, challenge, proof)

def resume (s : State ι) (c : ℕ) : State ι :=
  match s.conns[c]? with
  | none => s
  | some cn =>
    match cn.initiator, cn.phase, cn.toInitiator with
    | some i, some (.awaitPong nonce msg), m :: rest =>
      match answerPong E (node i) nonce m with
      | .error _ => s.put c { cn with phase := none, toInitiator := rest }
      | .ok (remote, challenge, proof) =>
        { s with
          conns := s.conns.set c { cn with
            phase := some (.awaitOk msg)
            toListener := cn.toListener ++ [proof]
            toInitiator := rest }
          proofs := ⟨i, cn.listener, remote, challenge, proof⟩ :: s.proofs }
    | some _, some (.awaitOk msg), m :: rest =>
      match readFrame m >>= checkAuthOk with
      | .error _ => s.put c { cn with phase := none, toInitiator := rest }
      | .ok _ => s.put c { cn with
          phase := some .awaitReply
          toListener := cn.toListener ++ [msg]
          toInitiator := rest }
    | some _, some .awaitReply, _ :: rest => s.put c { cn with phase := none, toInitiator := rest }
    | _, _, _ => s

def giveUp (s : State ι) (c : ℕ) : State ι :=
  match s.conns[c]? with
  | none => s
  | some cn => s.put c { cn with phase := none }

def close (s : State ι) (c : ℕ) : State ι :=
  match s.conns[c]? with
  | none => s
  | some cn => s.put c { cn with session := none }

def step (s : State ι) : Event ι → State ι
  | .dial i target nonce msg => dial node s i target nonce msg
  | .intrude v => intrude s v
  | .send c m => send s c m
  | .serve c ans ip fresh => serve E node s c ans ip fresh
  | .resume c => resume E node s c
  | .giveUp c => giveUp s c
  | .close c => close s c

/-! ### Ideal signatures and fresh challenges -/

/-- An honest node with this public key has signed this message. -/
def Signed (s : State ι) (pk : Text) (m : Bytes) : Prop :=
  (∃ p ∈ s.pongs, ∃ k ∈ (node p.node).signer, publicKeyHex E k = pk ∧
    m = pongTranscript (node p.node).peerId (node p.node).apiPort p.nonce (some p.peerIp)) ∨
  ∃ p ∈ s.proofs, ∃ k ∈ (node p.node).signer, publicKeyHex E k = pk ∧
    m = proofTranscript p.verifier (node p.node).peerId p.challenge

/-- The frame is an `AuthProof` under this key whose signature verifies over the message. -/
def proofVerifies (pk : Text) (m : Bytes) : P2pMessage → Bool
  | .authProof _ pk' sg => pk' == pk && verifySignature E pk m sg
  | _ => false

/-- A proof that reaches a listener from the malicious node verifies under an honest node's key
only over what a node with that key has signed. -/
def Unforged (s : State ι) (c : ℕ) : Prop :=
  ∀ cn ∈ s.conns[c]?, cn.initiator = none → ∀ f ∈ cn.toListener.head?,
    ∀ i, ∀ k ∈ (node i).signer, ∀ m, proofVerifies E (publicKeyHex E k) m f = true →
      Signed E node s (publicKeyHex E k) m

/-- The generator gives no challenge twice, and none that was already answered. -/
def FreshFor (s : State ι) (fresh : Option Nonce) : Prop :=
  ∀ n ∈ fresh, n ∉ s.minted ∧ ∀ p ∈ s.proofs, p.challenge ≠ n.1

def Ideal (s : State ι) : Event ι → Prop
  | .serve c _ _ fresh => FreshFor s fresh ∧ Unforged E node s c
  | _ => True

/-! ### Relayed proofs -/

/-- The malicious node holds a connection to `v` with this challenge outstanding. -/
def Opened (s : State ι) (v : ι) (n : Nonce) : Prop :=
  ∃ cn ∈ s.conns, cn.initiator = none ∧ cn.listener = some v ∧ cn.challenge = some n

/-- An honest initiator about to read an `AuthPong` of the malicious node that verifies is not
told the id of an honest listener and the challenge outstanding there. -/
def Unannounced (s : State ι) : Event ι → Prop
  | .resume c => ∀ cn ∈ s.conns[c]?, cn.listener = none →
      ∀ nonce msg, cn.phase = some (.awaitPong nonce msg) → ∀ m ∈ cn.toInitiator.head?, ∀ remote challenge,
        checkAuthPong E nonce m = .ok (remote, challenge) → ∀ v n, (node v).peerId = remote → Opened s v n → challenge ≠ n.1
  | _ => True

/-- The acceptance names the honest node `i` under its own key. -/
def Names (a : Acceptance ι) (i : ι) : Prop :=
  a.peer.peerId = (node i).peerId ∧ ∃ k ∈ (node i).signer, a.peer.publicKey = publicKeyHex E k

/-- Whenever an honest listener accepted, on a connection of the malicious node, a proof that
names an honest node under its key, that node was not in a session with the malicious node, and
the proof is none it made while talking to it. -/
def Unrelayed (s : State ι) : Prop :=
  ∀ a ∈ s.accepted, a.opener = none → ∀ i, Names E node a i →
    i ∉ a.busy ∧ ∀ p ∈ s.proofs, p.node = i → p.against = none → p.message ≠ a.message

/-! ### The invariant -/

/-- An `AuthPong` with this challenge is in flight between two honest nodes. -/
def Direct (s : State ι) (x : Bytes) : Prop :=
  ∃ cn ∈ s.conns, cn.initiator.isSome ∧ cn.listener.isSome ∧
    ∃ p port o pk sg, P2pMessage.authPong p port o pk sg x ∈ cn.toInitiator

/-- No proof was made for a challenge outstanding on a connection of the malicious node, and no
honest node is about to make one. -/
structure Guarded (s : State ι) : Prop where
  apart : ∀ v n, Opened s v n → ∀ p ∈ s.proofs, p.verifier = (node v).peerId → p.challenge ≠ n.1
  minted : ∀ v n, Opened s v n → n ∈ s.minted
  direct : ∀ x, Direct s x → ∃ n ∈ s.minted, n.1 = x
  crossed : ∀ x, Direct s x → ∀ v n, Opened s v n → x ≠ n.1
  short : ∀ p ∈ s.proofs, byteLen p.verifier < 256 ^ 4 ∧ p.challenge.length < 256 ^ 4
  unnamed : ∀ a ∈ s.accepted, a.opener = none → ∀ i, ¬ Names E node a i

theorem start_guarded : Guarded E node (start : State ι) where
  apart := by rintro v n ⟨cn, hcn, -⟩; exact (List.not_mem_nil hcn).elim
  minted := by rintro v n ⟨cn, hcn, -⟩; exact (List.not_mem_nil hcn).elim
  direct := by rintro x ⟨cn, hcn, -⟩; exact (List.not_mem_nil hcn).elim
  crossed := by rintro x ⟨cn, hcn, -⟩; exact (List.not_mem_nil hcn).elim
  short := by intro p hp; exact (List.not_mem_nil hp).elim
  unnamed := by intro a ha; exact (List.not_mem_nil ha).elim

variable {E node} {s s' : State ι}

theorem Guarded.unrelayed (h : Guarded E node s) : Unrelayed E node s := by
  intro a ha ho i hi
  exact (h.unnamed a ha ho i hi).elim

/-- A step that opens no challenge, puts no honest `AuthPong` in flight and records nothing. -/
theorem Guarded.quiet (h : Guarded E node s) (ho : ∀ v n, Opened s' v n → Opened s v n)
    (hd : ∀ x, Direct s' x → Direct s x) (hm : s'.minted = s.minted) (hp : s'.proofs = s.proofs)
    (ha : s'.accepted = s.accepted) : Guarded E node s' where
  apart v n hv := hp ▸ h.apart v n (ho v n hv)
  minted v n hv := hm ▸ h.minted v n (ho v n hv)
  direct x hx := hm ▸ h.direct x (hd x hx)
  crossed x hx v n hv := h.crossed x (hd x hx) v n (ho v n hv)
  short := hp ▸ h.short
  unnamed := ha ▸ h.unnamed

/-- A replaced connection opens a challenge only if it did before or is the new one. -/
theorem opened_set {c : ℕ} {cn : Conn ι} {v : ι} {n : Nonce}
    (hs : s'.conns = s.conns.set c cn) (h : Opened s' v n) :
    Opened s v n ∨ cn.initiator = none ∧ cn.listener = some v ∧ cn.challenge = some n := by
  obtain ⟨x, hx, hi, hl, hc⟩ := h
  rw [hs] at hx
  rcases List.mem_or_eq_of_mem_set hx with hx | rfl
  · exact .inl ⟨x, hx, hi, hl, hc⟩
  · exact .inr ⟨hi, hl, hc⟩

theorem direct_set {c : ℕ} {cn : Conn ι} {x : Bytes} (hs : s'.conns = s.conns.set c cn)
    (h : Direct s' x) : Direct s x ∨ cn.initiator.isSome ∧ cn.listener.isSome ∧
      ∃ p port o pk sg, P2pMessage.authPong p port o pk sg x ∈ cn.toInitiator := by
  obtain ⟨y, hy, hi, hl, hp⟩ := h
  rw [hs] at hy
  rcases List.mem_or_eq_of_mem_set hy with hy | rfl
  · exact .inl ⟨y, hy, hi, hl, hp⟩
  · exact .inr ⟨hi, hl, hp⟩

theorem opened_of_get {c : ℕ} {cn : Conn ι} {v : ι} {n : Nonce} (hc : s.conns[c]? = some cn)
    (hi : cn.initiator = none) (hl : cn.listener = some v) (hn : cn.challenge = some n) :
    Opened s v n :=
  ⟨cn, List.mem_of_getElem? hc, hi, hl, hn⟩

/-- A connection replaced by one with the same ends, no new challenge and no new `AuthPong`
between honest nodes. -/
theorem Guarded.put (h : Guarded E node s) {c : ℕ} {cn cn' : Conn ι} (hc : s.conns[c]? = some cn)
    (hi : cn'.initiator = cn.initiator) (hl : cn'.listener = cn.listener)
    (hn : ∀ n, cn'.challenge = some n → cn.challenge = some n)
    (hm : cn.initiator.isSome → cn.listener.isSome → ∀ m ∈ cn'.toInitiator, m ∈ cn.toInitiator) :
    Guarded E node (s.put c cn') := by
  refine h.quiet ?_ ?_ rfl rfl rfl
  · intro v n hv
    rcases opened_set rfl hv with hv | ⟨h1, h2, h3⟩
    · exact hv
    · exact opened_of_get hc (hi ▸ h1) (hl ▸ h2) (hn n h3)
  · intro x hx
    rcases direct_set rfl hx with hx | ⟨h1, h2, p, port, o, pk, sg, h3⟩
    · exact hx
    · rw [hi] at h1
      rw [hl] at h2
      exact ⟨cn, List.mem_of_getElem? hc, h1, h2, p, port, o, pk, sg, hm h1 h2 _ h3⟩

/-- A new connection has no challenge outstanding and nothing in flight to its initiator. -/
theorem Guarded.append (h : Guarded E node s) {cn : Conn ι} (hn : cn.challenge = none)
    (hm : cn.toInitiator = []) : Guarded E node { s with conns := s.conns ++ [cn] } := by
  refine h.quiet ?_ ?_ rfl rfl rfl
  · rintro v n ⟨x, hx, hi, hl, hc⟩
    rcases List.mem_append.mp hx with hx | hx
    · exact ⟨x, hx, hi, hl, hc⟩
    · rw [List.mem_singleton.mp hx, hn] at hc
      cases hc
  · rintro x ⟨y, hy, hi, hl, p, port, o, pk, sg, hp⟩
    rcases List.mem_append.mp hy with hy | hy
    · exact ⟨y, hy, hi, hl, p, port, o, pk, sg, hp⟩
    · rw [List.mem_singleton.mp hy, hm] at hp
      exact (List.not_mem_nil hp).elim

theorem dial_guarded (h : Guarded E node s) (i : ι) (target : Option ι) (nonce : Nonce)
    (msg : P2pMessage) : Guarded E node (dial node s i target nonce msg) := by
  unfold dial
  split
  · exact h
  · refine h.append ?_ rfl
    cases target <;> rfl

theorem send_guarded (h : Guarded E node s) (c : ℕ) (m : P2pMessage) :
    Guarded E node (send s c m) := by
  unfold send
  split
  · exact h
  · next cn hc =>
    split
    · exact h.put hc rfl rfl (fun _ hn => hn) fun _ _ _ hm => hm
    · next hl => exact h.put hc rfl rfl (fun _ hn => hn) fun _ h2 => absurd h2 (by simp [hl])
    · exact h

theorem giveUp_guarded (h : Guarded E node s) (c : ℕ) : Guarded E node (giveUp s c) := by
  unfold giveUp
  split
  · exact h
  · next cn hc => exact h.put hc rfl rfl (fun _ hn => hn) fun _ _ _ hm => hm

theorem close_guarded (h : Guarded E node s) (c : ℕ) : Guarded E node (close s c) := by
  unfold close
  split
  · exact h
  · next cn hc => exact h.put hc rfl rfl (fun _ hn => by cases hn) fun _ _ _ hm => hm

/-! ### A frame at a listener -/

/-- What a listener's answer records. -/
def served (s : State ι) (c : ℕ) (cn : Conn ι) (v : ι) (rest : List P2pMessage) (peerIp : Text)
    (fresh : Option Nonce) (m : P2pMessage) (r : PeerAuthSession × P2pMessage) : State ι :=
  { s with
    conns := s.conns.set c { cn with
      session := some r.1
      toListener := rest
      toInitiator := cn.toInitiator ++ [r.2] }
    minted := fresh.toList ++ s.minted
    pongs := pongsOf v peerIp m ++ s.pongs
    accepted := acceptedOf s v cn.initiator m r.2 ++ s.accepted }

variable (E node) in
theorem serve_cases (s : State ι) (c : ℕ) (ans : ShardAnswers) (ip : Text) (fresh : Option Nonce) :
    serve E node s c ans ip fresh = s ∨
    (∃ cn rest, s.conns[c]? = some cn ∧
      serve E node s c ans ip fresh = s.put c { cn with session := none, toListener := rest }) ∨
    ∃ cn v ss m rest, s.conns[c]? = some cn ∧ cn.listener = some v ∧ cn.session = some ss ∧
      cn.toListener = m :: rest ∧ m.frameLen ≤ MAX_MESSAGE_BYTES ∧
      serve E node s c ans ip fresh =
        served s c cn v rest ip fresh m (respond E (node v) ans ip fresh ss m) := by
  unfold serve
  split
  · exact .inl rfl
  · next cn hc =>
    split
    · next v ss m rest hl hs hq =>
      split
      · exact .inr (.inl ⟨cn, rest, hc, rfl⟩)
      · next m' hr =>
        obtain ⟨rfl, hlen⟩ := readFrame_eq_ok hr
        exact .inr (.inr ⟨cn, v, ss, _, rest, hc, hl, hs, hq, hlen, rfl⟩)
    · exact .inl rfl

section Served
variable {c : ℕ} {cn : Conn ι} {v : ι} {ss : PeerAuthSession} {m : P2pMessage}
  {rest : List P2pMessage} {ip : Text} {fresh : Option Nonce} {ans : ShardAnswers}

theorem served_opened (hc : s.conns[c]? = some cn) (hs : cn.session = some ss) {w : ι} {n : Nonce}
    (h : Opened (served s c cn v rest ip fresh m (respond E (node v) ans ip fresh ss m)) w n) :
    Opened s w n ∨ cn.initiator = none ∧ fresh = some n := by
  rcases opened_set rfl h with h | ⟨hi, hl, hn⟩
  · exact .inl h
  · rcases respond_challenge m hn with hn | hn
    · refine .inl (opened_of_get hc hi hl ?_)
      rw [Conn.challenge, hs]
      exact hn
    · exact .inr ⟨hi, hn⟩

theorem served_direct (hc : s.conns[c]? = some cn) {x : Bytes}
    (h : Direct (served s c cn v rest ip fresh m (respond E (node v) ans ip fresh ss m)) x) :
    Direct s x ∨ cn.initiator.isSome ∧ ∃ n, fresh = some n ∧ x = n.1 := by
  rcases direct_set rfl h with h | ⟨hi, hl, p, port, o, pk, sg, hm⟩
  · exact .inl h
  · rcases List.mem_append.mp hm with hm | hm
    · exact .inl ⟨cn, List.mem_of_getElem? hc, hi, hl, p, port, o, pk, sg, hm⟩
    · exact .inr ⟨hi, respond_authPong m (List.mem_singleton.mp hm).symm⟩

/-- The acceptance a frame leads to is of the proof in that frame. -/
theorem mem_acceptedOf {o : Option ι} {m r : P2pMessage} {a : Acceptance ι}
    (h : a ∈ acceptedOf s v o m r) : ∃ p pk sg q, m = .authProof p pk sg ∧ r = .authOk q ∧
      a.opener = o ∧ a.peer = ⟨p, pk⟩ := by
  unfold acceptedOf at h
  split at h
  · next p pk sg q =>
    rw [List.mem_singleton.mp h]
    exact ⟨p, pk, sg, q, rfl, rfl, rfl, rfl⟩
  · exact (List.not_mem_nil h).elim

/-- A message over which an accepted proof verifies was not signed before: no pong transcript is
a proof transcript, and no proof was made for an outstanding challenge. -/
theorem Guarded.not_signed (h : Guarded E node s) {w : ι} {n : Nonce} (ho : Opened s w n)
    {p pk : Text} (hp : byteLen p < 256 ^ 4) :
    ¬ Signed E node s pk (proofTranscript (node w).peerId p n.1) := by
  have hmax : MAX_MESSAGE_BYTES < 256 ^ 4 := by decide
  have hn : n.1.length < 256 ^ 4 := by
    rw [n.2]
    decide
  rintro (⟨q, -, k, -, -, hm⟩ | ⟨q, hq, k, -, -, hm⟩)
  · exact proofTranscript_ne_pongTranscript _ _ _ _ _ _ _ hm
  · obtain ⟨hv, hx⟩ := h.short q hq
    obtain ⟨e1, -, e3⟩ := proofTranscript_inj (lt_of_le_of_lt (node w).short hmax) hv hp
      (lt_of_le_of_lt (node q.node).short hmax) hn hx hm
    exact h.apart w n ho q hq e1.symm e3.symm

theorem served_guarded (h : Guarded E node s) (hc : s.conns[c]? = some cn)
    (hl : cn.listener = some v) (hs : cn.session = some ss) (hq : cn.toListener = m :: rest)
    (hlen : m.frameLen ≤ MAX_MESSAGE_BYTES) (hf : FreshFor s fresh) (hu : Unforged E node s c) :
    Guarded E node (served s c cn v rest ip fresh m (respond E (node v) ans ip fresh ss m)) where
  apart w n hw p hp hv := by
    rcases served_opened hc hs hw with hw | ⟨-, hn⟩
    · exact h.apart w n hw p hp hv
    · exact (hf n hn).2 p hp
  minted w n hw := by
    rcases served_opened hc hs hw with hw | ⟨-, hn⟩
    · exact List.mem_append_right _ (h.minted w n hw)
    · exact List.mem_append_left _ (Option.mem_toList.mpr hn)
  direct x hx := by
    rcases served_direct hc hx with hx | ⟨-, n, hn, rfl⟩
    · obtain ⟨n, hn, hnx⟩ := h.direct x hx
      exact ⟨n, List.mem_append_right _ hn, hnx⟩
    · exact ⟨n, List.mem_append_left _ (Option.mem_toList.mpr hn), rfl⟩
  crossed x hx w n hw := by
    rcases served_direct hc hx with hx | ⟨hi, y, hy, rfl⟩
    · rcases served_opened hc hs hw with hw | ⟨-, hn⟩
      · exact h.crossed x hx w n hw
      · obtain ⟨y, hy, rfl⟩ := h.direct x hx
        intro hyn
        exact (hf n hn).1 (Subtype.ext hyn ▸ hy)
    · rcases served_opened hc hs hw with hw | ⟨hi', -⟩
      · intro hyn
        exact (hf y hy).1 (Subtype.ext hyn ▸ h.minted w n hw)
      · rw [hi'] at hi
        cases hi
  short := h.short
  unnamed a ha ho i hi := by
    rcases List.mem_append.mp ha with ha | ha
    · obtain ⟨p, pk, sg, q, rfl, hr, hop, hpeer⟩ := mem_acceptedOf ha
      obtain ⟨n, hn, hver⟩ := respond_authOk hr
      obtain ⟨-, k, hk, hpk⟩ := hi
      rw [hpeer] at hpk
      have hopen : Opened s v n := by
        refine opened_of_get hc (hop.symm.trans ho) hl ?_
        rw [Conn.challenge, hs]
        exact hn
      have hshort : byteLen p < 256 ^ 4 := by
        simp only [P2pMessage.frameLen, textLen, MAX_MESSAGE_BYTES] at hlen
        omega
      have hhead : P2pMessage.authProof p pk sg ∈ cn.toListener.head? := by
        rw [hq]
        rfl
      have hverifies : proofVerifies E (publicKeyHex E k) (proofTranscript (node v).peerId p n.1)
          (.authProof p pk sg) = true := by
        simp only [proofVerifies, ← hpk, beq_self_eq_true, hver, Bool.and_self]
      have hsigned := hu cn hc (hop.symm.trans ho) _ hhead i k hk _ hverifies
      exact h.not_signed hopen hshort hsigned
    · exact h.unnamed a ha ho i hi

end Served

theorem serve_guarded (h : Guarded E node s) {c : ℕ} {fresh : Option Nonce} (ans : ShardAnswers)
    (ip : Text) (hf : FreshFor s fresh) (hu : Unforged E node s c) :
    Guarded E node (serve E node s c ans ip fresh) := by
  rcases serve_cases E node s c ans ip fresh with
    heq | ⟨cn, rest, hc, heq⟩ | ⟨cn, v, ss, m, rest, hc, hl, hs, hq, hlen, heq⟩
  · rw [heq]
    exact h
  · rw [heq]
    exact h.put hc rfl rfl (fun _ hn => by cases hn) fun _ _ _ hm => hm
  · rw [heq]
    exact served_guarded h hc hl hs hq hlen hf hu

/-! ### A frame at an initiator -/

theorem answerPong_eq_ok {nd : NodeKeys K} {nonce : Nonce} {m proof : P2pMessage} {remote : Text}
    {challenge : Bytes} (h : answerPong E nd nonce m = .ok (remote, challenge, proof)) :
    checkAuthPong E nonce m = .ok (remote, challenge) ∧ m.frameLen ≤ MAX_MESSAGE_BYTES := by
  unfold answerPong at h
  cases hr : readFrame m with
  | error e => rw [hr] at h; cases h
  | ok m' =>
    obtain ⟨rfl, hlen⟩ := readFrame_eq_ok hr
    rw [hr] at h
    cases hk : checkAuthPong E nonce m' with
    | error e => simp only [bind, Except.bind, hk] at h; cases h
    | ok r =>
      simp only [bind, Except.bind, hk] at h
      split at h
      · cases h
      · split at h
        · cases h
        · cases h
          exact ⟨rfl, hlen⟩

/-- A proof is recorded; it is bound to no challenge that the malicious node has outstanding at
the verifier it names. -/
theorem Guarded.prove (h : Guarded E node s) {c : ℕ} {cn : Conn ι} {ph : Option Phase}
    {up rest : List P2pMessage} {m : P2pMessage} {p : Proof ι} (hc : s.conns[c]? = some cn)
    (hq : cn.toInitiator = m :: rest)
    (hp : ∀ v n, Opened s v n → p.verifier = (node v).peerId → p.challenge ≠ n.1)
    (hshort : byteLen p.verifier < 256 ^ 4 ∧ p.challenge.length < 256 ^ 4) :
    Guarded E node { s with
      conns := s.conns.set c { cn with phase := ph, toListener := up, toInitiator := rest }
      proofs := p :: s.proofs } := by
  have hput : Guarded E node
      (s.put c { cn with phase := ph, toListener := up, toInitiator := rest }) :=
    h.put hc rfl rfl (fun _ hn => hn) (fun _ _ m hm => hq ▸ List.mem_cons_of_mem _ hm)
  have hopen : ∀ v n, Opened (s.put c { cn with phase := ph, toListener := up, toInitiator := rest })
      v n → Opened s v n := by
    intro v n hv
    rcases opened_set rfl hv with hv | ⟨h1, h2, h3⟩
    · exact hv
    · exact opened_of_get hc h1 h2 h3
  refine ⟨?_, hput.minted, hput.direct, hput.crossed, ?_, hput.unnamed⟩
  · intro v n hv q hmem
    rcases List.mem_cons.mp hmem with rfl | hmem
    · exact hp v n (hopen v n hv)
    · exact hput.apart v n hv q hmem
  · intro q hmem
    rcases List.mem_cons.mp hmem with rfl | hmem
    · exact hshort
    · exact h.short q hmem

theorem resume_guarded (h : Guarded E node s) {c : ℕ} (hu : Unannounced E node s (.resume c)) :
    Guarded E node (resume E node s c) := by
  unfold resume
  split
  · exact h
  · next cn hc =>
    have htail : ∀ {m : P2pMessage} {rest : List P2pMessage}, cn.toInitiator = m :: rest →
        cn.initiator.isSome → cn.listener.isSome → ∀ x ∈ rest, x ∈ cn.toInitiator :=
      fun hq _ _ x hx => hq ▸ List.mem_cons_of_mem _ hx
    split
    · next i nonce msg m rest hi hph hq =>
      split
      · exact h.put hc rfl rfl (fun _ hn => hn) (htail hq)
      · next remote challenge proof hans =>
        obtain ⟨hcheck, hlen⟩ := answerPong_eq_ok hans
        obtain ⟨port, o, pk, sg, rfl, -⟩ := checkAuthPong_eq_ok hcheck
        refine h.prove hc hq ?_ ?_
        · intro v n hv hverifier
          cases hl : cn.listener with
          | none =>
            exact hu cn hc hl nonce msg hph _ (by rw [hq]; rfl) remote challenge hcheck v n
              hverifier.symm hv
          | some w =>
            -- between honest nodes the challenge was minted on this connection
            refine h.crossed challenge ⟨cn, List.mem_of_getElem? hc, by rw [hi]; rfl, by rw [hl]; rfl,
              remote, port, o, pk, sg, ?_⟩ v n hv
            rw [hq]
            exact List.mem_cons_self ..
        · change byteLen remote < 256 ^ 4 ∧ challenge.length < 256 ^ 4
          simp only [P2pMessage.frameLen, textLen, MAX_MESSAGE_BYTES] at hlen
          exact ⟨by omega, by omega⟩
    · next m rest _ _ hq =>
      split
      · exact h.put hc rfl rfl (fun _ hn => hn) (htail hq)
      · exact h.put hc rfl rfl (fun _ hn => hn) (htail hq)
    · next m rest _ _ hq => exact h.put hc rfl rfl (fun _ hn => hn) (htail hq)
    · exact h

theorem step_guarded (h : Guarded E node s) (e : Event ι) (hi : Ideal E node s e)
    (hu : Unannounced E node s e) : Guarded E node (step E node s e) := by
  cases e with
  | dial i target nonce msg => exact dial_guarded h i target nonce msg
  | intrude v => exact h.append rfl rfl
  | send c m => exact send_guarded h c m
  | serve c ans ip fresh => exact serve_guarded h ans ip hi.1 hi.2
  | resume c => exact resume_guarded h hu
  | giveUp c => exact giveUp_guarded h c
  | close c => exact close_guarded h c

/-- The id an `AuthPong` announces. -/
def announcedId : P2pMessage → Option Text
  | .authPong p _ _ _ _ _ => some p
  | _ => none

/-- The malicious node announces no honest node's id. -/
def Foreign (node : ι → NodeKeys K) (s : State ι) : Event ι → Prop
  | .resume c => ∀ cn ∈ s.conns[c]?, cn.listener = none → ∀ m ∈ cn.toInitiator.head?,
      ∀ i, announcedId m ≠ some (node i).peerId
  | _ => True

theorem unannounced_of_foreign {e : Event ι} (h : Foreign node s e) : Unannounced E node s e := by
  cases e with
  | resume c =>
    intro cn hcn hl nonce msg _ m hm remote challenge hcheck v n hv _
    obtain ⟨port, o, pk, sg, rfl, -⟩ := checkAuthPong_eq_ok hcheck
    exact absurd (congrArg some hv.symm) (h cn hcn hl _ hm v)
  | _ => trivial

/-- With ideal signatures and fresh challenges no proof is relayed in a run in which the
malicious node never announces an honest listener's id with the challenge it has outstanding
there. -/
theorem run_unrelayed {es : List (Event ι)} (hi : AllMeet (step E node) (Ideal E node) start es)
    (hu : AllMeet (step E node) (Unannounced E node) start es) :
    Unrelayed E node (run (step E node) start es) := by
  have hinv := run_invariant (I := Guarded E node)
    (fun s e h hok => step_guarded h e hok.1 hok.2) (start_guarded E node) (hi.and hu)
  exact hinv.unrelayed

end

/-! ### A relay -/

/-- `C` (0) and `V` (1). -/
def pair : Fin 2 → NodeKeys Byte
  | 0 => ⟨['c'], 3100, some 3, by decide⟩
  | 1 => ⟨['v'], 3100, some 5, by decide⟩

def nonceOf (b : Byte) : Nonce := ⟨List.replicate 32 b, List.length_replicate ..⟩

def noAnswers : ShardAnswers := ⟨fun _ _ _ _ _ => false, fun _ => none, fun _ => false, fun _ => [], fun _ _ _ => false⟩

section
variable (announced : Text)

/-- What is signed when the malicious node announces this id to `C`. -/
def relayTable : List Bytes :=
  [pongTranscript ['v'] 3100 (nonceOf 1).1 (some ['m']),
    pongTranscript announced 3100 (nonceOf 2).1 none,
    proofTranscript announced ['c'] (nonceOf 7).1]

def relayKeys : Ed25519 Byte := tableEd25519 (relayTable announced)

def relaySign (k : Byte) (m : Bytes) : Text := (signHex (relayKeys announced) k m).getD []

/-- `C` dials the malicious node, which takes a challenge from `V`, hands it to `C` under the
announced id, and gives `C`'s proof to `V`. -/
def relay : List (Event (Fin 2)) :=
  [.dial 0 none (nonceOf 2) (.getShard []),
    .intrude 1,
    .send 1 (.authPing ['c'] 3100 (nonceOf 1).1),
    .serve 1 noAnswers ['m'] (some (nonceOf 7)),
    .send 0 (.authPong announced 3100 none (publicKeyHex (relayKeys announced) 9)
      (relaySign announced 9 (pongTranscript announced 3100 (nonceOf 2).1 none)) (nonceOf 7).1),
    .resume 0,
    .send 1 (.authProof ['c'] (publicKeyHex (relayKeys announced) 3)
      (relaySign announced 3 (proofTranscript announced ['c'] (nonceOf 7).1))),
    .serve 1 noAnswers ['m'] none]

instance (E : Ed25519 Byte) (s : State (Fin 2)) (pk : Text) (m : Bytes) :
    Decidable (Signed E pair s pk m) := by
  unfold Signed
  infer_instance

/-- `Unforged` with the messages of the table alone. -/
def UnforgedOver (table : List Bytes) (E : Ed25519 Byte) (s : State (Fin 2)) (c : ℕ) : Prop :=
  ∀ cn ∈ s.conns[c]?, cn.initiator = none → ∀ f ∈ cn.toListener.head?, ∀ i, ∀ k ∈ (pair i).signer,
    ∀ m ∈ table, proofVerifies E (publicKeyHex E k) m f = true → Signed E pair s (publicKeyHex E k) m

instance (table : List Bytes) (E : Ed25519 Byte) (s : State (Fin 2)) (c : ℕ) :
    Decidable (UnforgedOver table E s c) := by
  unfold UnforgedOver
  infer_instance

instance (s : State (Fin 2)) (fresh : Option Nonce) : Decidable (FreshFor s fresh) := by
  unfold FreshFor
  infer_instance

def IdealOver (table : List Bytes) (E : Ed25519 Byte) (s : State (Fin 2)) : Event (Fin 2) → Prop
  | .serve c _ _ fresh => FreshFor s fresh ∧ UnforgedOver table E s c
  | _ => True

instance (table : List Bytes) (E : Ed25519 Byte) (s : State (Fin 2)) :
    ∀ e, Decidable (IdealOver table E s e)
  | .serve c _ _ fresh => inferInstanceAs (Decidable (FreshFor s fresh ∧ UnforgedOver table E s c))
  | .dial .. | .intrude _ | .send .. | .resume _ | .giveUp _ | .close _ => .isTrue trivial

theorem ideal_of_table {table : List Bytes} {s : State (Fin 2)} {e : Event (Fin 2)}
    (h : IdealOver table (tableEd25519 table) s e) : Ideal (tableEd25519 table) pair s e := by
  cases e with
  | serve c ans ip fresh =>
    refine ⟨h.1, fun cn hcn hi f hf i k hk m hm => h.2 cn hcn hi f hf i k hk m ?_ hm⟩
    unfold proofVerifies at hm
    split at hm
    · exact tableEd25519_mem (Bool.and_eq_true_iff.mp hm).2
    · cases hm
  | _ => trivial

end

instance (E : Ed25519 Byte) (s : State (Fin 2)) : Decidable (Unrelayed E pair s) := by
  unfold Unrelayed Names
  infer_instance

instance (s : State (Fin 2)) : ∀ e, Decidable (Foreign pair s e)
  | .resume c => inferInstanceAs (Decidable (∀ cn ∈ s.conns[c]?, cn.listener = none →
      ∀ m ∈ cn.toInitiator.head?, ∀ i, announcedId m ≠ some (pair i).peerId))
  | .dial .. | .intrude _ | .send .. | .serve .. | .giveUp _ | .close _ => .isTrue trivial

/-- Under an id of its own the malicious node gets a proof from `C`, and `V` refuses it. -/
theorem announcedSelf_unrelayed :
    Unrelayed (relayKeys ['m']) pair (run (step (relayKeys ['m']) pair) start (relay ['m'])) := by
  have hi : AllMeet (step (relayKeys ['m']) pair) (IdealOver (relayTable ['m']) (relayKeys ['m']))
      start (relay ['m']) := by decide +kernel
  have hf : AllMeet (step (relayKeys ['m']) pair) (Foreign pair) start (relay ['m']) := by
    decide +kernel
  exact run_unrelayed (hi.mono fun s e he => ideal_of_table he)
    (hf.mono fun s e he => unannounced_of_foreign he)

/-- The malicious node announces `V` to `C` under a key of its own and passes on `V`'s
challenge: `V` takes it for `C` while `C` is in a session with it. -/
theorem announcedVictim_relays :
    AllMeet (step (relayKeys ['v']) pair) (Ideal (relayKeys ['v']) pair) start (relay ['v']) ∧
      ¬ Unrelayed (relayKeys ['v']) pair (run (step (relayKeys ['v']) pair) start (relay ['v'])) := by
  constructor
  · have h : AllMeet (step (relayKeys ['v']) pair) (IdealOver (relayTable ['v']) (relayKeys ['v']))
        start (relay ['v']) := by decide +kernel
    exact h.mono fun s e he => ideal_of_table he
  · decide +kernel

end P2pnas.Node.Relay
