import P2pnas.Node.Placement
import P2pnas.Node.Wire

/-!
# Requests to a host that does what it likes (`client.rs:28-48`, `166-257`, `p2p.rs:77-97`)

`signed_request` opens an authenticated session and, unless the host failed to prove its
identity, falls back to a plain request on a second connection. A host is what connecting to it,
writing to it and reading from it give, with all that was written before; the move loop of
`distribute_shards` runs against any such hosts.
-/

namespace P2pnas.Node.Outbound
open P2pnas.Lib.Frames P2pnas.Lib.Strings P2pnas.Core.Base P2pnas.Node.Wire P2pnas.Node.Peers
open P2pnas.Node.Placement

/-- One connection to a host: a timeout or a closed socket is an error of the step it hits. -/
structure Remote where
  connect : Except IoError Unit
  write : List P2pMessage → P2pMessage → Except IoError Unit
  read : List P2pMessage → Except IoError P2pMessage

/-- `request`. -/
def request (r : Remote) (msg : P2pMessage) : Except IoError P2pMessage := do
  r.connect
  r.write [] msg
  r.read [msg]

/-- What one call finds at an address: the connection of the session, the connection of the
plain request, and the nonce drawn (`none`: the generator fails). -/
structure Exchange where
  session : Remote
  plain : Remote
  fresh : Option Nonce

def randomNonce : Option Nonce → Except IoError Nonce
  | some n => .ok n
  | none => .error ⟨.other, "system rng failed".toList⟩

section
variable {K : Type} (E : Ed25519 K) (me : NodeKeys K)

def authPingOf (n : Nonce) : P2pMessage := .authPing me.peerId me.apiPort n.1

/-- `authenticated_session`. -/
def authenticatedSession (k : K) (r : Remote) (fresh : Option Nonce) (msg : P2pMessage) :
    Except IoError P2pMessage := do
  r.connect
  let nonce ← randomNonce fresh
  let ping := authPingOf me nonce
  r.write [] ping
  let answer ← r.read [ping]
  let (remotePeerId, challenge) ← checkAuthPong E nonce answer
  let proof ← authProof E k me.peerId remotePeerId challenge
  r.write [ping] proof
  let verdict ← r.read [ping, proof]
  checkAuthOk verdict
  r.write [ping, proof] msg
  r.read [ping, proof, msg]

/-- `authenticated_request`. -/
def authenticatedRequest (k : K) (x : Exchange) (msg : P2pMessage) : Except IoError P2pMessage :=
  match authenticatedSession E me k x.session x.fresh msg with
  | .ok resp => .ok resp
  | .error e => if e.kind = .permissionDenied then .error e else request x.plain msg

/-- `signed_request`. -/
def signedRequest (x : Exchange) (msg : P2pMessage) : Except IoError P2pMessage :=
  match me.signer with
  | some k => authenticatedRequest E me k x msg
  | none => request x.plain msg

def isAck : Except IoError P2pMessage → Bool
  | .ok (.ack _) => true
  | _ => false

def storeShardMsg (pl : Planned) (data : Bytes) : P2pMessage :=
  .storeShard pl.fragmentId me.peerId pl.shardIndex data

/-- The task of `distribute_shards` for one shard (`files.rs:403-435`): the primary peer, then
the next, three at most; the first that acknowledges is recorded and the local copy deleted.
`found off` is what the call to the peer at that offset finds. -/
def moveShard (found : ℕ → Exchange) (peers : List PeerRow) (pl : Planned) (data : Bytes) :
    List Sent × Option Text :=
  tryPeers peers (fun off => isAck (signedRequest E me (found off) (storeShardMsg me pl data))) pl data
    (List.range (min peers.length 3))

/-! ### What an acknowledged shard says of its host -/

/-- The host answered the challenge of this exchange with a signature that verifies under `pk`. -/
def ProvesKey (x : Exchange) (pk : Text) : Prop :=
  ∃ n ∈ x.fresh, ∃ id port o sg ch, x.session.read [authPingOf me n] = .ok (.authPong id port o pk sg ch) ∧
    verifySignature E pk (pongTranscript id port n.1 o) sg = true

/-- It proved the key it presented, took our proof and acknowledged the shard. -/
def Authenticated (x : Exchange) (msg : P2pMessage) : Prop :=
  ∃ k ∈ me.signer, ∃ n ∈ x.fresh, ∃ id port o pk sg ch proof f,
    x.session.read [authPingOf me n] = .ok (.authPong id port o pk sg ch) ∧
    verifySignature E pk (pongTranscript id port n.1 o) sg = true ∧
    authProof E k me.peerId id ch = .ok proof ∧
    (∃ q, x.session.read [authPingOf me n, proof] = .ok (.authOk q)) ∧
    x.session.read [authPingOf me n, proof, msg] = .ok (.ack f)

/-- The shard went out as a plain request: this node has no signing key, or the session failed,
and not because the host's signature was rejected. -/
def PlainAfterFailure (x : Exchange) (msg : P2pMessage) : Prop :=
  (∀ k ∈ me.signer, ∃ e, authenticatedSession E me k x.session x.fresh msg = .error e ∧
    e.kind ≠ .permissionDenied) ∧ ∃ f, request x.plain msg = .ok (.ack f)

variable {E me} {x : Exchange} {msg : P2pMessage}

theorem isAck_eq_true {r : Except IoError P2pMessage} (h : isAck r = true) : ∃ f, r = .ok (.ack f) := by
  unfold isAck at h
  split at h
  · next f => exact ⟨f, rfl⟩
  · cases h

theorem checkAuthOk_eq_ok {m : P2pMessage} (h : checkAuthOk m = .ok ()) : ∃ q, m = .authOk q := by
  unfold checkAuthOk at h
  split at h
  · next q => exact ⟨q, rfl⟩
  · cases h

theorem randomNonce_eq_ok {fresh : Option Nonce} {n : Nonce} (h : randomNonce fresh = .ok n) :
    fresh = some n := by
  unfold randomNonce at h
  split at h
  · cases h
    rfl
  · cases h

/-- A session that ends with an acknowledgement has gone through both legs. -/
theorem authenticatedSession_ack {k : K} (hk : me.signer = some k) {f : Text}
    (h : authenticatedSession E me k x.session x.fresh msg = .ok (.ack f)) :
    Authenticated E me x msg := by
  unfold authenticatedSession at h
  obtain ⟨_, -, h1⟩ := bind_eq_ok h
  obtain ⟨n, hn, h2⟩ := bind_eq_ok h1
  obtain ⟨_, -, h3⟩ := bind_eq_ok h2
  obtain ⟨answer, hanswer, h4⟩ := bind_eq_ok h3
  obtain ⟨⟨id, ch⟩, hcheck, h5⟩ := bind_eq_ok h4
  obtain ⟨proof, hproof, h6⟩ := bind_eq_ok h5
  obtain ⟨_, -, h7⟩ := bind_eq_ok h6
  obtain ⟨verdict, hverdict, h8⟩ := bind_eq_ok h7
  obtain ⟨_, hok, h9⟩ := bind_eq_ok h8
  obtain ⟨_, -, hack⟩ := bind_eq_ok h9
  obtain ⟨port, o, pk, sg, rfl, hver⟩ := checkAuthPong_eq_ok hcheck
  obtain ⟨q, rfl⟩ := checkAuthOk_eq_ok hok
  exact ⟨k, hk, n, randomNonce_eq_ok hn, id, port, o, pk, sg, ch, proof, f, hanswer, hver, hproof,
    ⟨q, hverdict⟩, hack⟩

theorem signedRequest_ack {f : Text} (h : signedRequest E me x msg = .ok (.ack f)) :
    Authenticated E me x msg ∨ PlainAfterFailure E me x msg := by
  unfold signedRequest at h
  split at h
  · next k hk =>
    unfold authenticatedRequest at h
    split at h
    · next resp hs =>
      cases h
      exact .inl (authenticatedSession_ack hk hs)
    · next e hs =>
      split at h
      · cases h
      · next hkind =>
        refine .inr ⟨fun k' hk' => ?_, f, h⟩
        cases hk.symm.trans hk'
        exact ⟨e, hs, hkind⟩
  · next hk =>
    refine .inr ⟨fun k hk' => ?_, f, h⟩
    rw [hk] at hk'
    cases hk'

/-- A signature that does not verify ends the call: nothing but the `AuthPing` was written. -/
theorem signedRequest_impostor {k : K} (hk : me.signer = some k) (hc : x.session.connect = .ok ())
    {n : Nonce} (hn : x.fresh = some n) (hw : x.session.write [] (authPingOf me n) = .ok ())
    {id : Text} {port : UInt16} {o : Option Text} {pk sg : Text} {ch : Bytes}
    (hr : x.session.read [authPingOf me n] = .ok (.authPong id port o pk sg ch))
    (hv : verifySignature E pk (pongTranscript id port n.1 o) sg = false) :
    signedRequest E me x msg =
      .error ⟨.permissionDenied, "peer handshake signature rejected".toList⟩ := by
  have hcheck : checkAuthPong E n (.authPong id port o pk sg ch) =
      .error ⟨.permissionDenied, "peer handshake signature rejected".toList⟩ := by
    simp only [checkAuthPong, hv, Bool.not_false, if_true]
  have hs : authenticatedSession E me k x.session x.fresh msg =
      .error ⟨.permissionDenied, "peer handshake signature rejected".toList⟩ := by
    unfold authenticatedSession
    rw [hc, ok_bind, hn, randomNonce, ok_bind]
    simp only
    rw [hw, ok_bind, hr, ok_bind, hcheck]
    rfl
  unfold signedRequest authenticatedRequest
  rw [hk]
  simp only [hs, if_true]

/-- The peer recorded is one of those tried, and acknowledged the shard. -/
theorem tryPeers_recorded {peers : List PeerRow} {acks : ℕ → Bool} {pl : Planned} {data : Bytes}
    {offs : List ℕ} {id : Text} (h : (tryPeers peers acks pl data offs).2 = some id) :
    ∃ off ∈ offs, acks off = true ∧
      ∃ r, peers[(pl.primary + off) % peers.length]? = some r ∧ r.peerId = id := by
  induction offs with
  | nil => cases h
  | cons off offs ih =>
    rw [tryPeers] at h
    cases hr : peers[(pl.primary + off) % peers.length]? with
    | none => rw [hr] at h; cases h
    | some r =>
      rw [hr] at h
      simp only at h
      split at h
      · next hack =>
        cases h
        exact ⟨off, List.mem_cons_self .., hack, r, hr, rfl⟩
      · obtain ⟨off', hmem, hack, r', hr', hid⟩ := ih h
        exact ⟨off', List.mem_cons_of_mem _ hmem, hack, r', hr', hid⟩

/-- A peer is recorded for a shard only after its host acknowledged it, either in a session in
which it proved the key it presented over the nonce just drawn, or on a plain request after the
session was not possible; a host whose signature was rejected in that call is not recorded. -/
theorem moveShard_recorded {found : ℕ → Exchange} {peers : List PeerRow} {pl : Planned}
    {data : Bytes} {id : Text} (h : (moveShard E me found peers pl data).2 = some id) :
    ∃ off < min peers.length 3, (∃ r ∈ peers, r.peerId = id ∧
        peers[(pl.primary + off) % peers.length]? = some r) ∧
      (Authenticated E me (found off) (storeShardMsg me pl data) ∨
        PlainAfterFailure E me (found off) (storeShardMsg me pl data)) ∧
      ∀ k ∈ me.signer, (found off).session.connect = .ok () → ∀ n ∈ (found off).fresh,
        (found off).session.write [] (authPingOf me n) = .ok () → ∀ rid port o pk sg ch,
          (found off).session.read [authPingOf me n] = .ok (.authPong rid port o pk sg ch) →
            verifySignature E pk (pongTranscript rid port n.1 o) sg = true := by
  obtain ⟨off, hoff, hack, r, hr, hid⟩ := tryPeers_recorded h
  obtain ⟨f, hf⟩ := isAck_eq_true hack
  refine ⟨off, List.mem_range.mp hoff, ⟨r, List.mem_of_getElem? hr, hid, hr⟩, signedRequest_ack hf, ?_⟩
  intro k hk hc n hn hw rid port o pk sg ch hread
  by_contra hv
  rw [signedRequest_impostor hk hc hn hw hread (Bool.eq_false_iff.mpr hv)] at hf
  cases hf

end

/-! ### Two hosts -/

theorem senderId_short : byteLen ['a'] ≤ MAX_MESSAGE_BYTES := by decide

def sender : NodeKeys Byte := ⟨['a'], 3100, some 3, senderId_short⟩

def hostRow : PeerRow := ⟨['b'], ['x'], ['o', 'n'], none, none, 0⟩

def drawn : Nonce := ⟨List.replicate 32 1, rfl⟩

def handshakeKeys : Ed25519 Byte :=
  tableEd25519 [pongTranscript ['b'] 3100 drawn.1 none, proofTranscript ['b'] ['a'] [2]]

/-- `public_key` of the peer table. -/
def pinned (id : Text) : Option Text :=
  if id = hostRow.peerId then some (publicKeyHex handshakeKeys 5) else none

def answering (answers : List P2pMessage) : Remote :=
  ⟨.ok (), fun _ _ => .ok (), fun sent =>
    match answers[sent.length - 1]? with
    | some m => .ok m
    | none => .error ⟨.timedOut, "io timeout".toList⟩⟩

/-- It holds the pinned key and goes through the exchange. -/
def genuine : Exchange where
  session := answering [.authPong ['b'] 3100 none (publicKeyHex handshakeKeys 5)
      ((signHex handshakeKeys 5 (pongTranscript ['b'] 3100 drawn.1 none)).getD []) [2],
    .authOk ['a'], .ack ['f']]
  plain := answering []
  fresh := some drawn

theorem genuine_recorded :
    (moveShard handshakeKeys sender (fun _ => genuine) [hostRow] ⟨['f'], 0, 0⟩ [1]).2 =
        some hostRow.peerId ∧
      (Authenticated handshakeKeys sender genuine (storeShardMsg sender ⟨['f'], 0, 0⟩ [1]) ∨
        PlainAfterFailure handshakeKeys sender genuine (storeShardMsg sender ⟨['f'], 0, 0⟩ [1])) := by
  have h : (moveShard handshakeKeys sender (fun _ => genuine) [hostRow] ⟨['f'], 0, 0⟩ [1]).2 =
      some hostRow.peerId := by decide +kernel
  obtain ⟨_, -, -, hanswered, -⟩ := moveShard_recorded h
  exact ⟨h, hanswered⟩

/-- It refuses the challenge, then acknowledges what comes in plain. -/
def pretender : Exchange where
  session := answering [.error "peer authentication unavailable".toList]
  plain := answering [.ack ['f']]
  fresh := some drawn

/-- The peer is recorded, and its host never answered for the pinned key. -/
theorem pretender_recorded :
    (moveShard handshakeKeys sender (fun _ => pretender) [hostRow] ⟨['f'], 0, 0⟩ [1]).2 =
        some hostRow.peerId ∧
      ∃ pk ∈ pinned hostRow.peerId, ¬ ProvesKey handshakeKeys sender pretender pk := by
  refine ⟨by decide +kernel, publicKeyHex handshakeKeys 5, by decide +kernel, ?_⟩
  rintro ⟨n, -, id, port, o, sg, ch, hread, -⟩
  cases hread

end P2pnas.Node.Outbound
