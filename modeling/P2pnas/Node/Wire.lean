import P2pnas.Node.Hosting

/-!
# Frames, signatures and the two ends of a connection (`crates/p2p`)

The messages of `protocol.rs:32-113`, the transcripts that are signed, the listener's answer
to one frame (`handle_conn`, `server.rs:134-266`) and the initiator's checks in
`authenticated_session` (`client.rs:195-257`). Ed25519 is a parameter.
-/

namespace P2pnas.Node.Wire
open P2pnas.Lib.Frames P2pnas.Lib.Strings
open P2pnas.Node.Hosting (AuthenticatedPeer)

/-- Ed25519 of `aws_lc_rs`, over key pairs `K`: `try_sign` may fail, `verify` takes the raw
public key, the message and the raw signature. -/
structure Ed25519 (K : Type) where
  publicKey : K → Bytes
  trySign : K → Bytes → Option Bytes
  verify : Bytes → Bytes → Bytes → Bool

def MAX_MESSAGE_BYTES : ℕ := 16 * 1024 * 1024
def NONCE_LEN : ℕ := 32
def ED25519_PUBLIC_KEY_LEN : ℕ := 32
def ED25519_SIGNATURE_LEN : ℕ := 64
def HANDSHAKE_CONTEXT : Bytes := utf8 "p2pnas/handshake/v1".toList
def PROOF_CONTEXT : Bytes := utf8 "p2pnas/peer-proof/v1".toList

/-- `[u8; NONCE_LEN]`. -/
abbrev Nonce := { b : Bytes // b.length = NONCE_LEN }

inductive P2pMessage where
  | ping (peerId : Text) (apiPort : UInt16)
  | pong (peerId : Text) (apiPort : UInt16) (observedAddr : Option Text)
  | storeShard (fragmentId ownerPeerId : Text) (shardIndex : ℤ) (data : Bytes)
  | ack (fragmentId : Text)
  | getShard (fragmentId : Text)
  | shardData (fragmentId : Text) (data : Bytes)
  | shardNotFound (fragmentId : Text)
  | hasShard (fragmentId : Text)
  | hasShardResult (fragmentId : Text) (present : Bool)
  | auditShard (fragmentId : Text)
  | auditResult (fragmentId hash : Text)
  | deleteShard (fragmentId ownerPeerId : Text)
  | error (message : Text)
  | authPing (peerId : Text) (apiPort : UInt16) (nonce : Bytes)
  | authPong (peerId : Text) (apiPort : UInt16) (observedAddr : Option Text)
      (publicKey signature : Text) (challenge : Bytes)
  | authProof (peerId publicKey signature : Text)
  | authOk (peerId : Text)
  deriving DecidableEq, Repr

/-- The bytes `bincode` spends on a string and on an optional one. -/
def textLen (t : Text) : ℕ := 8 + byteLen t
def optionLen (t : Option Text) : ℕ := 1 + (t.map textLen).getD 0

/-- The length of the frame `bincode` makes of a message: a four-byte variant index, eight
bytes for each length. -/
def P2pMessage.frameLen : P2pMessage → ℕ
  | .ping p _ => 4 + textLen p + 2
  | .pong p _ o => 4 + textLen p + 2 + optionLen o
  | .storeShard f o _ d => 4 + textLen f + textLen o + 4 + (8 + d.length)
  | .ack f => 4 + textLen f
  | .getShard f => 4 + textLen f
  | .shardData f d => 4 + textLen f + (8 + d.length)
  | .shardNotFound f => 4 + textLen f
  | .hasShard f => 4 + textLen f
  | .hasShardResult f _ => 4 + textLen f + 1
  | .auditShard f => 4 + textLen f
  | .auditResult f h => 4 + textLen f + textLen h
  | .deleteShard f o => 4 + textLen f + textLen o
  | .error m => 4 + textLen m
  | .authPing p _ n => 4 + textLen p + 2 + (8 + n.length)
  | .authPong p _ o k s c => 4 + textLen p + 2 + optionLen o + textLen k + textLen s + (8 + c.length)
  | .authProof p k s => 4 + textLen p + textLen k + textLen s
  | .authOk p => 4 + textLen p

/-! ### Transcripts -/

/-- `transcript`: every part behind its length. -/
def transcript (context : Bytes) (parts : List Bytes) : Bytes :=
  lpLe 4 context ++ parts.flatMap (lpLe 4)

def pongTranscript (peerId : Text) (apiPort : UInt16) (nonce : Bytes) (observedAddr : Option Text) :
    Bytes :=
  transcript HANDSHAKE_CONTEXT
    [utf8 peerId, beBytes 2 apiPort.toNat, nonce, utf8 (observedAddr.getD [])]

def proofTranscript (verifierPeerId claimedPeerId : Text) (challenge : Bytes) : Bytes :=
  transcript PROOF_CONTEXT [utf8 verifierPeerId, utf8 claimedPeerId, challenge]

theorem transcript_context {c d : Bytes} {ps qs : List Bytes} (hc : c.length < 256 ^ 4)
    (hd : d.length < 256 ^ 4) (h : transcript c ps = transcript d qs) : c = d :=
  (lpLe_append_inj hc hd h).1

/-- A signature over one leg is no signature over the other. -/
theorem proofTranscript_ne_pongTranscript (v c : Text) (ch : Bytes) (p : Text) (port : UInt16)
    (nonce : Bytes) (o : Option Text) : proofTranscript v c ch ≠ pongTranscript p port nonce o := by
  intro h
  have hctx : PROOF_CONTEXT = HANDSHAKE_CONTEXT :=
    transcript_context (by decide) (by decide) h
  exact absurd hctx (by decide)

/-- A proof fixes the verifier, the claimed identity and the challenge. -/
theorem proofTranscript_inj {v w c d : Text} {x y : Bytes} (hv : byteLen v < 256 ^ 4)
    (hw : byteLen w < 256 ^ 4) (hc : byteLen c < 256 ^ 4) (hd : byteLen d < 256 ^ 4)
    (hx : x.length < 256 ^ 4) (hy : y.length < 256 ^ 4)
    (h : proofTranscript v c x = proofTranscript w d y) : v = w ∧ c = d ∧ x = y := by
  simp only [proofTranscript, transcript, List.flatMap_cons, List.flatMap_nil] at h
  obtain ⟨-, h⟩ := lpLe_append_inj (by decide) (by decide) h
  obtain ⟨hvw, h⟩ := lpLe_append_inj hv hw h
  obtain ⟨hcd, h⟩ := lpLe_append_inj hc hd h
  obtain ⟨hxy, -⟩ := lpLe_append_inj hx hy h
  exact ⟨utf8_injective hvw, utf8_injective hcd, hxy⟩

/-! ### Signatures -/

section
variable {K : Type} (E : Ed25519 K)

def publicKeyHex (k : K) : Text := hexEncode (E.publicKey k)

def signHex (k : K) (message : Bytes) : Option Text := (E.trySign k message).map hexEncode

/-- `verify_signature`: false on any malformed input. -/
def verifySignature (publicKeyHex : Text) (message : Bytes) (signatureHex : Text) : Bool :=
  match hexDecode publicKeyHex, hexDecode signatureHex with
  | some key, some sig =>
    if key.length ≠ ED25519_PUBLIC_KEY_LEN || sig.length ≠ ED25519_SIGNATURE_LEN then false
    else E.verify key message sig
  | _, _ => false

/-! ### The listener -/

/-- The node behind a handler: its id, its port and, when it could be derived, its signing
key. A peer id is the hex of sixteen bytes (`identity.rs:58`); only that it is short matters. -/
structure NodeKeys (K : Type) where
  peerId : Text
  apiPort : UInt16
  signer : Option K
  short : byteLen peerId ≤ MAX_MESSAGE_BYTES

/-- What the shard operations of the handler answer. -/
structure ShardAnswers where
  storeFrom : Option AuthenticatedPeer → Text → Text → ℤ → Bytes → Bool
  get : Text → Option Bytes
  has : Text → Bool
  audit : Text → Text
  deleteFrom : Option AuthenticatedPeer → Text → Text → Bool

/-- `PeerAuthSession`. -/
structure PeerAuthSession where
  challenge : Option Nonce
  peer : Option AuthenticatedPeer
  deriving DecidableEq

def PeerAuthSession.new : PeerAuthSession := ⟨none, none⟩

/-- `accept_proof`: the challenge is consumed, pass or fail. -/
def PeerAuthSession.acceptProof (s : PeerAuthSession) (localPeerId peerId publicKeyHex signatureHex : Text) :
    PeerAuthSession × Bool :=
  match s.challenge with
  | none => (s, false)
  | some challenge =>
    let message := proofTranscript localPeerId peerId challenge.1
    if !verifySignature E publicKeyHex message signatureHex then ({ s with challenge := none }, false)
    else (⟨none, some ⟨peerId, publicKeyHex⟩⟩, true)

/-- `auth_pong`; `fresh` is what `random_nonce` gives, `none` when the generator fails. -/
def authPong (nd : NodeKeys K) (nonce : Bytes) (peerIp : Text) (fresh : Option Nonce)
    (s : PeerAuthSession) : PeerAuthSession × P2pMessage :=
  if nonce.length ≠ NONCE_LEN then (s, .error "bad challenge length".toList)
  else
    match nd.signer with
    | none => (s, .error "peer authentication unavailable".toList)
    | some k =>
      match signHex E k (pongTranscript nd.peerId nd.apiPort nonce (some peerIp)) with
      | none => (s, .error "signing failed".toList)
      | some signature =>
        match fresh with
        | none => (s, .error "challenge unavailable".toList)
        | some c =>
          ({ s with challenge := some c },
            .authPong nd.peerId nd.apiPort (some peerIp) (publicKeyHex E k) signature c.1)

/-- The answer of `handle_conn` to one frame. -/
def respond (nd : NodeKeys K) (ans : ShardAnswers) (peerIp : Text) (fresh : Option Nonce)
    (s : PeerAuthSession) : P2pMessage → PeerAuthSession × P2pMessage
  | .ping _ _ => (s, .pong nd.peerId nd.apiPort (some peerIp))
  | .authPing _ _ nonce => authPong E nd nonce peerIp fresh s
  | .authProof peerId publicKey signature =>
    match s.acceptProof E nd.peerId peerId publicKey signature with
    | (s', true) => (s', .authOk peerId)
    | (s', false) => (s', .error "auth proof rejected".toList)
  | .storeShard frag owner index data =>
    (s, if ans.storeFrom s.peer frag owner index data then .ack frag
      else .error "store rejected".toList)
  | .getShard frag =>
    (s, match ans.get frag with
      | some data => .shardData frag data
      | none => .shardNotFound frag)
  | .hasShard frag => (s, .hasShardResult frag (ans.has frag))
  | .auditShard frag => (s, .auditResult frag (ans.audit frag))
  | .deleteShard frag owner =>
    (s, if ans.deleteFrom s.peer frag owner then .ack frag else .error "delete rejected".toList)
  | _ => (s, .error "unsupported request".toList)

/-! ### The initiator -/

inductive ErrorKind where
  | permissionDenied
  | invalidData
  | timedOut
  | other
  deriving DecidableEq, Repr

structure IoError where
  kind : ErrorKind
  text : Text
  deriving DecidableEq, Repr

/-- `read_message`: a frame over the cap is refused before it is decoded. -/
def readFrame (m : P2pMessage) : Except IoError P2pMessage :=
  if MAX_MESSAGE_BYTES < m.frameLen then
    .error ⟨.invalidData, s!"p2p frame too large: {m.frameLen} bytes (max {MAX_MESSAGE_BYTES})".toList⟩
  else .ok m

/-- Leg 1 of `authenticated_session`: the answer must be an `AuthPong` that verifies over our
nonce under the key it carries. Gives the announced id and the challenge. -/
def checkAuthPong (nonce : Nonce) : P2pMessage → Except IoError (Text × Bytes)
  | .authPong peerId apiPort observedAddr publicKey signature challenge =>
    let message := pongTranscript peerId apiPort nonce.1 observedAddr
    if !verifySignature E publicKey message signature then
      .error ⟨.permissionDenied, "peer handshake signature rejected".toList⟩
    else .ok (peerId, challenge)
  | _ => .error ⟨.invalidData, "expected AuthPong".toList⟩

/-- Leg 2: our proof, bound to the announced id and to the challenge. -/
def authProof (k : K) (myPeerId remotePeerId : Text) (challenge : Bytes) : Except IoError P2pMessage :=
  match signHex E k (proofTranscript remotePeerId myPeerId challenge) with
  | some signature => .ok (.authProof myPeerId (publicKeyHex E k) signature)
  | none => .error ⟨.other, "peer signature failed".toList⟩

def checkAuthOk : P2pMessage → Except IoError Unit
  | .authOk _ => .ok ()
  | _ => .error ⟨.invalidData, "identity proof refused".toList⟩

end

/-! ### One frame at the listener -/

section
variable {K : Type} {E : Ed25519 K} {nd : NodeKeys K} {ans : ShardAnswers} {ip : Text}
  {fresh : Option Nonce} {s : PeerAuthSession}

/-- After one frame the outstanding challenge is the one before, none, or one just minted and
sent out in the `AuthPong`. -/
theorem respond_challenge (m : P2pMessage) {c : Nonce}
    (h : (respond E nd ans ip fresh s m).1.challenge = some c) :
    s.challenge = some c ∨ fresh = some c := by
  cases m with
  | authPing p port nonce =>
    simp only [respond, authPong] at h
    split at h
    · exact .inl h
    · split at h
      · exact .inl h
      · split at h
        · exact .inl h
        · split at h
          · exact .inl h
          · exact .inr h
  | authProof p pk sg =>
    simp only [respond, PeerAuthSession.acceptProof] at h
    cases hc : s.challenge with
    | none =>
      rw [hc] at h
      exact absurd h (by simp [hc])
    | some x =>
      rw [hc] at h
      simp only at h
      split at h
      · next heq =>
        split at heq
        · cases heq
        · cases heq
          cases h
      · next heq =>
        split at heq
        · cases heq
          cases h
        · cases heq
  | _ => exact .inl h

/-- An `AuthPong` carries the challenge just minted. -/
theorem respond_authPong (m : P2pMessage) {p : Text} {port : UInt16} {o : Option Text}
    {pk sg : Text} {x : Bytes} (h : (respond E nd ans ip fresh s m).2 = .authPong p port o pk sg x) :
    ∃ c, fresh = some c ∧ x = c.1 := by
  cases m with
  | authPing q port' nonce =>
    simp only [respond, authPong] at h
    split at h
    · cases h
    · split at h
      · cases h
      · split at h
        · cases h
        · split at h
          · cases h
          · next c =>
            cases h
            exact ⟨c, rfl, rfl⟩
  | authProof q pk' sg' =>
    simp only [respond] at h
    split at h <;> cases h
  | storeShard f o' i d =>
    simp only [respond] at h
    split at h <;> cases h
  | getShard f =>
    simp only [respond] at h
    split at h <;> cases h
  | deleteShard f o' =>
    simp only [respond] at h
    split at h <;> cases h
  | _ => cases h

/-- A proof is accepted only on an outstanding challenge it signs. -/
theorem acceptProof_true {s' : PeerAuthSession} {v p pk sg : Text}
    (h : s.acceptProof E v p pk sg = (s', true)) :
    ∃ c, s.challenge = some c ∧ verifySignature E pk (proofTranscript v p c.1) sg = true := by
  simp only [PeerAuthSession.acceptProof] at h
  split at h
  · cases h
  · next c hc =>
    split at h
    · cases h
    · next hv => exact ⟨c, hc, by simpa using hv⟩

theorem respond_authOk {p pk sg q : Text}
    (h : (respond E nd ans ip fresh s (.authProof p pk sg)).2 = .authOk q) :
    ∃ c, s.challenge = some c ∧ verifySignature E pk (proofTranscript nd.peerId p c.1) sg = true := by
  simp only [respond] at h
  split at h
  · next heq => exact acceptProof_true heq
  · cases h

/-- An `AuthPong` that checks out is one, and carries what the initiator goes on with. -/
theorem checkAuthPong_eq_ok {nonce : Nonce} {m : P2pMessage} {remote : Text} {challenge : Bytes}
    (h : checkAuthPong E nonce m = .ok (remote, challenge)) :
    ∃ port o pk sg, m = .authPong remote port o pk sg challenge ∧
      verifySignature E pk (pongTranscript remote port nonce.1 o) sg = true := by
  unfold checkAuthPong at h
  split at h
  · next p port o pk sg x =>
    simp only at h
    split at h
    · cases h
    · next hv =>
      cases h
      exact ⟨port, o, pk, sg, rfl, by simpa using hv⟩
  · cases h

theorem readFrame_eq_ok {m m' : P2pMessage} (h : readFrame m = .ok m') :
    m' = m ∧ m.frameLen ≤ MAX_MESSAGE_BYTES := by
  unfold readFrame at h
  split at h
  · cases h
  · next hle =>
    cases h
    exact ⟨rfl, Nat.le_of_not_lt hle⟩

end

/-! ### A finite scheme -/

/-- Signatures over the messages of a table only: key, then place of the message. -/
def tableEd25519 (table : List Bytes) : Ed25519 Byte where
  publicKey k := List.replicate 32 k
  trySign k m := if m ∈ table then some (List.replicate 63 k ++ [UInt8.ofNat (table.idxOf m)]) else none
  verify pk m sig := decide (m ∈ table) && sig == pk ++ pk.take 31 ++ [UInt8.ofNat (table.idxOf m)]

theorem tableEd25519_mem {table : List Bytes} {pk sg : Text} {m : Bytes}
    (h : verifySignature (tableEd25519 table) pk m sg = true) : m ∈ table := by
  unfold verifySignature at h
  split at h
  · split at h
    · cases h
    · simp only [tableEd25519, Bool.and_eq_true, decide_eq_true_eq] at h
      exact h.1
  · cases h

end P2pnas.Node.Wire
