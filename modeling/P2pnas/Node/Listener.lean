import P2pnas.Node.Wire

/-!
# One connection at the listener (`protocol.rs:224-279`, `server.rs:134-266`, `p2p.rs:134-241`)

The remote end writes any frames in any order. The session keeps one challenge and one proven
peer; a proof consumes the challenge whether it verifies or not. Holders of keys sign what they
like elsewhere. What is minted, superseded, failed against and accepted on the connection is
recorded on the side, and so is every shard request whose handling does more than ask for the
key pinned for the owner it names.
-/

namespace P2pnas.Node.Listener
open P2pnas.Lib.Frames P2pnas.Lib.Strings P2pnas.Lib.Runs P2pnas.Node.Wire P2pnas.Node.Hosting

section
variable {K : Type} (E : Ed25519 K) (nd : NodeKeys K) (strict : Bool)

/-- A `StoreShard` or `DeleteShard` whose handling got beyond its gate: the owner it names, the
peer authenticated at that moment and the node as it was. -/
structure Reached where
  owner : Text
  caller : Option AuthenticatedPeer
  host : Host

/-- The connection, `none` once it is closed, and what happened on it. -/
structure Line where
  session : Option PeerAuthSession
  minted : List Nonce
  superseded : List Nonce
  failed : List Nonce
  accepted : List Nonce
  signed : List (Bytes × Bytes)
  reached : List Reached

def start : Line := ⟨some .new, [], [], [], [], [], []⟩

inductive Event where
  /-- A frame arrives: what the read requests answer, the caller's address, what the random
  generator gives, and the node with the statements that fail under the call. -/
  | frame (m : P2pMessage) (reads : ShardAnswers) (peerIp : Text) (fresh : Option Nonce) (host : Host)
      (faults : Faults)
  /-- The holder of a private key signs a message. -/
  | signs (publicKey message : Bytes)
  /-- The connection ends: a timeout, an oversized frame, a write that fails. -/
  | close

/-- What `authorize_owner` answers. -/
def authorizes (faults : Faults) (host : Host) (caller : Option AuthenticatedPeer) (owner : Text) : Bool :=
  ((authorizeOwner strict caller owner .done).exec faults host).1

/-- The handler of the node. -/
def answers (reads : ShardAnswers) (host : Host) (faults : Faults) : ShardAnswers :=
  { reads with
    storeFrom := fun caller frag owner index data =>
      ((storeFrom strict caller frag owner index data).exec faults host).1
    deleteFrom := fun caller frag owner => ((deleteFrom strict caller frag owner).exec faults host).1 }

/-- The statements an execution sends, in order. -/
def statements {α : Type} (faults : Faults) : Call α → Host → List Stmt
  | .done _, _ => []
  | .pinnedKey peer k, h =>
    .pinnedKey :: statements faults (k (if faults .pinnedKey = .works then some (h.peers peer) else none)) h
  | .knownPeer peer k, h =>
    .knownPeer ::
      statements faults (k (if faults .knownPeer = .works then some (h.peers peer).isSome else none)) h
  | .nodeLocal k, h =>
    .nodeLocal :: statements faults (k (if faults .nodeLocal = .works then h.nodeLocal else none)) h
  | .hostedSize frag k, h =>
    .hostedSize :: statements faults (k (if faults .hostedSize = .works then
      some ((h.hosted frag).map HostedRow.sizeBytes) else none)) h
  | .recordedOwner frag k, h =>
    .recordedOwner :: statements faults (k (if faults .recordedOwner = .works then
      some ((h.hosted frag).map HostedRow.ownerPeerId) else none)) h
  | .writeFile frag data k, h =>
    let r := h.writeFile (faults .writeFile) frag data
    .writeFile :: statements faults (k r.1) r.2
  | .deleteFile frag k, h => .deleteFile :: statements faults k (h.deleteFile (faults .deleteFile) frag)
  | .upsertRow frag row k, h =>
    .upsertRow :: (if faults .upsertRow = .works then statements faults (k true) (h.setRow frag (some row))
      else statements faults (k false) h)
  | .deleteRow frag k, h =>
    .deleteRow :: statements faults k (if faults .deleteRow = .works then h.setRow frag none else h)
  | .addHosted delta k, h =>
    .addHosted :: statements faults k (if faults .addHosted = .works then h.addHosted delta else h)

/-- Handling a request did something beyond the gate, whose one statement is `pinnedKey`. -/
def beyondGate (faults : Faults) (host : Host) (c : Call Bool) : Bool :=
  (c.exec faults host).1 || (statements faults c host).any (· ≠ .pinnedKey)

def mintedBy (fresh : Option Nonce) : P2pMessage → List Nonce
  | .authPong .. => fresh.toList
  | _ => []

def supersededBy (ss : PeerAuthSession) : P2pMessage → List Nonce
  | .authPong .. => ss.challenge.toList
  | _ => []

def acceptedBy (ss : PeerAuthSession) : P2pMessage → List Nonce
  | .authOk _ => ss.challenge.toList
  | _ => []

/-- The request is a proof and the answer does not accept it. -/
def failedBy (ss : PeerAuthSession) : P2pMessage → P2pMessage → List Nonce
  | .authProof .., .error _ => ss.challenge.toList
  | _, _ => []

def reachedBy (ss : PeerAuthSession) (host : Host) (faults : Faults) : P2pMessage → List Reached
  | .storeShard frag owner index data =>
    if beyondGate faults host (storeFrom strict ss.peer frag owner index data) then
      [⟨owner, ss.peer, host⟩] else []
  | .deleteShard frag owner =>
    if beyondGate faults host (deleteFrom strict ss.peer frag owner) then
      [⟨owner, ss.peer, host⟩] else []
  | _ => []

def step (s : Line) : Event → Line
  | .frame m reads peerIp fresh host faults =>
    match s.session with
    | none => s
    | some ss =>
      match readFrame m with
      | .error _ => { s with session := none }
      | .ok m =>
        let r := respond E nd (answers strict reads host faults) peerIp fresh ss m
        { s with
          session := some r.1
          minted := mintedBy fresh r.2 ++ s.minted
          superseded := supersededBy ss r.2 ++ s.superseded
          failed := failedBy ss m r.2 ++ s.failed
          accepted := acceptedBy ss r.2 ++ s.accepted
          reached := reachedBy strict ss host faults m ++ s.reached }
  | .signs publicKey message => { s with signed := (publicKey, message) :: s.signed }
  | .close => { s with session := none }

/-- Ideal signatures and fresh challenges: a proof that verifies was signed by the holder of its
key, and a challenge was not minted before. -/
def Ideal (s : Line) : Event → Prop
  | .frame m _ _ fresh _ _ => (∀ c ∈ fresh, c ∉ s.minted) ∧
    ∀ p pk sg, m = .authProof p pk sg → ∀ ss ∈ s.session, ∀ c ∈ ss.challenge,
      verifySignature E pk (proofTranscript nd.peerId p c.1) sg = true →
      ∃ k, hexDecode pk = some k ∧ (k, proofTranscript nd.peerId p c.1) ∈ s.signed
  | _ => True

/-- The holder of the peer's key signed the proof for a challenge of this connection. -/
def Proven (s : Line) (a : AuthenticatedPeer) : Prop :=
  ∃ c ∈ s.minted, ∃ k, hexDecode a.publicKey = some k ∧ (k, proofTranscript nd.peerId a.peerId c.1) ∈ s.signed

/-- What the session, the challenges and the requests of the connection have to do with each other. -/
structure Safe (s : Line) : Prop where
  proven : ∀ ss ∈ s.session, ∀ a ∈ ss.peer, Proven nd s a
  once : s.accepted.Nodup
  minted : ∀ c ∈ s.accepted, c ∈ s.minted
  live : ∀ c ∈ s.accepted, c ∉ s.superseded ∧ c ∉ s.failed
  authorized : strict = true → ∀ e ∈ s.reached, ∃ k, e.caller = some ⟨e.owner, k⟩ ∧
    e.host.peers e.owner = some (some k)

/-- The outstanding challenge has been minted, and nothing has become of it. -/
structure Tight (s : Line) : Prop extends Safe nd strict s where
  outstanding : ∀ ss ∈ s.session, ∀ c ∈ ss.challenge,
    c ∈ s.minted ∧ c ∉ s.accepted ∧ c ∉ s.superseded ∧ c ∉ s.failed
  superseded : ∀ c ∈ s.superseded, c ∈ s.minted
  failed : ∀ c ∈ s.failed, c ∈ s.minted

end

/-! ### What one frame does to the session -/

section
variable {K : Type} {E : Ed25519 K} {nd : NodeKeys K} {strict : Bool}

/-- A request that is neither a ping with a nonce nor a proof. -/
def Plain (m : P2pMessage) : Prop :=
  (∀ p port n, m ≠ .authPing p port n) ∧ ∀ p pk sg, m ≠ .authProof p pk sg

theorem ping_or_proof_or_plain (m : P2pMessage) :
    (∃ p port n, m = .authPing p port n) ∨ (∃ p pk sg, m = .authProof p pk sg) ∨ Plain m := by
  cases m with
  | authPing p port n => exact .inl ⟨p, port, n, rfl⟩
  | authProof p pk sg => exact .inr (.inl ⟨p, pk, sg, rfl⟩)
  | _ =>
    refine .inr (.inr ⟨?_, ?_⟩)
    · intro p port n h
      cases h
    · intro p pk sg h
      cases h

/-- Such a request leaves the session, and says nothing of challenges. -/
theorem respond_plain {ans : ShardAnswers} {ip : Text} {fresh : Option Nonce} {ss : PeerAuthSession}
    {m : P2pMessage} (hm : Plain m) :
    let r := respond E nd ans ip fresh ss m
    r.1 = ss ∧ mintedBy fresh r.2 = [] ∧ supersededBy ss r.2 = [] ∧ failedBy ss m r.2 = [] ∧
      acceptedBy ss r.2 = [] := by
  cases m with
  | authPing p port n => exact absurd rfl (hm.1 p port n)
  | authProof p pk sg => exact absurd rfl (hm.2 p pk sg)
  | storeShard f o i d =>
    unfold respond
    dsimp only
    split
    · exact ⟨rfl, rfl, rfl, rfl, rfl⟩
    · exact ⟨rfl, rfl, rfl, rfl, rfl⟩
  | getShard f =>
    unfold respond
    dsimp only
    split
    · exact ⟨rfl, rfl, rfl, rfl, rfl⟩
    · exact ⟨rfl, rfl, rfl, rfl, rfl⟩
  | deleteShard f o =>
    unfold respond
    dsimp only
    split
    · exact ⟨rfl, rfl, rfl, rfl, rfl⟩
    · exact ⟨rfl, rfl, rfl, rfl, rfl⟩
  | _ => exact ⟨rfl, rfl, rfl, rfl, rfl⟩

/-- A ping mints a challenge in the place of the outstanding one, or does nothing. -/
theorem authPong_cases (nonce : Bytes) (ip : Text) (fresh : Option Nonce) (ss : PeerAuthSession) :
    (∃ c p port o pk sg, fresh = some c ∧
      authPong E nd nonce ip fresh ss = ({ ss with challenge := some c }, .authPong p port o pk sg c.1)) ∨
    ∃ e, authPong E nd nonce ip fresh ss = (ss, .error e) := by
  unfold authPong
  split
  · exact .inr ⟨_, rfl⟩
  · split
    · exact .inr ⟨_, rfl⟩
    · split
      · exact .inr ⟨_, rfl⟩
      · split
        · exact .inr ⟨_, rfl⟩
        · exact .inl ⟨_, _, _, _, _, _, rfl, rfl⟩

/-- A proof consumes the outstanding challenge: it verifies over it, or is refused. -/
theorem authProof_cases (ans : ShardAnswers) (ip : Text) (fresh : Option Nonce) (ss : PeerAuthSession)
    (p pk sg : Text) :
    (∃ c, ss.challenge = some c ∧ verifySignature E pk (proofTranscript nd.peerId p c.1) sg = true ∧
      respond E nd ans ip fresh ss (.authProof p pk sg) = (⟨none, some ⟨p, pk⟩⟩, .authOk p)) ∨
    ∃ e, respond E nd ans ip fresh ss (.authProof p pk sg) = ({ ss with challenge := none }, .error e) := by
  obtain ⟨challenge, peer⟩ := ss
  unfold respond PeerAuthSession.acceptProof
  cases challenge with
  | none => exact .inr ⟨_, rfl⟩
  | some c =>
    cases hv : verifySignature E pk (proofTranscript nd.peerId p c.1) sg with
    | true => exact .inl ⟨c, rfl, hv, by simp only [hv]; rfl⟩
    | false => exact .inr ⟨"auth proof rejected".toList, by simp only [hv]; rfl⟩

/-- What follows on a gate is run with what the gate answers. -/
theorem exec_gate (faults : Faults) (host : Host) (caller : Option AuthenticatedPeer) (owner : Text)
    (k : Bool → Call Bool) : (authorizeOwner strict caller owner k).exec faults host =
      (k (authorizes strict faults host caller owner)).exec faults host := by
  unfold authorizes authorizeOwner
  cases caller with
  | none => rfl
  | some a =>
    dsimp only
    split
    · rfl
    · rw [Call.exec, Call.exec]
      split
      · rfl
      · rfl
      · rfl

/-- The gate sends one statement at most; the others are of what follows. -/
theorem statements_gate (faults : Faults) (host : Host) (caller : Option AuthenticatedPeer) (owner : Text)
    (k : Bool → Call Bool) {st : Stmt}
    (h : st ∈ statements faults (authorizeOwner strict caller owner k) host) :
    st = .pinnedKey ∨ st ∈ statements faults (k (authorizes strict faults host caller owner)) host := by
  unfold authorizes
  cases caller with
  | none => exact .inr h
  | some a =>
    simp only [authorizeOwner] at h ⊢
    split at h
    · next hp =>
      rw [if_pos hp]
      exact .inr h
    · next hp =>
      rw [if_neg hp]
      rw [statements] at h
      rcases List.mem_cons.mp h with h | h
      · exact .inl h
      · right
        rw [Call.exec]
        generalize (if faults .pinnedKey = .works then some (host.peers owner) else none) = pinned at h ⊢
        cases hj : pinned.join with
        | none =>
          rw [hj] at h
          exact h
        | some known =>
          rw [hj] at h
          cases known with
          | none => exact h
          | some _ => exact h

/-- A refused request is answered with a refusal and leaves the node as it was. -/
theorem gate_refuses {faults : Faults} {host : Host} {caller : Option AuthenticatedPeer} {owner : Text}
    (h : authorizes strict faults host caller owner = false) (frag : Text) (index : ℤ) (data : Bytes) :
    (storeFrom strict caller frag owner index data).exec faults host = (false, host) ∧
      (deleteFrom strict caller frag owner).exec faults host = (false, host) := by
  unfold storeFrom deleteFrom
  rw [exec_gate, exec_gate, h]
  exact ⟨rfl, rfl⟩

/-- Nothing beyond the gate happens unless the gate lets the request through. -/
theorem authorizes_of_beyond {faults : Faults} {host : Host} {caller : Option AuthenticatedPeer}
    {owner : Text} {frag : Text} {index : ℤ} {data : Bytes}
    (h : beyondGate faults host (storeFrom strict caller frag owner index data) = true ∨
      beyondGate faults host (deleteFrom strict caller frag owner) = true) :
    authorizes strict faults host caller owner = true := by
  by_contra hno
  rw [Bool.not_eq_true] at hno
  obtain ⟨hstore, hdelete⟩ := gate_refuses hno frag index data
  have honly : ∀ k : Bool → Call Bool, k false = .done false →
      (statements faults (authorizeOwner strict caller owner k) host).any (· ≠ .pinnedKey) = false := by
    intro k hk
    refine List.any_eq_false.mpr fun st hst => ?_
    rcases statements_gate faults host caller owner k hst with rfl | hst
    · exact of_decide_eq_false rfl
    · rw [hno, hk] at hst
      cases hst
  unfold beyondGate at h
  rw [hstore, hdelete] at h
  rcases h with h | h
  · have hnone := honly (fun ok => if ok then store frag owner index data else .done false) rfl
    exact Bool.false_ne_true (hnone.symm.trans h)
  · have hnone := honly (fun ok => if ok then delete frag owner else .done false) rfl
    exact Bool.false_ne_true (hnone.symm.trans h)

/-- Under strict authentication the gate lets only the proven owner with its pinned key through. -/
theorem authorizes_strict {faults : Faults} {host : Host} {caller : Option AuthenticatedPeer} {owner : Text}
    (h : authorizes true faults host caller owner = true) :
    ∃ k, caller = some ⟨owner, k⟩ ∧ host.peers owner = some (some k) := by
  rw [authorizes, exec_authorizeOwner] at h
  change authorized faults host caller owner = true at h
  unfold authorized at h
  cases caller with
  | none => cases h
  | some a =>
    rw [Bool.and_eq_true, Bool.and_eq_true, decide_eq_true_eq, decide_eq_true_eq, decide_eq_true_eq] at h
    obtain ⟨⟨howner, -⟩, hpin⟩ := h
    exact ⟨a.publicKey, by rw [← howner], hpin⟩

/-! ### Each thing that happens keeps the invariant -/

section
variable {s : Line} {ss : PeerAuthSession}

theorem Proven.mono {s' : Line} {a : AuthenticatedPeer} (h : Proven nd s a)
    (hm : ∀ c ∈ s.minted, c ∈ s'.minted) (hg : ∀ x ∈ s.signed, x ∈ s'.signed) : Proven nd s' a := by
  obtain ⟨c, hc, k, hk, hsig⟩ := h
  exact ⟨c, hm c hc, k, hk, hg _ hsig⟩

theorem Tight.mints (h : Tight nd strict s) (hs : s.session = some ss) {c : Nonce} (hc : c ∉ s.minted) :
    Tight nd strict { s with
      session := some { ss with challenge := some c }
      minted := c :: s.minted
      superseded := ss.challenge.toList ++ s.superseded } where
  proven := by
    intro ss' hss a ha
    cases hss
    exact (h.proven ss hs a ha).mono (fun _ hx => List.mem_cons_of_mem _ hx) fun _ hx => hx
  once := h.once
  minted := fun x hx => List.mem_cons_of_mem _ (h.minted x hx)
  live := by
    intro x hx
    refine ⟨?_, (h.live x hx).2⟩
    intro hmem
    rcases List.mem_append.mp hmem with hmem | hmem
    · exact (h.outstanding ss hs x (Option.mem_toList.mp hmem)).2.1 hx
    · exact (h.live x hx).1 hmem
  authorized := h.authorized
  outstanding := by
    intro ss' hss x hx
    cases hss
    cases hx
    refine ⟨List.mem_cons_self .., fun hmem => hc (h.minted c hmem), ?_, fun hmem => hc (h.failed c hmem)⟩
    intro hmem
    rcases List.mem_append.mp hmem with hmem | hmem
    · exact hc (h.outstanding ss hs c (Option.mem_toList.mp hmem)).1
    · exact hc (h.superseded c hmem)
  superseded := by
    intro x hmem
    rcases List.mem_append.mp hmem with hmem | hmem
    · exact List.mem_cons_of_mem _ (h.outstanding ss hs x (Option.mem_toList.mp hmem)).1
    · exact List.mem_cons_of_mem _ (h.superseded x hmem)
  failed := fun x hx => List.mem_cons_of_mem _ (h.failed x hx)

theorem Tight.accepts (h : Tight nd strict s) (hs : s.session = some ss) {c : Nonce}
    (hc : ss.challenge = some c) {a : AuthenticatedPeer} (ha : Proven nd s a) :
    Tight nd strict { s with session := some ⟨none, some a⟩, accepted := c :: s.accepted } where
  proven := by
    intro ss' hss b hb
    cases hss
    cases hb
    exact ha.mono (fun _ hx => hx) fun _ hx => hx
  once := List.nodup_cons.mpr ⟨(h.outstanding ss hs c hc).2.1, h.once⟩
  minted := by
    intro x hx
    rcases List.mem_cons.mp hx with rfl | hx
    · exact (h.outstanding ss hs x hc).1
    · exact h.minted x hx
  live := by
    intro x hx
    rcases List.mem_cons.mp hx with rfl | hx
    · exact (h.outstanding ss hs x hc).2.2
    · exact h.live x hx
  authorized := h.authorized
  outstanding := by
    intro ss' hss x hx
    cases hss
    cases hx
  superseded := h.superseded
  failed := h.failed

theorem Tight.fails (h : Tight nd strict s) (hs : s.session = some ss) :
    Tight nd strict { s with
      session := some { ss with challenge := none }
      failed := ss.challenge.toList ++ s.failed } where
  proven := by
    intro ss' hss a ha
    cases hss
    exact (h.proven ss hs a ha).mono (fun _ hx => hx) fun _ hx => hx
  once := h.once
  minted := h.minted
  live := by
    intro x hx
    refine ⟨(h.live x hx).1, ?_⟩
    intro hmem
    rcases List.mem_append.mp hmem with hmem | hmem
    · exact (h.outstanding ss hs x (Option.mem_toList.mp hmem)).2.1 hx
    · exact (h.live x hx).2 hmem
  authorized := h.authorized
  outstanding := by
    intro ss' hss x hx
    cases hss
    cases hx
  superseded := h.superseded
  failed := by
    intro x hmem
    rcases List.mem_append.mp hmem with hmem | hmem
    · exact (h.outstanding ss hs x (Option.mem_toList.mp hmem)).1
    · exact h.failed x hmem

theorem Tight.reaches (h : Tight nd strict s) {rs : List Reached}
    (hr : strict = true → ∀ e ∈ rs, ∃ k, e.caller = some ⟨e.owner, k⟩ ∧ e.host.peers e.owner = some (some k)) :
    Tight nd strict { s with reached := rs ++ s.reached } where
  proven := h.proven
  once := h.once
  minted := h.minted
  live := h.live
  authorized := by
    intro hstrict e he
    rcases List.mem_append.mp he with he | he
    · exact hr hstrict e he
    · exact h.authorized hstrict e he
  outstanding := h.outstanding
  superseded := h.superseded
  failed := h.failed

theorem Tight.closes (h : Tight nd strict s) : Tight nd strict { s with session := none } where
  proven := nofun
  once := h.once
  minted := h.minted
  live := h.live
  authorized := h.authorized
  outstanding := nofun
  superseded := h.superseded
  failed := h.failed

theorem Tight.signs (h : Tight nd strict s) (x : Bytes × Bytes) :
    Tight nd strict { s with signed := x :: s.signed } where
  proven := fun ss hs a ha => (h.proven ss hs a ha).mono (fun _ hx => hx) fun _ hx => List.mem_cons_of_mem _ hx
  once := h.once
  minted := h.minted
  live := h.live
  authorized := h.authorized
  outstanding := h.outstanding
  superseded := h.superseded
  failed := h.failed

end

/-- Handling a request gets beyond the gate for the proven owner only. -/
theorem reachedBy_authorized {ss : PeerAuthSession} {host : Host} {faults : Faults} {m : P2pMessage}
    (hstrict : strict = true) : ∀ e ∈ reachedBy strict ss host faults m,
      ∃ k, e.caller = some ⟨e.owner, k⟩ ∧ e.host.peers e.owner = some (some k) := by
  subst hstrict
  intro e he
  cases m with
  | storeShard f o i d =>
    rw [reachedBy] at he
    split at he
    · next hgate =>
      cases List.mem_singleton.mp he
      exact authorizes_strict (authorizes_of_beyond (.inl hgate))
    · cases he
  | deleteShard f o =>
    rw [reachedBy] at he
    split at he
    · next hgate =>
      cases List.mem_singleton.mp he
      have hauth : authorizes true faults host ss.peer o = true :=
        @authorizes_of_beyond _ _ _ _ _ f 0 [] (.inr hgate)
      exact authorizes_strict hauth
    · cases he
  | _ => cases he

theorem tight_start : Tight nd strict start where
  proven := by
    intro ss hss a ha
    cases hss
    cases ha
  once := List.nodup_nil
  minted := nofun
  live := nofun
  authorized := nofun
  outstanding := by
    intro ss hss c hc
    cases hss
    cases hc
  superseded := nofun
  failed := nofun

/-- What the answer to a frame makes of the session and of its challenges. -/
theorem answered_tight {s : Line} {ss : PeerAuthSession} {m : P2pMessage} {reads ans : ShardAnswers}
    {ip : Text} {fresh : Option Nonce} {host : Host} {faults : Faults} (h : Tight nd strict s)
    (hs : s.session = some ss) (hideal : Ideal E nd s (.frame m reads ip fresh host faults)) :
    let r := respond E nd ans ip fresh ss m
    Tight nd strict { s with
      session := some r.1
      minted := mintedBy fresh r.2 ++ s.minted
      superseded := supersededBy ss r.2 ++ s.superseded
      failed := failedBy ss m r.2 ++ s.failed
      accepted := acceptedBy ss r.2 ++ s.accepted } := by
  intro r
  have hidle : ({ s with session := some ss } : Line) = s := by rw [← hs]
  rcases ping_or_proof_or_plain m with ⟨p, port, nonce, rfl⟩ | ⟨p, pk, sg, rfl⟩ | hplain
  · rcases @authPong_cases K E nd nonce ip fresh ss with ⟨c, q, port', o, pk, sg, hf, hr⟩ | ⟨e, hr⟩
    · have hr' : r = ({ ss with challenge := some c }, .authPong q port' o pk sg c.1) := hr
      rw [hr', hf]
      exact h.mints hs (hideal.1 c hf)
    · have hr' : r = (ss, .error e) := hr
      rw [hr']
      change Tight nd strict { s with session := some ss }
      rwa [hidle]
  · rcases @authProof_cases K E nd ans ip fresh ss p pk sg with ⟨c, hc, hv, hr⟩ | ⟨e, hr⟩
    · have hr' : r = (⟨none, some ⟨p, pk⟩⟩, .authOk p) := hr
      rw [hr']
      obtain ⟨k, hk, hsig⟩ := hideal.2 p pk sg rfl ss hs c hc hv
      change Tight nd strict { s with
        session := some ⟨none, some ⟨p, pk⟩⟩, accepted := ss.challenge.toList ++ s.accepted }
      rw [hc]
      exact h.accepts hs hc ⟨c, (h.outstanding ss hs c hc).1, k, hk, hsig⟩
    · have hr' : r = ({ ss with challenge := none }, .error e) := hr
      rw [hr']
      exact h.fails hs
  · obtain ⟨hsame, hmint, hsup, hfail, hacc⟩ := @respond_plain K E nd ans ip fresh ss m
      hplain
    change Tight nd strict { s with
      session := some (respond E nd ans ip fresh ss m).1
      minted := mintedBy fresh (respond E nd ans ip fresh ss m).2 ++ s.minted
      superseded := supersededBy ss (respond E nd ans ip fresh ss m).2 ++ s.superseded
      failed := failedBy ss m (respond E nd ans ip fresh ss m).2 ++ s.failed
      accepted := acceptedBy ss (respond E nd ans ip fresh ss m).2 ++ s.accepted }
    rw [hsame, hmint, hsup, hfail, hacc]
    change Tight nd strict { s with session := some ss }
    rwa [hidle]

theorem step_tight (s : Line) (e : Event) (h : Tight nd strict s) (hideal : Ideal E nd s e) :
    Tight nd strict (step E nd strict s e) := by
  cases e with
  | signs k m => exact h.signs (k, m)
  | close => exact h.closes
  | frame m reads ip fresh host faults =>
    cases hs : s.session with
    | none =>
      have hsame : step E nd strict s (.frame m reads ip fresh host faults) = s := by
        simp only [step, hs]
      rw [hsame]
      exact h
    | some ss =>
      by_cases hbig : MAX_MESSAGE_BYTES < m.frameLen
      · have hclosed : step E nd strict s (.frame m reads ip fresh host faults) = { s with session := none } := by
          simp only [step, hs, readFrame, if_pos hbig]
        rw [hclosed]
        exact h.closes
      · have hstep : step E nd strict s (.frame m reads ip fresh host faults) =
            let r := respond E nd (answers strict reads host faults) ip fresh ss m
            { s with
              session := some r.1
              minted := mintedBy fresh r.2 ++ s.minted
              superseded := supersededBy ss r.2 ++ s.superseded
              failed := failedBy ss m r.2 ++ s.failed
              accepted := acceptedBy ss r.2 ++ s.accepted
              reached := reachedBy strict ss host faults m ++ s.reached } := by
          simp only [step, hs, readFrame, if_neg hbig]
        rw [hstep]
        exact (answered_tight h hs hideal).reaches fun hstrict => reachedBy_authorized hstrict

theorem run_tight {s : Line} (h₀ : Tight nd strict s) {es : List Event}
    (h : AllMeet (step E nd strict) (Ideal E nd) s es) : Tight nd strict (run (step E nd strict) s es) :=
  run_invariant step_tight h₀ h

/-- Whatever frames come in on a connection, the session is of a holder of its key, a challenge
counts once, and under strict authentication a shard is reached by its proven owner only: any other
request is refused and leaves the node as it was. -/
theorem run_safe (es : List Event) (h : AllMeet (step E nd strict) (Ideal E nd) start es) :
    Safe nd strict (run (step E nd strict) start es) ∧
      ∀ faults host caller owner, (∀ k, caller = some ⟨owner, k⟩ → host.peers owner ≠ some (some k)) →
        ∀ frag index data,
          (storeFrom true caller frag owner index data).exec faults host = (false, host) ∧
          (deleteFrom true caller frag owner).exec faults host = (false, host) := by
  refine ⟨(run_tight tight_start h).toSafe, fun faults host caller owner hno => ?_⟩
  refine gate_refuses ?_
  by_contra hyes
  obtain ⟨k, hcaller, hpin⟩ := authorizes_strict (Bool.not_eq_false _ ▸ hyes)
  exact hno k hcaller hpin

end

/-! ### A peer that proves itself and stores a shard -/

def drawn : Nonce := ⟨List.replicate NONCE_LEN 7, rfl⟩

def proof : Bytes := proofTranscript ['a'] ['b'] drawn.1

def keys : Ed25519 Byte :=
  tableEd25519 [pongTranscript ['a'] 3100 (List.replicate NONCE_LEN 5) (some ['i']), proof]

def listening : NodeKeys Byte := ⟨['a'], 3100, some 1, by decide⟩

def noShards : ShardAnswers := ⟨fun _ _ _ _ _ => false, fun _ => none, fun _ => false, fun _ => [], fun _ _ _ => false⟩

/-- A node that has pinned the key of `b`. -/
def pinnedB : Host where
  peers := fun p => if p = ['b'] then some (some (publicKeyHex keys 2)) else none
  hosted := fun _ => none
  nodeLocal := some (1000000, 0)
  store := fun _ => none

def onLine (m : P2pMessage) (fresh : Option Nonce) : Event := .frame m noShards ['i'] fresh pinnedB noFaults

def storing : List Event :=
  [onLine (.authPing ['b'] 3100 (List.replicate NONCE_LEN 5)) (some drawn),
   .signs (keys.publicKey 2) proof,
   onLine (.authProof ['b'] (publicKeyHex keys 2) ((signHex keys 2 proof).getD [])) none,
   onLine (.storeShard fragF ['b'] 0 [1]) none]

theorem storing_safe : Safe listening true (run (step keys listening true) start storing) ∧
    (run (step keys listening true) start storing).accepted = [drawn] ∧
    (run (step keys listening true) start storing).reached.map Reached.owner = [['b']] := by
  have hsigned : (run (step keys listening true) start (storing.take 2)).signed = [(keys.publicKey 2, proof)] := by
    decide +kernel
  have hsession : (run (step keys listening true) start (storing.take 2)).session = some ⟨some drawn, none⟩ := by
    decide +kernel
  have hkey : hexDecode (publicKeyHex keys 2) = some (keys.publicKey 2) := by decide +kernel
  refine ⟨(run_safe storing ⟨⟨nofun, nofun⟩, trivial, ⟨nofun, ?_⟩, ⟨nofun, nofun⟩, trivial⟩).1, by decide +kernel,
    by decide +kernel⟩
  intro p pk sg hm ss hss c hc _
  cases hm
  change (run (step keys listening true) start (storing.take 2)).session = some ss at hss
  rw [hsession] at hss
  cases hss
  cases hc
  refine ⟨keys.publicKey 2, hkey, ?_⟩
  change _ ∈ (run (step keys listening true) start (storing.take 2)).signed
  rw [hsigned]
  exact List.mem_singleton.mpr rfl

end P2pnas.Node.Listener
