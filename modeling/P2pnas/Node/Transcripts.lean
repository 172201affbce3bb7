import P2pnas.Node.Wire

/-!
# What a handshake signature is about (`protocol.rs:189-209`, `281-296`)

Both legs of the handshake sign a domain tag and their fields, each behind its length. A transcript
can be read back in one way only, so what a signature was made for is fixed.
-/

namespace P2pnas.Node.Transcripts
open P2pnas.Lib.Frames P2pnas.Lib.Strings P2pnas.Node.Wire

/-- What is signed on either leg: the arguments of `pong_transcript` and of `proof_transcript`. -/
inductive Leg where
  | pong (peerId : Text) (apiPort : UInt16) (nonce : Bytes) (observedAddr : Option Text)
  | proof (verifierPeerId claimedPeerId : Text) (challenge : Bytes)
  deriving DecidableEq

def Leg.bytes : Leg → Bytes
  | .pong peerId apiPort nonce observedAddr => pongTranscript peerId apiPort nonce observedAddr
  | .proof verifierPeerId claimedPeerId challenge => proofTranscript verifierPeerId claimedPeerId challenge

/-- The leg with an address that was not observed as the empty one. -/
def Leg.read : Leg → Leg
  | .pong peerId apiPort nonce observedAddr => .pong peerId apiPort nonce (some (observedAddr.getD []))
  | .proof verifierPeerId claimedPeerId challenge => .proof verifierPeerId claimedPeerId challenge

/-- Every component has a length that four bytes can write. -/
def Leg.Short : Leg → Prop
  | .pong peerId _ nonce observedAddr =>
    byteLen peerId < 2 ^ 32 ∧ nonce.length < 2 ^ 32 ∧ byteLen (observedAddr.getD []) < 2 ^ 32
  | .proof verifierPeerId claimedPeerId challenge =>
    byteLen verifierPeerId < 2 ^ 32 ∧ byteLen claimedPeerId < 2 ^ 32 ∧ challenge.length < 2 ^ 32

/-- What a key signed verifies under that key over nothing else. -/
def Binding {K : Type} (E : Ed25519 K) : Prop :=
  ∀ k m m' sig, E.trySign k m = some sig → E.verify (E.publicKey k) m' sig = true → m' = m

/-- An answer fixes the identity, the port, the nonce and the address. -/
theorem pongTranscript_inj {p q : Text} {port port' : UInt16} {n n' : Bytes} {o o' : Option Text}
    (hp : byteLen p < 256 ^ 4) (hq : byteLen q < 256 ^ 4) (hn : n.length < 256 ^ 4)
    (hn' : n'.length < 256 ^ 4) (ho : byteLen (o.getD []) < 256 ^ 4) (ho' : byteLen (o'.getD []) < 256 ^ 4)
    (h : pongTranscript p port n o = pongTranscript q port' n' o') :
    p = q ∧ port = port' ∧ n = n' ∧ o.getD [] = o'.getD [] := by
  simp only [pongTranscript, transcript, List.flatMap_cons, List.flatMap_nil] at h
  have hport : ∀ x : UInt16, (beBytes 2 x.toNat).length < 256 ^ 4 := by
    intro x
    rw [beBytes_length]
    norm_num
  obtain ⟨-, h⟩ := lpLe_append_inj (by decide) (by decide) h
  obtain ⟨hpq, h⟩ := lpLe_append_inj hp hq h
  obtain ⟨hports, h⟩ := lpLe_append_inj (hport port) (hport port') h
  obtain ⟨hnn, h⟩ := lpLe_append_inj hn hn' h
  obtain ⟨hoo, -⟩ := lpLe_append_inj ho ho' h
  have hfits : ∀ x : UInt16, x.toNat < 256 ^ 2 := fun x => x.toNat_lt
  have hsame : port.toNat = port'.toNat := beBytes_inj (hfits port) (hfits port') hports
  exact ⟨utf8_injective hpq, UInt16.toNat_inj.mp hsame, hnn, utf8_injective hoo⟩

theorem leg_inj {a b : Leg} (ha : a.Short) (hb : b.Short) (h : a.bytes = b.bytes) : a.read = b.read := by
  have h4 : (256 : ℕ) ^ 4 = 2 ^ 32 := by norm_num
  cases a with
  | pong p port n o =>
    cases b with
    | pong q port' n' o' =>
      obtain ⟨hp, hn, ho⟩ := ha
      obtain ⟨hq, hn', ho'⟩ := hb
      rw [← h4] at hp hn ho hq hn' ho'
      obtain ⟨rfl, rfl, rfl, hoo⟩ := pongTranscript_inj hp hq hn hn' ho ho' h
      rw [Leg.read, Leg.read, hoo]
    | proof v c x => exact absurd h.symm (proofTranscript_ne_pongTranscript v c x p port n o)
  | proof v c x =>
    cases b with
    | pong p port n o => exact absurd h (proofTranscript_ne_pongTranscript v c x p port n o)
    | proof w d y =>
      obtain ⟨hv, hc, hx⟩ := ha
      obtain ⟨hw, hd, hy⟩ := hb
      rw [← h4] at hv hc hx hw hd hy
      obtain ⟨rfl, rfl, rfl⟩ := proofTranscript_inj hv hw hc hd hx hy h
      rfl

/-- A signature that verifies is one over these bytes. -/
theorem signed_bytes {K : Type} {E : Ed25519 K} (hE : Binding E) {k : K} {m m' : Bytes} {sg : Text}
    (hsign : signHex E k m = some sg) (hv : verifySignature E (publicKeyHex E k) m' sg = true) : m' = m := by
  obtain ⟨sig, hsig, rfl⟩ := Option.map_eq_some_iff.mp hsign
  rw [verifySignature, publicKeyHex, hexDecode_hexEncode, hexDecode_hexEncode] at hv
  dsimp only at hv
  split at hv
  · cases hv
  · exact hE k m m' sig hsig hv

/-- Two transcripts are the same bytes only on the same leg and for the same fields, and what was signed
for one tuple of one leg verifies for no other tuple and not on the other leg. -/
theorem transcripts_unambiguous {K : Type} (E : Ed25519 K) (hE : Binding E) (a b : Leg) (ha : a.Short)
    (hb : b.Short) : (a.bytes = b.bytes ↔ a.read = b.read) ∧
      ∀ k sg, signHex E k a.bytes = some sg → verifySignature E (publicKeyHex E k) b.bytes sg = true →
        b.read = a.read := by
  refine ⟨⟨leg_inj ha hb, fun h => ?_⟩, fun k sg hsign hv => leg_inj hb ha (signed_bytes hE hsign hv)⟩
  have hread : ∀ l : Leg, l.read.bytes = l.bytes := by
    intro l
    cases l <;> rfl
  rw [← hread a, ← hread b, h]

/-! ### A table of signed messages binds -/

theorem tableEd25519_binding (table : List Bytes) (hlen : table.length ≤ 256) :
    Binding (tableEd25519 table) := by
  intro k m m' sig hsign hv
  simp only [tableEd25519] at hsign hv
  split at hsign
  · next hm =>
    obtain rfl := Option.some.inj hsign
    rw [Bool.and_eq_true, decide_eq_true_eq, beq_iff_eq] at hv
    obtain ⟨hm', heq⟩ := hv
    have hbyte := (List.append_inj' heq rfl).2
    have hidx : (UInt8.ofNat (table.idxOf m)).toNat = (UInt8.ofNat (table.idxOf m')).toNat :=
      congrArg UInt8.toNat (List.cons.inj hbyte).1
    have hlt := List.idxOf_lt_length_iff.mpr hm
    have hlt' := List.idxOf_lt_length_iff.mpr hm'
    rw [UInt8.toNat_ofNat', UInt8.toNat_ofNat', Nat.mod_eq_of_lt (by omega), Nat.mod_eq_of_lt (by omega)]
      at hidx
    have hget := List.getElem_idxOf hlt
    have hget' := List.getElem_idxOf hlt'
    rw [← hget, ← hget']
    exact getElem_congr_idx hidx.symm
  · cases hsign

/-- An answer, and a proof with the same texts and bytes in it. -/
def samplePong : Leg := .pong "ab".toList 3100 [1, 2] (some "10.0.0.7:3100".toList)

def sampleProof : Leg := .proof "ab".toList "10.0.0.7:3100".toList [1, 2]

/-- They are different bytes, both get signatures, and that of the answer is none for the proof. -/
theorem samplePong_unambiguous : samplePong.bytes ≠ sampleProof.bytes ∧
    ∃ sg, signHex (tableEd25519 [samplePong.bytes, sampleProof.bytes]) 7 samplePong.bytes = some sg ∧
      verifySignature (tableEd25519 [samplePong.bytes, sampleProof.bytes])
        (publicKeyHex (tableEd25519 [samplePong.bytes, sampleProof.bytes]) 7) samplePong.bytes sg = true ∧
      verifySignature (tableEd25519 [samplePong.bytes, sampleProof.bytes])
        (publicKeyHex (tableEd25519 [samplePong.bytes, sampleProof.bytes]) 7) sampleProof.bytes sg = false := by
  have hE := tableEd25519_binding [samplePong.bytes, sampleProof.bytes] (by decide)
  have hpong : samplePong.Short := by
    rw [samplePong]
    exact ⟨by decide, by decide, by decide⟩
  have hproof : sampleProof.Short := by
    rw [sampleProof]
    exact ⟨by decide, by decide, by decide⟩
  obtain ⟨hbytes, hsigned⟩ := transcripts_unambiguous _ hE samplePong sampleProof hpong hproof
  have hne : samplePong.read ≠ sampleProof.read := by decide
  obtain ⟨sg, hsg⟩ : ∃ sg, signHex (tableEd25519 [samplePong.bytes, sampleProof.bytes]) 7 samplePong.bytes = some sg :=
    ⟨_, rfl⟩
  refine ⟨fun h => hne (hbytes.mp h), sg, hsg, ?_, ?_⟩
  · cases hsg
    decide +kernel
  · by_contra hv
    rw [Bool.not_eq_false] at hv
    exact hne (hsigned 7 sg hsg hv).symm

end P2pnas.Node.Transcripts
