import P2pnas.Core.Base

/-!
# Content encryption (`crypto.rs`)

Key derivation, per-chunk nonces and authenticated metadata of the two key schemes. A
subkey or a sealer is the derived key itself: the AES key schedule adds nothing to it. The
HKDF calls cannot fail for a 32-byte output (`crypto.rs:194-197`), so the derivations are
total.
-/

namespace P2pnas.Core.Crypto
open P2pnas.Lib.Frames P2pnas.Core.Base

def ascii (s : String) : Bytes := P2pnas.Lib.Strings.utf8 s.toList

def SUBKEY_INFO : Bytes := ascii "p2pnas/file-subkey/v1"
def HKDF_SALT_V2 : Bytes := ascii "p2pnas/hkdf-salt/v2"
def FILE_SUBKEY_DOMAIN_V2 : Bytes := ascii "p2pnas/file-subkey/v2"
def CHUNK_AAD_DOMAIN_V2 : Bytes := ascii "p2pnas/chunk-aad/v2"
def MAX_CHUNK_INDEX : ℕ := 2 ^ 32 - 1

/-- `KeyScheme` (`crypto.rs:97-147`). -/
inductive KeyScheme where
  | V1
  | V2
  deriving DecidableEq, Repr

def KeyScheme.asU8 : KeyScheme → ℕ
  | .V1 => 1
  | .V2 => 2

def KeyScheme.asI64 (s : KeyScheme) : ℤ := s.asU8

def KeyScheme.fromI64 (v : ℤ) : Outcome CoreError KeyScheme :=
  if v = 1 then .ok .V1
  else if v = 2 then .ok .V2
  else fail (.crypto "unknown key scheme")

variable {K : Type} (P : Prims K)

/-! ### Derivations -/

def deriveRaw (key : K) (info : Bytes) : K := P.hkdf SUBKEY_INFO key info

def fileSubkey (key : K) (fileId : Bytes) : K := deriveRaw P key fileId

/-- The v2 info string: the domain and every part, each behind its `u64` length. -/
def infoV2 (domain : Bytes) (parts : List Bytes) : Bytes := lpConcat 8 (domain :: parts)

def deriveV2 (key : K) (domain : Bytes) (parts : List Bytes) : K :=
  P.hkdf HKDF_SALT_V2 key (infoV2 domain parts)

def fileSubkeyV2 (key : K) (userId fileId : Bytes) : K :=
  deriveV2 P key FILE_SUBKEY_DOMAIN_V2 [userId, fileId]

def fileSubkeyFor (key : K) (scheme : KeyScheme) (userId fileId : Bytes) : K :=
  match scheme with
  | .V1 => fileSubkey P key fileId
  | .V2 => fileSubkeyV2 P key userId fileId

/-! ### Sealing one chunk -/

/-- 96-bit nonce: the chunk index, big-endian, left-padded with zeros. -/
def nonceFor (index : ℕ) : Bytes := List.replicate 4 0 ++ beBytes 8 index

/-- One seal operation: key, nonce, additional data and plaintext. -/
structure Seal (K : Type) where
  key : K
  nonce : Bytes
  aad : Bytes
  plain : Bytes
  deriving DecidableEq

/-- `ChunkSealer::seal_inner` (`crypto.rs:340-356`): the sealed buffer; the nonce it also
returns is `nonceFor index`. -/
def sealInner (sealer : K) (buf : Bytes) (index : ℕ) (aad : Bytes) : Outcome CoreError Bytes :=
  if MAX_CHUNK_INDEX < index then fail (.crypto "chunk index above the GCM per-key bound")
  else orFail (.crypto "seal") (P.sealInPlace sealer (nonceFor index) aad buf)

def sealChunkRaw (sealer : K) (buf : Bytes) (index : ℕ) : Outcome CoreError Bytes :=
  sealInner P sealer buf index []

def sealWithAad (sealer : K) (buf : Bytes) (index : ℕ) (aad : Bytes) : Outcome CoreError Bytes :=
  sealInner P sealer buf index aad

def openWithAad (sealer : K) (index : ℕ) (buf aad : Bytes) : Outcome CoreError Bytes :=
  orFail (.crypto "open") (P.openInPlace sealer (nonceFor index) aad buf)

def openRaw (sealer : K) (index : ℕ) (buf : Bytes) : Outcome CoreError Bytes :=
  openWithAad P sealer index buf []

/-! ### The cipher of one file -/

/-- `ChunkAad::encode` (`crypto.rs:409-421`). -/
def chunkAad (scheme : KeyScheme) (userId fileId : Bytes) (chunkCount chunkIndex : ℕ) : Bytes :=
  lpConcat 8 [CHUNK_AAD_DOMAIN_V2, beBytes 1 scheme.asU8, userId, fileId, beBytes 8 chunkCount,
    beBytes 8 chunkIndex]

/-- `FileCipher` (`crypto.rs:424-515`). -/
structure FileCipher (K : Type) where
  scheme : KeyScheme
  sealer : K
  aadPrefix : Bytes
  chunkCount : ℕ

def FileCipher.new (key : K) (scheme : KeyScheme) (userId fileId : Bytes) (chunkCount : ℕ) :
    FileCipher K where
  scheme := scheme
  sealer := fileSubkeyFor P key scheme userId fileId
  aadPrefix := match scheme with
    | .V1 => []
    | .V2 => lpConcat 8 [CHUNK_AAD_DOMAIN_V2, beBytes 1 scheme.asU8, userId, fileId,
        beBytes 8 chunkCount]
  chunkCount := chunkCount

def FileCipher.aadFor (c : FileCipher K) (index : ℕ) : Bytes :=
  match c.scheme with
  | .V1 => []
  | .V2 => c.aadPrefix ++ lp 8 (beBytes 8 index)

def FileCipher.sealChunk (c : FileCipher K) (buf : Bytes) (index : ℕ) : Outcome CoreError Bytes :=
  match c.scheme with
  | .V1 => sealChunkRaw P c.sealer buf index
  | .V2 => sealWithAad P c.sealer buf index (c.aadFor index)

def FileCipher.openChunk (c : FileCipher K) (index : ℕ) (buf : Bytes) : Outcome CoreError Bytes :=
  match c.scheme with
  | .V1 => openRaw P c.sealer index buf
  | .V2 =>
    if c.chunkCount ≤ index then fail (.crypto "chunk index outside the file's chunk count")
    else openWithAad P c.sealer index buf (c.aadFor index)

/-! ### What the encodings determine -/

theorem nonceFor_inj {i j : ℕ} (hi : i < 2 ^ 64) (hj : j < 2 ^ 64) (h : nonceFor i = nonceFor j) :
    i = j := by
  have hb := List.append_cancel_left h
  exact beBytes_inj (by norm_num; omega) (by norm_num; omega) hb

/-- The precomputed prefix gives the canonical encoding. -/
theorem aadFor_new (key : K) (userId fileId : Bytes) (n i : ℕ) :
    (FileCipher.new P key .V2 userId fileId n).aadFor i = chunkAad .V2 userId fileId n i := by
  simp only [FileCipher.new, FileCipher.aadFor, chunkAad, lpConcat_cons, lpConcat_nil,
    List.append_assoc, List.append_nil]

/-- The info strings of two files agree for one owner and one id only. -/
theorem infoV2_inj {d u f u' f' : Bytes} (hd : d.length < 2 ^ 64) (hu : u.length < 2 ^ 64)
    (hu' : u'.length < 2 ^ 64) (h : infoV2 d [u, f] = infoV2 d [u', f']) : u = u' ∧ f = f' := by
  have h8 : (256 : ℕ) ^ 8 = 2 ^ 64 := by norm_num
  rw [← h8] at hd hu hu'
  simp only [infoV2, lpConcat_cons, lpConcat_nil, List.append_nil] at h
  obtain ⟨-, hrest⟩ := lp_append_inj hd hd h
  obtain ⟨huser, hfile⟩ := lp_append_inj hu hu' hrest
  have hlen := congrArg List.length hfile
  simp only [P2pnas.Lib.Frames.lp, List.length_append, beBytes_length] at hlen
  have hf : (beBytes 8 f.length).length = (beBytes 8 f'.length).length := by
    simp only [beBytes_length]
  exact ⟨huser, (List.append_inj hfile hf).2⟩

/-- Under v2 a file's subkey determines its owner and its id. -/
theorem fileSubkeyV2_inj (hk : HkdfSeparates P) {key key' : K} {u f u' f' : Bytes}
    (hu : u.length < 2 ^ 64) (hu' : u'.length < 2 ^ 64)
    (h : fileSubkeyV2 P key u f = fileSubkeyV2 P key' u' f') : key = key' ∧ u = u' ∧ f = f' := by
  obtain ⟨_, hkey, hinfo⟩ := hk _ _ _ _ _ _ h
  exact ⟨hkey, infoV2_inj (by decide) hu hu' hinfo⟩

/-- Opening under v2 inverts sealing at an index inside the file. -/
theorem openChunk_sealChunk (ha : AeadOpens P) (c : FileCipher K) (hs : c.scheme = .V2)
    (buf sealed : Bytes) (index : ℕ) (hi : index < c.chunkCount)
    (h : c.sealChunk P buf index = .ok sealed) : c.openChunk P index sealed = .ok buf := by
  simp only [FileCipher.sealChunk, hs, sealWithAad, sealInner] at h
  split at h
  · cases h
  · have hseal := orFail_eq_ok h
    simp only [FileCipher.openChunk, hs, if_neg (Nat.not_le.mpr hi), openWithAad,
      ha _ _ _ _ _ hseal, orFail_some]

end P2pnas.Core.Crypto
