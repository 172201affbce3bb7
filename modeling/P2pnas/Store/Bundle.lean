import P2pnas.Core.Sample
import P2pnas.Store.Session

/-!
# The cold backup bundle (`backup.rs:39-167`)

Identity and manifest, framed, sealed under a key of the passphrase and a fresh salt, with a
header that names the format.
-/

namespace P2pnas.Store.Bundle
open P2pnas.Lib.Frames P2pnas.Lib.Strings P2pnas.Core P2pnas.Core.Base P2pnas.Core.Crypto
open P2pnas.Store.Session

def MAGIC : Bytes := ascii "KBP2PBK1"
def VERSION : Byte := 1
def SALT_LEN : ℕ := 16
def IDENTITY_LEN : ℕ := 32
def BUNDLE_INFO : Bytes := ascii "p2pnas/backup-bundle/v1"
def MIN_PASSPHRASE_LEN : ℕ := 12

def bundleError (msg : String) : StoreError := .integrity msg.toList

variable {K : Type} (P : Prims K)
-- Argon2id of the passphrase and the salt
variable (argon2 : Bytes → Bytes → Option K)

def deriveKek (passphrase : Text) (salt : Bytes) : Outcome StoreError K :=
  orFail (bundleError "key derivation failed") (argon2 (utf8 passphrase) salt)

/-- `seal_bundle`, the salt it drew being `salt`. -/
def sealBundle (plaintext : Bytes) (passphrase : Text) (salt : Bytes) : Outcome StoreError Bytes := do
  let kek ← deriveKek argon2 passphrase salt
  let sealed ← wrapErr .core (sealChunkRaw P (fileSubkey P kek BUNDLE_INFO) plaintext 0)
  return MAGIC ++ [VERSION] ++ salt ++ sealed

def openBundle (blob : Bytes) (passphrase : Text) : Outcome StoreError Bytes :=
  let header := MAGIC.length + 1 + SALT_LEN
  if blob.length < header then fail (bundleError "backup file too short or not a p2pnas backup")
  else if blob.take MAGIC.length ≠ MAGIC then fail (bundleError "not a p2pnas backup file")
  else if blob[MAGIC.length]? ≠ some VERSION then fail (bundleError "unsupported backup version")
  else do
    let kek ← deriveKek argon2 passphrase ((blob.take header).drop (MAGIC.length + 1))
    wrapErr (fun _ => bundleError "wrong passphrase or corrupt backup")
      (openRaw P (fileSubkey P kek BUNDLE_INFO) 0 (blob.drop header))

def encodePlaintext (identity manifestBytes : Bytes) : Bytes :=
  identity ++ beBytes 8 manifestBytes.length ++ manifestBytes

def beU64 (bytes : Bytes) : Outcome StoreError ℕ :=
  if bytes.length = 8 then .ok (beVal bytes) else fail (bundleError "malformed length field")

def decodePlaintext (plain : Bytes) : Outcome StoreError (Bytes × Bytes) :=
  if plain.length < IDENTITY_LEN + 8 then fail (bundleError "backup contents truncated")
  else do
    let len ← beU64 ((plain.take (IDENTITY_LEN + 8)).drop IDENTITY_LEN)
    let rest := plain.drop (IDENTITY_LEN + 8)
    if rest.length ≠ len then fail (bundleError "backup manifest length mismatch")
    else return (plain.take IDENTITY_LEN, rest)

/-- `export`, with what came of taking the snapshot and of reading `identity.key`. -/
def exportBundle (passphrase : Text) (salt : Bytes) (snapshot identity : Outcome StoreError Bytes) :
    Outcome StoreError Bytes :=
  if passphrase.length < MIN_PASSPHRASE_LEN then
    fail (bundleError "passphrase too short (at least 12 characters)")
  else do
    let manifestBytes ← snapshot
    let identity ← identity
    if identity.length ≠ IDENTITY_LEN then fail (bundleError "identity.key has unexpected length")
    else sealBundle P argon2 (encodePlaintext identity manifestBytes) passphrase salt

/-- What a blob holds under a passphrase: the identity and the manifest. -/
def contents (blob : Bytes) (passphrase : Text) : Outcome StoreError (Bytes × Bytes) :=
  openBundle P argon2 blob passphrase >>= decodePlaintext

/-! ### What was exported is read back -/

theorem decode_encode {identity manifestBytes : Bytes} (hid : identity.length = IDENTITY_LEN)
    (hlen : manifestBytes.length < 2 ^ 64) :
    decodePlaintext (encodePlaintext identity manifestBytes) = .ok (identity, manifestBytes) := by
  have h8 : (256 : ℕ) ^ 8 = 2 ^ 64 := by norm_num
  have hword : (identity ++ beBytes 8 manifestBytes.length).length = IDENTITY_LEN + 8 := by
    rw [List.length_append, beBytes_length, hid]
  have htake : (encodePlaintext identity manifestBytes).take (IDENTITY_LEN + 8) =
      identity ++ beBytes 8 manifestBytes.length := List.take_left' hword
  have hdrop : (encodePlaintext identity manifestBytes).drop (IDENTITY_LEN + 8) = manifestBytes :=
    List.drop_left' hword
  have hidentity : (encodePlaintext identity manifestBytes).take IDENTITY_LEN = identity := by
    rw [encodePlaintext, List.append_assoc]
    exact List.take_left' hid
  have hlong : ¬ (encodePlaintext identity manifestBytes).length < IDENTITY_LEN + 8 := by
    rw [encodePlaintext, List.length_append, hword]
    omega
  have hu64 : beU64 (beBytes 8 manifestBytes.length) = .ok manifestBytes.length := by
    rw [beU64, if_pos (beBytes_length ..), beVal_beBytes, h8, Nat.mod_eq_of_lt hlen]
  rw [decodePlaintext, if_neg hlong, htake, List.drop_left' hid, hu64, ok_bind, hdrop, hidentity]
  exact if_neg fun hne => hne rfl

theorem open_seal (ha : AeadOpens P) {plaintext salt blob : Bytes} {passphrase : Text}
    (hsalt : salt.length = SALT_LEN)
    (h : sealBundle P argon2 plaintext passphrase salt = .ok blob) :
    openBundle P argon2 blob passphrase = .ok plaintext := by
  obtain ⟨kek, hkek, h⟩ := bind_eq_ok h
  obtain ⟨sealed, hsealed, h⟩ := bind_eq_ok h
  cases h
  have hraw := wrapErr_eq_ok hsealed
  have hheader : (MAGIC ++ [VERSION] ++ salt).length = MAGIC.length + 1 + SALT_LEN := by
    rw [List.length_append, List.length_append, List.length_singleton, hsalt]
  have hlong : ¬ (MAGIC ++ [VERSION] ++ salt ++ sealed).length < MAGIC.length + 1 + SALT_LEN := by
    rw [List.length_append, hheader]
    omega
  have hmagic : (MAGIC ++ [VERSION] ++ salt ++ sealed).take MAGIC.length = MAGIC := by
    rw [List.append_assoc, List.append_assoc]
    exact List.take_left' rfl
  have hversion : (MAGIC ++ [VERSION] ++ salt ++ sealed)[MAGIC.length]? = some VERSION := by
    rw [List.append_assoc, List.append_assoc, List.getElem?_append_right (le_refl _), Nat.sub_self]
    rfl
  have hkek' : deriveKek argon2 passphrase
      (((MAGIC ++ [VERSION] ++ salt ++ sealed).take (MAGIC.length + 1 + SALT_LEN)).drop
        (MAGIC.length + 1)) = .ok kek := by
    rw [List.take_left' hheader, List.drop_left' (by rw [List.length_append]; rfl)]
    exact hkek
  have hopen : openRaw P (fileSubkey P kek BUNDLE_INFO) 0
      ((MAGIC ++ [VERSION] ++ salt ++ sealed).drop (MAGIC.length + 1 + SALT_LEN)) =
        .ok plaintext := by
    rw [List.drop_left' hheader, openRaw, openWithAad,
      ha _ _ _ _ _ (orFail_eq_ok hraw)]
    rfl
  rw [openBundle]
  simp only [if_neg hlong, hmagic, hversion, ne_eq, not_true_eq_false, if_false, hkek', ok_bind, hopen,
    wrapErr_ok]

/-- An exported bundle holds the identity and the snapshot. -/
theorem contents_export (ha : AeadOpens P) {passphrase : Text} {salt snapshot identity blob : Bytes}
    (hsalt : salt.length = SALT_LEN) (hlen : snapshot.length < 2 ^ 64)
    (h : exportBundle P argon2 passphrase salt (.ok snapshot) (.ok identity) = .ok blob) :
    contents P argon2 blob passphrase = .ok (identity, snapshot) := by
  unfold exportBundle at h
  split at h
  · cases h
  · rw [ok_bind, ok_bind] at h
    split at h
    · cases h
    · next hid =>
      rw [contents, open_seal P argon2 ha hsalt h, ok_bind]
      exact decode_encode (not_not.mp hid) hlen

end P2pnas.Store.Bundle
