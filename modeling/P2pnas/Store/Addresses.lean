import P2pnas.Core.Sample
import P2pnas.Store.Backup
import P2pnas.Store.Written

/-!
# What the addresses of shards are made of (`manifest.rs:981-993`, `backup.rs:334-350`)

The id of a shard is a digest of a few fields: file, chunk and shard for a file's content, peer, day
and shard for a backup of the manifest. The bytes that go into the digest tell these fields apart,
and tell one kind of shard from the other.
-/

namespace P2pnas.Store.Addresses
open P2pnas.Lib.Frames P2pnas.Lib.Strings P2pnas.Core P2pnas.Core.Base P2pnas.Store.Manifest
open P2pnas.Store.Backup P2pnas.Store.Written

/-- Thirty-two lower-case hexadecimal digits. -/
def IsHexId (t : Text) : Prop := t.length = 32 ∧ ∀ c ∈ t, c ∈ "0123456789abcdef".toList

/-- What `fragment_id(chunk_id(f, i), s)` hashes. -/
def fragmentInput (fileId : Text) (idx shardIndex : ℕ) : Bytes :=
  utf8 (chunkId fileId idx) ++ utf8 [':'] ++ beBytes 4 shardIndex

/-- What `manifest_backup_fragment_id(p, v, s)` hashes. -/
def backupInput (peerId : Text) (version shardIndex : ℕ) : Bytes :=
  MANIFEST_BACKUP_DOMAIN ++ utf8 peerId ++ beBytes 8 version ++ beBytes 4 shardIndex

section
variable {K : Type} (P : Prims K)

theorem fragmentId_hashes (f : Text) (i s : ℕ) :
    fragmentId P (chunkId f i) s = hexEncode ((P.blake3 (fragmentInput f i s)).take 16) := rfl

theorem backupFragmentId_hashes (p : Text) (v s : ℕ) :
    manifestBackupFragmentId P p v s = hexEncode ((P.blake3 (backupInput p v s)).take 16) := rfl

end

/-- The shard index is the last word of either input. -/
theorem lastWord_inj {x y : Bytes} {s t : ℕ} (hs : s < 2 ^ 32) (ht : t < 2 ^ 32)
    (h : x ++ beBytes 4 s = y ++ beBytes 4 t) : x = y ∧ s = t := by
  have h4 : (2 : ℕ) ^ 32 = 256 ^ 4 := by norm_num
  rw [h4] at hs ht
  obtain ⟨hxy, hword⟩ := List.append_inj' h (by rw [beBytes_length, beBytes_length])
  exact ⟨hxy, beBytes_inj hs ht hword⟩

theorem fragmentInput_inj {f g : Text} {i j s t : ℕ} (hs : s < 2 ^ 32) (ht : t < 2 ^ 32)
    (h : fragmentInput f i s = fragmentInput g j t) : f = g ∧ i = j ∧ s = t := by
  obtain ⟨hid, hst⟩ := lastWord_inj hs ht h
  obtain ⟨hfg, hij⟩ := chunkId_inj (utf8_injective (List.append_cancel_right hid))
  exact ⟨hfg, hij, hst⟩

theorem backupInput_inj {p q : Text} {v w s t : ℕ} (hv : v < 2 ^ 64) (hw : w < 2 ^ 64) (hs : s < 2 ^ 32)
    (ht : t < 2 ^ 32) (h : backupInput p v s = backupInput q w t) : p = q ∧ v = w ∧ s = t := by
  have h8 : (2 : ℕ) ^ 64 = 256 ^ 8 := by norm_num
  rw [h8] at hv hw
  obtain ⟨hrest, hst⟩ := lastWord_inj hs ht h
  obtain ⟨hpeer, hword⟩ := List.append_inj' hrest (by rw [beBytes_length, beBytes_length])
  exact ⟨utf8_injective (List.append_cancel_left hpeer), beBytes_inj hv hw hword, hst⟩

/-- A file id starts with a digit, the domain of the backup does not. -/
theorem fragmentInput_ne_backupInput {f : Text} (hf : IsHexId f) (i s : ℕ) (p : Text) (v t : ℕ) :
    fragmentInput f i s ≠ backupInput p v t := by
  obtain ⟨hlen, hhex⟩ := hf
  intro h
  cases f with
  | nil => cases hlen
  | cons c f =>
    have hdigit : ("0123456789abcdef".toList.all fun c => String.utf8EncodeChar c ≠ [] ∧
        (String.utf8EncodeChar c).head? ≠ MANIFEST_BACKUP_DOMAIN.head?) = true := by decide
    obtain ⟨hc, hne⟩ := of_decide_eq_true (List.all_eq_true.mp hdigit c (hhex c (List.mem_cons_self ..)))
    have hfirst : (fragmentInput (c :: f) i s).head? = (String.utf8EncodeChar c).head? := by
      simp only [fragmentInput, chunkId, List.cons_append, utf8, List.flatMap_cons, List.append_assoc]
      exact List.head?_append_of_ne_nil _ hc
    have hhead := congrArg List.head? h
    rw [hfirst, backupInput, List.append_assoc, List.append_assoc,
      List.head?_append_of_ne_nil _ (by decide)] at hhead
    exact hne hhead

/-- Distinct tuples have distinct inputs, of one kind and across the two, and the ids are digests of
these inputs. -/
theorem addresses_apart {K : Type} (P : Prims K) :
    (∀ f i s, fragmentId P (chunkId f i) s = hexEncode ((P.blake3 (fragmentInput f i s)).take 16)) ∧
    (∀ p v s, manifestBackupFragmentId P p v s = hexEncode ((P.blake3 (backupInput p v s)).take 16)) ∧
    (∀ f g i j s t, IsHexId f → IsHexId g → s < 2 ^ 32 → t < 2 ^ 32 →
      fragmentInput f i s = fragmentInput g j t → f = g ∧ i = j ∧ s = t) ∧
    (∀ p q v w s t, IsHexId p → IsHexId q → v < 2 ^ 64 → w < 2 ^ 64 → s < 2 ^ 32 → t < 2 ^ 32 →
      backupInput p v s = backupInput q w t → p = q ∧ v = w ∧ s = t) ∧
    ∀ f p i v s t, IsHexId f → IsHexId p → fragmentInput f i s ≠ backupInput p v t :=
  ⟨fragmentId_hashes P, backupFragmentId_hashes P,
    fun _ _ _ _ _ _ _ _ hs ht h => fragmentInput_inj hs ht h,
    fun _ _ _ _ _ _ _ _ hv hw hs ht h => backupInput_inj hv hw hs ht h,
    fun _ p i v s t hf _ => fragmentInput_ne_backupInput hf i s p v t⟩

theorem zeroIds_apart : fragmentInput (List.replicate 32 '0') 1 2 ≠ fragmentInput (List.replicate 32 '0') 12 0 ∧
    backupInput (List.replicate 32 '0') 1 2 ≠ backupInput (List.replicate 32 '0') 2 1 ∧
    fragmentInput (List.replicate 32 '0') 1 2 ≠ backupInput (List.replicate 32 '0') 1 2 := by
  obtain ⟨-, -, hfrag, hbackup, hcross⟩ := addresses_apart (Sample.sample [])
  have hzero : IsHexId (List.replicate 32 '0') := by
    refine ⟨rfl, fun c hc => ?_⟩
    rw [List.eq_of_mem_replicate hc]
    decide
  refine ⟨fun h => ?_, fun h => ?_, hcross _ _ 1 1 2 2 hzero hzero⟩
  · have hidx := (hfrag _ _ 1 12 2 0 hzero hzero (by norm_num) (by norm_num) h).2.1
    exact absurd hidx (by decide)
  · have hidx := (hbackup _ _ 1 2 2 1 hzero hzero (by norm_num) (by norm_num) (by norm_num) (by norm_num) h).2.1
    exact absurd hidx (by decide)

end P2pnas.Store.Addresses
