import Mathlib.Data.List.Dedup
import Mathlib.Order.CompletePartialOrder
import P2pnas.Core.Sample
import P2pnas.Lib.Runs
import P2pnas.Store.Crashes

/-!
# Nonces over the life of a node (`crypto.rs:223-356`, `pipeline.rs:93-132`)

The nonce of a chunk is its index, so a pair of key and nonce comes up once when every file id
is used by one `process_v2` call and that call seals an index once. What a computation asks the
AEAD is read off the computation (`Asks`): it is run on keys that remember how they were derived,
and a seal is asked for when the result depends on its answer. `processing` is the call an
operation makes; that an operation asks nothing else is `leaves_asks`. The workers of
`par_chunks` get to the chunks in any order, and after an error not to all of them.
-/

namespace P2pnas.Store.Nonces
open P2pnas.Lib.Frames P2pnas.Lib.Strings P2pnas.Lib.Stripes P2pnas.Lib.Runs P2pnas.Core
open P2pnas.Core.Base
open P2pnas.Core.Crypto P2pnas.Core.Pipeline P2pnas.Store.Manifest P2pnas.Store.Session
open P2pnas.Store.Service P2pnas.Store.Packing P2pnas.Store.Crashes

variable {K : Type}

/-! ### What a computation asks the AEAD -/

/-- A key as it is made: the node's own, or the output of one HKDF call. -/
inductive Origin (K : Type) where
  | node (key : K)
  | hkdf (salt : Bytes) (ikm : Origin K) (info : Bytes)
  deriving DecidableEq

def Origin.derive (P : Prims K) : Origin K → K
  | .node key => key
  | .hkdf salt ikm info => P.hkdf salt (ikm.derive P) info

/-- The library calls on keys that remember how they were made, with `f` for the seal. -/
def tracked (P : Prims K) (f : Seal (Origin K) → Option Bytes) : Prims (Origin K) where
  hkdf := .hkdf
  sealInPlace key nonce aad plain := f ⟨key, nonce, aad, plain⟩
  openInPlace key := P.openInPlace (key.derive P)
  zstdEncode := P.zstdEncode
  zstdDecode := P.zstdDecode
  entropyAtLeast := P.entropyAtLeast
  rsEncode := P.rsEncode
  rsDecode := P.rsDecode
  blake3 := P.blake3

/-- The result of `x` depends on what it is answered at `q`. -/
def Asks {α β : Type} (x : (α → Option Bytes) → β) (q : α) : Prop :=
  ∃ f g, (∀ q', q' ≠ q → f q' = g q') ∧ x f ≠ x g

theorem subkey_inj (P : Prims K) (f : Seal (Origin K) → Option Bytes) {key key' : Origin K}
    {user file user' file' : Text} (hu : (utf8 user).length < 2 ^ 64)
    (hu' : (utf8 user').length < 2 ^ 64)
    (h : fileSubkeyV2 (tracked P f) key (utf8 user) (utf8 file) =
      fileSubkeyV2 (tracked P f) key' (utf8 user') (utf8 file')) : user = user' ∧ file = file' := by
  obtain ⟨-, -, hinfo⟩ := Origin.hkdf.inj h
  obtain ⟨huser, hfile⟩ := infoV2_inj (by decide) hu hu' hinfo
  exact ⟨utf8_injective huser, utf8_injective hfile⟩

/-! ### One `process_v2` call -/

structure Processing where
  userId : Text
  fileId : Text
  plain : Bytes
  deriving DecidableEq, Repr

/-- The chunks the workers got to among `n`, in the order `order`; the parallel iterator hands
each to one of them. -/
def attempted (order : List ℕ) (n : ℕ) : List ℕ := order.dedup.filter (· < n)

theorem attempted_nodup (order : List ℕ) (n : ℕ) : (attempted order n).Nodup :=
  order.nodup_dedup.filter _

section
variable (P : Prims K) (key : K)

/-- What a worker does for the chunk of index `i`. -/
def Processing.chunk (p : Processing) (i : ℕ) : Outcome CoreError ProcessedChunk :=
  processChunk P
    (FileCipher.new P key .V2 (utf8 p.userId) (utf8 p.fileId) (chunkCount {} p.plain)) {} i
    (piece ({} : PipelineConfig).chunkSize p.plain i)

theorem processV2_eq (p : Processing) :
    processV2 P p.plain key (utf8 p.userId) (utf8 p.fileId) {} =
      collect (p.chunk P key) (List.range (chunkCount {} p.plain)) := by
  have hn : chunkCountFor p.plain.length ({} : PipelineConfig).chunkSize =
      .ok (chunkCount {} p.plain) := rfl
  rw [processV2, processWithScheme, hn, ok_bind]
  exact collect_congr fun i _ => rfl

/-- What the work on a chunk asks the AEAD, its key named by how it is made. -/
def Asked (e : Processing × ℕ) (q : Seal (Origin K)) : Prop :=
  Asks (fun f => e.1.chunk (tracked P f) (.node key) e.2) q

/-- The one seal of the chunk of index `i`. -/
def Processing.query (p : Processing) (i : ℕ) : Seal K where
  key := fileSubkeyV2 P key (utf8 p.userId) (utf8 p.fileId)
  nonce := nonceFor i
  aad := chunkAad .V2 (utf8 p.userId) (utf8 p.fileId) (chunkCount {} p.plain) i
  plain := (maybeCompress P (piece ({} : PipelineConfig).chunkSize p.plain i) ({} : PipelineConfig).zstdLevel).1

/-- A chunk from its sealed buffer on. -/
def Processing.code (p : Processing) (i : ℕ) (sealed : Bytes) : Outcome CoreError ProcessedChunk := do
  let coded ← Erasure.encodeRecovery P sealed
  return {
    index := i
    nonce := nonceFor i
    isCompressed := (maybeCompress P (piece ({} : PipelineConfig).chunkSize p.plain i) ({} : PipelineConfig).zstdLevel).2
    plaintextLen := (piece ({} : PipelineConfig).chunkSize p.plain i).length
    cipher := sealed
    shardLen := coded.1
    recovery := coded.2 }

end

theorem chunk_beyond (P : Prims K) (key : K) (p : Processing) {i : ℕ} (h : MAX_CHUNK_INDEX < i) :
    p.chunk P key i = fail (.crypto "chunk index above the GCM per-key bound") := by
  simp only [Processing.chunk, processChunk, FileCipher.sealChunk, FileCipher.new, sealWithAad,
    sealInner, if_pos h]
  rfl

theorem chunk_within (P : Prims K) (key : K) (p : Processing) {i : ℕ} (h : i ≤ MAX_CHUNK_INDEX) :
    p.chunk P key i = orFail (.crypto "seal") (P.sealInPlace (p.query P key i).key
      (p.query P key i).nonce (p.query P key i).aad (p.query P key i).plain) >>= p.code P i := by
  have haad := aadFor_new P key (utf8 p.userId) (utf8 p.fileId) (chunkCount {} p.plain) i
  have hseal : ∀ buf, (FileCipher.new P key .V2 (utf8 p.userId) (utf8 p.fileId)
      (chunkCount {} p.plain)).sealChunk P buf i = orFail (.crypto "seal") (P.sealInPlace
        (p.query P key i).key (p.query P key i).nonce (p.query P key i).aad buf) := by
    intro buf
    change sealWithAad P _ buf i _ = _
    rw [haad, sealWithAad, sealInner, if_neg (Nat.not_lt.mpr h)]
    rfl
  rw [Processing.chunk, processChunk, hseal]
  rfl

theorem code_ne_seal (P : Prims K) (p : Processing) (i : ℕ) (sealed : Bytes) :
    p.code P i sealed ≠ fail (.crypto "seal") := by
  intro h
  simp only [Processing.code, Erasure.encodeRecovery] at h
  cases hc : P.rsEncode (Erasure.recoveryOriginals sealed) with
  | none =>
    rw [hc] at h
    cases h
  | some r =>
    rw [hc] at h
    cases h

/-- The work on a chunk asks for one seal, under the nonce of its index, and for none beyond the
bound. -/
theorem asked_iff {P : Prims K} {key : K} {p : Processing} {i : ℕ} {q : Seal (Origin K)} :
    Asked P key (p, i) q ↔
      i ≤ MAX_CHUNK_INDEX ∧ q = p.query (tracked P fun _ => none) (.node key) i := by
  constructor
  · rintro ⟨f, g, hoff, hne⟩
    have hi : i ≤ MAX_CHUNK_INDEX := by
      by_contra hlt
      refine hne ?_
      dsimp only
      rw [chunk_beyond _ _ _ (Nat.not_le.mp hlt), chunk_beyond _ _ _ (Nat.not_le.mp hlt)]
    refine ⟨hi, ?_⟩
    by_contra hq
    refine hne ?_
    have hsame := hoff _ (Ne.symm hq)
    dsimp only
    rw [chunk_within _ _ _ hi, chunk_within _ _ _ hi]
    exact congrArg (fun o => orFail (.crypto "seal") o >>= p.code (tracked P g) i) hsame
  · rintro ⟨hi, rfl⟩
    classical
    let q : Seal (Origin K) := p.query (tracked P fun _ => none) (.node key) i
    let g : Seal (Origin K) → Option Bytes := fun q' => if q' = q then some [] else none
    have hat : g q = some [] := if_pos rfl
    have hrefused : p.chunk (tracked P fun _ => none) (.node key) i = fail (.crypto "seal") := by
      rw [chunk_within _ _ _ hi]
      rfl
    have hsealed : p.chunk (tracked P g) (.node key) i = p.code (tracked P g) i [] := by
      rw [chunk_within _ _ _ hi]
      exact congrArg (fun o => orFail (.crypto "seal") o >>= p.code (tracked P g) i) hat
    refine ⟨fun _ => none, g, fun q' hq' => (if_neg hq').symm, fun heq => ?_⟩
    exact code_ne_seal _ p i [] (hsealed.symm.trans (heq.symm.trans hrefused))

/-! ### The call an operation makes -/

/-- The value a computation gets to. -/
def value {α : Type} (x : Svc α) (w : World) : Option α :=
  match (x w).1 with
  | .ok a => some a
  | .error _ => none

/-- `compact_pack` up to `insert_pack_row`: the plaintext of the new pack. -/
def compactPlain (u oldPackId : Text) (survivors : List PackEntry) (newPackId : Text) :
    Svc (Option Bytes) := do
  let row ← query (getFile · u oldPackId)
  let old ← orThrow .notFound row
  if old.isPack then
    let members ← query (packMembers · u oldPackId)
    ofOutcome (checkCarried oldPackId survivors members)
    if survivors.isEmpty then return none
    else
      let built ← ofOutcome (buildPack survivors)
      let _ ← collect (moveMember u oldPackId newPackId) (survivors.zip built.2)
      return some built.1
  else throwErr (.integrity (oldPackId ++ " is not a pack".toList))

variable (P : Prims K) (key : K)

/-- The `process_v2` call of an operation, none where it ends before it. -/
def processing (w : World) : Call → Option Processing
  | .push u path data mint _ =>
    match value (query (getFileByPath · u path)) w with
    | some prev => if (prev.filter (sameContent P · data)).isSome then none else some ⟨u, mint, data⟩
    | none => none
  | .packFiles u entries packId _ =>
    if entries.isEmpty then none
    else match buildPack entries with
      | .ok built => (value (collect (packMember u packId) (entries.zip built.2)) w).map fun _ =>
          ⟨u, packId, built.1⟩
      | .error _ => none
  | .compactPack u oldPackId survivors newPackId _ =>
    (value (compactPlain u oldPackId survivors newPackId) w).join.map fun plain =>
      ⟨u, newPackId, plain⟩
  | _ => none

theorem processing_fileId {P : Prims K} {w : World} {c : Call} {p : Processing}
    (h : processing P w c = some p) : p.fileId ∈ c.mints := by
  cases c with
  | push u path data mint now =>
    simp only [processing] at h
    split at h
    · split at h
      · cases h
      · cases h
        exact rfl
    · cases h
  | packFiles u entries packId now =>
    simp only [processing] at h
    split at h
    · cases h
    · split at h
      · obtain ⟨_, -, rfl⟩ := Option.map_eq_some_iff.mp h
        exact rfl
      · cases h
  | compactPack u old survivors new now =>
    obtain ⟨plain, -, rfl⟩ := Option.map_eq_some_iff.mp h
    exact rfl
  | _ => cases h

/-! ### Nothing else is sealed -/

/-- The primitives with another seal. -/
def withSeal (P : Prims K) (f : K → Bytes → Bytes → Bytes → Option Bytes) : Prims K :=
  { P with sealInPlace := f }

/-- `f` seals as `P` does what `process_v2` seals of `p`. -/
def SealsAlike (f : K → Bytes → Bytes → Bytes → Option Bytes) (p : Processing) : Prop :=
  ∀ i < chunkCount {} p.plain, i ≤ MAX_CHUNK_INDEX →
    f (p.query P key i).key (p.query P key i).nonce (p.query P key i).aad (p.query P key i).plain =
      P.sealInPlace (p.query P key i).key (p.query P key i).nonce (p.query P key i).aad
        (p.query P key i).plain

section
variable {P key} {f : K → Bytes → Bytes → Bytes → Option Bytes}

theorem processV2_alike {p : Processing} (h : SealsAlike P key f p) :
    processV2 (withSeal P f) p.plain key (utf8 p.userId) (utf8 p.fileId) {} =
      processV2 P p.plain key (utf8 p.userId) (utf8 p.fileId) {} := by
  rw [processV2_eq, processV2_eq]
  refine collect_congr fun i hi => ?_
  rcases Nat.lt_or_ge MAX_CHUNK_INDEX i with hlt | hle
  · rw [chunk_beyond _ _ _ hlt, chunk_beyond _ _ _ hlt]
  · rw [chunk_within _ _ _ hle, chunk_within _ _ _ hle]
    exact congrArg (fun o => orFail (.crypto "seal") o >>= p.code P i) (h i (List.mem_range.mp hi) hle)

theorem value_some {α : Type} {x : Svc α} {w w' : World} {a : α} (h : x w = (.ok a, w')) :
    value x w = some a := by
  simp only [value, h]

/-- Two continuations that agree on what the first part returns. -/
theorem bind_alike {α β : Type} {x : Svc α} {g g' : α → Svc β} {w : World}
    (h : ∀ a w₁, x w = (.ok a, w₁) → g a w₁ = g' a w₁) : (x >>= g) w = (x >>= g') w := by
  rw [bind_apply, bind_apply]
  cases hx : x w with
  | mk o w₁ =>
    cases o with
    | error e => rfl
    | ok a => exact h a w₁ hx

theorem transaction_alike {α : Type} {x y : Svc α} {w : World} (h : x w = y w) :
    transaction x w = transaction y w := by
  simp only [transaction, h]

theorem push_seals {u path mint : Text} {data : Bytes} {now : Time} {w : World}
    (h : ∀ p, processing P w (.push u path data mint now) = some p → SealsAlike P key f p) :
    Service.push (withSeal P f) key u path data mint now w =
      Service.push P key u path data mint now w := by
  unfold Service.push
  refine bind_alike fun prev w₁ hprev => ?_
  have hval := value_some hprev
  have hsame : sameContent (withSeal P f) = sameContent P := rfl
  rw [hsame]
  cases hf : prev.filter (sameContent P · data) with
  | some p => rfl
  | none =>
    have hproc : processing P w (.push u path data mint now) = some ⟨u, mint, data⟩ := by
      simp only [processing, hval, hf, Option.isSome_none, Bool.false_eq_true, if_false]
    have hv := processV2_alike (h _ hproc)
    have htx : pushTx (withSeal P f) = pushTx P := rfl
    change pushNew (withSeal P f) key u path data mint now w₁ = pushNew P key u path data mint now w₁
    rw [pushNew, pushNew, htx]
    dsimp only at hv
    rw [hv]

theorem insertPackRow_alike {u packId : Text} {plain : Bytes} {now : Time}
    (h : SealsAlike P key f ⟨u, packId, plain⟩) :
    insertPackRow (withSeal P f) key u packId plain now = insertPackRow P key u packId plain now := by
  have hv := processV2_alike h
  have hrow : pushRow (withSeal P f) = pushRow P := rfl
  have hrows : writeChunkRows (withSeal P f) = writeChunkRows P := rfl
  dsimp only at hv
  rw [insertPackRow, insertPackRow, hrow, hrows, hv]

theorem packFiles_seals {u packId : Text} {entries : List PackEntry} {now : Time} {w : World}
    (h : ∀ p, processing P w (.packFiles u entries packId now) = some p → SealsAlike P key f p) :
    Packing.packFiles (withSeal P f) key u entries packId now w =
      Packing.packFiles P key u entries packId now w := by
  unfold Packing.packFiles
  split
  · rfl
  · next hne =>
    refine bind_alike fun built w₁ hbuilt => ?_
    obtain ⟨hb, rfl⟩ := ofOutcome_ok hbuilt
    have htx : transaction (packFilesTx (withSeal P f) key u packId entries built.1 built.2 now) w₁ =
        transaction (packFilesTx P key u packId entries built.1 built.2 now) w₁ := by
      apply transaction_alike
      unfold packFilesTx
      refine bind_alike fun freed w₂ hfreed => ?_
      have hproc : processing P w₁ (.packFiles u entries packId now) = some ⟨u, packId, built.1⟩ := by
        simp only [processing, hne, Bool.false_eq_true, if_false, hb, value_some hfreed,
          Option.map_some]
      rw [insertPackRow_alike (h _ hproc)]
    rw [bind_apply, bind_apply, htx]

theorem compactPack_seals {u old new : Text} {survivors : List PackEntry} {now : Time} {w : World}
    (h : ∀ p, processing P w (.compactPack u old survivors new now) = some p → SealsAlike P key f p) :
    Packing.compactPack (withSeal P f) key u old survivors new now w =
      Packing.compactPack P key u old survivors new now w := by
  have hreach : ∀ plain w', compactPlain u old survivors new w = (.ok (some plain), w') →
      SealsAlike P key f ⟨u, new, plain⟩ := by
    intro plain w' hplain
    refine h _ ?_
    simp only [processing, value_some hplain, Option.join_some, Option.map_some]
  have htx : transaction (compactPackTx (withSeal P f) key u old survivors new now) w =
      transaction (compactPackTx P key u old survivors new now) w := by
    apply transaction_alike
    unfold compactPackTx
    refine bind_alike fun row w₁ hrow => bind_alike fun file w₂ hfile => ?_
    split
    · next hpack =>
      refine bind_alike fun members w₃ hmem => bind_alike fun _ w₄ hok => ?_
      split
      · rfl
      · next hne =>
        refine bind_alike fun built w₅ hbuilt => bind_alike fun us w₆ hus => ?_
        have hplain : compactPlain u old survivors new w = (.ok (some built.1), w₆) := by
          simp only [compactPlain, bind_apply, hrow, hfile, hpack, if_true, hmem, hok, hne,
            Bool.false_eq_true, if_false, hbuilt, hus]
          rfl
        rw [insertPackRow_alike (hreach _ _ hplain)]
    · rfl
  rw [Packing.compactPack, Packing.compactPack, bind_apply, bind_apply, htx]

/-- An operation asks the AEAD what its `process_v2` call asks. -/
theorem leaves_seals {c : Call} {w : World}
    (h : ∀ p, processing P w c = some p → SealsAlike P key f p) :
    c.leaves (withSeal P f) key w = c.leaves P key w := by
  cases c with
  | push u path data mint now => exact congrArg Prod.snd (push_seals h)
  | packFiles u entries packId now => exact congrArg Prod.snd (packFiles_seals h)
  | compactPack u old survivors new now => exact congrArg Prod.snd (compactPack_seals h)
  | _ => rfl

end

theorem leaves_asks {P : Prims K} {key : K} {c : Call} {w : World} {q : Seal (Origin K)}
    (h : Asks (fun f => c.leaves (tracked P f) (.node key) w) q) :
    ∃ p, processing P w c = some p ∧ ∃ i < chunkCount {} p.plain, Asked P key (p, i) q := by
  obtain ⟨f, g, hoff, hne⟩ := h
  by_contra hnone
  refine hne (Eq.symm ?_)
  refine leaves_seals (P := tracked P f) (f := fun k n a b => g ⟨k, n, a, b⟩) fun p hp i hi hle => ?_
  have hproc : processing (tracked P f) w c = processing P w c := by cases c <;> rfl
  refine (hoff _ fun heq => hnone ⟨p, hproc ▸ hp, i, hi, ?_⟩).symm
  exact asked_iff.mpr ⟨hle, heq.symm⟩

/-! ### Runs -/

/-- An operation whose workers take the chunks in the order `order`, or anything else that
happens to the node. -/
inductive Label where
  | call (c : Call) (order : List ℕ)
  | other (w : World)

def Label.mints : Label → Set Text
  | .call c _ => c.mints
  | .other _ => ∅

/-- The world, and the chunks the workers got to so far, each with its call. -/
abbrev Logged := World × List (Processing × ℕ)

def Processing.work (order : List ℕ) (p : Processing) : List (Processing × ℕ) :=
  (attempted order (chunkCount {} p.plain)).map (p, ·)

def step (s : Logged) : Label → Logged
  | .call c order => (c.leaves P key s.1,
      s.2 ++ ((processing P s.1 c).map (Processing.work order)).getD [])
  | .other w => (w, s.2)

/-- The account an operation writes for. -/
def userOf : Call → Text
  | .push u _ _ _ _ => u
  | .packFiles u _ _ _ => u
  | .compactPack u _ _ _ _ => u
  | _ => []

theorem processing_userId {P : Prims K} {w : World} {c : Call} {p : Processing}
    (h : processing P w c = some p) : p.userId = userOf c := by
  cases c with
  | push u path data mint now =>
    simp only [processing] at h
    split at h
    · split at h
      · cases h
      · cases h
        rfl
    · cases h
  | packFiles u entries packId now =>
    simp only [processing] at h
    split at h
    · cases h
    · split at h
      · obtain ⟨_, -, rfl⟩ := Option.map_eq_some_iff.mp h
        rfl
      · cases h
  | compactPack u old survivors new now =>
    obtain ⟨plain, -, rfl⟩ := Option.map_eq_some_iff.mp h
    rfl
  | _ => cases h

/-- Two chunks that are not one: of different files, or of different indexes. -/
def Apart (e e' : Processing × ℕ) : Prop := e.1.fileId = e'.1.fileId → e.2 ≠ e'.2

theorem work_apart (order : List ℕ) (p : Processing) : (p.work order).Pairwise Apart := by
  refine List.pairwise_map.mpr ((attempted_nodup order _).imp fun hne => ?_)
  exact fun _ => hne

/-- The chunks so far are apart, and their ids are none that a call to come mints. -/
structure Distinct (s : Logged) (ls : List Label) : Prop where
  apart : s.2.Pairwise Apart
  short : ∀ e ∈ s.2, (utf8 e.1.userId).length < 2 ^ 64
  spent : ∀ e ∈ s.2, ∀ l ∈ ls, e.1.fileId ∉ l.mints

variable {P key}

theorem distinct_step {s : Logged} {l : Label} {ls : List Label} (h : Distinct s (l :: ls))
    (hshort : ∀ c order, l = .call c order → (utf8 (userOf c)).length < 2 ^ 64)
    (hfresh : ∀ l' ∈ ls, Disjoint l.mints l'.mints) : Distinct (step P key s l) ls := by
  have hold : ∀ e ∈ s.2, ∀ l' ∈ ls, e.1.fileId ∉ l'.mints :=
    fun e he l' hl' => h.spent e he l' (List.mem_cons_of_mem _ hl')
  cases l with
  | other w => exact ⟨h.apart, h.short, hold⟩
  | call c order =>
    cases hp : processing P s.1 c with
    | none =>
      have hsame : (step P key s (.call c order)).2 = s.2 := by
        simp only [step, hp, Option.map_none, Option.getD_none, List.append_nil]
      exact ⟨by rw [hsame]; exact h.apart, by rw [hsame]; exact h.short, by rw [hsame]; exact hold⟩
    | some p =>
      have hlog : (step P key s (.call c order)).2 = s.2 ++ p.work order := by
        simp only [step, hp, Option.map_some, Option.getD_some]
      have hof : ∀ e ∈ p.work order, e.1 = p := by
        intro e he
        obtain ⟨i, -, rfl⟩ := List.mem_map.mp he
        rfl
      have hmint : p.fileId ∈ (Label.call c order).mints := processing_fileId hp
      constructor
      · rw [hlog]
        refine List.pairwise_append.mpr ⟨h.apart, work_apart order p, fun e he e' he' heq => ?_⟩
        rw [hof e' he'] at heq
        exact absurd (heq ▸ hmint) (h.spent e he _ (List.mem_cons_self ..))
      · rw [hlog]
        intro e he
        rcases List.mem_append.mp he with he | he
        · exact h.short e he
        · rw [hof e he, processing_userId hp]
          exact hshort c order rfl
      · rw [hlog]
        intro e he l' hl'
        rcases List.mem_append.mp he with he | he
        · exact hold e he l' hl'
        · rw [hof e he]
          exact Set.disjoint_left.mp (hfresh l' hl') hmint

theorem distinct_run {s : Logged} {ls : List Label} (h : Distinct s ls)
    (hshort : ∀ c order, .call c order ∈ ls → (utf8 (userOf c)).length < 2 ^ 64)
    (hfresh : ls.Pairwise fun l l' => Disjoint l.mints l'.mints) :
    Distinct (run (step P key) s ls) [] := by
  induction ls generalizing s with
  | nil => exact h
  | cons l ls ih =>
    obtain ⟨hl, hrest⟩ := List.pairwise_cons.mp hfresh
    refine ih (distinct_step h (fun c order heq => ?_) hl) (fun c order hin => ?_) hrest
    · exact hshort c order (heq ▸ List.mem_cons_self ..)
    · exact hshort c order (List.mem_cons_of_mem _ hin)

/-- A file with an index above the bound is never processed. -/
theorem processV2_beyond {data : Bytes} {u f : Text}
    (h : MAX_CHUNK_INDEX + 1 < chunkCount {} data) (chunks : List ProcessedChunk) :
    processV2 P data key (utf8 u) (utf8 f) {} ≠ .ok chunks := by
  intro hok
  obtain ⟨-, -, hall⟩ := processV2_spec P hok
  obtain ⟨c, -, hc⟩ := hall (MAX_CHUNK_INDEX + 1) h
  obtain ⟨-, -, -, hseal, -⟩ := processChunk_spec P hc
  have habove : MAX_CHUNK_INDEX < MAX_CHUNK_INDEX + 1 := Nat.lt_succ_self _
  simp only [FileCipher.sealChunk, FileCipher.new, sealWithAad, sealInner, if_pos habove] at hseal
  cases hseal

/-- Chunks of different files or indexes are sealed under different pairs. -/
theorem asked_apart {e e' : Processing × ℕ} (h : Apart e e') (hu : (utf8 e.1.userId).length < 2 ^ 64)
    (hu' : (utf8 e'.1.userId).length < 2 ^ 64) {q q' : Seal (Origin K)} (hq : Asked P key e q)
    (hq' : Asked P key e' q') : (q.key, q.nonce) ≠ (q'.key, q'.nonce) := by
  obtain ⟨hi, rfl⟩ := asked_iff.mp hq
  obtain ⟨hi', rfl⟩ := asked_iff.mp hq'
  intro heq
  obtain ⟨hkey, hnonce⟩ := Prod.mk.inj heq
  obtain ⟨-, hfile⟩ := subkey_inj P (fun _ => none) hu hu' hkey
  have hmax : MAX_CHUNK_INDEX < 2 ^ 64 := by decide
  exact h hfile (nonceFor_inj (by omega) (by omega) hnonce)

/-- Over any run in which every id is minted once, whatever fails: no two seals of the run are under
one pair of key (as it is derived) and nonce; the work on a chunk asks for one seal at most, under
the nonce of its index, which is within the bound; an operation asks for no other seals; and an
index above the bound is refused without a call of the AEAD, so that its file is not stored. -/
theorem run_nonces_distinct (P : Prims K) (key : K) (w : World) (ls : List Label)
    (hfresh : ls.Pairwise fun l l' => Disjoint l.mints l'.mints)
    (hshort : ∀ c order, .call c order ∈ ls → (utf8 (userOf c)).length < 2 ^ 64) :
    ((run (step P key) (w, []) ls).2.Pairwise fun e e' => ∀ q q', Asked P key e q →
      Asked P key e' q' → (q.key, q.nonce) ≠ (q'.key, q'.nonce)) ∧
      (∀ e ∈ (run (step P key) (w, []) ls).2, ∀ q, Asked P key e q →
        e.2 ≤ MAX_CHUNK_INDEX ∧ q.nonce = nonceFor e.2 ∧ ∀ q', Asked P key e q' → q' = q) ∧
      (∀ c w' q, Asks (fun f => Call.leaves (tracked P f) (.node key) w' c) q →
        ∃ p, processing P w' c = some p ∧ ∃ i < chunkCount {} p.plain, Asked P key (p, i) q) ∧
      (∀ f sealer buf index aad, MAX_CHUNK_INDEX < index →
        sealInner (withSeal P f) sealer buf index aad =
          fail (.crypto "chunk index above the GCM per-key bound")) ∧
      ∀ data u f chunks, MAX_CHUNK_INDEX + 1 < chunkCount {} data →
        processV2 P data key (utf8 u) (utf8 f) {} ≠ .ok chunks := by
  have hstart : Distinct ((w, []) : Logged) ls :=
    ⟨List.Pairwise.nil, fun _ he => absurd he List.not_mem_nil,
      fun _ he => absurd he List.not_mem_nil⟩
  have hend : Distinct (run (step P key) (w, []) ls) [] := distinct_run hstart hshort hfresh
  refine ⟨?_, ?_, fun c w' q h => leaves_asks h, fun f sealer buf index aad h => if_pos h, ?_⟩
  · refine hend.apart.imp_of_mem fun he he' h q q' hq hq' => ?_
    exact asked_apart h (hend.short _ he) (hend.short _ he') hq hq'
  · rintro ⟨p, i⟩ - q hq
    obtain ⟨hi, rfl⟩ := asked_iff.mp hq
    exact ⟨hi, rfl, fun q' hq' => (asked_iff.mp hq').2⟩
  · exact fun data u f chunks h => processV2_beyond h chunks

/-- Two uploads of one account, the first cut off in its transaction. -/
def twoPushes : List Label :=
  [.call (.push ['u'] ['p'] [1, 2, 3] ['m'] 0) [0], .call (.push ['u'] ['p'] [4] ['n'] 1) [0]]

theorem twoPushes_distinct :
    (run (step (Sample.sample []) Sample.Key.node) (cutOff, []) twoPushes).2 =
      [(⟨['u'], ['m'], [1, 2, 3]⟩, 0), (⟨['u'], ['n'], [4]⟩, 0)] ∧
    ((run (step (Sample.sample []) Sample.Key.node) (cutOff, []) twoPushes).2.Pairwise
      fun e e' => ∀ q q', Asked (Sample.sample []) Sample.Key.node e q →
        Asked (Sample.sample []) Sample.Key.node e' q' → (q.key, q.nonce) ≠ (q'.key, q'.nonce)) := by
  refine ⟨by decide +kernel, (run_nonces_distinct _ Sample.Key.node cutOff twoPushes ?_ ?_).1⟩
  · refine List.pairwise_pair.mpr ?_
    exact Set.disjoint_singleton.mpr (by decide)
  · intro c order h
    rcases List.mem_cons.mp h with h | h
    · cases h
      decide
    · cases List.mem_singleton.mp h
      decide

end P2pnas.Store.Nonces
