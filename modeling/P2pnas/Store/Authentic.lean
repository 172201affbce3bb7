import P2pnas.Core.Sample
import P2pnas.Store.Roundtrip

/-!
# What the tags of a file's chunks authenticate

Under scheme v2 every chunk is sealed with a subkey of its file, a nonce of its index and
additional data that name the owner, the file, the chunk count and the index
(`crypto.rs:385-515`). With an ideal AEAD a chunk that opens is therefore the chunk its row
names. Nothing in `reassemble` (`service.rs:548-569`) looks at the list as a whole, so the
bytes returned are those the rows spell, in the order of the rows.
-/

namespace P2pnas.Store.Authentic
open P2pnas.Lib.Frames P2pnas.Lib.Stripes P2pnas.Lib.Strings P2pnas.Core P2pnas.Core.Base
open P2pnas.Core.Crypto P2pnas.Core.Erasure P2pnas.Core.Pipeline P2pnas.Store.Manifest
open P2pnas.Store.Reading P2pnas.Store.Service P2pnas.Store.Roundtrip

/-- A push: the owner, the minted file id and the bytes. -/
structure Push where
  userId : Text
  fileId : Text
  data : Bytes
  deriving DecidableEq

variable {K : Type} (P : Prims K) (key : K) (cfg : PipelineConfig)

/-- What the pipeline hands to the AEAD for chunk `i`. -/
def packed (data : Bytes) (i : ℕ) : Bytes :=
  (maybeCompress P (piece cfg.chunkSize data i) cfg.zstdLevel).1

/-- The seal operations of a push. -/
def sealsOf (p : Push) : List (Seal K) :=
  (List.range (chunkCount cfg p.data)).map fun i => {
    key := fileSubkeyV2 P key (utf8 p.userId) (utf8 p.fileId)
    nonce := nonceFor i
    aad := chunkAad .V2 (utf8 p.userId) (utf8 p.fileId) (chunkCount cfg p.data) i
    plain := packed P cfg p.data i }

/-- Ideal AEAD: a ciphertext opens exactly when it was sealed, under the same key, nonce and
additional data, and to the plaintext sealed. -/
def IdealAead (log : List (Seal K)) : Prop :=
  ∀ k n a c p, P.openInPlace k n a c = some p ↔
    (⟨k, n, a, p⟩ : Seal K) ∈ log ∧ P.sealInPlace k n a p = some c

/-- The pushes of a node: minted file ids are fresh, and ids are shorter than a `u64` counts. -/
structure History (pushes : List Push) : Prop where
  fresh : ∀ p ∈ pushes, ∀ q ∈ pushes, p.fileId = q.fileId → p = q
  short : ∀ p ∈ pushes, byteLen p.userId < 2 ^ 64 ∧ byteLen p.fileId < 2 ^ 64

/-- The text a chunk row stands for: the chunk of that index, when the row leaves room for its
ciphertext, decompressed or not as the row says. -/
def rowText (data : Bytes) (chunks : List ProcessedChunk) (row : ChunkRow) : Option Bytes :=
  match chunks[asU64 row.idx]? with
  | none => none
  | some c =>
    if c.cipher.length ≤ asU64 row.cipherLen then
      restore P (packed P cfg data (asU64 row.idx)) row.isCompressed
    else none

/-- The rows spell the file: if each has a text, the texts in order are the data. -/
def Spells (data : Bytes) (chunks : List ProcessedChunk) (rows : List ChunkRow) : Prop :=
  ∀ texts, List.Forall₂ (fun row t => rowText P cfg data chunks row = some t) rows texts →
    texts.flatten = data

/-! ### Reconstruction from arbitrary slots -/

theorem reconstruct_length {present : List (Option Bytes)} {n : ℕ} {out : Bytes}
    (h : reconstruct P present n = .ok out) : out.length ≤ n := by
  rw [reconstruct] at h
  split at h
  · cases h
    exact List.length_take_le ..
  · obtain ⟨restored, _, h⟩ := bind_eq_ok h
    obtain ⟨first, _, h⟩ := bind_eq_ok h
    obtain ⟨all, _, h⟩ := bind_eq_ok h
    cases h
    exact List.length_take_le ..

/-- Slots whose first shard is the whole ciphertext. -/
def wholeSlots (cipher : Bytes) : List (Option Bytes) :=
  some cipher :: List.replicate 9 (some []) ++ List.replicate 4 none

theorem reconstruct_wholeSlots (cipher : Bytes) (n : ℕ) (h : cipher.length ≤ n) :
    reconstruct P (wholeSlots cipher) n = .ok cipher := by
  simp [reconstruct, wholeSlots, DATA_SHARDS, List.replicate, List.take_of_length_le h]

/-! ### One row -/

section
variable {P key cfg} {pushes : List Push} {p : Push} {chunks : List ProcessedChunk}
  (hk : HkdfSeparates P) (hh : History pushes)
  (hideal : IdealAead P (pushes.flatMap (sealsOf P key cfg))) (hp : p ∈ pushes)
  (hproc : processV2 P p.data key (utf8 p.userId) (utf8 p.fileId) cfg = .ok chunks)

include hk hh hp hproc in
/-- The logged seal under a file's subkey and the nonce of `i` is the one of its chunk `i`. -/
theorem sealed_index {i : ℕ} {a plain : Bytes} (hi : i < chunkCount cfg p.data)
    (h : (⟨fileSubkeyV2 P key (utf8 p.userId) (utf8 p.fileId), nonceFor i, a, plain⟩ : Seal K) ∈
      pushes.flatMap (sealsOf P key cfg)) : plain = packed P cfg p.data i := by
  obtain ⟨_, hlen, hat⟩ := processV2_spec P hproc
  have hbound : ∀ j < chunkCount cfg p.data, j < 2 ^ 64 := by
    intro j hj
    obtain ⟨c, _, hc⟩ := hat j hj
    have hseal := (processChunk_spec P hc).2.2.2.1
    simp only [FileCipher.sealChunk, FileCipher.new, sealWithAad, sealInner] at hseal
    split at hseal
    · cases hseal
    · rename_i hmax
      simp only [MAX_CHUNK_INDEX] at hmax
      omega
  obtain ⟨q, hq, hmem⟩ := List.mem_flatMap.mp h
  obtain ⟨j, hj, heq⟩ := List.mem_map.mp hmem
  obtain ⟨hkey, hnonce, _, hplain⟩ := Seal.mk.inj heq
  obtain ⟨hqu, hqf⟩ := hh.short q hq
  obtain ⟨hpu, hpf⟩ := hh.short p hp
  obtain ⟨_, _, hfile⟩ := fileSubkeyV2_inj P hk hqu hpu hkey
  have hqp : q = p := hh.fresh q hq p hp (utf8_injective hfile)
  subst hqp
  have hji : j = i := nonceFor_inj (hbound j (List.mem_range.mp hj)) (hbound i hi) hnonce
  subst hji
  exact hplain.symm

include hp in
theorem sealed_mem {i : ℕ} (hi : i < chunkCount cfg p.data) :
    (⟨fileSubkeyV2 P key (utf8 p.userId) (utf8 p.fileId), nonceFor i,
        chunkAad .V2 (utf8 p.userId) (utf8 p.fileId) (chunkCount cfg p.data) i,
        packed P cfg p.data i⟩ : Seal K) ∈ pushes.flatMap (sealsOf P key cfg) :=
  List.mem_flatMap.mpr ⟨p, hp, List.mem_map.mpr ⟨i, List.mem_range.mpr hi, rfl⟩⟩

include hproc in
/-- The ciphertext of chunk `i` is the seal of its packed bytes. -/
theorem sealed_cipher (i : ℕ) (c : ProcessedChunk) (hc : chunks[i]? = some c) :
    i < chunkCount cfg p.data ∧
      P.sealInPlace (fileSubkeyV2 P key (utf8 p.userId) (utf8 p.fileId)) (nonceFor i)
        (chunkAad .V2 (utf8 p.userId) (utf8 p.fileId) (chunkCount cfg p.data) i)
        (packed P cfg p.data i) = some c.cipher := by
  obtain ⟨_, hlen, hat⟩ := processV2_spec P hproc
  obtain ⟨hlt, _⟩ := List.getElem?_eq_some_iff.mp hc
  rw [hlen] at hlt
  obtain ⟨c', hc', hchunk⟩ := hat i hlt
  have hcc : c' = c := Option.some.inj (hc'.symm.trans hc)
  subst hcc
  have hseal := (processChunk_spec P hchunk).2.2.2.1
  have haad := aadFor_new P key (utf8 p.userId) (utf8 p.fileId) (chunkCount cfg p.data) i
  have hscheme : (FileCipher.new P key .V2 (utf8 p.userId) (utf8 p.fileId)
      (chunkCount cfg p.data)).scheme = .V2 := rfl
  simp only [FileCipher.sealChunk, hscheme, haad, sealWithAad, sealInner] at hseal
  split at hseal
  · cases hseal
  · exact ⟨hlt, orFail_eq_ok hseal⟩

include hk hh hideal hp hproc in
/-- A buffer opens at index `i` of the file exactly when it is the ciphertext of chunk `i`. -/
theorem openChunk_iff (i : ℕ) (buf plain : Bytes) :
    (fileCipher P key p.userId p.fileId cfg p.data).openChunk P i buf = .ok plain ↔
      ∃ c, chunks[i]? = some c ∧ buf = c.cipher ∧ plain = packed P cfg p.data i := by
  obtain ⟨_, hlen, hat⟩ := processV2_spec P hproc
  have haad := aadFor_new P key (utf8 p.userId) (utf8 p.fileId) (chunkCount cfg p.data) i
  have hopen : (fileCipher P key p.userId p.fileId cfg p.data).openChunk P i buf =
      if chunkCount cfg p.data ≤ i then
        fail (.crypto "chunk index outside the file's chunk count")
      else orFail (.crypto "open") (P.openInPlace
        (fileSubkeyV2 P key (utf8 p.userId) (utf8 p.fileId)) (nonceFor i)
        (chunkAad .V2 (utf8 p.userId) (utf8 p.fileId) (chunkCount cfg p.data) i) buf) := by
    rw [← haad]
    rfl
  rw [hopen]
  constructor
  · intro h
    split at h
    · cases h
    · rename_i hlt
      have hi : i < chunkCount cfg p.data := Nat.not_le.mp hlt
      obtain ⟨hmem, hseal⟩ := (hideal _ _ _ _ _).mp (orFail_eq_ok h)
      have hplain := sealed_index hk hh hp hproc hi hmem
      obtain ⟨c, hc, _⟩ := hat i hi
      have hcipher := (sealed_cipher hproc i c hc).2
      rw [hplain] at hseal
      exact ⟨c, hc, Option.some.inj (hseal.symm.trans hcipher), hplain⟩
  · rintro ⟨c, hc, rfl, rfl⟩
    obtain ⟨hi, hseal⟩ := sealed_cipher hproc i c hc
    rw [if_neg (Nat.not_le.mpr hi), (hideal _ _ _ _ _).mpr ⟨sealed_mem hp hi, hseal⟩, orFail_some]

include hk hh hideal hp hproc in
theorem openRow_text {row : ChunkRow} {present : List (Option Bytes)} {t : Bytes}
    (h : openRow P (fileCipher P key p.userId p.fileId cfg p.data) row present = .ok t) :
    rowText P cfg p.data chunks row = some t := by
  simp only [openRow] at h
  obtain ⟨buf, hbuf, h⟩ := bind_eq_ok h
  obtain ⟨plain, hplain, h⟩ := bind_eq_ok h
  have hrec := wrapErr_eq_ok hbuf
  obtain ⟨c, hc, rfl, rfl⟩ :=
    (openChunk_iff hk hh hideal hp hproc _ _ _).mp (wrapErr_eq_ok hplain)
  simp only [rowText, hc, if_pos (reconstruct_length P hrec)]
  exact orFail_eq_ok h

include hk hh hideal hp hproc in
theorem openRow_of_text {row : ChunkRow} {t : Bytes}
    (h : rowText P cfg p.data chunks row = some t) : ∃ present,
      openRow P (fileCipher P key p.userId p.fileId cfg p.data) row present = .ok t := by
  rw [rowText] at h
  cases hc : chunks[asU64 row.idx]? with
  | none => rw [hc] at h; cases h
  | some c =>
    rw [hc] at h
    simp only at h
    split at h
    · rename_i hroom
      refine ⟨wholeSlots c.cipher, ?_⟩
      have hopen := (openChunk_iff hk hh hideal hp hproc _ _ _).mpr ⟨c, hc, rfl, rfl⟩
      simp only [openRow, reconstruct_wholeSlots P _ _ hroom, wrapErr_ok, ok_bind, hopen, h,
        orFail_some]
    · cases h

/-! ### The whole list -/

include hk hh hideal hp hproc in
/-- Reassembling with the row of a pushed file returns nothing but its bytes, whatever shards
come with the rows, exactly when the rows spell the file. -/
theorem reassemble_authentic_iff (file : FileRow) (huser : file.userId = p.userId)
    (hfile : file.fileId = p.fileId) (hscheme : file.keyScheme = KeyScheme.V2.asI64)
    (hcount : file.chunkCount = chunks.length) (rows : List ChunkRow) :
    (∀ list : List (ChunkRow × List (Option Bytes)), list.map Prod.fst = rows →
      ∀ out, reassemble P key file list = .ok out → out = p.data) ↔
    Spells P cfg p.data chunks rows := by
  obtain ⟨_, hlen, _⟩ := processV2_spec P hproc
  have hctx : rowCipher P key file = .ok (fileCipher P key p.userId p.fileId cfg p.data) := by
    simp only [rowCipher, hscheme, huser, hfile, hcount, asU64_natCast, hlen]
    rfl
  constructor
  · intro h texts htexts
    -- every row with a text has slots that open to it
    have hlist : ∃ list : List (ChunkRow × List (Option Bytes)), list.map Prod.fst = rows ∧
        List.Forall₂ (fun cp t => openRow P (fileCipher P key p.userId p.fileId cfg p.data)
          cp.1 cp.2 = .ok t) list texts := by
      clear h
      induction htexts with
      | nil => exact ⟨[], rfl, .nil⟩
      | cons hrow _ ih =>
        obtain ⟨list, hmap, hall⟩ := ih
        obtain ⟨present, hpresent⟩ := openRow_of_text hk hh hideal hp hproc hrow
        exact ⟨(_, present) :: list, by rw [List.map_cons, hmap], .cons hpresent hall⟩
    obtain ⟨list, hmap, hall⟩ := hlist
    apply h list hmap
    rw [reassemble, hctx, ok_bind, collect_of_forall₂ hall]
    rfl
  · rintro h list rfl out hout
    rw [reassemble, hctx, ok_bind] at hout
    obtain ⟨texts, htexts, hout⟩ := bind_eq_ok hout
    cases hout
    apply h
    rw [List.forall₂_map_left_iff]
    exact (collect_eq_ok htexts).imp fun _ _ hrow => openRow_text hk hh hideal hp hproc hrow

include hproc in
/-- The rows of the push itself, in file order, spell the file. -/
theorem spells_own (hz : ZstdInverts P) :
    Spells P cfg p.data chunks (chunks.map (chunkRowFor p.fileId)) := by
  intro texts htexts
  obtain ⟨hpos, hlen, hat⟩ := processV2_spec P hproc
  have heq : texts = (List.range (chunkCount cfg p.data)).map (piece cfg.chunkSize p.data) := by
    obtain ⟨hl, hall⟩ := List.forall₂_iff_get.mp htexts
    rw [List.length_map] at hl
    apply List.ext_getElem
    · rw [List.length_map, List.length_range, ← hlen, hl]
    · intro i hi _
      have hic : i < chunks.length := by rw [hl]; exact hi
      have hrow := hall i (by rw [List.length_map]; exact hic) hi
      obtain ⟨c, hc, hchunk⟩ := hat i (by rw [← hlen]; exact hic)
      obtain ⟨hidx, _, _, _, hcomp⟩ := processChunk_spec P hchunk
      have hci : chunks[i] = c := Option.some.inj ((List.getElem?_eq_getElem hic).symm.trans hc)
      simp only [List.get_eq_getElem, List.getElem_map, hci, rowText, chunkRowFor, asU64_natCast,
        hidx, hc, le_refl, if_true, hcomp] at hrow
      rw [packed, restore_maybeCompress P hz] at hrow
      rw [List.getElem_map, List.getElem_range]
      exact (Option.some.inj hrow).symm
  rw [heq]
  exact chunks_flatten cfg hpos p.data

end

/-! ### An instance -/

open Sample in
/-- Opening that accepts logged seals only. -/
def openLogged (log : List (Seal Key)) (k : Key) (n a c : Bytes) : Option Bytes :=
  if c = c.take (c.length - 16) ++ List.replicate 16 0 ∧
      (⟨k, n, a, c.take (c.length - 16)⟩ : Seal Key) ∈ log then
    some (c.take (c.length - 16))
  else none

def onePush : Push := ⟨['u'], ['f'], [1, 2, 3]⟩

/-- The sample libraries with an AEAD that opens what one push sealed. -/
def oneLogged : Prims Sample.Key :=
  { Sample.sample [] with
    openInPlace := openLogged (sealsOf (Sample.sample []) .node {} onePush) }

theorem oneLogged_ideal : IdealAead oneLogged ([onePush].flatMap (sealsOf oneLogged .node {})) := by
  intro k n a c p
  have hlog : [onePush].flatMap (sealsOf oneLogged .node {}) =
      sealsOf (Sample.sample []) .node {} onePush := List.append_nil _
  rw [hlog]
  change openLogged _ k n a c = some p ↔ _ ∧ some (p ++ List.replicate 16 0) = some c
  rw [openLogged]
  constructor
  · intro h
    split at h
    · rename_i hc
      cases h
      exact ⟨hc.2, congrArg some hc.1.symm⟩
    · cases h
  · rintro ⟨hmem, hc⟩
    cases hc
    have hp : (p ++ List.replicate 16 0).take ((p ++ List.replicate 16 (0 : UInt8)).length - 16) = p := by
      simp
    rw [hp, if_pos ⟨rfl, hmem⟩]

theorem onePush_history : History [onePush] := by
  constructor
  · intro p hp q hq _
    rw [List.mem_singleton.mp hp, List.mem_singleton.mp hq]
  · intro p hp
    rw [List.mem_singleton.mp hp]
    decide

def oneChunks : List ProcessedChunk :=
  match processV2 oneLogged onePush.data .node (utf8 onePush.userId) (utf8 onePush.fileId) {} with
  | .ok chunks => chunks
  | .error _ => []

def oneRow : FileRow := pushRow oneLogged ['u'] ['p'] ['f'] onePush.data 0 oneChunks ['f']

theorem oneLogged_hkdf : HkdfSeparates oneLogged := Sample.sample_hkdf []

theorem oneChunks_ok :
    processV2 oneLogged onePush.data .node (utf8 onePush.userId) (utf8 onePush.fileId) {} =
      .ok oneChunks := by
  have h : ∃ chunks, processV2 oneLogged onePush.data .node (utf8 onePush.userId)
      (utf8 onePush.fileId) {} = .ok chunks := ⟨_, rfl⟩
  obtain ⟨chunks, h⟩ := h
  rw [oneChunks, h]

/-- A pushed file and the empty list of chunks: the call succeeds with no bytes. -/
theorem reassemble_accepts_truncation :
    HkdfSeparates oneLogged ∧ History [onePush] ∧
      IdealAead oneLogged ([onePush].flatMap (sealsOf oneLogged .node {})) ∧
      processV2 oneLogged onePush.data .node (utf8 onePush.userId) (utf8 onePush.fileId) {} =
        .ok oneChunks ∧
      oneRow.userId = onePush.userId ∧ oneRow.fileId = onePush.fileId ∧
      oneRow.keyScheme = KeyScheme.V2.asI64 ∧ oneRow.chunkCount = oneChunks.length ∧
      ¬ ∀ (list : List (ChunkRow × List (Option Bytes))) (out : Bytes),
        reassemble oneLogged .node oneRow list = .ok out → out = onePush.data := by
  refine ⟨oneLogged_hkdf, onePush_history, oneLogged_ideal, oneChunks_ok, rfl, rfl, rfl, rfl, ?_⟩
  intro h
  exact absurd (h [] [] rfl) (by decide)

/-- The rows of the push spell it, so with any shards they give its bytes or an error. -/
theorem reassemble_authentic_one :
    Spells oneLogged {} onePush.data oneChunks (oneChunks.map (chunkRowFor onePush.fileId)) ∧
      ∀ list : List (ChunkRow × List (Option Bytes)),
        list.map Prod.fst = oneChunks.map (chunkRowFor onePush.fileId) →
        ∀ out, reassemble oneLogged .node oneRow list = .ok out → out = onePush.data := by
  have hspell := spells_own oneChunks_ok (Sample.sample_zstd [])
  exact ⟨hspell, (reassemble_authentic_iff oneLogged_hkdf onePush_history oneLogged_ideal
    (List.mem_singleton.mpr rfl) oneChunks_ok oneRow rfl rfl rfl rfl _).mpr hspell⟩

end P2pnas.Store.Authentic
