import P2pnas.Core.Sample

/-!
# What a derivation and a tag are bound to (`crypto.rs:75-94`, `223-253`, `400-489`)

Every input of a v2 derivation and every component of a chunk's metadata stands behind its length.
Such a string can be read back in one way only, whatever the number of its parts.
-/

namespace P2pnas.Core.Encodings
open P2pnas.Lib.Frames P2pnas.Core.Base P2pnas.Core.Crypto

/-- The domain and the parts are in the info string. -/
theorem infoV2_parts {d d' : Bytes} {ps qs : List Bytes} (hd : d.length < 2 ^ 64)
    (hd' : d'.length < 2 ^ 64) (hp : ∀ p ∈ ps, p.length < 2 ^ 64) (hq : ∀ q ∈ qs, q.length < 2 ^ 64)
    (h : infoV2 d ps = infoV2 d' qs) : d = d' ∧ ps = qs := by
  have h8 : (2 : ℕ) ^ 64 = 256 ^ 8 := by norm_num
  have hps : ∀ p ∈ d :: ps, p.length < 256 ^ 8 := by
    intro p hmem
    rw [← h8]
    rcases List.mem_cons.mp hmem with rfl | hmem
    · exact hd
    · exact hp p hmem
  have hqs : ∀ q ∈ d' :: qs, q.length < 256 ^ 8 := by
    intro q hmem
    rw [← h8]
    rcases List.mem_cons.mp hmem with rfl | hmem
    · exact hd'
    · exact hq q hmem
  have hparts : d :: ps = d' :: qs := lpConcat_inj (by norm_num) hps hqs h
  exact List.cons.inj hparts

theorem asU8_inj {s s' : KeyScheme} (h : beBytes 1 s.asU8 = beBytes 1 s'.asU8) : s = s' := by
  cases s <;> cases s' <;> first | rfl | exact absurd h (by decide)

/-- The metadata of a chunk determines its file, its place in it and the scheme. -/
theorem chunkAad_inj {s s' : KeyScheme} {u u' f f' : Bytes} {n n' i i' : ℕ} (hu : u.length < 2 ^ 64)
    (hu' : u'.length < 2 ^ 64) (hf : f.length < 2 ^ 64) (hf' : f'.length < 2 ^ 64) (hn : n < 2 ^ 64)
    (hn' : n' < 2 ^ 64) (hi : i < 2 ^ 64) (hi' : i' < 2 ^ 64)
    (h : chunkAad s u f n i = chunkAad s' u' f' n' i') : s = s' ∧ u = u' ∧ f = f' ∧ n = n' ∧ i = i' := by
  have h8 : (2 : ℕ) ^ 64 = 256 ^ 8 := by norm_num
  rw [h8] at hn hn' hi hi'
  have hw : ∀ w m : ℕ, w ≤ 8 → (beBytes w m).length < 2 ^ 64 := by
    intro w m hw
    rw [beBytes_length]
    omega
  have hshort : ∀ (s : KeyScheme) (u f : Bytes) (n i : ℕ), u.length < 2 ^ 64 → f.length < 2 ^ 64 →
      ∀ p ∈ [beBytes 1 s.asU8, u, f, beBytes 8 n, beBytes 8 i], p.length < 2 ^ 64 := by
    intro s u f n i hu hf p hp
    simp only [List.mem_cons, List.not_mem_nil, or_false] at hp
    rcases hp with rfl | rfl | rfl | rfl | rfl
    · exact hw 1 _ (by norm_num)
    · exact hu
    · exact hf
    · exact hw 8 _ le_rfl
    · exact hw 8 _ le_rfl
  obtain ⟨-, hparts⟩ := infoV2_parts (d := CHUNK_AAD_DOMAIN_V2) (by decide) (by decide)
    (hshort s u f n i hu hf) (hshort s' u' f' n' i' hu' hf') h
  injection hparts with hs hrest
  injection hrest with huu hrest
  injection hrest with hff hrest
  injection hrest with hnn hrest
  injection hrest with hii _
  exact ⟨asU8_inj hs, huu, hff, beBytes_inj hn hn' hnn, beBytes_inj hi hi' hii⟩

section
variable {K : Type} (P : Prims K)

/-- A cipher binds the canonical metadata under v2, and nothing under v1. -/
theorem aadFor_eq (key : K) (s : KeyScheme) (u f : Bytes) (n i : ℕ) :
    (FileCipher.new P key s u f n).aadFor i = if s = .V2 then chunkAad s u f n i else [] := by
  cases s with
  | V1 => rfl
  | V2 => exact aadFor_new P key u f n i

/-- Info strings, and the metadata of chunks, are the same bytes for the same arguments only; the
metadata a cipher puts together from its prefix is the canonical one under v2, and empty under v1. -/
theorem encodings_faithful :
    (∀ (d d' : Bytes) (ps qs : List Bytes), d.length < 2 ^ 64 → d'.length < 2 ^ 64 →
      (∀ p ∈ ps, p.length < 2 ^ 64) → (∀ q ∈ qs, q.length < 2 ^ 64) → infoV2 d ps = infoV2 d' qs →
        d = d' ∧ ps = qs) ∧
    (∀ (s s' : KeyScheme) (u u' f f' : Bytes) (n n' i i' : ℕ), u.length < 2 ^ 64 → u'.length < 2 ^ 64 →
      f.length < 2 ^ 64 → f'.length < 2 ^ 64 → n < 2 ^ 64 → n' < 2 ^ 64 → i < 2 ^ 64 → i' < 2 ^ 64 →
        chunkAad s u f n i = chunkAad s' u' f' n' i' → s = s' ∧ u = u' ∧ f = f' ∧ n = n' ∧ i = i') ∧
    ∀ (key : K) (s : KeyScheme) (u f : Bytes) (n i : ℕ),
      (FileCipher.new P key s u f n).aadFor i = if s = .V2 then chunkAad s u f n i else [] :=
  ⟨fun _ _ _ _ hd hd' hp hq h => infoV2_parts hd hd' hp hq h,
    fun _ _ _ _ _ _ _ _ _ _ hu hu' hf hf' hn hn' hi hi' h =>
      chunkAad_inj hu hu' hf hf' hn hn' hi hi' h,
    aadFor_eq P⟩

end

/-! ### A legacy cipher, and parts cut in two ways -/

/-- Under v1 a cipher binds no metadata. -/
theorem legacyCipher_unbound : (FileCipher.new (Sample.sample []) .node .V1 [1] [2] 1).aadFor 0 ≠
    chunkAad .V1 [1] [2] 1 0 := by
  decide

theorem shiftedParts_apart : infoV2 [1] [[2, 3], [4]] ≠ infoV2 [1] [[2], [3, 4]] ∧
    chunkAad .V2 [1, 2] [3] 4 0 ≠ chunkAad .V2 [1] [2, 3] 4 0 := by
  obtain ⟨hinfo, haad, -⟩ := encodings_faithful (Sample.sample [])
  constructor
  · intro h
    have hparts := (hinfo [1] [1] [[2, 3], [4]] [[2], [3, 4]] (by decide) (by decide) (by decide)
      (by decide) h).2
    exact absurd hparts (by decide)
  · intro h
    have huser := (haad .V2 .V2 [1, 2] [1] [3] [2, 3] 4 4 0 0 (by decide) (by decide) (by decide)
      (by decide) (by decide) (by decide) (by decide) (by decide) h).2.1
    exact absurd huser (by decide)

end P2pnas.Core.Encodings
