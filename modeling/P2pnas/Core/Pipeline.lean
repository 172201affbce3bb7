import P2pnas.Core.Crypto
import P2pnas.Core.Reconstruct

/-!
# The upload pipeline (`pipeline.rs`, `chunker.rs`)

A file is cut into chunks; each is compressed when that pays, sealed under its index and the
total count, and erasure-coded. `processChunk_spec` says once what a processed chunk
guarantees: its two encoders agree, and opening and decompressing its sealed buffer gives
the plaintext chunk.
-/

namespace P2pnas.Core.Pipeline
open P2pnas.Lib.Frames P2pnas.Lib.Stripes P2pnas.Core.Base P2pnas.Core.Crypto P2pnas.Core.Erasure

def DEFAULT_CHUNK_SIZE : ℕ := 4 * 1024 * 1024
def ENTROPY_SAMPLE : ℕ := 16 * 1024
def FAST_ZSTD_LEVEL : ℤ := 3

/-- `PipelineConfig` (`pipeline.rs:17-32`); the entropy threshold is inside
`Prims.entropyAtLeast`. -/
structure PipelineConfig where
  chunkSize : ℕ := DEFAULT_CHUNK_SIZE
  zstdLevel : ℤ := FAST_ZSTD_LEVEL

variable {K : Type} (P : Prims K)

/-- `maybe_compress` (`chunker.rs:53-63`). -/
def maybeCompress (data : Bytes) (level : ℤ) : Bytes × Bool :=
  if P.entropyAtLeast (data.take ENTROPY_SAMPLE) then (data, false)
  else match P.zstdEncode level data with
    | some c => if c.length < data.length then (c, true) else (data, false)
    | none => (data, false)

/-- `restore` (`chunker.rs:66-72`); `none` is an I/O error of the decoder. -/
def restore (data : Bytes) (isCompressed : Bool) : Option Bytes :=
  if isCompressed then P.zstdDecode data else some data

/-- `ProcessedChunk` (`pipeline.rs:37-48`). -/
structure ProcessedChunk where
  index : ℕ
  nonce : Bytes
  isCompressed : Bool
  plaintextLen : ℕ
  cipher : Bytes
  shardLen : ℕ
  recovery : List Bytes
  deriving DecidableEq, Repr

def chunkCountFor (len chunkSize : ℕ) : Outcome CoreError ℕ :=
  if chunkSize = 0 then fail (.crypto "chunk size must be non-zero")
  else .ok (divCeil len chunkSize)

/-- One step of the parallel map (`pipeline.rs:108-130`). -/
def processChunk (cipher : FileCipher K) (cfg : PipelineConfig) (index : ℕ) (chunk : Bytes) :
    Outcome CoreError ProcessedChunk := do
  let packed := maybeCompress P chunk cfg.zstdLevel
  let sealed ← cipher.sealChunk P packed.1 index
  let coded ← encodeRecovery P sealed
  return {
    index := index
    nonce := nonceFor index
    isCompressed := packed.2
    plaintextLen := chunk.length
    cipher := sealed
    shardLen := coded.1
    recovery := coded.2 }

/-- `process_with_scheme` (`pipeline.rs:93-132`). -/
def processWithScheme (data : Bytes) (key : K) (scheme : KeyScheme) (userId fileId : Bytes)
    (cfg : PipelineConfig) : Outcome CoreError (List ProcessedChunk) := do
  let n ← chunkCountFor data.length cfg.chunkSize
  let cipher := FileCipher.new P key scheme userId fileId n
  collect (fun i => processChunk P cipher cfg i (piece cfg.chunkSize data i)) (List.range n)

def processV2 (data : Bytes) (key : K) (userId fileId : Bytes) (cfg : PipelineConfig) :
    Outcome CoreError (List ProcessedChunk) :=
  processWithScheme P data key .V2 userId fileId cfg

/-! ### What a processed chunk guarantees -/

theorem restore_maybeCompress (hz : ZstdInverts P) (data : Bytes) (level : ℤ) :
    restore P (maybeCompress P data level).1 (maybeCompress P data level).2 = some data := by
  rw [maybeCompress]
  split
  · rfl
  · cases hc : P.zstdEncode level data with
    | none => rfl
    | some c =>
      simp only
      split
      · exact hz level data c hc
      · rfl

/-- The fourteen shards of a processed chunk. -/
def ProcessedChunk.shards (c : ProcessedChunk) : List Bytes := dataShards c.cipher ++ c.recovery

theorem processChunk_spec {cipher : FileCipher K} {cfg : PipelineConfig} {index : ℕ}
    {chunk : Bytes} {c : ProcessedChunk} (h : processChunk P cipher cfg index chunk = .ok c) :
    c.index = index ∧ c.shardLen = shardLen c.cipher.length ∧ encode P c.cipher = .ok c.shards ∧
      cipher.sealChunk P (maybeCompress P chunk cfg.zstdLevel).1 index = .ok c.cipher ∧
      c.isCompressed = (maybeCompress P chunk cfg.zstdLevel).2 := by
  simp only [processChunk] at h
  obtain ⟨sealed, hseal, h⟩ := bind_eq_ok h
  obtain ⟨⟨sl, recovery⟩, hcode, h⟩ := bind_eq_ok h
  cases h
  exact ⟨rfl, (encodeRecovery_eq_ok P hcode).1, encode_of_encodeRecovery P hcode, hseal, rfl⟩

/-- The number of chunks the pipeline makes of a file. -/
def chunkCount (cfg : PipelineConfig) (data : Bytes) : ℕ := divCeil data.length cfg.chunkSize

theorem processV2_spec {data : Bytes} {key : K} {userId fileId : Bytes} {cfg : PipelineConfig}
    {chunks : List ProcessedChunk} (h : processV2 P data key userId fileId cfg = .ok chunks) :
    0 < cfg.chunkSize ∧ chunks.length = chunkCount cfg data ∧
      ∀ i < chunkCount cfg data, ∃ c, chunks[i]? = some c ∧
        processChunk P (FileCipher.new P key .V2 userId fileId (chunkCount cfg data)) cfg i
          (piece cfg.chunkSize data i) = .ok c := by
  simp only [processV2, processWithScheme] at h
  obtain ⟨n, hn, h⟩ := bind_eq_ok h
  rw [chunkCountFor] at hn
  split at hn
  · cases hn
  · rename_i hpos
    cases hn
    have hall := collect_eq_ok h
    have hlen := hall.length_eq
    rw [List.length_range] at hlen
    refine ⟨Nat.pos_of_ne_zero hpos, hlen.symm, ?_⟩
    intro i hi
    have hi' : i < chunks.length := by rw [← hlen]; exact hi
    refine ⟨chunks[i], List.getElem?_eq_getElem hi', ?_⟩
    have hget := List.forall₂_iff_get.mp hall
    have hat := hget.2 i (by rw [List.length_range]; exact hi) hi'
    simp only [List.get_eq_getElem, List.getElem_range] at hat
    exact hat

/-- The plaintext chunks in order are the file. -/
theorem chunks_flatten (cfg : PipelineConfig) (hpos : 0 < cfg.chunkSize) (data : Bytes) :
    ((List.range (chunkCount cfg data)).map (piece cfg.chunkSize data)).flatten = data :=
  pieces_flatten_of_le _ _ _ (le_divCeil_mul _ _ hpos)

end P2pnas.Core.Pipeline
