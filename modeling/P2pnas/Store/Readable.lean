import P2pnas.Store.Edits
import P2pnas.Store.Roundtrip

/-!
# Rows that read back

A row is readable as `content f` when it has its own stored chunks, or when it names a pack
of the same user whose bytes hold it at the recorded range. A readable row pulls to its
content; a call that leaves the row, its pack and their bytes alone leaves it readable; push,
packing and compaction write readable rows.
-/

namespace P2pnas.Store.Readable
open P2pnas.Lib.Frames P2pnas.Lib.Strings P2pnas.Lib.Tables P2pnas.Core P2pnas.Core.Base
open P2pnas.Core.Crypto P2pnas.Core.Erasure P2pnas.Core.Pipeline P2pnas.Store.Manifest
open P2pnas.Store.Session P2pnas.Store.Reading P2pnas.Store.Service P2pnas.Store.Packing
open P2pnas.Store.Written P2pnas.Store.Roundtrip P2pnas.Store.Edits

variable {K : Type} (P : Prims K) (key : K)

/-- No fragment id belongs to both files. -/
def Apart (f g : Text) : Prop := ∀ a, Addr P f a → ¬ Addr P g a

/-- Bytes `b` at the range a member row records. -/
structure Slice (c : ReadCols) (plain b : Bytes) : Prop where
  range : ∃ off len : ℕ, c.packOffset = some (off : ℤ) ∧ c.packLen = some (len : ℤ) ∧
    off + len ≤ plain.length ∧ (plain.drop off).take len = b

/-- The row with columns `c` reads as `content f`. -/
structure Reads (content : Text → Bytes) (db : Db) (st : ChunkStore) (f : Text) (c : ReadCols) :
    Prop where
  scheme : c.keyScheme = KeyScheme.V2.asI64
  size : c.size = (content f).length
  own : c.packId = none → ∃ chunks,
    processV2 P (content f) key (utf8 c.userId) (utf8 f) {} = .ok chunks ∧
      c.chunkCount = chunks.length ∧ Stored P db st f chunks
  member : ∀ p, c.packId = some p → Slice c (content p) (content f) ∧
    ∃ pc, colsOf db p = some pc ∧ pc.userId = c.userId ∧ pc.packId = none

section
variable {P key} {content : Text → Bytes} {db : Db} {st : ChunkStore} {f : Text} {c : ReadCols}

/-! ### Reading -/

theorem pull_own (hP : Restores P) (hcols : colsOf db f = some c)
    (h : Reads P key content db st f c) (hown : c.packId = none) (n : ℕ) :
    (pull P key (n + 1) c.userId f).eval db st = .ok (content f) := by
  obtain ⟨row, hget, hid, rfl⟩ := getFile_of_cols hcols
  obtain ⟨chunks, hproc, hcount, hstored⟩ := h.own hown
  have hrow : row.packId = none := hown
  have hsize : 0 ≤ row.size := by
    have hs : row.size = (content f).length := h.size
    omega
  rw [pull, Read.eval_bind, Read.eval_file, ok_bind, hget, Read.eval_bind, Read.eval_orStop,
    orFail_some, ok_bind]
  simp only [hrow]
  exact pullOwn_stored hP hproc hstored row rfl hid h.scheme hcount hsize

/-- The slice of a member is its content. -/
theorem memberSlice_eq {row : FileRow} {plain b : Bytes} (h : Slice (readCols row) plain b) :
    memberSlice plain row = .ok b := by
  obtain ⟨off, len, hoff, hlen, hle, hb⟩ := h.range
  have hoff' : row.packOffset = some (Int.ofNat off) := hoff
  have hlen' : row.packLen = some (Int.ofNat len) := hlen
  simp only [memberSlice, hoff', hlen', if_pos hle, hb]

end

/-! ### Writing a row with its own chunks -/

section
variable {P key} {u m : Text} {data : Bytes} {now : Time}

theorem colsOf_insertFile {db db' : Db} {row : FileRow} (h : insertFile db row = some db') :
    colsOf db row.fileId = none ∧ colsOf db' row.fileId = some (readCols row.toRec.view) := by
  obtain ⟨hnew, htab⟩ := insertFile_some h
  constructor
  · cases hc : colsOf db row.fileId with
    | none => rfl
    | some c =>
      obtain ⟨r, hr, hf, _⟩ := mem_of_colsOf hc
      exact absurd (List.mem_map.mpr ⟨r, hr, hf⟩) hnew
  · have hmem : row.toRec ∈ db'.files := by
      rw [htab]
      exact List.mem_append_right _ (List.mem_singleton.mpr rfl)
    exact colsOf_mem hmem

/-- The row of a new file and its chunks, written in full. -/
theorem writtenRow_ok {path lineage : Text} {chunks : List ProcessedChunk} {w w₁ w' : World}
    (hproc : processV2 P data key (utf8 u) (utf8 m) {} = .ok chunks)
    (hins : stmt (insertFile · (pushRow P u path m data now chunks lineage)) w = (.ok (), w₁))
    (hwr : writeChunkRows P m chunks w₁ = (.ok (), w')) :
    colsOf w.db m = none ∧ ∃ c, colsOf w'.db m = some c ∧ c.userId = u ∧ c.packId = none ∧
      ∀ content : Text → Bytes, content m = data → Reads P key content w'.db w'.store m c := by
  obtain ⟨hins, _⟩ := stmt_ok hins
  obtain ⟨hnone, hcols⟩ := colsOf_insertFile hins
  have hno : ∀ d ∈ w₁.db.chunks, d.fileId ≠ m := by
    intro d hd hdm
    obtain ⟨hnew, htab⟩ := insertFile_some hins
    have hch : w₁.db.chunks = w.db.chunks := by rw [htab]
    rw [hch] at hd
    exact hnew (hdm ▸ w.db.constraints.chunkFiles d hd)
  have hstored := writeChunkRows_stored P (processV2_sized hproc) (processV2_ordered hproc) hno hwr
  have hfiles : w'.db.files = w₁.db.files := by
    obtain ⟨us, w₂, hall, hret⟩ := bind_ok hwr
    obtain ⟨_, rfl⟩ := pure_ok hret
    exact (writeChunks_ok P (processV2_sized hproc) hall).1
  refine ⟨hnone, readCols (pushRow P u path m data now chunks lineage).toRec.view, ?_, rfl, rfl, ?_⟩
  · rw [colsOf, hfiles]
    exact hcols
  · rintro content rfl
    exact ⟨rfl, rfl, fun _ => ⟨chunks, hproc, rfl, hstored⟩, fun p hp => by cases hp⟩

/-- A push that returns a value found its bytes at the path or wrote a new row. -/
theorem push_ok {path : Text} {r : PushResult} {w w' : World}
    (h : push P key u path data m now w = (.ok r, w')) :
    (r.unchanged = true ∧ w'.db = w.db ∧ w'.store = w.store) ∨
      (r.unchanged = false ∧ r.fileId = m ∧ ∃ c, colsOf w'.db m = some c ∧ c.userId = u ∧
        c.packId = none ∧
        ∀ content : Text → Bytes, content m = data → Reads P key content w'.db w'.store m c) := by
  rw [push] at h
  obtain ⟨prev, w₁, hq, hrest⟩ := bind_ok h
  obtain ⟨_, hdb, hst⟩ := query_ok hq
  cases hsame : prev.filter (sameContent P · data) with
  | some q =>
    rw [hsame] at hrest
    obtain ⟨hr, hw'⟩ := pure_ok hrest
    subst hr hw'
    exact .inl ⟨rfl, hdb, hst⟩
  | none =>
    rw [hsame] at hrest
    have hnew : pushNew P key u path data m now w₁ = (.ok r, w') := hrest
    rw [pushNew] at hnew
    obtain ⟨chunks, w₂, hout, htx⟩ := bind_ok hnew
    obtain ⟨hproc, hw₂⟩ := ofOutcome_ok hout
    obtain ⟨w₃, hbody, hdb', hst'⟩ := transaction_ok htx
    rw [pushTx] at hbody
    obtain ⟨_, wa, _, hbody₁⟩ := bind_ok hbody
    obtain ⟨_, wb, _, hbody₂⟩ := bind_ok hbody₁
    obtain ⟨_, wc, hins, hbody₃⟩ := bind_ok hbody₂
    obtain ⟨_, wd, hwr, hret⟩ := bind_ok hbody₃
    obtain ⟨hr, hwd⟩ := pure_ok hret
    subst hwd
    obtain ⟨_, c, hcols, hcu, hcp, hreads⟩ := writtenRow_ok (wrapErr_eq_ok hproc) hins hwr
    rw [hdb', hst']
    exact .inr ⟨by rw [hr], by rw [hr], c, hcols, hcu, hcp, hreads⟩

theorem ofOutcome_error {α : Type} {o : Outcome StoreError α} {stop : Stop StoreError} {w w' : World}
    (h : ofOutcome o w = (.error stop, w')) : w' = w := by
  cases h
  rfl

/-- A push that gives no file is rolled back. -/
theorem push_error {u path mint : Text} {data : Bytes} {now : Time} {stop : Stop StoreError}
    {w w' : World} (h : push P key u path data mint now w = (.error stop, w')) : w'.db = w.db := by
  rw [push] at h
  rcases bind_cases _ _ w with ⟨stop', w₁, hq, heq⟩ | ⟨prev, w₁, hq, heq⟩
  · rw [heq] at h
    cases h
    exact (query_error hq).1
  · rw [heq] at h
    have hdb : w₁.db = w.db := (query_ok hq).2.1
    cases hsame : prev.filter (sameContent P · data) with
    | some p =>
      rw [hsame] at h
      cases h
    | none =>
      rw [hsame] at h
      have hnew : pushNew P key u path data mint now w₁ = (.error stop, w') := h
      rw [pushNew] at hnew
      rcases bind_cases (ofOutcome (wrapErr .core (Core.Pipeline.processV2 P data key (utf8 u)
          (utf8 mint) {}))) (fun chunks => transaction (pushTx P u path mint data now chunks)) w₁ with
        ⟨stop', w₂, ho, heq'⟩ | ⟨chunks, w₂, ho, heq'⟩
      · rw [heq'] at hnew
        cases hnew
        rw [ofOutcome_error ho, hdb]
      · rw [heq'] at hnew
        rw [transaction_error hnew, (ofOutcome_ok ho).2, hdb]

theorem insertPackRow_ok {n : ℤ} {w w' : World}
    (h : insertPackRow P key u m data now w = (.ok n, w')) :
    colsOf w.db m = none ∧ ∃ c, colsOf w'.db m = some c ∧ c.userId = u ∧ c.packId = none ∧
      ∀ content : Text → Bytes, content m = data → Reads P key content w'.db w'.store m c := by
  rw [insertPackRow] at h
  obtain ⟨chunks, w₁, hout, hrest⟩ := bind_ok h
  obtain ⟨hproc, hw₁⟩ := ofOutcome_ok hout
  obtain ⟨_, w₂, hins, hmore⟩ := bind_ok hrest
  obtain ⟨_, w₃, hwr, hret⟩ := bind_ok hmore
  obtain ⟨_, hw'⟩ := pure_ok hret
  subst hw₁ hw'
  exact writtenRow_ok (wrapErr_eq_ok hproc) hins hwr

end

end P2pnas.Store.Readable
