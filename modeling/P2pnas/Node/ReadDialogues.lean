import P2pnas.Lib.Dialogue
import P2pnas.Node.Download
import P2pnas.Store.Chronicle

/-!
# A read as a dialogue with the node (`service.rs:164-212`, `533-569`, `handlers/files.rs:600-770`)

A read asks one statement after another, and each answer is right for the moment it is given at.
What does not fit together is a file row that has chunks of its own, and no chunk rows one statement
later: the loop over the chunks then runs no time and the read ends well, with no bytes. Under all
other answers that agree with the record it fails or ends with the bytes on record.
-/

namespace P2pnas.Node.ReadDialogues
open P2pnas.Lib.Frames P2pnas.Lib.Stripes P2pnas.Lib.Strings P2pnas.Lib.Dialogue
open P2pnas.Lib.Dialogue.Prog P2pnas.Core P2pnas.Core.Base P2pnas.Core.Crypto P2pnas.Core.Erasure
open P2pnas.Core.Pipeline P2pnas.Store.Manifest P2pnas.Store.Session P2pnas.Store.Reading
open P2pnas.Store.Service P2pnas.Store.Packing P2pnas.Store.Written P2pnas.Store.Roundtrip
open P2pnas.Store.Readable P2pnas.Store.Chronicle P2pnas.Node.Download

/-! ### The statements of a read -/

/-- A statement, a file read, or the requests for all shards of a plan. -/
inductive Question where
  | file (u f : Text)
  | chunks (f : Text)
  | shards (chunkId : Text)
  | bytes (frag : Text)
  | fetch (plan : List (ChunkRow × List ShardRow))

abbrev Answer : Question → Type
  | .file .. => Option FileRow
  | .chunks _ => List ChunkRow
  | .shards _ => List ShardRow
  | .bytes _ => Outcome StoreError Bytes
  | .fetch _ => List ChunkFetch

abbrev Reader := Prog Question Answer (Stop StoreError)

def ofRead {α : Type} : Read α → Reader α
  | .done o => .done o
  | .getFile u f k => .ask (.file u f) fun a => ofRead (k a)
  | .getChunks f k => .ask (.chunks f) fun a => ofRead (k a)
  | .getShards c k => .ask (.shards c) fun a => ofRead (k a)
  | .readStore frag k => .ask (.bytes frag) fun a => (Prog.done a).bind fun b => ofRead (k b)

theorem ofRead_bind {α β : Type} (x : Read α) (g : α → Read β) :
    ofRead (x >>= g) = ofRead x >>= fun a => ofRead (g a) := by
  change ofRead (x.bind g) = (ofRead x).bind fun a => ofRead (g a)
  induction x with
  | done o => cases o <;> rfl
  | getFile u f k ih | getChunks f k ih | getShards c k ih =>
    simp only [Read.bind, ofRead, Prog.bind]
    exact congrArg _ (funext ih)
  | readStore frag k ih =>
    simp only [Read.bind, ofRead, Prog.bind]
    congr 1
    funext a
    cases a with
    | error e => rfl
    | ok b => exact ih b

variable {K : Type} (P : Prims K) (key : K)

/-- `fetch_and_reassemble`. -/
def Reader.fetchAndReassemble (file : FileRow) (plan : List (ChunkRow × List ShardRow)) : Reader Bytes :=
  .ask (.fetch plan) fun got => .done (Download.fetchAndReassemble P key file got)

/-- `reconstruct_file` (`handlers/files.rs:692-705`). -/
def reconstructFile (u f : Text) : Reader Bytes := do
  let (file, plan) ← ofRead (pullPlan u f)
  match file.packId with
  | none => Reader.fetchAndReassemble P key file plan
  | some packId => do
    let (pack, packPlan) ← ofRead (pullPlan u packId)
    if pack.packId.isSome then
      .done (fail (.integrity ("pack ".toList ++ packId ++ " is itself a pack member".toList)))
    else do
      let plain ← Reader.fetchAndReassemble P key pack packPlan
      .done (memberSlice plain file)

/-- What a read saw last: the row of a file with chunks of its own, then none of its chunk rows. -/
inductive Seen where
  | nothing
  | own
  | bare
  deriving DecidableEq, Repr

def Seen.note (s : Seen) : (q : Question) → Answer q → Seen
  | .file .., some row => if row.packId = none then .own else .nothing
  | .chunks _, [] => if s = .own then .bare else s
  | _, _ => s

/-! ### What is asked and what may come back -/

section
variable (H : Record)

/-- What a read asks for is on record. -/
def Proper : Question → Prop
  | .chunks f => H f ≠ none
  | .bytes frag => ∃ b, IsShard P key H frag b
  | .fetch plan => ∀ p ∈ plan, ∀ s ∈ p.2, ShardOk P key H s
  | _ => True

/-- An answer that agrees with the record. -/
def Allowed : (q : Question) → Answer q → Prop
  | .file u f, a => ∀ row, a = some row → row.fileId = f ∧ row.userId = u ∧ RowOk P key H row
  | .chunks f, cs => ∀ chunks, ChunksOf P key H f chunks → cs = [] ∨ cs = chunks.map (chunkRowFor f)
  | .shards c, ss => ∀ s ∈ ss, s.chunkId = c ∧ ShardOk P key H s
  | .bytes frag, a => ∀ b, a = .ok b → IsShard P key H frag b
  | .fetch plan, got => ∃ arr, Fetched P plan arr got ∧
    ∀ (i : ℕ) (hi : i < plan.length), ∀ a ∈ arr i, a.1 ∈ plan[i].2 ∧
      ∀ b, a.2 = some b → verifyHash P b a.1.hash = true → IsShard P key H a.1.fragmentId b

def rules : Rules Question Answer Seen := ⟨Proper P key H, Allowed P key H, Seen.note⟩

/-- What a read of `f` may end with. -/
def Returns (u f : Text) (seen : Seen) (b : Bytes) : Prop :=
  ∃ d, H f = some (u, d) ∧ if seen = .bare then b = [] else b = d

end

section
variable {P key} {H H' : Record}

theorem Proper.mono (hx : Extends H H') {q : Question} (h : Proper P key H q) : Proper P key H' q := by
  cases q with
  | chunks f =>
    obtain ⟨v, hv⟩ := Option.ne_none_iff_exists'.mp h
    exact Option.ne_none_iff_exists'.mpr ⟨v, hx f v hv⟩
  | bytes frag => exact h.imp fun _ hb => hb.mono hx
  | fetch plan => exact fun p hp s hs => (h p hp s hs).mono hx
  | file u f | shards c => trivial

/-- An answer to a question on record is right for every later record. -/
theorem Allowed.mono (hx : Extends H H') {q : Question} {a : Answer q} (hq : Proper P key H q)
    (h : Allowed P key H q a) : Allowed P key H' q a := by
  cases q with
  | file u f =>
    intro row hrow
    obtain ⟨hf, hu, hok⟩ := h row hrow
    exact ⟨hf, hu, hok.mono hx⟩
  | chunks f => exact fun chunks hc => h chunks (hc.back hx hq)
  | shards c => exact fun s hs => ⟨(h s hs).1, (h s hs).2.mono hx⟩
  | bytes frag => exact fun b hb => (h b hb).mono hx
  | fetch plan =>
    obtain ⟨arr, hf, hgot⟩ := h
    exact ⟨arr, hf, fun i hi a ha => ⟨(hgot i hi a ha).1, fun b hb hv => ((hgot i hi a ha).2 b hb hv).mono hx⟩⟩

end

/-! ### Opening what was found -/

section
variable {P key} {H : Record}

/-- The bytes that belong at the fragment id of a shard row are the shard the row describes. -/
theorem slot_of_row (hsep : Separate P key H) {f : Text} {chunks : List ProcessedChunk}
    (hon : ChunksOf P key H f chunks) {c : ProcessedChunk} (hc : c ∈ chunks) {s : ShardRow}
    (hs : ShardOk P key H s) (hcid : s.chunkId = chunkId f c.index) {b : Bytes}
    (hb : IsShard P key H s.fragmentId b) : c.shards[asU64 s.shardIndex]? = some b := by
  obtain ⟨f', c', i, b', hp, hfrag, hcid', hidx, -⟩ := hs.piece
  rw [hcid] at hcid'
  obtain ⟨rfl, hci⟩ := chunkId_inj hcid'
  obtain ⟨hc', -, hb'⟩ := hp.of_chunks hon
  obtain ⟨u, d, -, hproc⟩ := id hon
  obtain rfl := (processV2_ordered hproc).eq_of_index hc hc' hci
  have hsame : b = b' := hsep _ _ _ hb ⟨f, c, i, hp, hfrag⟩
  rw [hidx, asU64_natCast, hb', hsame]

/-- The pieces that the chunks open to are the file. -/
theorem pieces_flatten_eq {u f : Text} {d : Bytes} {chunks : List ProcessedChunk}
    (hproc : processV2 P d key (utf8 u) (utf8 f) {} = .ok chunks) {parts : List Bytes}
    (h : List.Forall₂ (fun c b => b = piece ({} : PipelineConfig).chunkSize d c.index) chunks parts) :
    parts.flatten = d := by
  obtain ⟨hpos, hlen, -⟩ := processV2_spec P hproc
  have hmap : chunks.map (fun c => piece ({} : PipelineConfig).chunkSize d c.index) =
      (List.range (chunkCount {} d)).map (piece ({} : PipelineConfig).chunkSize d) := by
    apply List.ext_getElem
    · rw [List.length_map, List.length_map, List.length_range, hlen]
    · intro i hi hi'
      rw [List.length_map] at hi
      rw [List.getElem_map, List.getElem_map, List.getElem_range, processV2_index hproc i hi]
  have hparts : parts = chunks.map fun c => piece ({} : PipelineConfig).chunkSize d c.index := by
    have hflip : List.Forall₂ Eq parts (chunks.map fun c => piece ({} : PipelineConfig).chunkSize d c.index) :=
      List.forall₂_map_right_iff.mpr h.flip
    exact List.forall₂_eq_eq_eq ▸ hflip
  rw [hparts, hmap]
  exact chunks_flatten {} hpos d

variable (hP : Restores P) (hn : RsNeedsTen P)
include hP hn

/-- What a chunk opens to is its piece of the file. -/
theorem openRow_opened {u f : Text} {d : Bytes} {chunks : List ProcessedChunk}
    (hproc : processV2 P d key (utf8 u) (utf8 f) {} = .ok chunks) {c : ProcessedChunk} (hc : c ∈ chunks)
    {present : List (Option Bytes)} (hh : Held c.shards present) {b : Bytes}
    (h : openRow P (fileCipher P key u f {} d) (chunkRowFor f c) present = .ok b) :
    b = piece ({} : PipelineConfig).chunkSize d c.index := by
  obtain ⟨i, hi, rfl⟩ := List.getElem_of_mem hc
  by_cases hten : DATA_SHARDS ≤ present.countP Option.isSome
  · rw [openRow_held hP hproc i hi hh hten] at h
    rw [processV2_index hproc i hi]
    exact (Except.ok.inj h).symm
  · rw [openRow, reconstruct_few P hn _ hh.slots (by omega)] at h
    cases h

end

/-! ### A read, one answer after another -/

theorem ofRead_collect {α β : Type} (g : α → Read β) (as : List α) :
    ofRead (collect g as) = collect (fun a => ofRead (g a)) as := by
  induction as with
  | nil => rfl
  | cons a as ih =>
    rw [collect, collect, ofRead_bind]
    congr 1
    funext b
    rw [ofRead_bind, ih]
    rfl

theorem ends_collect {r : Rules Question Answer Seen} {α β : Type} {g : α → Reader β}
    {R : α → β → Prop} {t : Seen} {as : List α}
    (h : ∀ a ∈ as, Ends r (fun t' b => t' = t ∧ R a b) t (g a)) :
    Ends r (fun t' bs => t' = t ∧ List.Forall₂ R as bs) t (collect g as) := by
  induction as with
  | nil => exact ⟨rfl, .nil⟩
  | cons a as ih =>
    rw [collect]
    refine ends_bind ((h a (List.mem_cons_self ..)).mono ?_)
    rintro _ b ⟨rfl, hb⟩
    refine ends_bind ((ih fun a ha => h a (List.mem_cons_of_mem _ ha)).mono ?_)
    rintro _ bs ⟨rfl, hbs⟩
    exact ends_pure ⟨rfl, .cons hb hbs⟩

section
variable {P key} {H : Record} {α : Type} {post : Seen → α → Prop} {t : Seen}

theorem ends_file {u f : Text} {g : Option FileRow → Read α}
    (h : ∀ a, Allowed P key H (.file u f) a → Ends (rules P key H) post (t.note (.file u f) a) (ofRead (g a))) :
    Ends (rules P key H) post t (ofRead (Read.file u f >>= g)) := ⟨trivial, h⟩

theorem ends_chunks {f : Text} {g : List ChunkRow → Read α} (hf : H f ≠ none)
    (h : ∀ cs, Allowed P key H (.chunks f) cs →
      Ends (rules P key H) post (t.note (.chunks f) cs) (ofRead (g cs))) :
    Ends (rules P key H) post t (ofRead (Read.chunksOf f >>= g)) := ⟨hf, h⟩

theorem ends_shards {c : Text} {g : List ShardRow → Read α}
    (h : ∀ ss, Allowed P key H (.shards c) ss → Ends (rules P key H) post t (ofRead (g ss))) :
    Ends (rules P key H) post t (ofRead (Read.shardsOf c >>= g)) := ⟨trivial, h⟩

theorem ends_store {frag : Text} {g : Bytes → Read α} (hf : ∃ b, IsShard P key H frag b)
    (h : ∀ b, IsShard P key H frag b → Ends (rules P key H) post t (ofRead (g b))) :
    Ends (rules P key H) post t (ofRead (Read.store frag >>= g)) := by
  refine ⟨hf, fun a ha => ?_⟩
  cases a with
  | error e => trivial
  | ok b => exact h b (ha b rfl)

theorem ends_orStop {β : Type} {e : StoreError} {o : Option β} {g : β → Read α}
    (h : ∀ b, o = some b → Ends (rules P key H) post t (ofRead (g b))) :
    Ends (rules P key H) post t (ofRead (Read.orStop e o >>= g)) := by
  cases o with
  | none => trivial
  | some b => exact h b rfl

theorem ends_outcome {o : Outcome StoreError α} (h : ∀ a, o = .ok a → post t a) :
    Ends (rules P key H) post t (.done o) := by
  cases o with
  | error e => trivial
  | ok a => exact h a rfl

end

section
variable {P key} {H : Record} (hP : Restores P) (hn : RsNeedsTen P) (hsep : Separate P key H)

section
variable {f : Text} {chunks : List ProcessedChunk} (hon : ChunksOf P key H f chunks) {c : ProcessedChunk}
  (hc : c ∈ chunks)
include hsep hon hc

theorem ends_fillSlots {t : Seen} (ss : List ShardRow)
    (hss : ∀ s ∈ ss, s.chunkId = chunkId f c.index ∧ ShardOk P key H s) {present : List (Option Bytes)}
    (hh : Held c.shards present) :
    Ends (rules P key H) (fun t' p => t' = t ∧ Held c.shards p) t (ofRead (fillSlots ss present)) := by
  induction ss generalizing present with
  | nil => exact ⟨rfl, hh⟩
  | cons s ss ih =>
    obtain ⟨hcid, hs⟩ := hss s (List.mem_cons_self ..)
    have hrest := fun s hs => hss s (List.mem_cons_of_mem _ hs)
    rw [fillSlots]
    split
    · obtain ⟨f', c', i, b, hp, hfrag, -⟩ := hs.piece
      exact ends_store ⟨b, f', c', i, hp, hfrag⟩ fun b hb =>
        ih hrest (held_set hh (slot_of_row hsep hon hc hs hcid hb))
    · exact ih hrest hh

include hP hn in
theorem ends_pullChunk {t : Seen} {u : Text} {d : Bytes}
    (hproc : processV2 P d key (utf8 u) (utf8 f) {} = .ok chunks) :
    Ends (rules P key H) (fun t' b => t' = t ∧ b = piece ({} : PipelineConfig).chunkSize d c.index) t
      (ofRead (pullChunk P (fileCipher P key u f {} d) (chunkRowFor f c))) := by
  refine ends_shards fun ss hss => ?_
  rw [ofRead_bind]
  refine ends_bind ((ends_fillSlots hsep hon hc ss hss (held_none _)).mono ?_)
  rintro _ present ⟨rfl, hh⟩
  exact ends_outcome fun b ho => ⟨rfl, openRow_opened hP hn hproc hc hh ho⟩

end

/-- The cipher of a row that agrees with the record is the one its file was sealed with. -/
theorem rowCipher_ok {file : FileRow} {d : Bytes} (hrow : RowFor P key H file d)
    (hown : file.packId = none) :
    rowCipher P key file = .ok (fileCipher P key file.userId file.fileId {} d) := by
  obtain ⟨chunks, hproc, hcount⟩ := hrow.own hown
  obtain ⟨-, hlen, -⟩ := processV2_spec P hproc
  rw [rowCipher, hrow.scheme, hcount, asU64_natCast, hlen]
  rfl

include hP hn hsep in
theorem ends_pullOwn {file : FileRow} {d : Bytes} (hrow : RowFor P key H file d)
    (hown : file.packId = none) :
    Ends (rules P key H) (Returns H file.userId file.fileId) .own
      (ofRead (pullOwn P key file file.fileId)) := by
  obtain ⟨chunks, hproc, hcount⟩ := hrow.own hown
  have hon : ChunksOf P key H file.fileId chunks := ⟨_, d, hrow.known, hproc⟩
  refine ends_chunks (by rw [hrow.known]; exact Option.some_ne_none _) fun cs hcs => ?_
  rw [rowCipher_ok hrow hown]
  change Ends _ _ _ (ofRead (if file.size < 0 then _ else _))
  have hsize : ¬ file.size < 0 := by
    rw [hrow.size]
    omega
  rw [if_neg hsize, ofRead_bind, ofRead_collect]
  cases cs with
  | nil => exact ⟨d, hrow.known, rfl⟩
  | cons c cs =>
    -- the chunk rows are there, and so all of them
    have hall := (hcs chunks hon).resolve_left (List.cons_ne_nil c cs)
    change Ends _ _ Seen.own _
    rw [hall, collect_map]
    refine ends_bind ((ends_collect fun c hc => ends_pullChunk hP hn hsep hon hc hproc).mono ?_)
    rintro _ parts ⟨rfl, hparts⟩
    refine ⟨d, hrow.known, ?_⟩
    rw [if_neg (by decide)]
    exact pieces_flatten_eq hproc hparts

/-- The range of a member in what its container was read as. -/
theorem memberSlice_returns {u : Text} {row : FileRow} {p : Text} {d b plain : Bytes} {t : Seen}
    (hrow : RowFor P key H row d) (hp : row.packId = some p) (hu : row.userId = u)
    (hplain : Returns H u p t plain) (h : memberSlice plain row = .ok b) :
    Returns H u row.fileId t b := by
  subst hu
  obtain ⟨x, hx, hread⟩ := hplain
  obtain ⟨x', hx', hslice⟩ := hrow.member p hp
  rw [hx] at hx'
  cases hx'
  refine ⟨d, hrow.known, ?_⟩
  split at hread
  · next hbare =>
    rw [if_pos hbare]
    obtain ⟨off, len, hoff, hlen, -⟩ := hslice.range
    have hoff' : row.packOffset = some (.ofNat off) := hoff
    have hlen' : row.packLen = some (.ofNat len) := hlen
    simp only [hread, memberSlice, hoff', hlen', List.drop_nil, List.take_nil] at h
    split at h
    · exact (Except.ok.inj h).symm
    · cases h
  · next hbare =>
    rw [if_neg hbare]
    rw [hread, memberSlice_eq hslice] at h
    exact (Except.ok.inj h).symm

/-- A read without bytes is right if it has the right length. -/
theorem Returns.right {u : Text} {e : PackEntry} {t : Seen} (h : Returns H u e.fileId t e.data) :
    Right H e := by
  obtain ⟨d, hd, hread⟩ := h
  refine ⟨u, d, hd, fun hlen => ?_⟩
  split at hread
  · rw [hread] at hlen ⊢
    exact (List.length_eq_zero_iff.mp hlen.symm).symm
  · exact hread

theorem note_own (t : Seen) {u f : Text} {row : FileRow} (h : row.packId = none) :
    t.note (.file u f) (some row) = .own := if_pos h

theorem note_member (t : Seen) {u f : Text} {row : FileRow} {p : Text} (h : row.packId = some p) :
    t.note (.file u f) (some row) = .nothing := if_neg (by rw [h]; exact Option.some_ne_none p)

include hP hn hsep in
/-- `pull`, however deep. -/
theorem ends_pull (n : ℕ) (u f : Text) (t : Seen) :
    Ends (rules P key H) (Returns H u f) t (ofRead (pull P key n u f)) := by
  induction n generalizing f t with
  | zero => trivial
  | succ n ih =>
    refine ends_file fun a ha => ends_orStop fun row hrow => ?_
    obtain ⟨rfl, rfl, d, hfor⟩ := ha row hrow
    subst hrow
    cases hp : row.packId with
    | none =>
      rw [note_own t hp]
      exact ends_pullOwn hP hn hsep hfor hp
    | some p =>
      rw [note_member t hp]
      refine ends_file fun a' _ => ends_orStop fun pack _ => ?_
      split
      · trivial
      · rw [ofRead_bind]
        refine ends_bind ((ih p _).mono fun t' plain hplain => ?_)
        exact ends_outcome fun b hb => memberSlice_returns hfor hp rfl hplain hb

/-! ### A read over the network -/

variable (P key H) in
/-- What `pull_plan` returns agrees with the record; the plan of a file with chunks of its own is empty
when its chunk rows were gone. -/
structure Planned (u f : Text) (t : Seen) (x : FileRow × List (ChunkRow × List ShardRow)) : Prop where
  id : x.1.fileId = f
  user : x.1.userId = u
  row : RowOk P key H x.1
  seen : x.1.packId = none → (t = .bare ↔ x.2 = [])
  rows : ∀ p ∈ x.2, ∀ s ∈ p.2, s.chunkId = p.1.chunkId ∧ ShardOk P key H s
  chunks : ∀ chunks, ChunksOf P key H f chunks →
    x.2.map Prod.fst = [] ∨ x.2.map Prod.fst = chunks.map (chunkRowFor f)

theorem ends_pullPlan (u f : Text) (t : Seen) :
    Ends (rules P key H) (Planned P key H u f) t (ofRead (pullPlan u f)) := by
  refine ends_file fun a ha => ends_orStop fun row hrow => ?_
  obtain ⟨rfl, rfl, d, hfor⟩ := ha row hrow
  subst hrow
  refine ends_chunks (by rw [hfor.known]; exact Option.some_ne_none _) fun cs hcs => ?_
  rw [ofRead_bind, ofRead_collect]
  have hcollect : ∀ t', Ends (rules P key H) (fun t'' plan => t'' = t' ∧ List.Forall₂ (fun c p =>
      (∀ s ∈ p.2, s.chunkId = p.1.chunkId ∧ ShardOk P key H s) ∧ p.1 = c) cs plan) t'
      (collect (fun c => ofRead (Read.shardsOf c.chunkId >>= fun shards => pure (c, shards))) cs) :=
    fun t' => ends_collect fun c _ => ends_shards fun ss hss => ends_pure ⟨rfl, hss, rfl⟩
  refine ends_bind ((hcollect _).mono ?_)
  rintro _ plan ⟨rfl, hplan⟩
  obtain ⟨hrows, hsame⟩ := (List.forall₂_and_left _ _).mp hplan.flip
  have hfst : plan.map Prod.fst = cs := by
    have hrel : List.Forall₂ Eq (plan.map Prod.fst) cs := List.forall₂_map_left_iff.mpr hsame
    exact List.forall₂_eq_eq_eq ▸ hrel
  refine ⟨rfl, rfl, ⟨d, hfor⟩, fun hown => ?_, hrows, fun chunks hon => ?_⟩
  · rw [note_own t hown]
    cases cs with
    | nil => exact ⟨fun _ => List.map_eq_nil_iff.mp hfst, fun _ => rfl⟩
    | cons c cs =>
      refine ⟨fun hbare => (by cases hbare), fun hnil => ?_⟩
      have hplan' : plan = [] := hnil
      rw [hplan'] at hfst
      cases hfst
  · rw [hfst]
    exact hcs chunks hon

include hP hn in
theorem reassemble_opened {file : FileRow} {d b : Bytes} (hrow : RowFor P key H file d)
    (hown : file.packId = none) {chunks : List ProcessedChunk}
    (hproc : processV2 P d key (utf8 file.userId) (utf8 file.fileId) {} = .ok chunks)
    {presents : List (List (Option Bytes))} (hlen : presents.length = chunks.length)
    (hh : ∀ i (hi : i < chunks.length) (hi' : i < presents.length), Held chunks[i].shards presents[i])
    (h : reassemble P key file ((chunks.map (chunkRowFor file.fileId)).zip presents) = .ok b) : b = d := by
  rw [reassemble, rowCipher_ok hrow hown, ok_bind] at h
  obtain ⟨parts, hparts, h⟩ := bind_eq_ok h
  cases h
  refine pieces_flatten_eq hproc ?_
  have hall := collect_eq_ok hparts
  rw [List.forall₂_iff_get] at hall ⊢
  obtain ⟨hl, hget⟩ := hall
  rw [List.length_zip, List.length_map, hlen, Nat.min_self] at hl
  refine ⟨hl, fun i hi hi' => ?_⟩
  have hip : i < presents.length := by omega
  have hopen := hget i (by rw [List.length_zip, List.length_map, hlen, Nat.min_self]; exact hi) hi'
  simp only [List.get_eq_getElem, List.getElem_zip, List.getElem_map] at hopen ⊢
  exact openRow_opened hP hn hproc (List.getElem_mem hi) (hh i hi hip) hopen

include hP hn hsep in
theorem ends_fetch {u f : Text} {file : FileRow} {plan : List (ChunkRow × List ShardRow)} {t : Seen}
    (hpl : Planned P key H u f t (file, plan)) (hown : file.packId = none) :
    Ends (rules P key H) (Returns H u f) t (Reader.fetchAndReassemble P key file plan) := by
  obtain ⟨rfl, rfl, ⟨d, hrow⟩, hseen, hrows, hchunks⟩ := hpl
  obtain ⟨chunks, hproc, hcount⟩ := hrow.own hown
  have hon : ChunksOf P key H file.fileId chunks := ⟨_, d, hrow.known, hproc⟩
  refine ⟨fun p hp s hs => (hrows p hp s hs).2, fun got ⟨arr, hf, hgot⟩ => ?_⟩
  refine ends_outcome fun b hb => ⟨d, hrow.known, ?_⟩
  rw [fetchAndReassemble_eq P key file hf] at hb
  change if t = .bare then b = [] else b = d
  by_cases hplan : plan = []
  · rw [if_pos ((hseen hown).mpr hplan)]
    rw [hplan, reassemble, rowCipher_ok hrow hown] at hb
    exact (Except.ok.inj hb).symm
  · rw [if_neg fun hbare => hplan ((hseen hown).mp hbare)]
    have hall := (hchunks chunks hon).resolve_left fun hnil => hplan (List.map_eq_nil_iff.mp hnil)
    have hlen : plan.length = chunks.length := by
      have h := congrArg List.length hall
      rw [List.length_map, List.length_map] at h
      exact h
    change reassemble P key file ((plan.map Prod.fst).zip _) = .ok b at hb
    change plan.map Prod.fst = _ at hall
    rw [hall] at hb
    refine reassemble_opened hP hn hrow hown hproc (by simp [hlen]) (fun i hi hi' => ?_) hb
    rw [List.getElem_map, List.getElem_range]
    -- what arrived for chunk `i` are its own shards
    have hip : i < plan.length := by rw [hlen]; exact hi
    have hci : plan[i].1 = chunkRowFor file.fileId chunks[i] := by
      have h := List.getElem_of_eq hall (by rw [List.length_map]; exact hip)
      rw [List.getElem_map, List.getElem_map] at h
      exact h
    refine takeArrivals_held _ _ _ (held_none _) fun a ha b hb => ?_
    obtain ⟨x, hx, rfl⟩ := List.mem_map.mp ha
    obtain ⟨hin, hgood⟩ := hgot i hip x hx
    obtain ⟨hcid, hs⟩ := hrows _ (List.getElem_mem hip) x.1 hin
    obtain ⟨hb, hv⟩ := Option.filter_eq_some_iff.mp hb
    rw [hci] at hcid
    exact slot_of_row hsep hon (List.getElem_mem hi) hs hcid (hgood b hb hv)

include hP hn hsep in
/-- `reconstruct_file`. -/
theorem ends_reconstructFile (u f : Text) (t : Seen) :
    Ends (rules P key H) (Returns H u f) t (reconstructFile P key u f) := by
  refine ends_bind ((ends_pullPlan u f t).mono ?_)
  rintro t' ⟨file, plan⟩ hpl
  dsimp only
  cases hp : file.packId with
  | none => exact ends_fetch hP hn hsep hpl hp
  | some p =>
    refine ends_bind ((ends_pullPlan u p t').mono ?_)
    rintro t'' ⟨pack, packPlan⟩ hpack
    dsimp only
    split
    · trivial
    · next hown =>
      have hnone : pack.packId = none := by
        cases hpk : pack.packId with
        | none => rfl
        | some q => exact absurd (by rw [hpk]; rfl) hown
      refine ends_bind ((ends_fetch hP hn hsep hpack hnone).mono fun t plain hplain => ?_)
      obtain ⟨rfl, hu, ⟨d, hrow⟩, -⟩ := hpl
      exact ends_outcome fun b hb => memberSlice_returns hrow hp hu hplain hb

end

end P2pnas.Node.ReadDialogues
