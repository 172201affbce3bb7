import P2pnas.Lib.Runs
import P2pnas.Node.ReadDialogues
import P2pnas.Store.Commits

/-!
# Reading while files are packed (`service.rs:164-212`, `533-569`, `handlers/files.rs:600-770`)

The statements of a read run on an autocommit connection, and other sessions commit between any two
of them. A read that ends well returns the bytes that were stored under its id, unless `pack_files`,
a compaction or a purge took the chunk rows between its `get_file` and its `get_chunks`.
-/

namespace P2pnas.Node.ConcurrentReads
open P2pnas.Lib.Frames P2pnas.Lib.Stripes P2pnas.Lib.Strings P2pnas.Lib.Runs P2pnas.Lib.Dialogue
open P2pnas.Lib.Dialogue.Prog P2pnas.Core P2pnas.Core.Base P2pnas.Core.Erasure P2pnas.Core.Pipeline
open P2pnas.Store P2pnas.Store.Manifest P2pnas.Store.Session P2pnas.Store.Reading P2pnas.Store.Service
open P2pnas.Store.Packing P2pnas.Store.Written P2pnas.Store.Roundtrip P2pnas.Store.Edits
open P2pnas.Store.Rows P2pnas.Store.Crashes P2pnas.Store.Chronicle P2pnas.Node.Download
open P2pnas.Node.ReadDialogues

variable {K : Type} (P : Prims K) (key : K)

/-! ### Reads among calls -/

inductive How where
  | pull (depth : ℕ)
  | reconstruct

def How.reader : How → Text → Text → Reader Bytes
  | .pull n, u, f => ofRead (Reading.pull P key n u f)
  | .reconstruct, u, f => reconstructFile P key u f

/-- A read that was begun; `since`: the states of the local store since its last answer. -/
structure Ongoing where
  user : Text
  file : Text
  seen : Seen
  rest : Reader Bytes
  since : List ChunkStore

/-- A node with its reads, the member rows that a compaction listed, and what was ever stored. -/
structure State where
  world : World
  record : Record
  reads : ℕ → Option Ongoing
  listed : List FileRow

def start : State := ⟨⟨Db.empty, fun _ => none, []⟩, fun _ => none, fun _ => none, []⟩

/-- A statement answered by the manifest and the store as they are. -/
def answerFrom (w : World) : (q : Question) → Option (Answer q)
  | .file u f => some (getFile w.db u f)
  | .chunks f => some (getChunks w.db f)
  | .shards c => some (getShards w.db c)
  | .bytes frag => some (Read.storeAnswer w.store frag)
  | .fetch _ => none

namespace Ongoing

/-- The bytes of a read that ended well. -/
def result (r : Ongoing) : Option Bytes :=
  match r.rest with
  | .done (.ok b) => some b
  | _ => none

def begun (how : How) (u f : Text) (st : ChunkStore) : Ongoing :=
  ⟨u, f, .nothing, how.reader P key u f, [st]⟩

def goOn (r : Ongoing) (st : ChunkStore) (q : Question) (a : Answer q) (rest : Reader Bytes) : Ongoing :=
  { r with seen := r.seen.note q a, rest := rest, since := [st] }

def answered (w : World) (r : Ongoing) : Ongoing :=
  match r.rest with
  | .ask q k =>
    match answerFrom w q with
    | some a => r.goOn w.store q a (k a)
    | none => r
  | .done _ => r

def arrived (st : ChunkStore) (got : List ChunkFetch) (r : Ongoing) : Ongoing :=
  match r.rest with
  | .ask (.fetch plan) k => r.goOn st (.fetch plan) got (k got)
  | _ => r

def broken (e : Stop StoreError) (r : Ongoing) : Ongoing := { r with rest := .done (.error e) }

def saw (st : ChunkStore) (r : Ongoing) : Ongoing := { r with since := st :: r.since }

end Ongoing

/-- A call of any session, a read begun or answered, the answers of a fetch, a read that fails, the
members listed for a compaction, and what repair and moves do to shards. A call that frees its shard
files some time after its commit is one whose deletions fail, and `lose` for each. -/
inductive Event where
  | call (script : List Store.Session.Event) (c : Call)
  | read (k : ℕ) (how : How) (u f : Text)
  | answer (k : ℕ)
  | arrive (k : ℕ) (got : List ChunkFetch)
  | breaks (k : ℕ) (e : Stop StoreError)
  | members (u pack : Text)
  | setLocation (frag location : Text)
  | lose (frag : Text)

def State.onRead (s : State) (k : ℕ) (g : Ongoing → Ongoing) : State :=
  { s with reads := Function.update s.reads k ((s.reads k).map g) }

/-- Every read sees the store change. -/
def State.inWorld (s : State) (w : World) : State :=
  { s with world := w, reads := fun k => (s.reads k).map (Ongoing.saw w.store) }

def step (s : State) : Event → State
  | .call script c =>
    let w := { s.world with script := script }
    { s.inWorld (c.leaves P key w) with record := s.record.add (stored P key w c) }
  | .read k how u f =>
    { s with reads := Function.update s.reads k (some (.begun P key how u f s.world.store)) }
  | .answer k => s.onRead k (.answered s.world)
  | .arrive k got => s.onRead k (.arrived s.world.store got)
  | .breaks k e => s.onRead k (.broken e)
  | .members u pack => { s with listed := packMembers s.world.db u pack ++ s.listed }
  | .setLocation frag location =>
    s.inWorld { s.world with db := setShardLocation s.world.db frag location }
  | .lose frag => s.inWorld { s.world with store := s.world.store.set frag none }

/-- What the requests for a plan may bring: a local shard as the store had it at some moment since, a
remote one as a peer sent it. A peer's bytes that pass the check are the shard's. -/
def Arrived (H : Record) (since : List ChunkStore) (plan : List (ChunkRow × List ShardRow))
    (got : List ChunkFetch) : Prop :=
  ∃ arr, Fetched P plan arr got ∧ ∀ (i : ℕ) (hi : i < plan.length), ∀ a ∈ arr i, a.1 ∈ plan[i].2 ∧
    ∀ b, a.2 = some b →
      if a.1.location = LOCAL then ∃ st ∈ since, Read.storeAnswer st a.1.fragmentId = .ok b
      else verifyHash P b a.1.hash = true → IsShard P key H a.1.fragmentId b

/-- The node has read these bytes for the id. -/
def State.HasRead (s : State) (u f : Text) (b : Bytes) : Prop :=
  ∃ k r, s.reads k = some r ∧ r.user = u ∧ r.file = f ∧ r.result = some b

/-- What is packed was read, and what is carried over from a container is the listed range of it. -/
def Gathered (s : State) : Call → Prop
  | .packFiles u es _ _ => ∀ e ∈ es, s.HasRead u e.fileId e.data
  | .compactPack u old es _ _ => ∀ e ∈ es, ∃ plain, s.HasRead u old plain ∧ ∃ row ∈ s.listed,
    row.userId = u ∧ row.packId = some old ∧ row.fileId = e.fileId ∧ memberSlice plain row = .ok e.data
  | _ => True

def Fair (s : State) : Event → Prop
  | .call _ c => Unseen P s.record c ∧ Gathered s c
  | .arrive k got => ∀ r plan next, s.reads k = some r → r.rest = .ask (.fetch plan) next →
    Arrived P key s.record r.since plan got
  | _ => True

/-! ### Every read keeps what it found -/

section
variable {P key} {H H' : Record}

variable (P key H) in
/-- Whatever comes on record, the read goes on as it has to; the stores it may still read from have
the bytes on record when it last asked. -/
def Live (r : Ongoing) : Prop :=
  ∃ H₀, Extends H₀ H ∧ (∀ H', Extends H₀ H' → Separate P key H' →
    Ends (rules P key H') (Returns H' r.user r.file) r.seen r.rest) ∧ ∀ st ∈ r.since, StoreOk P key H₀ st

theorem Live.mono (hx : Extends H H') {r : Ongoing} (h : Live P key H r) : Live P key H' r := by
  obtain ⟨H₀, h₀, hrest⟩ := h
  exact ⟨H₀, h₀.trans hx, hrest⟩

theorem Live.saw {r : Ongoing} (h : Live P key H r) {st : ChunkStore} (hst : StoreOk P key H st) :
    Live P key H (r.saw st) := by
  obtain ⟨H₀, h₀, hends, hsince⟩ := h
  exact ⟨H₀, h₀, hends, List.forall_mem_cons.mpr ⟨hst.back h₀, hsince⟩⟩

theorem live_begun (hP : Restores P) (hn : RsNeedsTen P) (how : How) (u f : Text) {st : ChunkStore}
    (hst : StoreOk P key H st) : Live P key H (.begun P key how u f st) := by
  refine ⟨H, Extends.refl H, fun H' _ hsep => ?_, List.forall_mem_singleton.mpr hst⟩
  cases how with
  | pull n => exact ends_pull hP hn hsep n u f .nothing
  | reconstruct => exact ends_reconstructFile hP hn hsep u f .nothing

/-- What a read waits for is on record. -/
theorem Live.proper {r : Ongoing} (h : Live P key H r) (hsep : Separate P key H) {q : Question}
    {k : Answer q → Reader Bytes} (hr : r.rest = .ask q k) : Proper P key H q := by
  obtain ⟨H₀, h₀, hends, -⟩ := h
  have hask := hends H₀ (Extends.refl H₀) (hsep.back h₀)
  rw [hr] at hask
  exact hask.1.mono h₀

/-- An answer that agrees with the record. -/
theorem Live.goOn {r : Ongoing} (h : Live P key H r) (hsep : Separate P key H) {q : Question}
    {k : Answer q → Reader Bytes} (hr : r.rest = .ask q k) {a : Answer q} (ha : Allowed P key H q a)
    {st : ChunkStore} (hst : StoreOk P key H st) : Live P key H (r.goOn st q a (k a)) := by
  have hq := h.proper hsep hr
  obtain ⟨H₀, h₀, hends, -⟩ := h
  refine ⟨H, Extends.refl H, fun H' hx hsep' => ?_, List.forall_mem_singleton.mpr hst⟩
  have hask := hends H' (h₀.trans hx) hsep'
  rw [hr] at hask
  exact hask.2 a (ha.mono hx hq)

/-- The manifest and the store answer as the record says. -/
theorem answerFrom_allowed {w : World} (h : Faithful P key H w) {q : Question} (hq : Proper P key H q)
    {a : Answer q} (ha : answerFrom w q = some a) : Allowed P key H q a := by
  cases q with
  | file u f =>
    cases ha
    exact fun row hrow => getFile_ok h.db hrow
  | chunks f =>
    cases ha
    exact h.chunks f
  | shards c =>
    cases ha
    intro s hs
    obtain ⟨hin, hcid⟩ := mem_getShards.mp hs
    exact ⟨hcid, h.db.shards s hin⟩
  | bytes frag =>
    cases ha
    intro b hb
    rw [Read.storeAnswer] at hb
    split at hb
    · have hst := orFail_eq_ok hb
      obtain ⟨b', hb'⟩ := hq
      rcases h.store frag b' hb' with hnone | hsome
      · rw [hst] at hnone
        cases hnone
      · rw [hst] at hsome
        cases hsome
        exact hb'
    · cases hb
  | fetch plan => cases ha

/-! ### Every step -/

variable (P key) in
/-- The node agrees with the record, and so does what its reads and compactions know. -/
structure Kept (s : State) : Prop where
  faithful : Faithful P key s.record s.world
  reads : ∀ k r, s.reads k = some r → Live P key s.record r
  listed : ∀ row ∈ s.listed, RowOk P key s.record row

theorem stored_mints {w : World} {c : Call} {m : Text} {v : Text × Bytes}
    (h : stored P key w c = some (m, v)) : m ∈ c.mints := by
  cases c with
  | push u path data mint now =>
    simp only [stored] at h
    split at h
    · split at h
      · cases h
      · cases h
        exact Set.mem_singleton _
    · cases h
  | packFiles u es packId now =>
    simp only [stored] at h
    split at h
    · cases h
      exact Set.mem_singleton _
    · cases h
  | compactPack u old es newId now =>
    simp only [stored] at h
    split at h
    · split at h
      · cases h
        exact Set.mem_singleton _
      · cases h
    · cases h
  | purgeFile u f | emptyTrash u | purgeRetired policy t v | rename u a b | restore u f newPath now
    | trashPath u path now => cases h

theorem extends_add {w : World} {c : Call} (h : Unseen P H c) : Extends H (H.add (stored P key w c)) := by
  cases hs : stored P key w c with
  | none => exact Extends.refl H
  | some x => exact extends_update (h x.1 (stored_mints hs)).1

variable {s : State} {r : Ongoing}

theorem Live.returns (h : Live P key H r) (hsep : Separate P key H) {b : Bytes} (hb : r.result = some b) :
    Returns H r.user r.file r.seen b := by
  obtain ⟨H₀, h₀, hends, -⟩ := h
  have hret := hends H h₀ hsep
  rw [Ongoing.result] at hb
  split at hb
  · next b' hdone =>
    cases hb
    rw [hdone] at hret
    exact hret
  · cases hb

theorem Kept.carries (hk : Kept P key s) {c : Call} (hc : Gathered s c) : Carries s.record c := by
  cases c with
  | packFiles u es m now =>
    intro e he
    obtain ⟨k, r, hr, rfl, hf, hb⟩ := hc e he
    have hret := (hk.reads k r hr).returns hk.faithful.separate hb
    rw [hf] at hret
    exact hret.right
  | compactPack u old es m now =>
    intro e he
    obtain ⟨plain, hplain, row, hrow, hu, hp, hid, hslice⟩ := hc e he
    obtain ⟨k, r, hr, rfl, rfl, hb⟩ := hplain
    have hret := (hk.reads k r hr).returns hk.faithful.separate hb
    obtain ⟨d, hfor⟩ := hk.listed row hrow
    have hmember := memberSlice_returns hfor hp hu hret hslice
    rw [hid] at hmember
    exact hmember.right
  | push u path data m now => trivial
  | purgeFile u f | emptyTrash u | purgeRetired policy t v | rename u a b | restore u f newPath now
    | trashPath u path now => trivial

theorem Kept.setRead (hk : Kept P key s) {k : ℕ} {o : Option Ongoing}
    (ho : ∀ r, o = some r → Live P key s.record r) :
    Kept P key { s with reads := Function.update s.reads k o } := by
  refine ⟨hk.faithful, fun j r hr => ?_, hk.listed⟩
  change Function.update s.reads k o j = some r at hr
  by_cases hj : j = k
  · rw [hj, Function.update_self] at hr
    exact ho r hr
  · rw [Function.update_of_ne hj] at hr
    exact hk.reads j r hr

theorem Kept.onRead (hk : Kept P key s) {k : ℕ} {g : Ongoing → Ongoing}
    (hg : ∀ r, s.reads k = some r → Live P key s.record (g r)) : Kept P key (s.onRead k g) := by
  refine hk.setRead fun r hr => ?_
  obtain ⟨r₀, hr₀, rfl⟩ := Option.map_eq_some_iff.mp hr
  exact hg r₀ hr₀

theorem Kept.saw (hk : Kept P key s) {H' : Record} (hx : Extends s.record H') {w : World}
    (hf : Faithful P key H' w) : Kept P key { s.inWorld w with record := H' } := by
  refine ⟨hf, fun k r hr => ?_, fun row hrow => (hk.listed row hrow).mono hx⟩
  obtain ⟨r₀, hr₀, rfl⟩ := Option.map_eq_some_iff.mp hr
  exact ((hk.reads k r₀ hr₀).mono hx).saw hf.store

theorem faithful_lose {w : World} (h : Faithful P key H w) (frag : Text) :
    Faithful P key H { w with store := w.store.set frag none } := by
  refine ⟨h.db, h.chunks, fun g b hb => ?_, h.separate⟩
  by_cases hg : g = frag
  · rw [hg]
    exact .inl (ChunkStore.set_same ..)
  · change w.store.set frag none g = none ∨ w.store.set frag none g = some b
    rw [ChunkStore.set_other _ _ hg]
    exact h.store g b hb

theorem faithful_setLocation {w : World} (h : Faithful P key H w) (frag location : Text) :
    Faithful P key H { w with db := setShardLocation w.db frag location } :=
  h.worn ⟨dbWears_setShardLocation frag location, fun _ _ => .inl rfl⟩

/-- The shards that arrived are those on record. -/
theorem arrived_allowed {H₀ : Record} (h₀ : Extends H₀ H) {since : List ChunkStore}
    (hsince : ∀ st ∈ since, StoreOk P key H₀ st) {plan : List (ChunkRow × List ShardRow)}
    (hplan : Proper P key H₀ (.fetch plan)) {got : List ChunkFetch}
    (h : Arrived P key H since plan got) : Allowed P key H (.fetch plan) got := by
  obtain ⟨arr, hf, hgot⟩ := h
  refine ⟨arr, hf, fun i hi a ha => ?_⟩
  obtain ⟨hin, hbytes⟩ := hgot i hi a ha
  refine ⟨hin, fun b hb hv => ?_⟩
  have hfrom := hbytes b hb
  split at hfrom
  · obtain ⟨st, hst, hread⟩ := hfrom
    obtain ⟨f, c, j, b₀, hp, hfrag, -⟩ := (hplan _ (List.getElem_mem hi) a.1 hin).piece
    have hshard : IsShard P key H₀ a.1.fragmentId b₀ := ⟨f, c, j, hp, hfrag⟩
    rw [Read.storeAnswer] at hread
    split at hread
    · have hsome := orFail_eq_ok hread
      rcases hsince st hst _ b₀ hshard with hnone | heq
      · rw [hsome] at hnone
        cases hnone
      · rw [hsome] at heq
        cases heq
        exact hshard.mono h₀
    · cases hread
  · exact hfrom hv

variable (hP : Restores P) (hn : RsNeedsTen P)
include hP hn

theorem step_kept (hk : Kept P key s) {e : Event} (he : Fair P key s e) : Kept P key (step P key s e) := by
  have hst := hk.faithful.store
  cases e with
  | call script c =>
    obtain ⟨hnew, hgot⟩ := he
    have hw : Faithful P key s.record { s.world with script := script } :=
      ⟨hk.faithful.db, hk.faithful.chunks, hk.faithful.store, hk.faithful.separate⟩
    exact hk.saw (extends_add hnew) (call_faithful hw c hnew (hk.carries hgot))
  | read k how u f =>
    refine hk.setRead fun r hr => ?_
    cases hr
    exact live_begun hP hn how u f hst
  | answer k =>
    refine hk.onRead fun r hr => ?_
    have hlive := hk.reads k r hr
    rw [Ongoing.answered]
    split
    · next q next hrest =>
      split
      · next a ha =>
        have hq := hlive.proper hk.faithful.separate hrest
        exact hlive.goOn hk.faithful.separate hrest (answerFrom_allowed hk.faithful hq ha) hst
      · exact hlive
    · exact hlive
  | arrive k got =>
    refine hk.onRead fun r hr => ?_
    have hlive := hk.reads k r hr
    rw [Ongoing.arrived]
    split
    · next plan next hrest =>
      obtain ⟨H₀, h₀, hends, hsince⟩ := id hlive
      have hask := hends H₀ (Extends.refl H₀) (hk.faithful.separate.back h₀)
      rw [hrest] at hask
      have hallowed := arrived_allowed h₀ hsince hask.1 (he r plan next hr hrest)
      exact hlive.goOn hk.faithful.separate hrest hallowed hst
    · exact hlive
  | breaks k e =>
    refine hk.onRead fun r hr => ?_
    obtain ⟨H₀, h₀, -, hsince⟩ := hk.reads k r hr
    exact ⟨H₀, h₀, fun _ _ _ => trivial, hsince⟩
  | members u pack =>
    refine ⟨hk.faithful, hk.reads, fun row hrow => ?_⟩
    rcases List.mem_append.mp hrow with hrow | hrow
    · rw [packMembers, List.mem_insertionSort] at hrow
      obtain ⟨r, hr, rfl⟩ := List.mem_map.mp hrow
      exact hk.faithful.db.rows r (List.mem_filter.mp hr).1
    · exact hk.listed row hrow
  | setLocation frag location =>
    exact hk.saw (Extends.refl _) (faithful_setLocation hk.faithful frag location)
  | lose frag => exact hk.saw (Extends.refl _) (faithful_lose hk.faithful frag)

omit hP hn in
theorem start_kept : Kept P key start := by
  have hnone : ∀ {f : Text} {chunks : List ProcessedChunk}, ¬ ChunksOf P key start.record f chunks := by
    rintro f chunks ⟨u, d, hf, -⟩
    cases hf
  have hshard : ∀ {frag : Text} {b : Bytes}, ¬ IsShard P key start.record frag b := by
    rintro frag b ⟨f, c, i, ⟨chunks, hchunks, -⟩, -⟩
    exact hnone hchunks
  refine ⟨⟨⟨fun r hr => ?_, fun s hs => ?_⟩, fun f chunks hc => absurd hc hnone,
    fun frag b hb => absurd hb hshard, fun frag b b' hb => absurd hb hshard⟩, fun k r hr => ?_,
    fun row hrow => ?_⟩
  · cases hr
  · cases hs
  · cases hr
  · cases hrow

/-- A read that ends well returns the bytes that were stored under its id, unless it took the row of a
file with chunks of its own and found the chunk rows gone: then it returns no bytes. -/
theorem run_exact_iff {events : List Event} (h : AllMeet (step P key) (Fair P key) start events)
    {k : ℕ} (hr : (run (step P key) start events).reads k = some r) {b : Bytes}
    (hb : r.result = some b) :
    (run (step P key) start events).record r.file = some (r.user, b) ↔
      (r.seen = .bare → (run (step P key) start events).record r.file = some (r.user, [])) := by
  have hk : Kept P key (run (step P key) start events) :=
    run_invariant (I := Kept P key) (fun _ _ hk he => step_kept hP hn hk he) start_kept h
  obtain ⟨d, hd, hread⟩ := (hk.reads k r hr).returns hk.faithful.separate hb
  rw [hd]
  split at hread
  · next hbare =>
    rw [hread]
    exact ⟨fun h _ => h, fun h => h hbare⟩
  · next hbare =>
    rw [hread]
    exact ⟨fun _ h => absurd h hbare, fun _ => rfl⟩

omit hP hn in
theorem step_call_record (script : List Store.Session.Event) (c : Call) :
    (step P key s (.call script c)).record =
      s.record.add (stored P key { s.world with script := script } c) := rfl

/-- Whatever is no call of the service. -/
def Event.quiet : Event → Bool
  | .call .. => false
  | _ => true

omit hP hn in
theorem run_record_quiet {events : List Event} (h : events.all Event.quiet = true) :
    (run (step P key) s events).record = s.record := by
  induction events generalizing s with
  | nil => rfl
  | cons e es ih =>
    rw [List.all_cons, Bool.and_eq_true] at h
    refine (ih h.2).trans ?_
    cases e with
    | call script c => cases h.1
    | read | answer | arrive | breaks | members | setLocation | lose => rfl

end

/-! A file of two bytes is read, then read once more while it is packed. -/

/-- A digest that begins with the text. -/
def prefixPrims : Prims Sample.Key := { Sample.sample [] with blake3 := padTo 32 0 }

theorem prefixPrims_restores : Restores prefixPrims :=
  ⟨Sample.sample_aead [], Sample.sample_zstd [], Sample.sample_rs []⟩

def pushing : Call := .push ['u'] ['p'] [1, 2] ['a'] 0
def packing : Call := .packFiles ['u'] [⟨['a'], [1, 2]⟩] ['m'] 1

def answers : List Event := .read 0 (.pull 2) ['u'] ['a'] :: List.replicate 17 (.answer 0)

def wholeRead : List Event := .call [] pushing :: answers

def halfRead : List Event := [.read 1 (.pull 2) ['u'] ['a'], .answer 1]

/-- The container is committed after `get_file` and before `get_chunks`. -/
def tornRead : List Event := wholeRead ++ halfRead ++ [.call [] packing, .answer 1]

theorem pushing_fair : Fair prefixPrims .node start (.call [] pushing) :=
  ⟨fun _ _ => ⟨rfl, fun _ hg => absurd rfl hg⟩, trivial⟩

/-- The first read returns the two bytes. -/
theorem wholeRead_exact : ∃ r, (run (step prefixPrims .node) start wholeRead).reads 0 = some r ∧
    r.result = some [1, 2] ∧
    ((run (step prefixPrims .node) start wholeRead).record r.file = some (r.user, [1, 2]) ↔
      (r.seen = .bare → (run (step prefixPrims .node) start wholeRead).record r.file = some (r.user, []))) := by
  have hread : ((run (step prefixPrims .node) start wholeRead).reads 0).map Ongoing.result =
      some (some [1, 2]) := by decide +kernel
  obtain ⟨r, hr, hb⟩ := Option.map_eq_some_iff.mp hread
  have hfair : AllMeet (step prefixPrims .node) (Fair prefixPrims .node) start wholeRead :=
    ⟨pushing_fair, trivial, trivial, trivial, trivial, trivial, trivial, trivial, trivial, trivial, trivial,
      trivial, trivial, trivial, trivial, trivial, trivial, trivial, trivial, trivial⟩
  exact ⟨r, hr, hb, run_exact_iff prefixPrims_restores (Sample.sample_needsTen []) hfair hr hb⟩

theorem addr_a {x : Text} (h : Addr prefixPrims ['a'] x) : x.take 2 = ['6', '1'] := by
  obtain ⟨i, -, j, -, rfl⟩ := h
  rfl

theorem addr_m {x : Text} (h : Addr prefixPrims ['m'] x) : x.take 2 = ['6', 'd'] := by
  obtain ⟨i, -, j, -, rfl⟩ := h
  rfl

theorem halfRead_record {g : Text}
    (hg : (run (step prefixPrims .node) start (wholeRead ++ halfRead)).record g ≠ none) : g = ['a'] := by
  have hsplit : run (step prefixPrims .node) start (wholeRead ++ halfRead) =
      run (step prefixPrims .node) (step prefixPrims .node start (.call [] pushing)) (answers ++ halfRead) :=
    List.foldl_cons ..
  have hquiet : (run (step prefixPrims .node) start (wholeRead ++ halfRead)).record =
      (step prefixPrims .node start (.call [] pushing)).record := by
    rw [hsplit]
    exact run_record_quiet (by decide)
  have hs : stored prefixPrims .node { start.world with script := [] } pushing =
      some (['a'], ['u'], [1, 2]) := by decide +kernel
  rw [hquiet, step_call_record, hs] at hg
  by_contra hne
  exact hg (Function.update_of_ne hne _ _)

theorem packing_fair : Fair prefixPrims .node (run (step prefixPrims .node) start (wholeRead ++ halfRead))
    (.call [] packing) := by
  constructor
  · intro m hm
    cases hm
    refine ⟨?_, fun g hg x hx hx' => ?_⟩
    · by_contra hm
      exact absurd (halfRead_record hm) (by decide)
    rw [halfRead_record hg] at hx'
    have hne := (addr_m hx).symm.trans (addr_a hx')
    exact absurd hne (by decide)
  · intro e he
    rw [List.mem_singleton.mp he]
    have hread : ((run (step prefixPrims .node) start (wholeRead ++ halfRead)).reads 0).map
        (fun r => (r.user, r.file, r.result)) = some (['u'], ['a'], some [1, 2]) := by decide +kernel
    obtain ⟨r, hr, hsame⟩ := Option.map_eq_some_iff.mp hread
    rw [Prod.mk.injEq, Prod.mk.injEq] at hsame
    exact ⟨0, r, hr, hsame⟩

/-- The second read finds the row as it was and the chunk rows gone: it ends well, without bytes. -/
theorem tornRead_empty : ¬ ∀ events,
    AllMeet (step prefixPrims .node) (Fair prefixPrims .node) start events → ∀ k r b,
      (run (step prefixPrims .node) start events).reads k = some r → r.result = some b →
        (run (step prefixPrims .node) start events).record r.file = some (r.user, b) := by
  intro hall
  have hread : ((run (step prefixPrims .node) start tornRead).reads 1).map
      (fun r => (r.user, r.file, r.result)) = some (['u'], ['a'], some []) := by decide +kernel
  obtain ⟨r, hr, hsame⟩ := Option.map_eq_some_iff.mp hread
  rw [Prod.mk.injEq, Prod.mk.injEq] at hsame
  obtain ⟨hu, hf, hb⟩ := hsame
  have hret := hall tornRead
    ⟨pushing_fair, trivial, trivial, trivial, trivial, trivial, trivial, trivial, trivial, trivial, trivial,
      trivial, trivial, trivial, trivial, trivial, trivial, trivial, trivial, trivial, trivial, packing_fair,
      trivial, trivial⟩ 1 r [] hr hb
  have hfile : (run (step prefixPrims .node) start tornRead).record ['a'] = some (['u'], [1, 2]) := by
    decide +kernel
  rw [hf, hu, hfile] at hret
  cases hret

end P2pnas.Node.ConcurrentReads
