import P2pnas.Node.Placement
import P2pnas.Store.Crashes
import P2pnas.Store.Removal
import P2pnas.Store.Shifts

/-!
# A distribution next to a deletion (`files.rs:364-435`, `service.rs:255-267`, `379-390`, `1042-1085`)

`distribute_shards` of one file reads its plan statement by statement and then moves every shard in
a task of its own; meanwhile the file is purged, or packed with others. No step fails, and peers do
as they are told. The deletion hands the shards that are recorded at peers to a `gc_remote` job.
-/

namespace P2pnas.Node.Orphans
open P2pnas.Lib.Frames P2pnas.Lib.Strings P2pnas.Lib.Runs P2pnas.Lib.Tables P2pnas.Core.Base
open P2pnas.Core.Erasure P2pnas.Core.Sample P2pnas.Store.Manifest P2pnas.Store.Session
open P2pnas.Store.Service P2pnas.Store.Packing P2pnas.Store.Edits P2pnas.Store.Crashes
open P2pnas.Store.Removal P2pnas.Store.Shifts P2pnas.Node.Peers P2pnas.Node.Placement

/-! ### The parties -/

/-- The reads of `pull_plan`, then the tasks are spawned. -/
inductive Planning where
  | file
  | chunks
  | shards (todo : List ChunkRow) (plan : List (ChunkRow × List ShardRow))
  | spawned
  deriving DecidableEq, Repr

/-- Where the task of one shard is. -/
inductive Stage where
  | read
  | store (bytes : Bytes)
  | record
  | delete
  | ended
  deriving DecidableEq, Repr

structure Move where
  fragmentId : Text
  peerId : Text
  stage : Stage
  deriving DecidableEq, Repr

/-- `purge_file`, or `pack_files` with its entries, the id it mints and the time. -/
inductive Deletion where
  | purge
  | pack (entries : List PackEntry) (packId : Text) (now : Time)

/-- Where the deletion is; `purge_file` runs its statements on their own, `pack_files` in one
transaction. -/
inductive Deleting where
  | start
  | select
  | delete (frags : List RemoteShard)
  | free (todo remote : List RemoteShard)
  | ended
  deriving DecidableEq, Repr

structure State where
  db : Db
  store : ChunkStore
  hosts : Text → Text → Bool
  planning : Planning
  moves : List Move
  deleting : Deleting
  jobs : List RemoteShard

inductive Event where
  | plan
  | move (k : ℕ)
  | delete
  | gc
  deriving DecidableEq, Repr

section
variable {K : Type} (P : Prims K) (key : K) (u f : Text) (layout : List (Option ℕ)) (peers : List PeerRow)
  (d : Deletion)

/-- One task for each shard with a place in the layout; the primary peer takes it. -/
def movesOf (plan : List (ChunkRow × List ShardRow)) : List Move :=
  (plannedShards layout plan).filterMap fun pl =>
    peers[pl.primary % peers.length]?.map fun r => ⟨pl.fragmentId, r.peerId, .read⟩

def State.plan (s : State) : State :=
  match s.planning with
  | .file =>
    match getFile s.db u f with
    | none => { s with planning := .spawned }
    | some _ => { s with planning := .chunks }
  | .chunks => { s with planning := .shards (getChunks s.db f) [] }
  | .shards [] plan => { s with planning := .spawned, moves := movesOf layout peers plan }
  | .shards (c :: cs) plan => { s with planning := .shards cs (plan ++ [(c, getShards s.db c.chunkId)]) }
  | .spawned => s

/-- One peer takes or drops a shard. -/
def State.host (s : State) (peer frag : Text) (held : Bool) : State :=
  { s with hosts := fun p g => if p = peer ∧ g = frag then held else s.hosts p g }

/-- What a step of a task does outside it, and where the task is then. -/
def State.advance (s : State) (m : Move) : State × Stage :=
  match m.stage with
  | .read =>
    match s.store m.fragmentId with
    | none => (s, .ended)
    | some bytes => (s, .store bytes)
  | .store _ => (s.host m.peerId m.fragmentId true, .record)
  | .record => ({ s with db := setShardLocation s.db m.fragmentId m.peerId }, .delete)
  | .delete => ({ s with store := s.store.set m.fragmentId none }, .ended)
  | .ended => (s, .ended)

def State.move (s : State) (k : ℕ) : State :=
  match s.moves[k]? with
  | none => s
  | some m =>
    let r := s.advance m
    { r.1 with moves := s.moves.set k { m with stage := r.2 } }

/-- The transaction of `pack_files` on a node where everything works. -/
def packCommit (entries : List PackEntry) (packId : Text) (now : Time) (db : Db) (st : ChunkStore) :
    Option (List RemoteShard × World) :=
  match buildPack entries with
  | .error _ => none
  | .ok built =>
    match packFilesTx P key u packId entries built.1 built.2 now ⟨db, st, []⟩ with
    | (.ok r, w) => some (r.2.1, w)
    | (.error _, _) => none

def State.delete (s : State) : State :=
  match s.deleting with
  | .start =>
    match d with
    | .purge =>
      match getFile s.db u f with
      | none => s
      | some _ => { s with deleting := .select }
    | .pack entries packId now =>
      match packCommit P key u entries packId now s.db s.store with
      | none => s
      | some (frags, w) => { s with db := w.db, store := w.store, deleting := .free frags [] }
  | .select => { s with deleting := .delete (fragsOf s.db u f) }
  | .delete frags => { s with db := deleteFile s.db u f, deleting := .free frags [] }
  | .free [] remote => { s with jobs := s.jobs ++ remote, deleting := .ended }
  | .free (x :: xs) remote =>
    if x.2 = LOCAL then { s with store := s.store.set x.1 none, deleting := .free xs remote }
    else { s with deleting := .free xs (remote ++ [x]) }
  | .ended => s

/-- The next `DeleteShard` of `run_gc_remote`. -/
def State.gc (s : State) : State :=
  match s.jobs with
  | [] => s
  | (frag, peer) :: jobs => { s.host peer frag false with jobs := jobs }

def step (s : State) : Event → State
  | .plan => s.plan u f layout peers
  | .move k => s.move k
  | .delete => s.delete P key u f d
  | .gc => s.gc

/-! ### The shards of the file, before and after -/

/-- The fragment ids of the file. -/
def former (db : Db) (u f : Text) : List Text := (fragsOf db u f).map Prod.fst

/-- The state before both: every shard is at its recorded location and nowhere else. -/
structure Start (s : State) : Prop where
  planning : s.planning = .file
  moves : s.moves = []
  deleting : s.deleting = .start
  atHome : ∀ x ∈ fragsOf s.db u f, x.2 = LOCAL → ∀ p, s.hosts p x.1 = false
  away : ∀ x ∈ fragsOf s.db u f, x.2 ≠ LOCAL → s.store x.1 = none ∧ ∀ p, s.hosts p x.1 = true → p = x.2
  minted : ∀ entries packId now, d = .pack entries packId now →
    f ∈ entries.map PackEntry.fileId ∧ Unused P {packId} s.db

/-- Both have finished, and so have the jobs. -/
structure Finished (s : State) : Prop where
  planning : s.planning = .spawned
  moves : ∀ m ∈ s.moves, m.stage = .ended
  deleting : s.deleting = .ended
  jobs : s.jobs = []

/-- Nobody holds any of these fragments. -/
def Clean (frags : List Text) (s : State) : Prop :=
  ∀ g ∈ frags, s.store g = none ∧ ∀ p, s.hosts p g = false

/-! ### The condition -/

/-- The locations have been collected. -/
def Deleting.collected : Deleting → Bool
  | .start => false
  | .select => false
  | _ => true

/-- The next step of the deletion collects the locations. -/
def collects (s : State) : Bool :=
  match s.deleting, d with
  | .select, _ => true
  | .start, .pack .. => true
  | _, _ => false

/-- The shard is on its way: read, and not recorded yet. -/
def Stage.onTheWay : Stage → Bool
  | .store _ => true
  | .record => true
  | _ => false

/-- The deletion collects the locations when no shard of the file is on its way, and no shard is
taken up after that while its local file is still there; no peer goes by the name of this node. -/
def Unraced (frags : List Text) (s : State) : Event → Prop
  | .move k => ∀ m ∈ s.moves[k]?, m.fragmentId ∈ frags → m.stage = .read →
      s.store m.fragmentId ≠ none → s.deleting.collected = false ∧ m.peerId ≠ LOCAL
  | .delete => collects d s = true → ∀ m ∈ s.moves, m.fragmentId ∈ frags → m.stage.onTheWay = false
  | _ => True

instance (frags : List Text) (s : State) : ∀ e, Decidable (Unraced d frags s e)
  | .plan => .isTrue trivial
  | .move k => inferInstanceAs (Decidable (∀ m ∈ s.moves[k]?, m.fragmentId ∈ frags → m.stage = .read →
      s.store m.fragmentId ≠ none → s.deleting.collected = false ∧ m.peerId ≠ LOCAL))
  | .delete => inferInstanceAs (Decidable (collects d s = true →
      ∀ m ∈ s.moves, m.fragmentId ∈ frags → m.stage.onTheWay = false))
  | .gc => .isTrue trivial

end

/-! ### Collected locations -/

section
variable {db : Db} {u f : Text}

/-- A recorded move changes the location of one shard of the file. -/
theorem mem_fragsOf_setShardLocation {g l : Text} {x : RemoteShard} (hx : x ∈ fragsOf db u f) :
    (x.1, if x.1 = g then l else x.2) ∈ fragsOf (setShardLocation db g l) u f := by
  obtain ⟨hany, s, hs, hc, rfl⟩ := mem_fragsOf.mp hx
  by_cases hg : s.fragmentId = g
  · rw [if_pos hg]
    exact mem_fragsOf.mpr ⟨hany, { s with location := l },
      mem_update.mpr ⟨s, hs, .inl ⟨decide_eq_true hg, rfl⟩⟩, hc, rfl⟩
  · rw [if_neg hg]
    exact mem_fragsOf.mpr ⟨hany, s, mem_update.mpr ⟨s, hs, .inr ⟨decide_eq_false hg, rfl⟩⟩, hc, rfl⟩

/-- The shards of a file stay when the chunks of another go. -/
theorem mem_fragsOf_deleteChunks {f' : Text} (h : f ≠ f') {x : RemoteShard} (hx : x ∈ fragsOf db u f) :
    x ∈ fragsOf (deleteChunks db u f') u f := by
  obtain ⟨hany, s, hs, ⟨c, hc, hid, hcf⟩, rfl⟩ := mem_fragsOf.mp hx
  have hstays : c ∈ (deleteChunks db u f').chunks := by
    refine List.mem_filter.mpr ⟨hc, ?_⟩
    rw [hcf, decide_eq_false h]
    rfl
  have hshard : s ∈ (deleteChunks db u f').shards :=
    List.mem_filter.mpr ⟨hs, decide_eq_true (List.mem_map.mpr ⟨c, hstays, hid⟩)⟩
  exact mem_fragsOf.mpr ⟨hany, s, hshard, ⟨c, hstays, hid, hcf⟩, rfl⟩

theorem mem_fragsOf_assignToPack {db' : Db} {f' packId : Text} {offset len : ℤ}
    (h : assignToPack db u f' packId offset len = some db') {x : RemoteShard} (hx : x ∈ fragsOf db u f) :
    x ∈ fragsOf db' u f := by
  obtain ⟨hany, s, hs, hc, rfl⟩ := mem_fragsOf.mp hx
  have htab := updateFiles_some h
  have hrows : db'.files.any (isRow u f) = true := by
    rw [htab, ← hany]
    unfold update
    rw [List.any_map]
    congr 1
    funext r
    dsimp only [Function.comp_apply]
    split
    · rfl
    · rfl
  exact mem_fragsOf.mpr ⟨hrows, s, by rw [htab]; exact hs, by rw [htab]; exact hc, rfl⟩

/-- A member gives up its own shards, and another member keeps the shards of the file. -/
theorem packMember_collects {packId : Text} {er : PackEntry × ℕ × ℕ} {r : ℤ × List RemoteShard}
    {w w' : World} (h : packMember u packId er w = (.ok r, w')) {x : RemoteShard}
    (hx : x ∈ fragsOf w.db u f) : x ∈ r.2 ∨ er.1.fileId ≠ f ∧ x ∈ fragsOf w'.db u f := by
  obtain ⟨_, w₁, hq, h₁⟩ := bind_ok h
  obtain ⟨_, hdb₁, -⟩ := query_ok hq
  obtain ⟨row, w₂, ho, h₂⟩ := bind_ok h₁
  obtain ⟨_, rfl⟩ := orThrow_ok ho
  split at h₂
  · cases h₂
  · obtain ⟨frags, w₃, hf, h₃⟩ := bind_ok h₂
    obtain ⟨rfl, hdb₃, -⟩ := query_ok hf
    obtain ⟨_, w₄, hdel, h₄⟩ := bind_ok h₃
    obtain ⟨hdel, -⟩ := stmt_ok hdel
    obtain ⟨_, w₅, hassign, h₅⟩ := bind_ok h₄
    obtain ⟨hassign, -⟩ := stmt_ok hassign
    obtain ⟨rfl, rfl⟩ := pure_ok h₅
    rw [← hdb₁] at hx
    by_cases hf : er.1.fileId = f
    · exact .inl (by rw [hf]; exact hx)
    · refine .inr ⟨hf, ?_⟩
      have hdb₄ : w₄.db = deleteChunks w₂.db u er.1.fileId := by
        rw [hdb₃] at hdel
        exact (Option.some.inj hdel).symm
      refine mem_fragsOf_assignToPack hassign ?_
      rw [hdb₄]
      exact mem_fragsOf_deleteChunks (Ne.symm hf) hx

theorem packMembers_collect {packId : Text} {ers : List (PackEntry × ℕ × ℕ)} {rs : List (ℤ × List RemoteShard)}
    {w w' : World} (h : collect (packMember u packId) ers w = (.ok rs, w')) {x : RemoteShard}
    (hx : x ∈ fragsOf w.db u f) (hf : f ∈ ers.map fun er => er.1.fileId) : x ∈ (rs.map Prod.snd).flatten := by
  induction ers generalizing w rs with
  | nil => cases hf
  | cons er ers ih =>
    obtain ⟨r, w₁, rest, hr, hrest, rfl⟩ := collect_cons_ok h
    rw [List.map_cons, List.flatten_cons]
    rcases packMember_collects hr hx with hmem | ⟨hne, hstill⟩
    · exact List.mem_append_left _ hmem
    · rcases List.mem_cons.mp hf with hhead | htail
      · exact absurd hhead.symm hne
      · exact List.mem_append_right _ (ih hrest hstill htail)

/-- What a pack that commits with `f` among its members did to the shards of `f`. -/
theorem packCommit_some {K : Type} {P : Prims K} {key : K} {entries : List PackEntry} {packId : Text} {now : Time}
    {st : ChunkStore} {frags : List RemoteShard} {w : World} (hf : f ∈ entries.map PackEntry.fileId)
    (hu : Unused P {packId} db) (h : packCommit P key u entries packId now db st = some (frags, w)) :
    (∀ x ∈ fragsOf db u f, x ∈ frags) ∧ (∀ x ∈ fragsOf db u f, w.store x.1 = st x.1) ∧
      ∀ r ∈ w.db.shards, ∀ x ∈ fragsOf db u f, x.1 ≠ r.fragmentId := by
  unfold packCommit at h
  split at h
  · cases h
  · next built hbuilt =>
    split at h
    · next r w' htx =>
      obtain ⟨rfl, rfl⟩ := Prod.mk.inj (Option.some.inj h)
      have hc := packFilesTx_commit hu htx
      have hin : ∀ x ∈ fragsOf db u f, x ∈ r.2.1 := by
        intro x hx
        rw [packFilesTx] at htx
        obtain ⟨freed, w₁, hall, h₁⟩ := bind_ok htx
        obtain ⟨stored, w₂, -, h₂⟩ := bind_ok h₁
        obtain ⟨rfl, -⟩ := pure_ok h₂
        refine packMembers_collect hall hx ?_
        have hlen : entries.length ≤ built.2.length := by
          rw [buildPack_ranges hbuilt, packRanges_length]
        have hfst : (entries.zip built.2).map (fun er => er.1.fileId) = entries.map PackEntry.fileId := by
          have hids := congrArg (List.map PackEntry.fileId) (List.map_fst_zip hlen)
          rwa [List.map_map] at hids
        rw [hfst]
        exact hf
      refine ⟨hin, ?_, fun s hs x hx => hc.freed s hs x (hin x hx)⟩
      intro x hx
      obtain ⟨-, s, hs, -, rfl⟩ := mem_fragsOf.mp hx
      refine hc.store _ ?_
      intro m hm
      exact hu s hs m hm
    · cases h

end

/-! ### One fragment -/

/-- Fragment `g` is recorded at `l`: at this node or at a peer, or on its way to one. -/
structure Placed (s : State) (g l : Text) : Prop where
  host : ∀ p, s.hosts p g = true → (p = l ∧ l ≠ LOCAL) ∨
    l = LOCAL ∧ ∃ m ∈ s.moves, m.fragmentId = g ∧ m.peerId = p ∧ m.stage = .record
  here : s.store g ≠ none → l = LOCAL ∨ ∃ m ∈ s.moves, m.fragmentId = g ∧ m.stage = .delete
  way : ∀ m ∈ s.moves, m.fragmentId = g → m.stage.onTheWay = true → l = LOCAL ∧ m.peerId ≠ LOCAL

/-- The collected shards that the deletion has yet to look at. -/
def State.todo (s : State) : List RemoteShard :=
  match s.deleting with
  | .delete frags => frags
  | .free todo _ => todo
  | _ => []

/-- Those, the ones it set aside for the job and the job. -/
def State.pending (s : State) : List RemoteShard :=
  s.todo ++ (match s.deleting with | .free _ remote => remote | _ => []) ++ s.jobs

/-- The locations have been collected: every copy of fragment `g` is going to be deleted. -/
structure Doomed (s : State) (g : Text) : Prop where
  host : ∀ p, s.hosts p g = true → (g, p) ∈ s.pending ∧ p ≠ LOCAL
  here : s.store g ≠ none → (g, LOCAL) ∈ s.todo ∨ ∃ m ∈ s.moves, m.fragmentId = g ∧ m.stage = .delete
  way : ∀ m ∈ s.moves, m.fragmentId = g → m.stage.onTheWay = false

/-- The rows read so far, and what is left to read: no fragment of the list is planned twice. -/
def Planned (frags : List Text) (home : Text → Text) (moves : List Move) : Planning → Prop
  | .file => moves = []
  | .chunks => moves = []
  | .shards todo plan => moves = [] ∧ (todo.map ChunkRow.chunkId).Nodup ∧
      (∀ r ∈ plan.flatMap Prod.snd, r.fragmentId ∈ frags → r.chunkId = home r.fragmentId ∧
        r.chunkId ∉ todo.map ChunkRow.chunkId) ∧
      (plan.flatMap Prod.snd).Pairwise fun a b => a.fragmentId ∈ frags → a.fragmentId ≠ b.fragmentId
  | .spawned => True

/-- No fragment of the list has two tasks. -/
def Distinct (frags : List Text) (moves : List Move) : Prop :=
  moves.Pairwise fun a b => a.fragmentId ∈ frags → a.fragmentId ≠ b.fragmentId

structure Inv (u f : Text) (frags : List Text) (home : Text → Text) (s : State) : Prop where
  rows : ∀ r ∈ s.db.shards, r.fragmentId ∈ frags → r.chunkId = home r.fragmentId
  planned : Planned frags home s.moves s.planning
  distinct : Distinct frags s.moves
  before : s.deleting.collected = false → ∀ g ∈ frags, ∃ l, (g, l) ∈ fragsOf s.db u f ∧ Placed s g l
  after : s.deleting.collected = true → ∀ g ∈ frags, Doomed s g

section
variable {s s' : State} {u f g l : Text} {frags : List Text} {home : Text → Text}

/-- The tasks of other fragments, the hosts and the store at `g` are what counts. -/
theorem Placed.frame (h : Placed s g l) (hh : ∀ p, s'.hosts p g = true → s.hosts p g = true)
    (hs : s'.store g ≠ none → s.store g ≠ none) (hm : ∀ m, m.fragmentId = g → (m ∈ s'.moves ↔ m ∈ s.moves)) :
    Placed s' g l where
  host := by
    intro p hp
    rcases h.host p (hh p hp) with hl | ⟨hl, m, hmem, hg, hrest⟩
    · exact .inl hl
    · exact .inr ⟨hl, m, (hm m hg).mpr hmem, hg, hrest⟩
  here := by
    intro hn
    rcases h.here (hs hn) with hl | ⟨m, hmem, hg, hd⟩
    · exact .inl hl
    · exact .inr ⟨m, (hm m hg).mpr hmem, hg, hd⟩
  way := by
    intro m hmem hg
    exact h.way m ((hm m hg).mp hmem) hg

theorem Doomed.frame (h : Doomed s g) (hh : ∀ p, s'.hosts p g = true → s.hosts p g = true)
    (hs : s'.store g ≠ none → s.store g ≠ none) (hm : ∀ m, m.fragmentId = g → (m ∈ s'.moves ↔ m ∈ s.moves))
    (hp : ∀ p, s'.hosts p g = true → p ≠ LOCAL → (g, p) ∈ s.pending → (g, p) ∈ s'.pending)
    (ht : s'.store g ≠ none → (g, LOCAL) ∈ s.todo → (g, LOCAL) ∈ s'.todo) : Doomed s' g where
  host := by
    intro p hhost
    obtain ⟨hmem, hne⟩ := h.host p (hh p hhost)
    exact ⟨hp p hhost hne hmem, hne⟩
  here := by
    intro hn
    rcases h.here (hs hn) with hl | ⟨m, hmem, hg, hd⟩
    · exact .inl (ht hn hl)
    · exact .inr ⟨m, (hm m hg).mpr hmem, hg, hd⟩
  way := by
    intro m hmem hg
    exact h.way m ((hm m hg).mp hmem) hg

/-! ### The step of a task -/

theorem mover_alone {moves : List Move} (hd : Distinct frags moves) {k : ℕ} {m x : Move}
    (hk : moves[k]? = some m) (hm : m.fragmentId ∈ frags) (hx : x ∈ moves)
    (hf : x.fragmentId = m.fragmentId) : x = m := by
  obtain ⟨hklt, rfl⟩ := List.getElem?_eq_some_iff.mp hk
  obtain ⟨j, hj, rfl⟩ := List.getElem_of_mem hx
  rcases Nat.lt_trichotomy j k with hlt | rfl | hlt
  · exact absurd hf (List.pairwise_iff_getElem.mp hd j k hj hklt hlt (by rw [hf]; exact hm))
  · rfl
  · exact absurd hf.symm (List.pairwise_iff_getElem.mp hd k j hklt hj hlt hm)

theorem map_set_same {moves : List Move} {k : ℕ} {m m' : Move} (hk : moves[k]? = some m)
    (hm : m'.fragmentId = m.fragmentId) :
    (moves.set k m').map Move.fragmentId = moves.map Move.fragmentId := by
  have hklt := (List.getElem?_eq_some_iff.mp hk).1
  apply List.ext_getElem?
  intro j
  rw [List.getElem?_map, List.getElem?_map, List.getElem?_set]
  by_cases hj : k = j
  · rw [if_pos hj, if_pos hklt, ← hj, hk, Option.map_some, Option.map_some, hm]
  · rw [if_neg hj]

theorem distinct_set {moves : List Move} (hd : Distinct frags moves) {k : ℕ} {m m' : Move}
    (hk : moves[k]? = some m) (hm : m'.fragmentId = m.fragmentId) : Distinct frags (moves.set k m') := by
  have hmap : (moves.map Move.fragmentId).Pairwise fun a b => a ∈ frags → a ≠ b := List.pairwise_map.mpr hd
  rw [← map_set_same hk hm] at hmap
  exact List.pairwise_map.mp hmap

theorem mem_set_other {moves : List Move} {k : ℕ} {m m' x : Move} (hk : moves[k]? = some m)
    (hm : m'.fragmentId = m.fragmentId) (hx : x.fragmentId ≠ m.fragmentId) :
    x ∈ moves.set k m' ↔ x ∈ moves := by
  obtain ⟨hklt, rfl⟩ := List.getElem?_eq_some_iff.mp hk
  constructor
  · intro h
    rcases List.mem_or_eq_of_mem_set h with h | rfl
    · exact h
    · exact absurd hm hx
  · intro h
    obtain ⟨j, hj, rfl⟩ := List.getElem_of_mem h
    have hjk : k ≠ j := by
      rintro rfl
      exact hx rfl
    refine List.mem_iff_getElem.mpr ⟨j, by rw [List.length_set]; exact hj, ?_⟩
    rw [List.getElem_set_ne hjk]

theorem mem_set_self {moves : List Move} {k : ℕ} {m m' : Move} (hk : moves[k]? = some m) :
    m' ∈ moves.set k m' := by
  obtain ⟨hklt, -⟩ := List.getElem?_eq_some_iff.mp hk
  exact List.mem_set hklt m'

/-- The state after the `k`-th task, `m`, took its step. -/
def State.moved (s : State) (k : ℕ) (m : Move) : State :=
  { (s.advance m).1 with moves := s.moves.set k { m with stage := (s.advance m).2 } }

theorem move_eq {k : ℕ} {m : Move} (hk : s.moves[k]? = some m) : s.move k = s.moved k m := by
  simp only [State.move, hk]
  rfl

/-- A task leaves the other fragments alone. -/
theorem advance_other (s : State) {m : Move} (h : g ≠ m.fragmentId) :
    (∀ p, (s.advance m).1.hosts p g = s.hosts p g) ∧ (s.advance m).1.store g = s.store g := by
  unfold State.advance
  cases m.stage with
  | read =>
    dsimp only
    split
    · exact ⟨fun _ => rfl, rfl⟩
    · exact ⟨fun _ => rfl, rfl⟩
  | store bytes =>
    refine ⟨fun p => ?_, rfl⟩
    exact if_neg fun hc => h hc.2
  | record => exact ⟨fun _ => rfl, rfl⟩
  | delete => exact ⟨fun _ => rfl, ChunkStore.set_other _ _ h⟩
  | ended => exact ⟨fun _ => rfl, rfl⟩

theorem advance_rest (s : State) (m : Move) : (s.advance m).1.planning = s.planning ∧
    (s.advance m).1.deleting = s.deleting ∧ (s.advance m).1.jobs = s.jobs := by
  unfold State.advance
  cases m.stage with
  | read =>
    dsimp only
    split
    · exact ⟨rfl, rfl, rfl⟩
    · exact ⟨rfl, rfl, rfl⟩
  | _ => exact ⟨rfl, rfl, rfl⟩

/-- Where the manifest says a shard is after a step of its task. -/
def recordedAt (m : Move) (l : Text) : Text := if m.stage = .record then m.peerId else l

/-- What `Placed` says when `m` is the one task of the fragment. -/
structure PlacedBy (s : State) (l : Text) (m : Move) : Prop where
  host : ∀ p, s.hosts p m.fragmentId = true → (p = l ∧ l ≠ LOCAL) ∨
    l = LOCAL ∧ m.peerId = p ∧ m.stage = .record
  here : s.store m.fragmentId ≠ none → l = LOCAL ∨ m.stage = .delete
  way : m.stage.onTheWay = true → l = LOCAL ∧ m.peerId ≠ LOCAL

theorem placed_iff_by {m : Move} (hin : m ∈ s.moves)
    (hone : ∀ x ∈ s.moves, x.fragmentId = m.fragmentId → x = m) :
    Placed s m.fragmentId l ↔ PlacedBy s l m := by
  constructor
  · intro h
    refine ⟨fun p hp => ?_, fun hn => ?_, h.way m hin rfl⟩
    · rcases h.host p hp with hl | ⟨hl, x, hx, hf, hrest⟩
      · exact .inl hl
      · cases hone x hx hf
        exact .inr ⟨hl, hrest⟩
    · rcases h.here hn with hl | ⟨x, hx, hf, hst⟩
      · exact .inl hl
      · cases hone x hx hf
        exact .inr hst
  · intro h
    refine ⟨fun p hp => ?_, fun hn => ?_, fun x hx hf => ?_⟩
    · exact (h.host p hp).imp_right fun hr => ⟨hr.1, m, hin, rfl, hr.2⟩
    · exact (h.here hn).imp_right fun hst => ⟨m, hin, rfl, hst⟩
    · cases hone x hx hf
      exact h.way

/-- A task moves its own shard along. -/
theorem placedBy_advance {m : Move} (h : PlacedBy s l m)
    (hread : m.stage = .read → s.store m.fragmentId ≠ none → m.peerId ≠ LOCAL) :
    PlacedBy (s.advance m).1 (recordedAt m l) { m with stage := (s.advance m).2 } := by
  obtain ⟨g, peer, stage⟩ := m
  obtain ⟨hhost, hhere, hway⟩ := h
  dsimp only at hhost hhere hway hread
  cases stage with
  | read =>
    have hstays : ∀ p, s.hosts p g = true → p = l ∧ l ≠ LOCAL := by
      intro p hp
      rcases hhost p hp with hl | ⟨-, -, hst⟩
      · exact hl
      · cases hst
    unfold State.advance
    dsimp only
    cases hs : s.store g with
    | none => exact ⟨fun p hp => .inl (hstays p hp), fun hn => absurd hs hn, nofun⟩
    | some bytes =>
      have hsome : s.store g ≠ none := by
        rw [hs]
        exact Option.some_ne_none _
      have hl : l = LOCAL := (hhere hsome).resolve_right nofun
      exact ⟨fun p hp => .inl (hstays p hp), fun _ => .inl hl, fun _ => ⟨hl, hread rfl hsome⟩⟩
  | store bytes =>
    obtain ⟨hl, hpeer⟩ := hway rfl
    refine ⟨fun p hp => ?_, fun _ => .inl hl, fun _ => ⟨hl, hpeer⟩⟩
    by_cases hpp : p = peer
    · exact .inr ⟨hl, hpp.symm, rfl⟩
    · have hold : s.hosts p g = true := by
        have hc : ¬ (p = peer ∧ g = g) := fun hc => hpp hc.1
        change (if p = peer ∧ g = g then true else s.hosts p g) = true at hp
        rwa [if_neg hc] at hp
      rcases hhost p hold with ⟨-, hne⟩ | ⟨-, -, hst⟩
      · exact absurd hl hne
      · cases hst
  | record =>
    obtain ⟨hl, hpeer⟩ := hway rfl
    refine ⟨fun p hp => ?_, fun _ => .inr rfl, nofun⟩
    rcases hhost p hp with ⟨-, hne⟩ | ⟨-, hpp, -⟩
    · exact absurd hl hne
    · exact .inl ⟨hpp.symm, hpeer⟩
  | delete =>
    refine ⟨fun p hp => ?_, fun hn => absurd (ChunkStore.set_same ..) hn, nofun⟩
    rcases hhost p hp with hl | ⟨-, -, hst⟩
    · exact .inl hl
    · cases hst
  | ended =>
    refine ⟨fun p hp => ?_, fun hn => ?_, nofun⟩
    · rcases hhost p hp with hl | ⟨-, -, hst⟩
      · exact .inl hl
      · cases hst
    · exact .inl ((hhere hn).resolve_right nofun)

/-- Once the locations are collected, the task of a doomed fragment brings no copy back. -/
theorem doomed_advance {m : Move} (hin : m ∈ s.moves) (h : Doomed s m.fragmentId)
    (hread : m.stage = .read → s.store m.fragmentId = none) :
    (∀ p, (s.advance m).1.hosts p m.fragmentId = s.hosts p m.fragmentId) ∧
      ((s.advance m).1.store m.fragmentId ≠ none → s.store m.fragmentId ≠ none ∧ m.stage ≠ .delete) ∧
      (s.advance m).2 = .ended := by
  have hway := h.way m hin rfl
  obtain ⟨g, peer, stage⟩ := m
  dsimp only at hread
  cases stage with
  | read =>
    unfold State.advance
    dsimp only
    rw [hread rfl]
    exact ⟨fun _ => rfl, fun hn => absurd (hread rfl) hn, rfl⟩
  | store bytes => cases hway
  | record => cases hway
  | delete => exact ⟨fun _ => rfl, fun hn => absurd (ChunkStore.set_same ..) hn, rfl⟩
  | ended => exact ⟨fun _ => rfl, fun hn => ⟨hn, nofun⟩, rfl⟩

/-- The fragment ids and the chunks of the shard rows stay. -/
theorem advance_rows {m : Move} {r : ShardRow} (hr : r ∈ (s.advance m).1.db.shards) :
    ∃ r₀ ∈ s.db.shards, r₀.fragmentId = r.fragmentId ∧ r₀.chunkId = r.chunkId := by
  unfold State.advance at hr
  obtain ⟨g, peer, stage⟩ := m
  cases stage with
  | read =>
    dsimp only at hr
    split at hr
    · exact ⟨r, hr, rfl, rfl⟩
    · exact ⟨r, hr, rfl, rfl⟩
  | record =>
    obtain ⟨r₀, hr₀, ⟨-, rfl⟩ | ⟨-, rfl⟩⟩ := mem_update.mp hr
    · exact ⟨r₀, hr₀, rfl, rfl⟩
    · exact ⟨r, hr₀, rfl, rfl⟩
  | _ => exact ⟨r, hr, rfl, rfl⟩

theorem advance_fragsOf (m : Move) (h : (g, l) ∈ fragsOf s.db u f) :
    (g, if g = m.fragmentId then recordedAt m l else l) ∈ fragsOf (s.advance m).1.db u f := by
  unfold State.advance recordedAt
  obtain ⟨g', peer, stage⟩ := m
  cases stage with
  | read =>
    dsimp only
    split
    · simpa using h
    · simpa using h
  | record => exact mem_fragsOf_setShardLocation h
  | store bytes => simpa [State.host] using h
  | delete => simpa using h
  | ended => simpa using h

section
variable {k : ℕ} {m : Move}

/-- The tasks after a step of task `k`. -/
theorem moved_self (hk : s.moves[k]? = some m) (st : Stage) :
    (s.moves.set k { m with stage := st })[k]? = some { m with stage := st } := by
  obtain ⟨hklt, -⟩ := List.getElem?_eq_some_iff.mp hk
  rw [List.getElem?_set_self hklt]

/-- While the locations are not collected, a step leaves every fragment where its row and its task say. -/
theorem moved_before (h : Inv u f frags home s) (hk : s.moves[k]? = some m)
    (hok : m.fragmentId ∈ frags → m.stage = .read → s.store m.fragmentId ≠ none → m.peerId ≠ LOCAL)
    (hc : s.deleting.collected = false) (hg : g ∈ frags) :
    ∃ l, (g, l) ∈ fragsOf (s.moved k m).db u f ∧ Placed (s.moved k m) g l := by
  obtain ⟨l, hl, hp⟩ := h.before hc g hg
  have hrec := advance_fragsOf m hl
  by_cases hgm : g = m.fragmentId
  · subst hgm
    rw [if_pos rfl] at hrec
    refine ⟨recordedAt m l, hrec, ?_⟩
    have hby := (placed_iff_by (List.mem_of_getElem? hk)
      fun x hx hf => mover_alone h.distinct hk hg hx hf).mp hp
    have hnew := placedBy_advance hby fun hst hn => hok hg hst hn
    have hd' : Distinct frags (s.moves.set k { m with stage := (s.advance m).2 }) :=
      distinct_set h.distinct hk rfl
    exact (placed_iff_by (s := s.moved k m) (m := { m with stage := (s.advance m).2 }) (mem_set_self hk)
      fun x hx hf => mover_alone hd' (moved_self hk _) hg hx hf).mpr ⟨hnew.host, hnew.here, hnew.way⟩
  · rw [if_neg hgm] at hrec
    obtain ⟨hhosts, hstore⟩ := advance_other s hgm
    exact ⟨l, hrec, hp.frame (fun p hpp => hhosts p ▸ hpp) (fun hn => hstore ▸ hn)
      fun x hx => mem_set_other hk rfl (hx ▸ hgm)⟩

/-- Once they are collected, a step brings no copy back. -/
theorem moved_after (h : Inv u f frags home s) (hk : s.moves[k]? = some m)
    (hread : m.fragmentId ∈ frags → m.stage = .read → s.store m.fragmentId = none)
    (hc : s.deleting.collected = true) (hg : g ∈ frags) : Doomed (s.moved k m) g := by
  obtain ⟨-, hdeleting, hjobs⟩ := advance_rest s m
  have hdoomed := h.after hc g hg
  have htodo : (s.moved k m).todo = s.todo := by
    unfold State.todo State.moved
    dsimp only
    rw [hdeleting]
  have hpending : (s.moved k m).pending = s.pending := by
    unfold State.pending
    rw [htodo]
    unfold State.moved
    dsimp only
    rw [hdeleting, hjobs]
  by_cases hgm : g = m.fragmentId
  · subst hgm
    obtain ⟨hhosts, hstore, hover⟩ := doomed_advance (List.mem_of_getElem? hk) hdoomed (hread hg)
    refine ⟨fun p hp => ?_, fun hn => ?_, fun x hx hf => ?_⟩
    · rw [hpending]
      exact hdoomed.host p (hhosts p ▸ hp)
    · obtain ⟨hs, hnot⟩ := hstore hn
      rw [htodo]
      rcases hdoomed.here hs with hl | ⟨x, hx, hf, hst⟩
      · exact .inl hl
      · cases mover_alone h.distinct hk hg hx hf
        exact absurd hst hnot
    · have hd' : Distinct frags (s.moves.set k { m with stage := (s.advance m).2 }) :=
        distinct_set h.distinct hk rfl
      rw [mover_alone hd' (moved_self hk _) hg hx hf]
      dsimp only
      rw [hover]
      rfl
  · obtain ⟨hhosts, hstore⟩ := advance_other s hgm
    exact hdoomed.frame (fun p hpp => hhosts p ▸ hpp) (fun hn => hstore ▸ hn)
      (fun x hx => mem_set_other hk rfl (hx ▸ hgm)) (fun p _ _ hmem => hpending ▸ hmem)
      fun _ hmem => htodo ▸ hmem

/-- Every step of a task that meets the condition keeps the invariant. -/
theorem move_inv (h : Inv u f frags home s) (hk : s.moves[k]? = some m)
    (hok : m.fragmentId ∈ frags → m.stage = .read → s.store m.fragmentId ≠ none →
      s.deleting.collected = false ∧ m.peerId ≠ LOCAL) : Inv u f frags home (s.moved k m) := by
  obtain ⟨hplanning, hdeleting, -⟩ := advance_rest s m
  refine ⟨?_, ?_, distinct_set h.distinct hk rfl, fun hc g hg => ?_, fun hc g hg => ?_⟩
  · intro r hr hf
    obtain ⟨r₀, hr₀, hid, hchunk⟩ := advance_rows hr
    rw [← hid, ← hchunk]
    exact h.rows r₀ hr₀ (hid ▸ hf)
  · -- a task can only move once all are spawned
    change Planned frags home (s.moves.set k _) (s.advance m).1.planning
    rw [hplanning]
    have hne : s.moves ≠ [] := List.ne_nil_of_mem (List.mem_of_getElem? hk)
    have hp := h.planned
    cases hpl : s.planning with
    | file =>
      rw [hpl] at hp
      exact absurd hp hne
    | chunks =>
      rw [hpl] at hp
      exact absurd hp hne
    | shards todo plan =>
      rw [hpl] at hp
      exact absurd hp.1 hne
    | spawned => trivial
  · exact moved_before h hk (fun hf hst hn => (hok hf hst hn).2) (hdeleting ▸ hc) hg
  · have hc' : s.deleting.collected = true := hdeleting ▸ hc
    refine moved_after h hk (fun hf hst => ?_) hc' hg
    by_contra hn
    rw [(hok hf hst hn).1] at hc'
    cases hc'

end

/-! ### The plan -/

theorem movesOf_stage {layout : List (Option ℕ)} {peers : List PeerRow} {plan : List (ChunkRow × List ShardRow)}
    {m : Move} (hm : m ∈ movesOf layout peers plan) : m.stage = .read := by
  obtain ⟨pl, -, hpl⟩ := List.mem_filterMap.mp hm
  obtain ⟨r, -, rfl⟩ := Option.map_eq_some_iff.mp hpl
  rfl

/-- A task for each row, at most. -/
theorem movesOf_distinct {layout : List (Option ℕ)} {peers : List PeerRow} {plan : List (ChunkRow × List ShardRow)}
    (h : (plan.flatMap Prod.snd).Pairwise fun a b => a.fragmentId ∈ frags → a.fragmentId ≠ b.fragmentId) :
    Distinct frags (movesOf layout peers plan) := by
  unfold Distinct movesOf plannedShards
  rw [List.filterMap_filterMap]
  refine List.pairwise_filterMap.mpr (h.imp ?_)
  intro a b hab m hm m' hm' hmem
  obtain ⟨pl, hpl, hm⟩ := Option.bind_eq_some_iff.mp hm
  obtain ⟨pl', hpl', hm'⟩ := Option.bind_eq_some_iff.mp hm'
  obtain ⟨i, -, rfl⟩ := Option.map_eq_some_iff.mp hpl
  obtain ⟨i', -, rfl⟩ := Option.map_eq_some_iff.mp hpl'
  obtain ⟨r, -, rfl⟩ := Option.map_eq_some_iff.mp hm
  obtain ⟨r', -, rfl⟩ := Option.map_eq_some_iff.mp hm'
  exact hab hmem

theorem getShards_nodup (db : Db) (cid : Text) : ((getShards db cid).map ShardRow.fragmentId).Nodup := by
  have hperm := (List.perm_insertionSort (fun a b : ShardRow => a.shardIndex ≤ b.shardIndex)
    (db.shards.filter fun s => s.chunkId = cid)).map ShardRow.fragmentId
  exact hperm.nodup_iff.mpr (nodup_filter _ db.constraints.shardIds)

theorem getChunks_nodup (db : Db) (f : Text) : ((getChunks db f).map ChunkRow.chunkId).Nodup := by
  have hperm := (List.perm_insertionSort (fun a b : ChunkRow => a.idx ≤ b.idx)
    (db.chunks.filter fun c => c.fileId = f)).map ChunkRow.chunkId
  exact hperm.nodup_iff.mpr (nodup_filter _ db.constraints.chunkIds)

/-- One more chunk is read. -/
theorem planned_next {db : Db} (hrows : ∀ r ∈ db.shards, r.fragmentId ∈ frags → r.chunkId = home r.fragmentId)
    {moves : List Move} {c : ChunkRow} {cs : List ChunkRow} {plan : List (ChunkRow × List ShardRow)}
    (h : Planned frags home moves (.shards (c :: cs) plan)) :
    Planned frags home moves (.shards cs (plan ++ [(c, getShards db c.chunkId)])) := by
  obtain ⟨hmoves, hnodup, hread, hpair⟩ := h
  obtain ⟨hc, hcs⟩ := List.nodup_cons.mp (List.map_cons ▸ hnodup)
  have hflat : (plan ++ [(c, getShards db c.chunkId)]).flatMap Prod.snd =
      plan.flatMap Prod.snd ++ getShards db c.chunkId := by
    rw [List.flatMap_append, List.flatMap_singleton]
  refine ⟨hmoves, hcs, ?_, ?_⟩
  · rw [hflat]
    intro r hr hf
    rcases List.mem_append.mp hr with hr | hr
    · obtain ⟨hhome, hno⟩ := hread r hr hf
      exact ⟨hhome, fun hmem => hno (List.mem_cons_of_mem _ hmem)⟩
    · obtain ⟨hmem, hcid⟩ := mem_getShards.mp hr
      exact ⟨hrows r hmem hf, hcid ▸ hc⟩
  · rw [hflat]
    refine List.pairwise_append.mpr ⟨hpair, ?_, ?_⟩
    · exact (List.pairwise_map.mp (getShards_nodup db c.chunkId)).imp fun {a b} hne (_ : a.fragmentId ∈ frags) => hne
    · intro a ha b hb hf heq
      obtain ⟨hhome, hno⟩ := hread a ha hf
      obtain ⟨hmem, hcid⟩ := mem_getShards.mp hb
      refine hno ?_
      rw [hhome, heq, ← hrows b hmem (heq ▸ hf), hcid]
      exact List.mem_cons_self ..

/-- The tasks spawned have yet to start. -/
theorem plan_inv (h : Inv u f frags home s) (layout : List (Option ℕ)) (peers : List PeerRow) :
    Inv u f frags home (s.plan u f layout peers) := by
  have hsame : ∀ pl, Planned frags home s.moves pl → Inv u f frags home { s with planning := pl } := by
    intro pl hpl
    refine ⟨h.rows, hpl, h.distinct, ?_, ?_⟩
    · intro hc g hg
      obtain ⟨l, hl, hp⟩ := h.before hc g hg
      exact ⟨l, hl, hp.frame (fun _ hpp => hpp) (fun hn => hn) fun _ _ => Iff.rfl⟩
    · intro hc g hg
      exact (h.after hc g hg).frame (fun _ hpp => hpp) (fun hn => hn) (fun _ _ => Iff.rfl)
        (fun _ _ _ hm => hm) fun _ ht => ht
  have hp := h.planned
  unfold State.plan
  cases hpl : s.planning with
  | file =>
    rw [hpl] at hp
    dsimp only
    split
    · exact hsame .spawned trivial
    · exact hsame .chunks hp
  | chunks =>
    rw [hpl] at hp
    refine hsame _ ⟨hp, getChunks_nodup .., ?_, List.Pairwise.nil⟩
    intro r hr
    cases hr
  | shards todo plan =>
    rw [hpl] at hp
    cases todo with
    | cons c cs => exact hsame _ (planned_next h.rows hp)
    | nil =>
      dsimp only
      have hnone : ∀ m, m ∉ s.moves := by
        intro m hm
        rw [hp.1] at hm
        cases hm
      refine ⟨h.rows, trivial, movesOf_distinct hp.2.2.2, ?_, ?_⟩
      · intro hc g hg
        obtain ⟨l, hl, hpl⟩ := h.before hc g hg
        refine ⟨l, hl, fun p hpp => ?_, fun hn => ?_, fun m hm _ hway => ?_⟩
        · rcases hpl.host p hpp with hat | ⟨-, m, hm, -⟩
          · exact .inl hat
          · exact absurd hm (hnone m)
        · rcases hpl.here hn with hl | ⟨m, hm, -⟩
          · exact .inl hl
          · exact absurd hm (hnone m)
        · rw [movesOf_stage hm] at hway
          cases hway
      · intro hc g hg
        have hd := h.after hc g hg
        refine ⟨hd.host, fun hn => ?_, fun m hm _ => ?_⟩
        · rcases hd.here hn with hl | ⟨m, hm, -⟩
          · exact .inl hl
          · exact absurd hm (hnone m)
        · rw [movesOf_stage hm]
          rfl
  | spawned => exact h

/-! ### The steps of the deletion -/

section
variable {K : Type} {P : Prims K} {key : K} {d : Deletion}

/-- Collecting the locations dooms every fragment that is not on its way. -/
theorem Placed.doomed (h : Placed s g l) (hmoves : s'.moves = s.moves) (hhosts : s'.hosts = s.hosts)
    (hstore : s'.store g = s.store g) (htodo : (g, l) ∈ s'.todo)
    (hidle : ∀ m ∈ s.moves, m.fragmentId = g → m.stage.onTheWay = false) : Doomed s' g where
  host := by
    intro p hp
    rw [hhosts] at hp
    rcases h.host p hp with ⟨rfl, hne⟩ | ⟨-, m, hm, hf, -, hst⟩
    · exact ⟨List.mem_append_left _ (List.mem_append_left _ htodo), hne⟩
    · have hway := hidle m hm hf
      rw [hst] at hway
      cases hway
  here := by
    intro hn
    rw [hstore] at hn
    rcases h.here hn with rfl | hm
    · exact .inl htodo
    · rw [hmoves]
      exact .inr hm
  way := by
    rw [hmoves]
    exact hidle

/-- What a step of the deletion leaves of the other invariants. -/
theorem inv_of_doomed (h : Inv u f frags home s) (hmoves : s'.moves = s.moves) (hplanning : s'.planning = s.planning)
    (hrows : ∀ r ∈ s'.db.shards, r ∈ s.db.shards ∨ r.fragmentId ∉ frags) (hc : s'.deleting.collected = true)
    (hd : ∀ g ∈ frags, Doomed s' g) : Inv u f frags home s' where
  rows := by
    intro r hr hf
    rcases hrows r hr with hr | hno
    · exact h.rows r hr hf
    · exact absurd hf hno
  planned := by
    rw [hmoves, hplanning]
    exact h.planned
  distinct := by
    rw [hmoves]
    exact h.distinct
  before := by
    intro hno
    rw [hc] at hno
    cases hno
  after := fun _ => hd

/-- A step that collects the locations while no shard is on its way. -/
theorem inv_of_collected (h : Inv u f frags home s) (hwas : s.deleting.collected = false)
    (hmoves : s'.moves = s.moves) (hplanning : s'.planning = s.planning) (hhosts : s'.hosts = s.hosts)
    (hrows : ∀ r ∈ s'.db.shards, r ∈ s.db.shards ∨ r.fragmentId ∉ frags) (hc : s'.deleting.collected = true)
    (hall : ∀ g l, (g, l) ∈ fragsOf s.db u f → s'.store g = s.store g ∧ (g, l) ∈ s'.todo)
    (hidle : ∀ m ∈ s.moves, m.fragmentId ∈ frags → m.stage.onTheWay = false) : Inv u f frags home s' := by
  refine inv_of_doomed h hmoves hplanning hrows hc fun g hg => ?_
  obtain ⟨l, hl, hp⟩ := h.before hwas g hg
  obtain ⟨hstore, htodo⟩ := hall g l hl
  exact hp.doomed hmoves hhosts hstore htodo fun m hm hmg => hidle m hm (hmg ▸ hg)

/-- A later step of the deletion: nothing comes back, and what it does not delete stays in its hands. -/
theorem inv_of_freed (h : Inv u f frags home s) (hwas : s.deleting.collected = true)
    (hmoves : s'.moves = s.moves) (hplanning : s'.planning = s.planning) (hhosts : s'.hosts = s.hosts)
    (hrows : ∀ r ∈ s'.db.shards, r ∈ s.db.shards) (hc : s'.deleting.collected = true)
    (hstore : ∀ g, s'.store g ≠ none → s.store g ≠ none)
    (hpending : ∀ g p, p ≠ LOCAL → (g, p) ∈ s.pending → (g, p) ∈ s'.pending)
    (htodo : ∀ g, s'.store g ≠ none → (g, LOCAL) ∈ s.todo → (g, LOCAL) ∈ s'.todo) :
    Inv u f frags home s' := by
  refine inv_of_doomed h hmoves hplanning (fun r hr => .inl (hrows r hr)) hc fun g hg => ?_
  exact (h.after hwas g hg).frame (fun p hp => hhosts ▸ hp) (hstore g) (fun m _ => by rw [hmoves])
    (fun p _ hne hmem => hpending g p hne hmem) (htodo g)

/-- Until a pack commits its id is unused, and the file is one of its members. -/
def Minted (P : Prims K) (f : Text) (d : Deletion) (s : State) : Prop :=
  ∀ entries packId now, d = .pack entries packId now → s.deleting = .start →
    f ∈ entries.map PackEntry.fileId ∧ Unused P {packId} s.db

theorem Minted.mono (h : Minted P f d s) (hdel : s'.deleting = .start → s.deleting = .start)
    (hrows : ∀ r ∈ s'.db.shards, ∃ r₀ ∈ s.db.shards, r₀.fragmentId = r.fragmentId) : Minted P f d s' := by
  intro entries packId now hd hs
  obtain ⟨hf, hu⟩ := h entries packId now hd (hdel hs)
  refine ⟨hf, fun r hr m hm => ?_⟩
  obtain ⟨r₀, hr₀, hid⟩ := hrows r hr
  rw [← hid]
  exact hu r₀ hr₀ m hm

/-- The next `DeleteShard` of the job. -/
theorem gc_inv (h : Inv u f frags home s) : Inv u f frags home s.gc := by
  unfold State.gc
  cases hj : s.jobs with
  | nil => exact h
  | cons x jobs =>
    obtain ⟨frag, peer⟩ := x
    dsimp only
    have hfewer : ∀ p g, (s.host peer frag false).hosts p g = true →
        s.hosts p g = true ∧ ¬ (p = peer ∧ g = frag) := by
      intro p g hp
      change (if p = peer ∧ g = frag then false else s.hosts p g) = true at hp
      split at hp
      · cases hp
      · next hno => exact ⟨hp, hno⟩
    refine ⟨h.rows, h.planned, h.distinct, ?_, ?_⟩
    · intro hc g hg
      obtain ⟨l, hl, hp⟩ := h.before hc g hg
      exact ⟨l, hl, hp.frame (fun p hpp => (hfewer p g hpp).1) (fun hn => hn) fun _ _ => Iff.rfl⟩
    · intro hc g hg
      refine (h.after hc g hg).frame (fun p hpp => (hfewer p g hpp).1) (fun hn => hn) (fun _ _ => Iff.rfl)
        ?_ fun _ ht => ht
      intro p hpp _ hmem
      unfold State.pending at hmem ⊢
      rw [hj] at hmem
      rcases List.mem_append.mp hmem with hmem | hmem
      · exact List.mem_append_left _ hmem
      · rcases List.mem_cons.mp hmem with heq | hmem
        · obtain ⟨hgf, hpf⟩ := Prod.mk.inj heq
          exact absurd ⟨hpf, hgf⟩ (hfewer p g hpp).2
        · exact List.mem_append_right _ hmem

/-- The next shard that the deletion has collected. -/
theorem free_inv (h : Inv u f frags home s) {todo remote : List RemoteShard}
    (hdel : s.deleting = .free todo remote) : Inv u f frags home (s.delete P key u f d) := by
  have hwas : s.deleting.collected = true := by rw [hdel]; rfl
  unfold State.delete
  rw [hdel]
  cases todo with
  | nil =>
    dsimp only
    refine inv_of_freed h hwas rfl rfl rfl (fun r hr => hr) rfl (fun _ hn => hn) ?_ ?_
    · intro g p _ hmem
      simp only [State.pending, State.todo, hdel, List.nil_append, List.mem_append] at hmem ⊢
      exact hmem.symm
    · intro g _ hmem
      simp [State.todo, hdel] at hmem
  | cons x xs =>
    dsimp only
    split
    · next hlocal =>
      have hother : ∀ g, (s.store.set x.1 none) g ≠ none → g ≠ x.1 := by
        rintro g hn rfl
        exact hn (ChunkStore.set_same ..)
      refine inv_of_freed h hwas rfl rfl rfl (fun r hr => hr) rfl ?_ ?_ ?_
      · intro g hn
        change (s.store.set x.1 none) g ≠ none at hn
        rwa [ChunkStore.set_other _ _ (hother g hn)] at hn
      · intro g p hne hmem
        simp only [State.pending, State.todo, hdel, List.cons_append, List.mem_cons] at hmem ⊢
        rcases hmem with rfl | hmem
        · exact absurd hlocal hne
        · exact hmem
      · intro g hn hmem
        simp only [State.todo, hdel, List.mem_cons] at hmem ⊢
        rcases hmem with rfl | hmem
        · exact absurd rfl (hother g hn)
        · exact hmem
    · next hremote =>
      refine inv_of_freed h hwas rfl rfl rfl (fun r hr => hr) rfl (fun _ hn => hn) ?_ ?_
      · intro g p _ hmem
        simp only [State.pending, State.todo, hdel, List.mem_append, List.mem_cons, List.not_mem_nil,
          or_false] at hmem ⊢
        tauto
      · intro g _ hmem
        simp only [State.todo, hdel, List.mem_cons] at hmem ⊢
        rcases hmem with rfl | hmem
        · exact absurd rfl hremote
        · exact hmem

/-- The next statement or file operation of the deletion. -/
theorem delete_inv (h : Inv u f frags home s) (hpack : Minted P f d s)
    (hok : collects d s = true → ∀ m ∈ s.moves, m.fragmentId ∈ frags → m.stage.onTheWay = false) :
    Inv u f frags home (s.delete P key u f d) := by
  cases hdel : s.deleting with
  | start =>
    have hwas : s.deleting.collected = false := by rw [hdel]; rfl
    unfold State.delete
    rw [hdel]
    cases d with
    | purge =>
      dsimp only
      split
      · exact h
      · -- the row was found; nothing is collected yet
        refine ⟨h.rows, h.planned, h.distinct, fun _ g hg => ?_, fun hc => by cases hc⟩
        obtain ⟨l, hl, hp⟩ := h.before hwas g hg
        exact ⟨l, hl, hp.frame (fun _ hpp => hpp) (fun hn => hn) fun _ _ => Iff.rfl⟩
    | pack entries packId now =>
      dsimp only
      split
      · exact h
      · next frags' w hcommit =>
        obtain ⟨hf, hu⟩ := hpack entries packId now rfl hdel
        obtain ⟨hall, hstore, hgone⟩ := packCommit_some hf hu hcommit
        refine inv_of_collected h hwas rfl rfl rfl (fun r hr => .inr fun hrf => ?_) rfl
          (fun g l hl => ⟨hstore _ hl, hall _ hl⟩) (hok (by simp only [collects, hdel]))
        obtain ⟨l, hl, -⟩ := h.before hwas _ hrf
        exact hgone r hr _ hl rfl
  | select =>
    have hwas : s.deleting.collected = false := by rw [hdel]; rfl
    have hidle := hok (by simp only [collects, hdel])
    unfold State.delete
    rw [hdel]
    exact inv_of_collected h hwas rfl rfl rfl (fun r hr => .inl hr) rfl (fun g l hl => ⟨rfl, hl⟩) hidle
  | delete fs =>
    have hwas : s.deleting.collected = true := by rw [hdel]; rfl
    unfold State.delete
    rw [hdel]
    refine inv_of_freed h hwas rfl rfl rfl (fun r hr => (List.mem_filter.mp hr).1) rfl (fun _ hn => hn) ?_ ?_
    · intro g p _ hmem
      simpa [State.pending, State.todo, hdel] using hmem
    · intro g _ hmem
      simpa [State.todo, hdel] using hmem
  | free todo remote => exact free_inv h hdel
  | ended =>
    unfold State.delete
    rw [hdel]
    exact h

theorem step_inv {layout : List (Option ℕ)} {peers : List PeerRow} (h : Inv u f frags home s) (e : Event)
    (hpack : Minted P f d s) (hok : Unraced d frags s e) : Inv u f frags home (step P key u f layout peers d s e) := by
  cases e with
  | plan => exact plan_inv h layout peers
  | move k =>
    cases hk : s.moves[k]? with
    | none =>
      have hsame : s.move k = s := by simp only [State.move, hk]
      change Inv u f frags home (s.move k)
      rw [hsame]
      exact h
    | some m =>
      change Inv u f frags home (s.move k)
      rw [move_eq hk]
      exact move_inv h hk (hok m hk)
  | delete => exact delete_inv h hpack hok
  | gc => exact gc_inv h

theorem step_minted {layout : List (Option ℕ)} {peers : List PeerRow} (h : Minted P f d s) (e : Event) :
    Minted P f d (step P key u f layout peers d s e) := by
  have hself : ∀ r ∈ s.db.shards, ∃ r₀ ∈ s.db.shards, r₀.fragmentId = r.fragmentId := fun r hr => ⟨r, hr, rfl⟩
  cases e with
  | plan =>
    unfold step State.plan
    dsimp only
    split
    · split
      · exact h.mono (fun hs => hs) hself
      · exact h.mono (fun hs => hs) hself
    · exact h.mono (fun hs => hs) hself
    · exact h.mono (fun hs => hs) hself
    · exact h.mono (fun hs => hs) hself
    · exact h
  | move k =>
    unfold step State.move
    dsimp only
    split
    · exact h
    · next m hk =>
      refine h.mono (fun hs => ?_) fun r hr => ?_
      · change (s.advance m).1.deleting = .start at hs
        rwa [(advance_rest s m).2.1] at hs
      · obtain ⟨r₀, hr₀, hid, -⟩ := advance_rows hr
        exact ⟨r₀, hr₀, hid⟩
  | delete =>
    unfold step State.delete
    dsimp only
    split
    · split
      · split
        · exact h
        · exact h.mono nofun hself
      · split
        · exact h
        · intro _ _ _ _ hs
          cases hs
    · exact h.mono nofun hself
    · intro _ _ _ _ hs
      cases hs
    · exact h.mono nofun hself
    · split
      · exact h.mono nofun hself
      · exact h.mono nofun hself
    · exact h
  | gc =>
    unfold step State.gc
    dsimp only
    split
    · exact h
    · exact h.mono (fun hs => hs) hself

/-- A file that starts with its shards in their places starts in the invariant. -/
theorem start_inv (h : Start P u f d s) : ∃ home, Inv u f (former s.db u f) home s ∧ Minted P f d s := by
  classical
  refine ⟨fun g => ((s.db.shards.find? fun r => r.fragmentId = g).map ShardRow.chunkId).getD [], ?_, ?_⟩
  · refine ⟨fun r hr _ => ?_, ?_, ?_, fun _ g hg => ?_, fun hc => ?_⟩
    · have hfind := find?_eq_some s.db.constraints.shardIds (p := fun r' => r'.fragmentId = r.fragmentId) hr
        (by simp) fun r' h => by simpa using h
      rw [hfind]
      rfl
    · rw [h.planning]
      exact h.moves
    · rw [h.moves]
      exact List.Pairwise.nil
    · obtain ⟨x, hx, rfl⟩ := List.mem_map.mp hg
      refine ⟨x.2, hx, fun p hp => ?_, fun hn => ?_, fun m hm => ?_⟩
      · by_cases hl : x.2 = LOCAL
        · rw [h.atHome x hx hl p] at hp
          cases hp
        · exact .inl ⟨(h.away x hx hl).2 p hp, hl⟩
      · by_contra hno
        rw [not_or] at hno
        exact hn (h.away x hx hno.1).1
      · rw [h.moves] at hm
        cases hm
    · rw [h.deleting] at hc
      cases hc
  · intro entries packId now hd _
    exact h.minted entries packId now hd

/-- When no shard is on its way as the locations are collected, and none is taken up from then
on, a finished deletion leaves no copy of the shards anywhere. -/
theorem run_clean {layout : List (Option ℕ)} {peers : List PeerRow} (hstart : Start P u f d s) (es : List Event)
    (hok : AllMeet (step P key u f layout peers d) (Unraced d (former s.db u f)) s es)
    (hend : Finished (run (step P key u f layout peers d) s es)) :
    Clean (former s.db u f) (run (step P key u f layout peers d) s es) := by
  obtain ⟨home, hinv, hminted⟩ := start_inv hstart
  have hrun : Inv u f (former s.db u f) home (run (step P key u f layout peers d) s es) ∧
      Minted P f d (run (step P key u f layout peers d) s es) := by
    refine run_invariant (I := fun s' => Inv u f (former s.db u f) home s' ∧ Minted P f d s') ?_
      ⟨hinv, hminted⟩ hok
    intro s' e h hoke
    exact ⟨step_inv h.1 e h.2 hoke, step_minted h.2 e⟩
  intro g hg
  have hd := hrun.1.after (by rw [hend.deleting]; rfl) g hg
  have hnone : (run (step P key u f layout peers d) s es).pending = [] := by
    simp only [State.pending, State.todo, hend.deleting, hend.jobs, List.append_nil]
  constructor
  · by_contra hn
    rcases hd.here hn with hl | ⟨m, hm, -, hst⟩
    · simp [State.todo, hend.deleting] at hl
    · rw [hend.moves m hm] at hst
      cases hst
  · intro p
    rw [Bool.eq_false_iff]
    intro hp
    have hmem := (hd.host p hp).1
    rw [hnone] at hmem
    cases hmem

end

end

/-! ### One shard, one peer, one purge -/

def oneFile : Db where
  files := [⟨['f'], ['u'], ['p'], 1, 4096, 1, 0, none, none, none, none, 2, none, none, none, none⟩]
  chunks := [⟨['c'], ['f'], 0, [], false, 1, 1, 1⟩]
  shards := [⟨['s'], ['c'], 0, LOCAL, []⟩]
  folders := []
  constraints := by constructor <;> simp

def pushed : State where
  db := oneFile
  store := fun g => if g = ['s'] then some [1] else none
  hosts := fun _ _ => false
  planning := .file
  moves := []
  deleting := .start
  jobs := []

def steps : State → Event → State :=
  step (sample []) .node ['u'] ['f'] [some 0] [⟨['b'], ['x'], [], none, none, 0⟩] .purge

theorem pushed_frags : fragsOf oneFile ['u'] ['f'] = [(['s'], LOCAL)] := by decide +kernel

theorem pushed_start : Start (sample []) ['u'] ['f'] .purge pushed where
  planning := rfl
  moves := rfl
  deleting := rfl
  atHome := fun _ _ _ _ => rfl
  away := by
    intro x hx hne
    change x ∈ fragsOf oneFile ['u'] ['f'] at hx
    rw [pushed_frags] at hx
    rw [List.mem_singleton.mp hx] at hne
    exact absurd rfl hne
  minted := nofun

/-- The four reads and the spawning. -/
def planned : List Event := [.plan, .plan, .plan, .plan]

/-- The shard has moved when the file is purged. -/
def inTurn : List Event :=
  planned ++ [.move 0, .move 0, .move 0, .move 0, .delete, .delete, .delete, .delete, .delete, .gc]

/-- The file is purged while its shard is on its way. -/
def raced : List Event :=
  planned ++ [.move 0, .delete, .delete, .delete, .move 0, .move 0, .move 0, .delete, .delete]

theorem finished_of {s : State} (h : s.planning = .spawned ∧ s.moves.all (fun m => m.stage = .ended) = true ∧
    s.deleting = .ended ∧ s.jobs = []) : Finished s := by
  obtain ⟨hplanning, hmoves, hdeleting, hjobs⟩ := h
  refine ⟨hplanning, fun m hm => ?_, hdeleting, hjobs⟩
  exact of_decide_eq_true (List.all_eq_true.mp hmoves m hm)

theorem inTurn_clean : Clean [['s']] (run steps pushed inTurn) := by
  have hformer : former pushed.db ['u'] ['f'] = [['s']] := by decide +kernel
  have hend : Finished (run steps pushed inTurn) := finished_of (by decide +kernel)
  have hok : AllMeet steps (Unraced .purge (former pushed.db ['u'] ['f'])) pushed inTurn := by decide +kernel
  have hclean : Clean (former pushed.db ['u'] ['f']) (run steps pushed inTurn) :=
    run_clean pushed_start inTurn hok hend
  rwa [hformer] at hclean

/-- The peer keeps the shard of a file that is gone. -/
theorem raced_not_clean : Start (sample []) ['u'] ['f'] .purge pushed ∧ Finished (run steps pushed raced) ∧
    ¬ Clean (former pushed.db ['u'] ['f']) (run steps pushed raced) := by
  refine ⟨pushed_start, finished_of (by decide +kernel), fun h => ?_⟩
  have hformer : former pushed.db ['u'] ['f'] = [['s']] := by decide +kernel
  rw [hformer] at h
  have hheld : (run steps pushed raced).hosts ['b'] ['s'] = true := by decide +kernel
  rw [(h ['s'] (List.mem_singleton.mpr rfl)).2 ['b']] at hheld
  cases hheld

end P2pnas.Node.Orphans
