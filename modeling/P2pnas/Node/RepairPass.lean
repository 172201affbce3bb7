import P2pnas.Node.Priority
import P2pnas.Node.Queries
import P2pnas.Node.Respread

/-!
# A repair pass over the network (`repair.rs:208-340, 421-488, 546-672`)

The manifest says where each shard lives; this node's disk and the disks of the peers say what is
there. A pass classifies every shard, keeps the most endangered chunks, rebuilds the missing shards
of each from ten that pass their check, and puts them where they are wanted. Peers need not be
honest, answers and acknowledgements get lost, and writes fail, here and at the hosts.
-/

namespace P2pnas.Node.RepairPass
open P2pnas.Lib.Frames P2pnas.Lib.Strings P2pnas.Lib.TopK P2pnas.Core P2pnas.Core.Base P2pnas.Core.Erasure
open P2pnas.Store.Manifest P2pnas.Store.Session P2pnas.Store.Service P2pnas.Node.Peers P2pnas.Node.Repair
open P2pnas.Node.Respread P2pnas.Node.Priority P2pnas.Node.Scrub P2pnas.Node.Queries P2pnas.Node.Download
open P2pnas.Store.Written

/-! ### The network -/

/-- A chunk with its shard rows, as `pull_plan` lists them. -/
structure Item where
  chunk : ChunkRow
  rows : List ShardRow
  deriving DecidableEq, Repr

structure Net where
  items : List Item
  store : ChunkStore
  hosts : Text → ChunkStore

/-- What a pass meets: the peers as it has probed them, and what becomes of each request. An honest
peer answers from its disk and acknowledges only what it has stored; its disk may fail it too. -/
structure Env where
  view : PeerView
  down : List Text
  known : List Text
  scrub : ScrubPlan
  honest : Text → Bool
  answersAudit : Text → Text → Bool
  answersFetch : Text → Text → Bool
  audit : Text → Text → Option Text
  serve : Text → Text → Option Bytes
  takes : Text → Text → Event
  acks : Text → Text → Bool
  writeLocal : Text → Event
  setLocation : Text → Bool

def Net.heldAt (net : Net) (location frag : Text) : Option Bytes :=
  if location = LOCAL then net.store frag else net.hosts location frag

/-- `UPDATE shards SET location = ?2 WHERE fragment_id = ?1`. -/
def Net.setLocation (net : Net) (frag location : Text) : Net :=
  { net with items := net.items.map fun it => { it with rows := it.rows.map fun s =>
      if s.fragmentId = frag then { s with location := location } else s } }

section
variable {K : Type} (P : Prims K) (env : Env)

/-! ### Questions -/

/-- `audit_shard`. -/
def auditAnswer (net : Net) (host frag : Text) : Option Text :=
  if env.honest host then
    if env.answersAudit host frag then some (((readFile (net.hosts host) frag).map (shardHash P)).getD []) else none
  else env.audit host frag

/-- The bytes `fetch_shard` (`repair.rs:607-626`) is handed, before it checks them. -/
def fetchAnswer (net : Net) (s : ShardRow) : Option Bytes :=
  if s.location = LOCAL then readFile net.store s.fragmentId
  else match env.view.reachable.lookup s.location with
    | none => none
    | some _ =>
      if env.honest s.location then
        if env.answersFetch s.location s.fragmentId then readFile (net.hosts s.location) s.fragmentId else none
      else env.serve s.location s.fragmentId

/-- What `classify_shard` learns of each shard. -/
def survey (net : Net) : Survey where
  down := env.down
  known := env.known
  scrub := env.scrub
  intact s := ((readFile net.store s.fragmentId).filter (verifyHash P · s.hash)).isSome
  present := existsFile net.store
  audit s := auditAnswer P env net s.location s.fragmentId

/-- The chunks the sweep finds degraded and repairable. -/
def found (net : Net) : List Degraded :=
  net.items.filterMap fun it => assessChunk (classifyShard env.view (survey P env net)) it.chunk it.rows

/-! ### Placements -/

/-- A peer's disk with these bytes under a fragment. -/
def Net.put (net : Net) (host frag : Text) (bytes : Bytes) : Net :=
  { net with hosts := fun h => if h = host then (net.hosts h).set frag (some bytes) else net.hosts h }

/-- `place_shard` (`repair.rs:646-672`): whether it was acknowledged, and what it has done. A host
whose write breaks off reports the error and keeps the part that was written, as this node does. -/
def placeShard (net : Net) (target frag : Text) (bytes : Bytes) : Bool × Net :=
  if target = LOCAL then
    if isValidFragmentId frag then
      match env.writeLocal frag with
      | .works => (true, { net with store := net.store.set frag (some bytes) })
      | .fails none => (false, net)
      | .fails (some n) => (false, { net with store := net.store.set frag (some (bytes.take n)) })
    else (false, net)
  else match env.view.reachable.lookup target with
    | none => (false, net)
    | some _ =>
      if env.honest target then
        match env.takes target frag with
        | .works => (env.acks target frag, net.put target frag bytes)
        | .fails none => (false, net)
        | .fails (some n) => (false, net.put target frag (bytes.take n))
      else (env.acks target frag, net)

def fragAt (d : Degraded) (i : ℕ) : Text := (d.shardAt[i]?.join.map ShardRow.fragmentId).getD []

/-- One shard is placed, and its row follows when the placement is acknowledged. -/
def placeOne (net : Net) (target frag : Text) (bytes : Bytes) : Bool × Net :=
  let placed := placeShard env net target frag bytes
  if placed.1 && env.setLocation frag then (true, placed.2.setLocation frag target) else placed

/-- The placement loop (`repair.rs:470-486`). -/
def placeAll (d : Degraded) (all : List Bytes) : (Text → ℕ) → List ℕ → Net → Net
  | _, [], net => net
  | locCount, i :: is, net =>
    match all[i]? with
    | none => placeAll d all locCount is net
    | some bytes =>
      let target := chooseTarget locCount env.view
      let placed := placeOne env net target (fragAt d i) bytes
      let locCount' := if placed.1 then
        (fun l => if l = target then locCount l + 1 else locCount l) else locCount
      placeAll d all locCount' is placed.2

def answersFor (net : Net) (d : Degraded) (i : ℕ) : Option Bytes := d.shardAt[i]?.join.bind (fetchAnswer env net)

/-- `repair_chunk` (`repair.rs:421-488`). -/
def repairOne (net : Net) (d : Degraded) : Net :=
  let present := fetchSurvivors P d (answersFor env net d) 0 (List.range TOTAL_SHARDS)
  if present.countP Option.isSome < DATA_SHARDS then net
  else match regenChunkShards P present (asU64 d.chunk.cipherLen) with
    | .ok all => placeAll env d all (keptAt d) d.missing net
    | .error _ => net

/-- Which chunks a pass takes on, and in which order. -/
def taken (heap : Heap) (net : Net) : List Degraded := intoSortedVec heap (pendingOf heap (found P env net)).kept

/-- `repair_all` (`repair.rs:280-318`), the peers being probed. -/
def repairAll (heap : Heap) (net : Net) : Net := (taken P env heap net).foldl (repairOne P env) net

end

/-! ### What the network holds -/

section
variable {K : Type} (P : Prims K) (env : Env) (truth : Text → Option Bytes)

/-- The rows of a chunk are those of an encoding, wherever the shards live by now. -/
structure Coded (it : Item) : Prop where
  encoding : ∃ cipher shards, encode P cipher = .ok shards ∧ asU64 it.chunk.cipherLen = cipher.length ∧
    HashPins P shards ∧ ∀ s ∈ it.rows, ∃ b, shards[asU64 s.shardIndex]? = some b ∧
      truth s.fragmentId = some b ∧ s.hash = shardHash P b
  rows : ∀ s ∈ it.rows, asU64 s.shardIndex < TOTAL_SHARDS ∧ isValidFragmentId s.fragmentId = true ∧ s.hash ≠ []
  indexes : (it.rows.map fun s => asU64 s.shardIndex).Nodup

structure Written (net : Net) : Prop where
  coded : ∀ it ∈ net.items, Coded P truth it
  fragments : (net.items.flatMap fun it => it.rows.map ShardRow.fragmentId).Nodup

/-- The shard lies where its row says. -/
def Sound (net : Net) (s : ShardRow) : Prop := net.heldAt s.location s.fragmentId = truth s.fragmentId

def Trusted (location : Text) : Prop := location = LOCAL ∨ env.honest location = true

/-- The host's own write of the shard would break off part-way. -/
def BreaksOff (location frag : Text) : Prop := ∃ n, env.takes location frag = .fails (some n)

/-- Rows after some of them have been moved. -/
def moveRow (L : Text → Option Text) (s : ShardRow) : ShardRow :=
  { s with location := (L s.fragmentId).getD s.location }

def Item.move (L : Text → Option Text) (it : Item) : Item := { it with rows := it.rows.map (moveRow L) }

/-- Where a pass that began at `net₀` has got to: `tried` are the fragments it has placed or tried to,
`L` the new homes of those whose rows it has changed. -/
structure Under (net₀ : Net) (tried : List Text) (L : Text → Option Text) (net : Net) : Prop where
  items : net.items = net₀.items.map (Item.move L)
  moved : ∀ frag, frag ∉ tried → L frag = none
  untouched : ∀ frag, frag ∉ tried → net.store frag = net₀.store frag ∧ ∀ h, net.hosts h frag = net₀.hosts h frag
  kept : ∀ it ∈ net₀.items, ∀ s ∈ it.rows, L s.fragmentId = none → Trusted env s.location →
    ¬ BreaksOff env s.location s.fragmentId → Sound truth net₀ s → Sound truth net s
  placed : ∀ frag location, L frag = some location → location ∈ locations env.view ∧
    (Trusted env location → net.heldAt location frag = truth frag)

variable {P env truth} {net net₀ : Net} {tried : List Text} {L : Text → Option Text}

theorem Under.start (net₀ : Net) : Under env truth net₀ [] (fun _ => none) net₀ where
  items := by
    have hid : Item.move (fun _ => none) = id := by
      funext it
      have hrow : moveRow (fun _ => none) = id := rfl
      rw [Item.move, hrow, List.map_id]
      rfl
    rw [hid, List.map_id]
  moved _ _ := rfl
  untouched _ _ := ⟨rfl, fun _ => rfl⟩
  kept _ _ _ _ _ _ _ h := h
  placed _ _ h := by cases h

/-- No two rows have one fragment. -/
theorem Written.row_eq (hw : Written P truth net₀) {it it' : Item} {s s' : ShardRow} (hit : it ∈ net₀.items)
    (hs : s ∈ it.rows) (hit' : it' ∈ net₀.items) (hs' : s' ∈ it'.rows) (h : s.fragmentId = s'.fragmentId) : s = s' := by
  have hmap : (net₀.items.flatMap fun it => it.rows.map ShardRow.fragmentId) =
      (net₀.items.flatMap Item.rows).map ShardRow.fragmentId := by rw [List.map_flatMap]
  have hnodup := hw.fragments
  rw [hmap] at hnodup
  exact Lib.Tables.eq_of_key hnodup (List.mem_flatMap.mpr ⟨it, hit, hs⟩) (List.mem_flatMap.mpr ⟨it', hit', hs'⟩) h

/-! ### One placement -/

/-- What a placement can do: nothing to other fragments, and at a peer nothing but store the bytes, or
a part of them where the write breaks off. -/
structure PlaceSpec (env : Env) (net : Net) (target frag : Text) (bytes : Bytes) (r : Bool × Net) : Prop where
  items : r.2.items = net.items
  others : ∀ g, g ≠ frag → r.2.store g = net.store g ∧ ∀ h, r.2.hosts h g = net.hosts h g
  peers : ∀ h, r.2.hosts h frag = net.hosts h frag ∨ r.2.hosts h frag = some bytes ∨ BreaksOff env h frag
  acked : r.1 = true → Trusted env target → r.2.heldAt target frag = some bytes

theorem Net.put_other (net : Net) (host : Text) {frag g : Text} (bytes : Bytes) (hg : g ≠ frag) (h : Text) :
    (net.put host frag bytes).hosts h g = net.hosts h g := by
  rw [Net.put]
  dsimp only
  split
  · exact ChunkStore.set_other _ _ hg
  · rfl

theorem Net.put_same (net : Net) (host frag : Text) (bytes : Bytes) (h : Text) :
    (net.put host frag bytes).hosts h frag = if h = host then some bytes else net.hosts h frag := by
  rw [Net.put]
  dsimp only
  split
  · exact ChunkStore.set_same ..
  · rfl

theorem placeShard_spec (env : Env) (net : Net) (target frag : Text) (bytes : Bytes) :
    PlaceSpec env net target frag bytes (placeShard env net target frag bytes) := by
  have hsame : ∀ r : Bool, (r = true → Trusted env target → net.heldAt target frag = some bytes) →
      PlaceSpec env net target frag bytes (r, net) := fun r hr =>
    ⟨rfl, fun _ _ => ⟨rfl, fun _ => rfl⟩, fun _ => .inl rfl, hr⟩
  unfold placeShard
  by_cases hlocal : target = LOCAL
  · rw [if_pos hlocal]
    split
    · cases env.writeLocal frag with
      | works =>
        refine ⟨rfl, fun g hg => ⟨ChunkStore.set_other _ _ hg, fun _ => rfl⟩, fun _ => .inl rfl, fun _ _ => ?_⟩
        rw [Net.heldAt, if_pos hlocal]
        exact ChunkStore.set_same ..
      | fails k =>
        cases k with
        | none => exact hsame false fun h => by cases h
        | some n =>
          exact ⟨rfl, fun g hg => ⟨ChunkStore.set_other _ _ hg, fun _ => rfl⟩, fun _ => .inl rfl,
            fun h => by cases h⟩
    · exact hsame false fun h => by cases h
  · rw [if_neg hlocal]
    split
    · exact hsame false fun h => by cases h
    · split
      · cases htakes : env.takes target frag with
        | works =>
          refine ⟨rfl, fun g hg => ⟨rfl, net.put_other target bytes hg⟩, fun h => ?_, fun _ _ => ?_⟩
          · rw [Net.put_same]
            split
            · exact .inr (.inl rfl)
            · exact .inl rfl
          · rw [Net.heldAt, if_neg hlocal, Net.put_same, if_pos rfl]
        | fails k =>
          cases k with
          | none => exact hsame false fun h => by cases h
          | some n =>
            refine ⟨rfl, fun g hg => ⟨rfl, net.put_other target _ hg⟩, fun h => ?_, fun h => by cases h⟩
            rw [Net.put_same]
            split
            · next heq =>
              subst heq
              exact .inr (.inr ⟨n, htakes⟩)
            · exact .inl rfl
      · next hliar =>
        refine hsame _ fun _ ht => ?_
        rcases ht with ht | ht
        · exact absurd ht hlocal
        · exact absurd ht hliar

theorem setLocation_move {frag location : Text} (items : List Item) (store : ChunkStore) (hosts : Text → ChunkStore) :
    (Net.setLocation ⟨items.map (Item.move L), store, hosts⟩ frag location).items =
      items.map (Item.move (Function.update L frag (some location))) := by
  have hrow : ∀ s : ShardRow, (if (moveRow L s).fragmentId = frag then { moveRow L s with location := location }
      else moveRow L s) = moveRow (Function.update L frag (some location)) s := by
    intro s
    have hid : (moveRow L s).fragmentId = s.fragmentId := rfl
    by_cases hs : s.fragmentId = frag
    · rw [hid, if_pos hs, moveRow, moveRow, hs, Function.update_self]
      rfl
    · rw [hid, if_neg hs, moveRow, moveRow, Function.update_of_ne hs]
  rw [Net.setLocation]
  dsimp only
  rw [List.map_map]
  refine List.map_congr_left fun it _ => ?_
  simp only [Function.comp, Item.move, List.map_map]
  congr 1
  exact List.map_congr_left fun s _ => hrow s

theorem Net.heldAt_congr {net net' : Net} {frag : Text} (h : net'.store frag = net.store frag)
    (hh : ∀ host, net'.hosts host frag = net.hosts host frag) (location : Text) :
    net'.heldAt location frag = net.heldAt location frag := by
  rw [Net.heldAt, Net.heldAt, h, hh]

/-- A shard is sent, and its row stays as it is. -/
theorem Under.sent (hw : Written P truth net₀) (h : Under env truth net₀ tried L net) {it : Item} {s : ShardRow}
    (hit : it ∈ net₀.items) (hs : s ∈ it.rows) (hnew : s.fragmentId ∉ tried) {bytes : Bytes}
    (hb : truth s.fragmentId = some bytes) (hgone : s.location = LOCAL → ¬ Sound truth net₀ s) {target : Text}
    {r : Bool × Net} (hspec : PlaceSpec env net target s.fragmentId bytes r) :
    Under env truth net₀ (s.fragmentId :: tried) L r.2 := by
  refine ⟨hspec.items.trans h.items, fun g hg => h.moved g fun hin => hg (List.mem_cons_of_mem _ hin),
    fun g hg => ?_, fun it' hit' s' hs' hL htrust hwhole hsound => ?_, fun g loc hg => ?_⟩
  · rw [List.mem_cons, not_or] at hg
    obtain ⟨hne, hold⟩ := hg
    obtain ⟨hstore, hhosts⟩ := hspec.others g hne
    obtain ⟨hstore', hhosts'⟩ := h.untouched g hold
    exact ⟨hstore.trans hstore', fun host => (hhosts host).trans (hhosts' host)⟩
  · have hbefore := h.kept it' hit' s' hs' hL htrust hwhole hsound
    by_cases hsame : s'.fragmentId = s.fragmentId
    · have hrow := hw.row_eq hit' hs' hit hs hsame
      subst hrow
      have hloc : s'.location ≠ LOCAL := fun hl => hgone hl hsound
      rw [Sound, Net.heldAt, if_neg hloc] at hbefore ⊢
      rcases hspec.peers s'.location with heq | heq | hbroken
      · rw [heq, hbefore]
      · rw [heq, hb]
      · exact absurd hbroken hwhole
    · obtain ⟨hstore, hhosts⟩ := hspec.others _ hsame
      rw [Sound, Net.heldAt_congr hstore hhosts]
      exact hbefore
  · have hne : g ≠ s.fragmentId := by
      rintro rfl
      rw [h.moved _ hnew] at hg
      cases hg
    obtain ⟨hin, hheld⟩ := h.placed g loc hg
    obtain ⟨hstore, hhosts⟩ := hspec.others g hne
    exact ⟨hin, fun htr => by rw [Net.heldAt_congr hstore hhosts, hheld htr]⟩

/-- The row of a shard is moved to where its bytes are, if that place can be trusted. -/
theorem Under.relocated {frag target : Text} {bytes : Bytes}
    (h : Under env truth net₀ (frag :: tried) L net) (hb : truth frag = some bytes)
    (ht : target ∈ locations env.view) (hheld : Trusted env target → net.heldAt target frag = some bytes) :
    Under env truth net₀ (frag :: tried) (Function.update L frag (some target)) (net.setLocation frag target) := by
  refine ⟨?_, fun g hg => ?_, h.untouched, fun it' hit' s' hs' hL => ?_, fun g loc hg => ?_⟩
  · have hitems := h.items
    obtain ⟨items, store, hosts⟩ := net
    dsimp only at hitems
    subst hitems
    exact setLocation_move net₀.items store hosts
  · have hstill := h.moved g hg
    rw [List.mem_cons, not_or] at hg
    rw [Function.update_of_ne hg.1]
    exact hstill
  · have hne : s'.fragmentId ≠ frag := by
      intro heq
      rw [heq, Function.update_self] at hL
      cases hL
    rw [Function.update_of_ne hne] at hL
    exact h.kept it' hit' s' hs' hL
  · by_cases hgs : g = frag
    · subst hgs
      rw [Function.update_self] at hg
      cases hg
      exact ⟨ht, fun htr => by rw [hb]; exact hheld htr⟩
    · rw [Function.update_of_ne hgs] at hg
      exact h.placed g loc hg

theorem Under.place (hw : Written P truth net₀) (h : Under env truth net₀ tried L net) {it : Item} {s : ShardRow}
    (hit : it ∈ net₀.items) (hs : s ∈ it.rows) (hnew : s.fragmentId ∉ tried) {bytes : Bytes}
    (hb : truth s.fragmentId = some bytes) (hgone : s.location = LOCAL → ¬ Sound truth net₀ s) {target : Text}
    (ht : target ∈ locations env.view) :
    ∃ L', Under env truth net₀ (s.fragmentId :: tried) L' (placeOne env net target s.fragmentId bytes).2 ∧
      (∀ g, g ≠ s.fragmentId → L' g = L g) ∧
      ((placeShard env net target s.fragmentId bytes).1 = true → env.setLocation s.fragmentId = true →
        L' s.fragmentId = some target) := by
  have hspec := placeShard_spec env net target s.fragmentId bytes
  have hsent := h.sent hw hit hs hnew hb hgone hspec
  generalize hr : placeShard env net target s.fragmentId bytes = r at hspec hsent
  obtain ⟨ok, net₁⟩ := r
  have hone : placeOne env net target s.fragmentId bytes =
      if ok && env.setLocation s.fragmentId then (true, net₁.setLocation s.fragmentId target) else (ok, net₁) := by
    unfold placeOne
    rw [hr]
  rw [hone]
  by_cases hset : (ok && env.setLocation s.fragmentId) = true
  · rw [if_pos hset]
    rw [Bool.and_eq_true] at hset
    exact ⟨_, hsent.relocated hb ht (hspec.acked hset.1), fun g hg => Function.update_of_ne hg _ _,
      fun _ _ => Function.update_self ..⟩
  · rw [if_neg hset]
    refine ⟨L, hsent, fun _ _ => rfl, fun hok hsl => ?_⟩
    dsimp only at hok
    rw [hok, hsl] at hset
    exact absurd rfl hset

/-! ### The shards of a degraded chunk -/

/-- What a sweep found in one chunk of `net₀`. -/
def FoundIn (P : Prims K) (env : Env) (net₀ : Net) (it : Item) (d : Degraded) : Prop :=
  it ∈ net₀.items ∧ assessChunk (classifyShard env.view (survey P env net₀)) it.chunk it.rows = some d

theorem mem_found {d : Degraded} : d ∈ found P env net₀ ↔ ∃ it, FoundIn P env net₀ it d := List.mem_filterMap

/-- The slot of a missing shard has a row, which was not found live. -/
theorem FoundIn.missing {it : Item} {d : Degraded} (h : FoundIn P env net₀ it d) {i : ℕ} (hi : i ∈ d.missing) :
    ∃ s ∈ it.rows, d.shardAt[i]?.join = some s ∧ asU64 s.shardIndex = i ∧ fragAt d i = s.fragmentId ∧
      classifyShard env.view (survey P env net₀) s ≠ .Live := by
  obtain ⟨-, hat, hmissing⟩ := assessChunk_some h.2
  obtain ⟨s, hs⟩ := hmissing i hi
  obtain ⟨hmem, hidx⟩ := indexShards_some hs
  have hassess := h.2
  unfold assessChunk at hassess
  dsimp only at hassess
  split at hassess
  · cases hassess
  · split at hassess
    · cases hassess
    · obtain rfl := Option.some.inj hassess
      refine ⟨s, hmem, hs, hidx, by rw [fragAt, hs]; rfl, fun hlive => ?_⟩
      simp only [planChunk, List.mem_map, List.mem_filter] at hi
      obtain ⟨⟨st, k⟩, ⟨hzip, hst⟩, rfl⟩ := hi
      have hget := List.mem_zipIdx_iff_getElem?.mp hzip
      rw [List.getElem?_map] at hget
      obtain ⟨o, ho, hmap⟩ := Option.map_eq_some_iff.mp hget
      rw [Option.join_eq_some_iff] at hs
      rw [hs] at ho
      obtain rfl := Option.some.inj ho
      rw [Option.map_some, hlive] at hmap
      rw [← hmap] at hst
      simp at hst

/-- This node knows what is on its own disk: a shard of its own that is where it should be is live. -/
theorem live_of_local {it : Item} {s : ShardRow} (hc : Coded P truth it) (hs : s ∈ it.rows) (hlocal : s.location = LOCAL)
    (hsound : Sound truth net₀ s) : classifyShard env.view (survey P env net₀) s = .Live := by
  obtain ⟨-, shards, -, -, -, hrows⟩ := hc.encoding
  obtain ⟨b, -, hb, hhash⟩ := hrows s hs
  have hvalid := (hc.rows s hs).2.1
  rw [Sound, Net.heldAt, if_pos hlocal, hb] at hsound
  have hread : readFile net₀.store s.fragmentId = some b := by rw [readFile, if_pos hvalid, hsound]
  have hintact : (survey P env net₀).intact s = true := by
    simp [survey, hread, verifyHash, hhash]
  have hpresent : (survey P env net₀).present s.fragmentId = true := by
    simp [survey, existsFile, hvalid, hsound]
  rw [classifyShard, if_pos hlocal, hintact, hpresent]
  split <;> rfl

/-- The fragments that a repair of the chunk would place. -/
def missingFrags (d : Degraded) : List Text := d.missing.map (fragAt d)

/-- The fragments of the chunk. -/
def shardFrags (d : Degraded) : List Text := d.shardAt.filterMap (Option.map ShardRow.fragmentId)

theorem mem_shardFrags {d : Degraded} {f : Text} :
    f ∈ shardFrags d ↔ ∃ (i : ℕ) (s : ShardRow), d.shardAt[i]?.join = some s ∧ s.fragmentId = f := by
  rw [shardFrags, List.mem_filterMap]
  constructor
  · rintro ⟨o, ho, hf⟩
    obtain ⟨s, rfl, hs⟩ := Option.map_eq_some_iff.mp hf
    obtain ⟨i, hi⟩ := List.mem_iff_getElem?.mp ho
    exact ⟨i, s, by rw [hi, Option.join_some], hs⟩
  · rintro ⟨i, s, hs, hf⟩
    rw [Option.join_eq_some_iff] at hs
    exact ⟨some s, List.mem_of_getElem? hs, by rw [Option.map_some, hf]⟩

theorem FoundIn.missing_subset {it : Item} {d : Degraded} (h : FoundIn P env net₀ it d) :
    missingFrags d ⊆ shardFrags d := by
  intro f hf
  obtain ⟨i, hi, rfl⟩ := List.mem_map.mp hf
  obtain ⟨s, -, hat, -, hfrag, -⟩ := h.missing hi
  exact mem_shardFrags.mpr ⟨i, s, hat, hfrag.symm⟩

theorem FoundIn.shard_subset {it : Item} {d : Degraded} (h : FoundIn P env net₀ it d) :
    shardFrags d ⊆ it.rows.map ShardRow.fragmentId := by
  intro f hf
  obtain ⟨i, s, hs, rfl⟩ := mem_shardFrags.mp hf
  obtain ⟨-, hat, -⟩ := assessChunk_some h.2
  exact List.mem_map_of_mem (indexShards_some (hat ▸ hs)).1

theorem FoundIn.missing_nodup {it : Item} {d : Degraded} (hw : Written P truth net₀) (h : FoundIn P env net₀ it d) :
    (missingFrags d).Nodup := by
  have hidx : d.missing.Nodup := by
    have hassess := h.2
    unfold assessChunk at hassess
    dsimp only at hassess
    split at hassess
    · cases hassess
    · split at hassess
      · cases hassess
      · obtain rfl := Option.some.inj hassess
        dsimp only [planChunk]
        refine List.Nodup.sublist (List.Sublist.map Prod.snd List.filter_sublist) ?_
        rw [List.zipIdx_map_snd]
        exact List.nodup_range'
  refine List.Nodup.map_on (fun i hi j hj hij => ?_) hidx
  obtain ⟨s, hs, -, rfl, hfrag, -⟩ := h.missing hi
  obtain ⟨t, ht, -, rfl, hfrag', -⟩ := h.missing hj
  have hrow := hw.row_eq h.1 hs h.1 ht (by rw [← hfrag, ← hfrag', hij])
  rw [hrow]

/-- The chunks a sweep finds have no fragment in common. -/
theorem found_disjoint (hw : Written P truth net₀) :
    (found P env net₀).Pairwise fun d d' => List.Disjoint (shardFrags d) (shardFrags d') := by
  have hpair := (List.nodup_flatMap.mp hw.fragments).2
  rw [found, List.pairwise_filterMap]
  refine List.Pairwise.imp_of_mem (fun {it it'} hit hit' hdis d hd d' hd' => ?_) hpair
  have h : FoundIn P env net₀ it d := ⟨hit, hd⟩
  have h' : FoundIn P env net₀ it' d' := ⟨hit', hd'⟩
  exact fun f hf hf' => hdis (h.shard_subset hf) (h'.shard_subset hf')

/-! ### Fetching -/

theorem fetchAnswer_congr {s : ShardRow} (hstore : net.store s.fragmentId = net₀.store s.fragmentId)
    (hhosts : ∀ h, net.hosts h s.fragmentId = net₀.hosts h s.fragmentId) :
    fetchAnswer env net s = fetchAnswer env net₀ s := by
  unfold fetchAnswer readFile
  rw [hstore, hhosts]

/-- A live shard is fetched from where nothing has been placed, so later in the pass it is fetched as
at its beginning. -/
theorem fetchAt_under {d : Degraded} (hu : Under env truth net₀ tried L net)
    (hnew : List.Disjoint (shardFrags d) tried) (i : ℕ) :
    fetchAt P d (answersFor env net d) i = fetchAt P d (answersFor env net₀ d) i := by
  unfold fetchAt
  split
  · cases hrow : d.shardAt[i]?.join with
    | none => rfl
    | some s =>
      obtain ⟨hstore, hhosts⟩ := hu.untouched s.fragmentId fun hin =>
        hnew (mem_shardFrags.mpr ⟨i, s, hrow, rfl⟩) hin
      simp only [Option.bind_some, answersFor, hrow, fetchAnswer_congr hstore hhosts]
  · rfl

theorem fetchSurvivors_congr {d : Degraded} {a a' : ℕ → Option Bytes} (h : ∀ i, fetchAt P d a i = fetchAt P d a' i)
    (got : ℕ) (is : List ℕ) : fetchSurvivors P d a got is = fetchSurvivors P d a' got is := by
  induction is generalizing got with
  | nil => rfl
  | cons i is ih => rw [fetchSurvivors, fetchSurvivors, h i, ih, ih]

/-- Whatever the peers send, a fetch that passes is the shard that was encoded. -/
theorem fetchAt_coded {it : Item} {d : Degraded} (h : FoundIn P env net₀ it d) {shards : List Bytes}
    (hpins : HashPins P shards) (hrows : ∀ s ∈ it.rows, ∃ b, shards[asU64 s.shardIndex]? = some b ∧
      truth s.fragmentId = some b ∧ s.hash = shardHash P b)
    (hhash : ∀ s ∈ it.rows, s.hash ≠ []) {answers : ℕ → Option Bytes} {i : ℕ} {b : Bytes}
    (hb : fetchAt P d answers i = some b) : shards[i]? = some b := by
  obtain ⟨-, hat, -⟩ := assessChunk_some h.2
  unfold fetchAt at hb
  split at hb
  · obtain ⟨s, hs, hb⟩ := Option.bind_eq_some_iff.mp hb
    rw [hat] at hs
    obtain ⟨hmem, rfl⟩ := indexShards_some hs
    obtain ⟨b', hget, -, hsh⟩ := hrows s hmem
    rw [fetchShard, Option.filter_eq_some_iff, verifyHash, Bool.or_eq_true, decide_eq_true_eq] at hb
    have hmatch := hb.2.resolve_left (by simpa using hhash s hmem)
    rw [hget, hpins b' (List.mem_of_getElem? hget) b (hmatch.trans hsh)]
  · cases hb

/-- Ten of the shards found live are fetched and pass their check. -/
def Enough (P : Prims K) (env : Env) (net : Net) (d : Degraded) : Prop :=
  DATA_SHARDS ≤ (List.range TOTAL_SHARDS).countP fun i => (fetchAt P d (answersFor env net d) i).isSome

theorem fetchSurvivors_enough (d : Degraded) (answers : ℕ → Option Bytes) (got : ℕ) (is : List ℕ)
    (h : DATA_SHARDS ≤ got + is.countP fun i => (fetchAt P d answers i).isSome) :
    DATA_SHARDS ≤ got + (fetchSurvivors P d answers got is).countP Option.isSome := by
  induction is generalizing got with
  | nil => simpa [fetchSurvivors] using h
  | cons i is ih =>
    rw [fetchSurvivors]
    split
    · next hfull =>
      rw [List.countP_replicate]
      simpa using hfull
    · cases hf : fetchAt P d answers i with
      | none =>
        simp only [List.countP_cons, hf, Option.isSome_none, Bool.false_eq_true, if_false, Nat.add_zero] at h
        simpa using ih got h
      | some b =>
        simp only [List.countP_cons, hf, Option.isSome_some, if_true] at h
        have hrest := ih (got + 1) (by omega)
        simp only [List.countP_cons, Option.isSome_some, if_true]
        omega

/-! ### Repairing -/

/-- Every peer that answered is honest and answers, and nothing fails. -/
structure Calm (env : Env) : Prop where
  honest : ∀ l addr, env.view.reachable.lookup l = some addr → env.honest l = true
  audits : ∀ h f, env.answersAudit h f = true
  fetches : ∀ h f, env.answersFetch h f = true
  takes : ∀ h f, env.takes h f = .works
  acks : ∀ h f, env.acks h f = true
  writes : ∀ f, env.writeLocal f = .works
  updates : ∀ f, env.setLocation f = true

theorem mem_locations {view : PeerView} {l : Text} (h : l ∈ locations view) :
    l = LOCAL ∨ ∃ addr, view.reachable.lookup l = some addr := by
  rcases List.mem_cons.mp (List.mem_toFinset.mp h) with heq | hin
  · exact .inl heq
  · right
    obtain ⟨⟨id, addr⟩, hmem, rfl⟩ := List.mem_map.mp hin
    cases hl : view.reachable.lookup id with
    | some a => exact ⟨a, rfl⟩
    | none =>
      have hall := List.lookup_eq_none_iff.mp hl _ hmem
      exact absurd rfl (bne_iff_ne.mp hall)

theorem placeShard_calm (hc : Calm env) {target frag : Text} (ht : target ∈ locations env.view)
    (hv : isValidFragmentId frag = true) (bytes : Bytes) : (placeShard env net target frag bytes).1 = true := by
  unfold placeShard
  rcases mem_locations ht with rfl | ⟨addr, haddr⟩
  · rw [if_pos rfl, if_pos hv, hc.writes]
  · by_cases hl : target = LOCAL
    · rw [if_pos hl, if_pos hv, hc.writes]
    · rw [if_neg hl, haddr]
      dsimp only
      rw [if_pos (hc.honest target addr haddr), hc.takes target frag]
      exact hc.acks target frag

/-- What placing some fragments adds to what is known of the pass. -/
structure Advance (env : Env) (truth : Text → Option Bytes) (net₀ : Net) (tried : List Text) (L : Text → Option Text)
    (frags : List Text) (net : Net) (tried' : List Text) (L' : Text → Option Text) : Prop where
  under : Under env truth net₀ tried' L' net
  tried : ∀ f ∈ tried', f ∈ tried ∨ f ∈ frags
  others : ∀ f, f ∉ frags → L' f = L f

theorem Under.placeAll (hw : Written P truth net₀) {it : Item} {d : Degraded} (hd : FoundIn P env net₀ it d)
    {all : List Bytes} (hall : ∀ s ∈ it.rows, ∃ b, all[asU64 s.shardIndex]? = some b ∧ truth s.fragmentId = some b)
    {is : List ℕ} (his : ∀ i ∈ is, i ∈ d.missing) (hnodup : (is.map (fragAt d)).Nodup) (locCount : Text → ℕ)
    (hu : Under env truth net₀ tried L net) (hnew : ∀ i ∈ is, fragAt d i ∉ tried) :
    ∃ tried' L', Advance env truth net₀ tried L (is.map (fragAt d)) (RepairPass.placeAll env d all locCount is net) tried' L' ∧
      (Calm env → ∀ i ∈ is, (L' (fragAt d i)).isSome = true) := by
  induction is generalizing tried L net locCount with
  | nil => exact ⟨tried, L, ⟨hu, fun f hf => .inl hf, fun _ _ => rfl⟩, fun _ i hi => by cases hi⟩
  | cons i is ih =>
    obtain ⟨s, hs, -, rfl, hfrag, hdead⟩ := hd.missing (his _ (List.mem_cons_self ..))
    obtain ⟨b, hb, htruth⟩ := hall s hs
    rw [List.map_cons, List.nodup_cons] at hnodup
    have hgone : s.location = LOCAL → ¬ Sound truth net₀ s := fun hl hsound =>
      hdead (live_of_local (hw.coded it hd.1) hs hl hsound)
    have htarget := (chooseTarget_fair locCount env.view).candidate
    have hfresh := hnew _ (List.mem_cons_self ..)
    rw [hfrag] at hfresh
    obtain ⟨L₁, hu₁, hsame, hmoved⟩ := hu.place hw hd.1 hs hfresh htruth hgone htarget
    have hnew' : ∀ j ∈ is, fragAt d j ∉ s.fragmentId :: tried := by
      intro j hj hin
      rcases List.mem_cons.mp hin with heq | hin
      · refine hnodup.1 ?_
        rw [hfrag, ← heq]
        exact List.mem_map_of_mem hj
      · exact hnew j (List.mem_cons_of_mem _ hj) hin
    obtain ⟨tried', L', hadv, hcalm⟩ := ih (fun j hj => his j (List.mem_cons_of_mem _ hj)) hnodup.2
      (if (placeOne env net (chooseTarget locCount env.view) s.fragmentId b).1 then
        (fun l => if l = chooseTarget locCount env.view then locCount l + 1 else locCount l) else locCount)
      hu₁ hnew'
    rw [RepairPass.placeAll, hb]
    dsimp only
    rw [hfrag]
    refine ⟨tried', L', ⟨hadv.under, fun f hf => ?_, fun f hf => ?_⟩, fun hc j hj => ?_⟩
    · rcases hadv.tried f hf with h | h
      · rcases List.mem_cons.mp h with rfl | h
        · exact .inr (hfrag ▸ List.mem_cons_self ..)
        · exact .inl h
      · exact .inr (List.mem_cons_of_mem _ h)
    · rw [List.map_cons, List.mem_cons, not_or, hfrag] at hf
      rw [hadv.others f hf.2, hsame f hf.1]
    · rcases List.mem_cons.mp hj with rfl | hj
      · have hnot := hnodup.1
        rw [hfrag] at hnot ⊢
        rw [hadv.others _ hnot, hmoved (placeShard_calm hc htarget ((hw.coded it hd.1).rows s hs).2.1 b) (hc.updates _)]
        rfl
      · exact hcalm hc j hj

theorem Under.repairOne (hrs : RsRestores P) (hw : Written P truth net₀) {it : Item} {d : Degraded}
    (hd : FoundIn P env net₀ it d) (hu : Under env truth net₀ tried L net) (hnew : List.Disjoint (shardFrags d) tried) :
    ∃ tried' L', Advance env truth net₀ tried L (missingFrags d) (RepairPass.repairOne P env net d) tried' L' ∧
      (Calm env → Enough P env net₀ d → ∀ i ∈ d.missing, (L' (fragAt d i)).isSome = true) := by
  obtain ⟨cipher, shards, henc, hlen, hpins, hrows⟩ := (hw.coded it hd.1).encoding
  have hhash : ∀ s ∈ it.rows, s.hash ≠ [] := fun s hs => ((hw.coded it hd.1).rows s hs).2.2
  have hheld : Held shards (fetchSurvivors P d (answersFor env net d) 0 (List.range TOTAL_SHARDS)) :=
    fetchSurvivors_held fun i b hb => fetchAt_coded hd hpins hrows hhash hb
  have hchunk : asU64 d.chunk.cipherLen = cipher.length := by rw [(assessChunk_some hd.2).1, hlen]
  unfold RepairPass.repairOne
  dsimp only
  by_cases hfew : (fetchSurvivors P d (answersFor env net d) 0 (List.range TOTAL_SHARDS)).countP Option.isSome <
      DATA_SHARDS
  · rw [if_pos hfew]
    refine ⟨tried, L, ⟨hu, fun f hf => .inl hf, fun _ _ => rfl⟩, fun _ henough => ?_⟩
    have hten := fetchSurvivors_enough d (answersFor env net₀ d) 0 (List.range TOTAL_SHARDS) (by
      rw [Nat.zero_add]
      exact henough)
    rw [fetchSurvivors_congr (fetchAt_under hu hnew)] at hfew
    omega
  · rw [if_neg hfew, hchunk, regenChunkShards_held hrs henc hheld (Nat.le_of_not_lt hfew)]
    obtain ⟨tried', L', hadv, hcalm⟩ := hu.placeAll hw hd
      (fun s hs => by
        obtain ⟨b, hb, ht, -⟩ := hrows s hs
        exact ⟨b, hb, ht⟩)
      (fun i hi => hi) (hd.missing_nodup hw) (keptAt d)
      (fun i hi hin => hnew (hd.missing_subset (List.mem_map_of_mem hi)) hin)
    exact ⟨tried', L', hadv, fun hc _ => hcalm hc⟩

theorem Under.repairs (hrs : RsRestores P) (hw : Written P truth net₀) {ds : List Degraded}
    (hds : ∀ d ∈ ds, ∃ it, FoundIn P env net₀ it d)
    (hdis : ds.Pairwise fun d d' => List.Disjoint (shardFrags d) (shardFrags d'))
    (hu : Under env truth net₀ tried L net) (hnew : ∀ d ∈ ds, List.Disjoint (shardFrags d) tried) :
    ∃ tried' L', Advance env truth net₀ tried L (ds.flatMap missingFrags) (ds.foldl (RepairPass.repairOne P env) net) tried' L' ∧
      (Calm env → ∀ d ∈ ds, Enough P env net₀ d → ∀ i ∈ d.missing, (L' (fragAt d i)).isSome = true) := by
  induction ds generalizing tried L net with
  | nil => exact ⟨tried, L, ⟨hu, fun f hf => .inl hf, fun _ _ => rfl⟩, fun _ d hd => by cases hd⟩
  | cons d ds ih =>
    obtain ⟨it, hd⟩ := hds d (List.mem_cons_self ..)
    rw [List.pairwise_cons] at hdis
    obtain ⟨tried₁, L₁, hadv, hcalm⟩ := hu.repairOne hrs hw hd (hnew d (List.mem_cons_self ..))
    obtain ⟨tried', L', hadv', hcalm'⟩ := ih (fun d' hd' => hds d' (List.mem_cons_of_mem _ hd')) hdis.2 hadv.under
      (fun d' hd' f hf hin => by
        rcases hadv.tried f hin with h | h
        · exact hnew d' (List.mem_cons_of_mem _ hd') hf h
        · exact hdis.1 d' hd' (hd.missing_subset h) hf)
    rw [List.foldl_cons]
    refine ⟨tried', L', ⟨hadv'.under, fun f hf => ?_, fun f hf => ?_⟩, fun hc e he henough i hi => ?_⟩
    · rw [List.flatMap_cons, List.mem_append]
      rcases hadv'.tried f hf with h | h
      · rcases hadv.tried f h with h | h
        · exact .inl h
        · exact .inr (.inl h)
      · exact .inr (.inr h)
    · rw [List.flatMap_cons, List.mem_append, not_or] at hf
      rw [hadv'.others f hf.2, hadv.others f hf.1]
    · rcases List.mem_cons.mp he with rfl | he
      · have hother : fragAt e i ∉ ds.flatMap missingFrags := by
          intro hin
          obtain ⟨d', hd', hf⟩ := List.mem_flatMap.mp hin
          obtain ⟨it', hfound'⟩ := hds d' (List.mem_cons_of_mem _ hd')
          exact hdis.1 d' hd' (hd.missing_subset (List.mem_map_of_mem hi)) (hfound'.missing_subset hf)
        rw [hadv'.others _ hother]
        exact hcalm hc henough i hi
      · exact hcalm' hc e he henough i hi

/-! ### What a pass takes on -/

theorem taken_perm (P : Prims K) (env : Env) (heap : Heap) (net₀ : Net) :
    ∃ deferred, (taken P env heap net₀ ++ deferred).Perm (found P env net₀) ∧
      ((found P env net₀).length ≤ MAX_PENDING_REPAIRS → deferred = []) := by
  obtain ⟨deferred, hkept⟩ := foldl_kept heap MAX_PENDING_REPAIRS (found P env net₀)
  rw [← pushPending_offer, ← pendingOf] at hkept
  obtain ⟨hperm, -⟩ := @drain_sorted _ _ _ _ heap _ (pendingOf heap (found P env net₀)).kept rfl
  refine ⟨deferred, (hperm.append_right deferred).trans hkept.perm, fun hfew => ?_⟩
  have hlen := hkept.perm.length_eq
  rw [List.length_append] at hlen
  by_contra hne
  have hfull := hkept.full hne
  have hpos := List.length_pos_iff.mpr hne
  omega

theorem taken_found {heap : Heap} {d : Degraded} (h : d ∈ taken P env heap net₀) : ∃ it, FoundIn P env net₀ it d := by
  obtain ⟨deferred, hperm, -⟩ := taken_perm P env heap net₀
  exact mem_found.mp (hperm.mem_iff.mp (List.mem_append_left _ h))

theorem taken_disjoint (hw : Written P truth net₀) (heap : Heap) :
    (taken P env heap net₀).Pairwise fun d d' => List.Disjoint (shardFrags d) (shardFrags d') := by
  obtain ⟨deferred, hperm, -⟩ := taken_perm P env heap net₀
  have hall := (hperm.pairwise_iff fun {d d'} (h : List.Disjoint (shardFrags d) (shardFrags d')) => h.symm).mpr
    (found_disjoint hw)
  exact (List.pairwise_append.mp hall).1

theorem pass_under (env : Env) (hrs : RsRestores P) (hw : Written P truth net₀) (heap : Heap) :
    ∃ tried L, Advance env truth net₀ [] (fun _ => none) ((taken P env heap net₀).flatMap missingFrags)
      (repairAll P env heap net₀) tried L ∧
      (Calm env → ∀ d ∈ taken P env heap net₀, Enough P env net₀ d →
        ∀ i ∈ d.missing, (L (fragAt d i)).isSome = true) :=
  (Under.start net₀).repairs hrs hw (fun _ hd => taken_found hd) (taken_disjoint hw heap)
    fun _ _ => List.disjoint_nil_right _

/-- What was found live is not placed. -/
theorem Advance.live_untried (hw : Written P truth net₀) {heap : Heap}
    (h : Advance env truth net₀ [] (fun _ => none) ((taken P env heap net₀).flatMap missingFrags) net tried L)
    {it : Item} {s : ShardRow} (hit : it ∈ net₀.items) (hs : s ∈ it.rows)
    (hlive : classifyShard env.view (survey P env net₀) s = .Live) : s.fragmentId ∉ tried := by
  intro hin
  rcases h.tried _ hin with hin | hin
  · cases hin
  · obtain ⟨d, hd, hf⟩ := List.mem_flatMap.mp hin
    obtain ⟨it', hfound⟩ := taken_found hd
    obtain ⟨i, hi, hfrag⟩ := List.mem_map.mp hf
    obtain ⟨t, ht, -, -, htf, hdead⟩ := hfound.missing hi
    have hrow := hw.row_eq hfound.1 ht hit hs (by rw [← htf, hfrag])
    rw [hrow] at hdead
    exact hdead hlive

theorem Coded.move {it : Item} (h : Coded P truth it) (L : Text → Option Text) : Coded P truth (it.move L) := by
  obtain ⟨cipher, shards, henc, hlen, hpins, hrows⟩ := h.encoding
  refine ⟨⟨cipher, shards, henc, hlen, hpins, fun s hs => ?_⟩, fun s hs => ?_, ?_⟩
  · obtain ⟨r, hr, rfl⟩ := List.mem_map.mp hs
    exact hrows r hr
  · obtain ⟨r, hr, rfl⟩ := List.mem_map.mp hs
    exact h.rows r hr
  · rw [Item.move, List.map_map]
    exact h.indexes

theorem Written.move (hw : Written P truth net₀) (h : net.items = net₀.items.map (Item.move L)) :
    Written P truth net := by
  refine ⟨fun it hit => ?_, ?_⟩
  · rw [h] at hit
    obtain ⟨it₀, hit₀, rfl⟩ := List.mem_map.mp hit
    exact (hw.coded it₀ hit₀).move L
  · have hsame : (net.items.flatMap fun it => it.rows.map ShardRow.fragmentId) =
        net₀.items.flatMap fun it => it.rows.map ShardRow.fragmentId := by
      rw [h, List.flatMap_map]
      refine List.flatMap_congr fun it _ => ?_
      rw [Item.move, List.map_map]
      rfl
    rw [hsame]
    exact hw.fragments

/-- Whatever dishonest peers answer, whichever answers and acknowledgements get lost and whichever
writes fail: a pass only moves rows, to this node or to peers that have answered; and a shard whose
row points to a place that can be trusted is there if the pass has moved it, and if it was there
before. The latter may go wrong at a peer whose shard was not found live: the shard may be placed with
that peer again, and when the write breaks off there, a part of it is left. -/
theorem pass_keeps (hrs : RsRestores P) (env : Env) (hw : Written P truth net₀) (heap : Heap) :
    Written P truth (repairAll P env heap net₀) ∧
    ∃ L, (repairAll P env heap net₀).items = net₀.items.map (Item.move L) ∧
      (∀ frag location, L frag = some location → location ∈ locations env.view) ∧
      ∀ it ∈ net₀.items, ∀ s ∈ it.rows, Trusted env (moveRow L s).location →
        (Sound truth net₀ s ∧ (classifyShard env.view (survey P env net₀) s = .Live ∨
          ¬ BreaksOff env s.location s.fragmentId)) ∨ (L s.fragmentId).isSome = true →
        Sound truth (repairAll P env heap net₀) (moveRow L s) := by
  obtain ⟨tried, L, hadv, -⟩ := pass_under env hrs hw heap
  have hu := hadv.under
  refine ⟨hw.move hu.items, L, hu.items, fun frag loc h => (hu.placed frag loc h).1, fun it hit s hs htrust h => ?_⟩
  cases hL : L s.fragmentId with
  | none =>
    rw [hL] at h
    have hrow : moveRow L s = s := by rw [moveRow, hL]; rfl
    rw [hrow] at htrust ⊢
    obtain ⟨hsound, hwhy⟩ := h.resolve_right (by simp)
    rcases hwhy with hlive | hwhole
    · obtain ⟨hstore, hhosts⟩ := hu.untouched s.fragmentId (hadv.live_untried hw hit hs hlive)
      rw [Sound, Net.heldAt_congr hstore hhosts]
      exact hsound
    · exact hu.kept it hit s hs hL htrust hwhole hsound
  | some loc =>
    have hloc : (moveRow L s).location = loc := by rw [moveRow, hL]; rfl
    rw [hloc] at htrust
    have hheld := (hu.placed _ loc hL).2 htrust
    rw [Sound, hloc]
    exact hheld

/-! ### Files as they were pushed -/

/-- The shards of a pushed file make a coded chunk, wherever they have gone since. -/
theorem coded_of_stored {st : ChunkStore} {f : Text} {c : Pipeline.ProcessedChunk} {rows : List ShardRow}
    (hheld : ShardsHeld P st f c) (henc : encode P c.cipher = .ok c.shards) (hpins : HashPins P c.shards)
    (hrows : Relocated rows (shardRows P f c)) (hhash : ∀ r ∈ rows, r.hash ≠ []) :
    Coded P st ⟨chunkRowFor f c, rows⟩ := by
  refine ⟨⟨c.cipher, c.shards, henc, rfl, hpins, fun s hs => ?_⟩, fun s hs => ?_, ?_⟩
  · obtain ⟨hlt, hfrag, hsh⟩ := relocated_row hrows hs
    have hget : c.shards[asU64 s.shardIndex]? = some (c.shards.getD (asU64 s.shardIndex) []) := by
      rw [List.getD_eq_getElem?_getD, List.getElem?_eq_getElem (Nat.lt_of_lt_of_le hlt hheld.full), Option.getD_some]
    exact ⟨_, hget, by rw [hfrag, hheld.bytes _ hlt, hget], hsh⟩
  · obtain ⟨hlt, hfrag, -⟩ := relocated_row hrows hs
    exact ⟨hlt, by rw [hfrag]; exact hheld.valid _ hlt, hhash s hs⟩
  · have hidx : rows.map (fun s => asU64 s.shardIndex) = List.range TOTAL_SHARDS := by
      have hmap := congrArg (List.map fun s : ShardRow => asU64 s.shardIndex) hrows
      rw [List.map_map, shardRows, List.map_map] at hmap
      refine Eq.trans hmap ?_
      rw [← List.map_id (List.range TOTAL_SHARDS)]
      exact List.map_congr_left fun i _ => asU64_natCast i
    rw [hidx]
    exact List.nodup_range

end

/-! ### The sample file, two shards lost and a peer at hand -/

def sampleItem : Item := ⟨chunkRowFor ['f'] sampleChunk, sampleRows⟩

def sampleNet : Net where
  items := [sampleItem]
  store := (sampleWritten.store.set (fragmentId (Sample.sample sampleKnown) (chunkId ['f'] sampleChunk.index) 0) none).set
    (fragmentId (Sample.sample sampleKnown) (chunkId ['f'] sampleChunk.index) 1) none
  hosts _ _ := none

def sampleEnv : Env where
  view := ⟨[(['p'], ['a'])], []⟩
  down := []
  known := [['p']]
  scrub := ⟨1, 1⟩
  honest _ := true
  answersAudit _ _ := true
  answersFetch _ _ := true
  audit _ _ := none
  serve _ _ := none
  takes _ _ := .works
  acks _ _ := true
  writeLocal _ := .works
  setLocation _ := true

theorem sampleItem_coded : Coded (Sample.sample sampleKnown) sampleWritten.store sampleItem := by
  have hproc : Pipeline.processV2 (Sample.sample sampleKnown) sampleData .node (utf8 ['u']) (utf8 ['f']) {} =
      .ok sampleChunks := rfl
  have hmem : sampleChunk ∈ sampleChunks := by decide +kernel
  have hst := writeChunkRows_stored (Sample.sample sampleKnown) (processV2_sized hproc) (processV2_ordered hproc)
    (by simp [sampleWorld, Db.empty]) sampleWritten_eq
  refine coded_of_stored (hst.held sampleChunk hmem) (processV2_encode hproc sampleChunk hmem)
    (fun s hs b hb => Sample.digestSample_inj (by decide +kernel) (by decide +kernel)
      (List.mem_flatMap.mpr ⟨sampleChunk, hmem, hs⟩) (hexEncode_inj hb)) ?_ (by decide +kernel)
  rw [Relocated]
  decide +kernel

theorem sampleNet_written : Written (Sample.sample sampleKnown) sampleWritten.store sampleNet where
  coded it hit := by
    rw [List.mem_singleton.mp hit]
    exact sampleItem_coded
  fragments := by decide +kernel

theorem pass_keeps_sample : ∃ L,
    (repairAll (Sample.sample sampleKnown) sampleEnv (listHeap Degraded.margin) sampleNet).items =
        sampleNet.items.map (Item.move L) ∧
      ∀ it ∈ sampleNet.items, ∀ s ∈ it.rows, Trusted sampleEnv (moveRow L s).location →
        (Sound sampleWritten.store sampleNet s ∧
          (classifyShard sampleEnv.view (survey (Sample.sample sampleKnown) sampleEnv sampleNet) s = .Live ∨
            ¬ BreaksOff sampleEnv s.location s.fragmentId)) ∨ (L s.fragmentId).isSome = true →
        Sound sampleWritten.store
          (repairAll (Sample.sample sampleKnown) sampleEnv (listHeap Degraded.margin) sampleNet) (moveRow L s) := by
  obtain ⟨L, hitems, -, hkeep⟩ := (pass_keeps (Sample.sample_rs sampleKnown) sampleEnv sampleNet_written
    (listHeap Degraded.margin)).2
  exact ⟨L, hitems, hkeep⟩

end P2pnas.Node.RepairPass
