import Mathlib.Algebra.BigOperators.Group.Finset.Basic
import Mathlib.Algebra.Order.BigOperators.Group.Finset
import P2pnas.Node.Rebalance
import P2pnas.Node.Spread

/-!
# What a rebalance does to the counts of a chunk (`rebalance.rs:80-178`)

A location gives what it holds beyond its target and takes what it lacks, so the number of shards
in the pool and the number of free places are compared: when all shards are within reach they are
equal. This node takes first. A peer whose id is the manifest's name for this node takes for it a
second time, from what the nearer peers have left of the pool.
-/

namespace P2pnas.Node.Convergence
open P2pnas.Lib.Strings P2pnas.Lib.Tables P2pnas.Lib.Tally P2pnas.Core.Erasure P2pnas.Store.Manifest
open P2pnas.Store.Service P2pnas.Node.Peers P2pnas.Node.Placement P2pnas.Node.Repair
open P2pnas.Node.Rebalance P2pnas.Node.Spread

/-- What a pass plans: the peers that answered, near to far, and where the shards of a chunk belong. -/
structure Plan where
  ids : List Text
  reachable : PeerMap Text
  layout : List (Option ℕ)
  distinct : ids.Nodup
  answers : ∀ l, (reachable.lookup l).isSome = true ↔ l ∈ ids
  full : layout.length = TOTAL_SHARDS
  valid : ∀ i, some i ∈ layout → i < ids.length

/-- A chunk's shards, with their locations in the order of the map. -/
structure Chunk extends ChunkShards where
  fragments : (shards.map ShardRow.fragmentId).Nodup
  visited : order.Nodup
  locations : ∀ l, l ∈ order ↔ ∃ s ∈ shards, s.location = l

def Plan.target (pl : Plan) : Text → ℕ := targetCounts pl.layout pl.ids

/-- This node and the peers that answered. -/
def reaches (reachable : PeerMap Text) (l : Text) : Bool := l = LOCAL || (reachable.lookup l).isSome

/-- How many shards a location holds. -/
def held (shards : List ShardRow) (l : Text) : ℕ := shards.countP fun s => s.location = l

/-- What a location holds beyond its target and can give. -/
def excess (pl : Plan) (c : Chunk) (l : Text) : ℕ :=
  if reaches pl.reachable l then held c.shards l - pl.target l else 0

/-- What a location lacks. -/
def shortfall (pl : Plan) (c : Chunk) (l : Text) : ℕ := pl.target l - held c.shards l

/-- The moves the pass tries for a chunk. -/
def chunkMoves (pl : Plan) (c : Chunk) : List (ShardRow × Text) :=
  let d := donors pl.target pl.reachable c.toChunkShards
  takeMoves pl.target d.current (LOCAL :: pl.ids) d.pool

/-- The moves that work, of those that lead elsewhere. -/
def done (pl : Plan) (c : Chunk) (works : ShardRow → Text → Bool) : List (ShardRow × Text) :=
  (chunkMoves pl c).filter fun m => m.1.location ≠ m.2 && works m.1 m.2

/-- `set_location` for a shard that moved. -/
def relocate (rows : List ShardRow) (m : ShardRow × Text) : List ShardRow :=
  update (fun r => r.fragmentId = m.1.fragmentId) (fun r => { r with location := m.2 }) rows

/-- The rows of the chunk after the pass. -/
def rehomed (pl : Plan) (c : Chunk) (works : ShardRow → Text → Bool) : List ShardRow :=
  (done pl c works).foldl relocate c.shards

/-! ### The pool -/

section
variable {target : Text → ℕ} {reachable : PeerMap Text}

/-- What a location gives. -/
def given (target : Text → ℕ) (reachable : PeerMap Text) (current : Text → List ShardRow)
    (l : Text) : List ShardRow :=
  if reaches reachable l then ((current l).drop (target l)).reverse else []

theorem donate_pool (d : Donors) (l : Text) :
    (donate target reachable d l).pool = d.pool ++ given target reachable d.current l := by
  rw [donate, given, reaches]
  split
  · rfl
  · rw [List.append_nil]

theorem donate_current (d : Donors) (x l : Text) : (donate target reachable d x).current l =
    if l = x ∧ reaches reachable l = true then (d.current l).take (target l) else d.current l := by
  rw [donate]
  by_cases hx : reaches reachable x = true
  · rw [reaches] at hx
    rw [if_pos hx]
    by_cases hl : l = x
    · subst hl
      rw [if_pos ⟨rfl, hx⟩]
      exact if_pos rfl
    · rw [if_neg fun h => hl h.1]
      exact if_neg hl
  · rw [reaches] at hx
    rw [if_neg hx, if_neg]
    rintro ⟨rfl, hl⟩
    exact hx hl

theorem foldl_donate {ls : List Text} (hn : ls.Nodup) (d : Donors) :
    (ls.foldl (donate target reachable) d).pool =
        d.pool ++ ls.flatMap (given target reachable d.current) ∧
      ∀ l, (ls.foldl (donate target reachable) d).current l =
        if l ∈ ls ∧ reaches reachable l = true then (d.current l).take (target l)
        else d.current l := by
  induction ls generalizing d with
  | nil => exact ⟨by rw [List.flatMap_nil, List.append_nil]; rfl, fun l => by rw [if_neg (by simp)]; rfl⟩
  | cons x ls ih =>
    obtain ⟨hx, hls⟩ := List.nodup_cons.mp hn
    obtain ⟨hpool, hcurrent⟩ := ih hls (donate target reachable d x)
    rw [List.foldl_cons]
    -- what the others give is what they held before
    have hsame : ∀ l ∈ ls, given target reachable (donate target reachable d x).current l =
        given target reachable d.current l := by
      intro l hl
      have hne : l ≠ x := fun heq => hx (heq ▸ hl)
      have hcurrent : (donate target reachable d x).current l = d.current l := by
        rw [donate_current, if_neg fun h => hne h.1]
      rw [given, given, hcurrent]
    refine ⟨?_, fun l => ?_⟩
    · rw [hpool, donate_pool, List.append_assoc, List.flatMap_cons, List.flatMap_congr hsame]
    · rw [hcurrent, donate_current]
      by_cases hl : l ∈ ls
      · have hne : l ≠ x := fun heq => hx (heq ▸ hl)
        simp [hl, hne]
      · simp [hl]

end

section
variable (pl : Plan) (c : Chunk)

/-- The pool of the chunk and what every location keeps. -/
abbrev pooled : Donors := donors pl.target pl.reachable c.toChunkShards

variable {pl c}

theorem mem_given {current : Text → List ShardRow} {l : Text} {s : ShardRow}
    (h : s ∈ given pl.target pl.reachable current l) : reaches pl.reachable l = true ∧ s ∈ current l := by
  rw [given] at h
  split at h
  · next hreach => exact ⟨hreach, List.mem_of_mem_drop (List.mem_reverse.mp h)⟩
  · cases h

theorem pooled_eq : (pooled pl c).pool = c.order.flatMap
    (given pl.target pl.reachable fun l => c.shards.filter fun s => s.location = l) := by
  obtain ⟨hpool, -⟩ := @foldl_donate pl.target pl.reachable _ c.visited
    ⟨[], fun l => c.shards.filter fun s => s.location = l⟩
  rw [pooled, donors, hpool, List.nil_append]

theorem mem_pooled {s : ShardRow} (h : s ∈ (pooled pl c).pool) :
    s ∈ c.shards ∧ reaches pl.reachable s.location = true := by
  rw [pooled_eq] at h
  obtain ⟨l, -, hs⟩ := List.mem_flatMap.mp h
  obtain ⟨hreach, hin⟩ := mem_given hs
  obtain ⟨hmem, hloc⟩ := List.mem_filter.mp hin
  rw [of_decide_eq_true hloc]
  exact ⟨hmem, hreach⟩

theorem given_length (l : Text) : (given pl.target pl.reachable
    (fun l => c.shards.filter fun s => s.location = l) l).length = excess pl c l := by
  rw [given, excess, held, List.countP_eq_length_filter]
  split
  · rw [List.length_reverse, List.length_drop]
  · rfl

theorem given_count (x l : Text) : (given pl.target pl.reachable
    (fun l => c.shards.filter fun s => s.location = l) x).countP (fun s => s.location = l) =
      if x = l then excess pl c l else 0 := by
  have hall : ∀ s ∈ given pl.target pl.reachable
      (fun l => c.shards.filter fun s => s.location = l) x, s.location = x := by
    intro s hs
    exact of_decide_eq_true (List.mem_filter.mp (mem_given hs).2).2
  by_cases hx : x = l
  · rw [if_pos hx, ← hx, ← given_length]
    exact List.countP_eq_length.mpr fun s hs => decide_eq_true (hall s hs)
  · rw [if_neg hx]
    refine List.countP_eq_zero.mpr fun s hs => ?_
    rw [hall s hs, decide_eq_true_eq]
    exact hx

/-- What the locations of the chunk can give. -/
def spare (pl : Plan) (c : Chunk) : ℕ := (c.order.map (excess pl c)).sum

theorem pooled_length : (pooled pl c).pool.length = spare pl c := by
  rw [pooled_eq, List.length_flatMap, spare]
  exact congrArg List.sum (List.map_congr_left fun l _ => given_length l)

theorem held_zero {l : Text} (h : l ∉ c.order) : held c.shards l = 0 := by
  refine List.countP_eq_zero.mpr fun s hs hl => h ?_
  exact (c.locations l).mpr ⟨s, hs, of_decide_eq_true hl⟩

theorem pooled_count (l : Text) :
    (pooled pl c).pool.countP (fun s => s.location = l) = excess pl c l := by
  have hflat : ∀ ls : List Text, ls.Nodup → (ls.flatMap (given pl.target pl.reachable
      fun l => c.shards.filter fun s => s.location = l)).countP (fun s => s.location = l) =
        if l ∈ ls then excess pl c l else 0 := by
    intro ls hn
    induction ls with
    | nil => rfl
    | cons x ls ih =>
      obtain ⟨hx, hls⟩ := List.nodup_cons.mp hn
      rw [List.flatMap_cons, List.countP_append, given_count, ih hls]
      by_cases hl : x = l
      · subst hl
        simp [hx]
      · simp [hl, Ne.symm hl]
  rw [pooled_eq, hflat _ c.visited]
  split
  · rfl
  · next hl => rw [excess, held_zero hl, Nat.zero_sub, ite_self]

theorem pooled_current (l : Text) :
    pl.target l - ((pooled pl c).current l).length = shortfall pl c l := by
  obtain ⟨-, hcurrent⟩ := @foldl_donate pl.target pl.reachable _ c.visited
    ⟨[], fun l => c.shards.filter fun s => s.location = l⟩
  rw [pooled, donors, hcurrent, shortfall, held, List.countP_eq_length_filter]
  dsimp only
  split
  · rw [List.length_take]
    omega
  · rfl

end

/-! ### The moves -/

section
variable {target : Text → ℕ} {current : Text → List ShardRow}

/-- How many shards the locations `ls` want together. -/
def wanted (target : Text → ℕ) (current : Text → List ShardRow) (ls : List Text) : ℕ :=
  (ls.map fun l => target l - (current l).length).sum

theorem wanted_cons (l : Text) (ls : List Text) : wanted target current (l :: ls) =
    target l - (current l).length + wanted target current ls := by
  rw [wanted, List.map_cons, List.sum_cons, wanted]

theorem takeMoves_fst (ls : List Text) (pool : List ShardRow) :
    (takeMoves target current ls pool).map Prod.fst = pool.reverse.take (wanted target current ls) := by
  induction ls generalizing pool with
  | nil => rfl
  | cons l ls ih =>
    rw [takeMoves, List.map_append, ih, List.map_map, List.reverse_reverse, wanted_cons, List.take_add]
    congr 1
    exact List.map_id _

theorem takeMoves_append (ls ls' : List Text) (pool : List ShardRow) :
    takeMoves target current (ls ++ ls') pool = takeMoves target current ls pool ++
      takeMoves target current ls' (pool.reverse.drop (wanted target current ls)).reverse := by
  induction ls generalizing pool with
  | nil => rw [wanted, List.map_nil, List.sum_nil, List.drop_zero, List.reverse_reverse]; rfl
  | cons l ls ih =>
    rw [List.cons_append, takeMoves, takeMoves, ih, List.append_assoc, List.reverse_reverse, List.drop_drop, wanted_cons]

theorem takeMoves_mem {ls : List Text} {pool : List ShardRow} {m : ShardRow × Text}
    (h : m ∈ takeMoves target current ls pool) :
    m.2 ∈ ls ∧ 0 < target m.2 - (current m.2).length := by
  induction ls generalizing pool with
  | nil => cases h
  | cons l ls ih =>
    rw [takeMoves] at h
    rcases List.mem_append.mp h with h | h
    · obtain ⟨s, hs, rfl⟩ := List.mem_map.mp h
      refine ⟨List.mem_cons_self .., Nat.pos_of_ne_zero fun hzero => ?_⟩
      rw [hzero, List.take_zero] at hs
      cases hs
    · obtain ⟨hin, hpos⟩ := ih h
      exact ⟨List.mem_cons_of_mem l hin, hpos⟩

theorem takeMoves_absent {ls : List Text} {pool : List ShardRow} {l : Text} (h : l ∉ ls) :
    (takeMoves target current ls pool).countP (fun m => m.2 = l) = 0 :=
  List.countP_eq_zero.mpr fun _ hm hl => h (of_decide_eq_true hl ▸ (takeMoves_mem hm).1)

/-- What a location takes when its turn comes after `before`. -/
theorem takeMoves_count {before after' : List Text} {l : Text} (hb : l ∉ before)
    (pool : List ShardRow) :
    (takeMoves target current (before ++ l :: after') pool).countP (fun m => m.2 = l) =
      min (target l - (current l).length) (pool.length - wanted target current before) +
        (takeMoves target current after' (pool.reverse.drop
          (wanted target current before + (target l - (current l).length))).reverse).countP
            (fun m => m.2 = l) := by
  have hall : ∀ (ss : List ShardRow), (ss.map fun s => (s, l)).countP (fun m => m.2 = l) = ss.length := by
    intro ss
    rw [List.countP_map]
    exact (List.countP_eq_length.mpr fun s _ => decide_eq_true rfl)
  rw [takeMoves_append, List.countP_append, takeMoves_absent hb, Nat.zero_add, takeMoves,
    List.countP_append, hall, List.length_take, List.reverse_reverse, List.length_drop,
    List.length_reverse, List.drop_drop]

end

/-! ### The rows after the moves -/

/-- One relocated row. -/
theorem relocate_count {rows : List ShardRow} (hn : (rows.map ShardRow.fragmentId).Nodup)
    {m : ShardRow × Text} (hm : m.1 ∈ rows) (l : Text) :
    held (relocate rows m) l + (if m.1.location = l then 1 else 0) =
      held rows l + if m.2 = l then 1 else 0 := by
  induction rows with
  | nil => cases hm
  | cons r rows ih =>
    obtain ⟨hr, hrows⟩ := List.nodup_cons.mp hn
    have hcons : ∀ (r : ShardRow) (rows : List ShardRow),
        held (r :: rows) l = held rows l + if r.location = l then 1 else 0 := by
      intro r rows
      rw [held, List.countP_cons, held]
      simp only [decide_eq_true_eq]
    rw [relocate, update, List.map_cons, ← update, ← relocate, hcons, hcons]
    rcases List.mem_cons.mp hm with heq | hm
    · have hrest : relocate rows m = rows := by
        rw [relocate, update]
        conv_rhs => rw [← List.map_id rows]
        apply List.map_congr_left
        intro q hq
        rw [if_neg]
        · rfl
        · rw [decide_eq_true_eq, heq]
          intro hid
          exact hr (hid ▸ List.mem_map_of_mem (f := ShardRow.fragmentId) hq)
      rw [hrest, if_pos (decide_eq_true (congrArg ShardRow.fragmentId heq.symm)), heq]
      dsimp only
      omega
    · have hne : ¬ (decide (r.fragmentId = m.1.fragmentId)) = true := by
        rw [decide_eq_true_eq]
        intro hid
        exact hr (hid ▸ List.mem_map_of_mem (f := ShardRow.fragmentId) hm)
      rw [if_neg hne]
      have := ih hrows hm
      omega

theorem foldl_relocate_count {rows : List ShardRow} (hn : (rows.map ShardRow.fragmentId).Nodup)
    {ms : List (ShardRow × Text)} (hms : ∀ m ∈ ms, m.1 ∈ rows)
    (hdistinct : (ms.map fun m => m.1.fragmentId).Nodup) (l : Text) :
    held (ms.foldl relocate rows) l + ms.countP (fun m => m.1.location = l) =
      held rows l + ms.countP fun m => m.2 = l := by
  induction ms generalizing rows with
  | nil => rfl
  | cons m ms ih =>
    obtain ⟨hm, hrest⟩ := List.nodup_cons.mp hdistinct
    have hkeys : (relocate rows m).map ShardRow.fragmentId = rows.map ShardRow.fragmentId := by
      apply update_map ShardRow.fragmentId
      exact fun _ => rfl
    have hkept : ∀ m' ∈ ms, m'.1 ∈ relocate rows m := by
      intro m' hm'
      refine mem_update.mpr ⟨m'.1, hms m' (List.mem_cons_of_mem m hm'), .inr ⟨?_, rfl⟩⟩
      rw [decide_eq_false_iff_not]
      intro hid
      exact hm (List.mem_map.mpr ⟨m', hm', hid⟩)
    have hstep := relocate_count hn (hms m (List.mem_cons_self ..)) l
    have hfold := ih (by rw [hkeys]; exact hn) hkept hrest
    rw [List.foldl_cons, List.countP_cons, List.countP_cons]
    simp only [decide_eq_true_eq]
    omega

/-! ### The counts of a pass -/

section
variable {pl : Plan} {c : Chunk}

theorem reaches_iff {l : Text} : reaches pl.reachable l = true ↔ l ∈ LOCAL :: pl.ids := by
  rw [reaches, Bool.or_eq_true, decide_eq_true_eq, pl.answers, List.mem_cons]

/-- What the locations `ls` lack together. -/
def lacking (pl : Plan) (c : Chunk) (ls : List Text) : ℕ := (ls.map (shortfall pl c)).sum

theorem wanted_eq (ls : List Text) :
    wanted pl.target (pooled pl c).current ls = lacking pl c ls :=
  congrArg List.sum (List.map_congr_left fun l _ => pooled_current l)

theorem chunkMoves_fst : (chunkMoves pl c).map Prod.fst =
    (pooled pl c).pool.reverse.take (lacking pl c (LOCAL :: pl.ids)) := by
  rw [← wanted_eq]
  exact takeMoves_fst _ _

theorem chunkMoves_mem {m : ShardRow × Text} (h : m ∈ chunkMoves pl c) :
    m.1 ∈ c.shards ∧ reaches pl.reachable m.1.location = true ∧ m.1.location ≠ m.2 := by
  have hpool : m.1 ∈ (pooled pl c).pool := by
    have hfst := List.mem_map_of_mem (f := Prod.fst) h
    rw [chunkMoves_fst] at hfst
    exact List.mem_reverse.mp (List.mem_of_mem_take hfst)
  obtain ⟨hshard, hreach⟩ := mem_pooled hpool
  refine ⟨hshard, hreach, fun heq => ?_⟩
  -- a location that gives lacks nothing
  obtain ⟨-, hpos⟩ := takeMoves_mem h
  have hgives : 0 < (pooled pl c).pool.countP (fun s => s.location = m.1.location) :=
    List.countP_pos_iff.mpr ⟨m.1, hpool, decide_eq_true rfl⟩
  change 0 < pl.target m.2 - ((pooled pl c).current m.2).length at hpos
  rw [pooled_current, shortfall, ← heq] at hpos
  rw [pooled_count, excess, if_pos hreach] at hgives
  omega

theorem away_le (l : Text) :
    (chunkMoves pl c).countP (fun m => m.1.location = l) ≤ excess pl c l := by
  have hmap : (chunkMoves pl c).countP (fun m => m.1.location = l) =
      ((chunkMoves pl c).map Prod.fst).countP (fun s => s.location = l) := by
    rw [List.countP_map]
    rfl
  rw [hmap, chunkMoves_fst, ← pooled_count]
  exact (List.take_sublist _ _).countP_le.trans List.countP_reverse.le

theorem fragments_nodup : ((chunkMoves pl c).map fun m => m.1.fragmentId).Nodup := by
  have hshards : c.shards.Nodup := c.fragments.of_map
  have hpool : (pooled pl c).pool.Nodup := by
    rw [pooled_eq]
    refine List.nodup_flatMap.mpr ⟨fun l _ => ?_, ?_⟩
    · rw [given]
      split
      · exact List.nodup_reverse.mpr ((List.drop_sublist _ _).nodup (hshards.filter _))
      · exact List.nodup_nil
    · refine c.visited.imp fun {l l'} hne => ?_
      intro s hs hs'
      have hl := of_decide_eq_true (List.mem_filter.mp (mem_given hs).2).2
      have hl' := of_decide_eq_true (List.mem_filter.mp (mem_given hs').2).2
      exact hne (hl.symm.trans hl')
  have hfst : ((chunkMoves pl c).map Prod.fst).Nodup := by
    rw [chunkMoves_fst]
    exact (List.take_sublist _ _).nodup (List.nodup_reverse.mpr hpool)
  have hmap : (chunkMoves pl c).map (fun m => m.1.fragmentId) =
      ((chunkMoves pl c).map Prod.fst).map ShardRow.fragmentId := by
    rw [List.map_map]
    rfl
  rw [hmap]
  refine hfst.map_on fun s hs s' hs' hid => ?_
  obtain ⟨m, hm, rfl⟩ := List.mem_map.mp hs
  obtain ⟨m', hm', rfl⟩ := List.mem_map.mp hs'
  exact eq_of_key c.fragments (chunkMoves_mem hm).1 (chunkMoves_mem hm').1 hid

theorem rehomed_count (works : ShardRow → Text → Bool) (l : Text) :
    held (rehomed pl c works) l + (done pl c works).countP (fun m => m.1.location = l) =
      held c.shards l + (done pl c works).countP fun m => m.2 = l := by
  refine foldl_relocate_count c.fragments (fun m hm => ?_) ?_ l
  · exact (chunkMoves_mem (List.mem_filter.mp hm).1).1
  · exact (List.filter_sublist.map _).nodup fragments_nodup

theorem done_all : done pl c (fun _ _ => true) = chunkMoves pl c := by
  refine List.filter_eq_self.mpr fun m hm => ?_
  rw [Bool.and_true, decide_eq_true_eq]
  exact (chunkMoves_mem hm).2.2

/-! ### The shards a location takes -/

theorem shards_absent {l : Text} (h : l ∉ LOCAL :: pl.ids) :
    (chunkMoves pl c).countP (fun m => m.2 = l) = 0 := takeMoves_absent h

/-- A peer that is not called like this node takes at most what it lacks. -/
theorem peer_takes_le {l : Text} (hne : l ≠ LOCAL) (hl : l ∈ pl.ids) :
    (chunkMoves pl c).countP (fun m => m.2 = l) ≤ shortfall pl c l := by
  obtain ⟨nearer, farther, hids⟩ := List.append_of_mem hl
  have hn := pl.distinct
  rw [hids, List.nodup_append] at hn
  obtain ⟨-, hfar, hapart⟩ := hn
  have hbefore : l ∉ LOCAL :: nearer := by
    rw [List.mem_cons, not_or]
    exact ⟨hne, fun hin => hapart l hin l (List.mem_cons_self ..) rfl⟩
  have hreceivers : LOCAL :: pl.ids = (LOCAL :: nearer) ++ l :: farther := by rw [hids, List.cons_append]
  rw [chunkMoves]
  rw [hreceivers, takeMoves_count hbefore, takeMoves_absent (List.nodup_cons.mp hfar).1, Nat.add_zero]
  exact (min_le_left _ _).trans (pooled_current l).le

/-- This node takes at most what it lacks, unless a peer is called like it. -/
theorem local_takes_le (h : LOCAL ∉ pl.ids) :
    (chunkMoves pl c).countP (fun m => m.2 = LOCAL) ≤ shortfall pl c LOCAL := by
  have hcount := @takeMoves_count pl.target (pooled pl c).current [] pl.ids LOCAL List.not_mem_nil
    (pooled pl c).pool
  rw [List.nil_append, takeMoves_absent h, Nat.add_zero] at hcount
  rw [chunkMoves]
  rw [hcount]
  exact (min_le_left _ _).trans (pooled_current LOCAL).le

/-- The peers nearer than the one called like this node. -/
def nearer (pl : Plan) : List Text := pl.ids.takeWhile (· ≠ LOCAL)

/-- Where a peer is called like this node, the location takes twice. -/
theorem local_takes (h : LOCAL ∈ pl.ids) :
    (chunkMoves pl c).countP (fun m => m.2 = LOCAL) =
      min (shortfall pl c LOCAL) (spare pl c) +
        min (shortfall pl c LOCAL)
          (spare pl c - (shortfall pl c LOCAL + lacking pl c (nearer pl))) := by
  obtain ⟨near, far, hids⟩ := List.append_of_mem h
  have hn := pl.distinct
  rw [hids, List.nodup_append] at hn
  obtain ⟨-, hfar, hapart⟩ := hn
  have hbefore : LOCAL ∉ near := fun hin => hapart LOCAL hin LOCAL (List.mem_cons_self ..) rfl
  have hnearer : nearer pl = near := by
    rw [nearer, hids, List.takeWhile_append_of_pos, List.takeWhile_cons_of_neg, List.append_nil]
    · simp
    · intro l hl
      rw [decide_eq_true_eq]
      rintro rfl
      exact hbefore hl
  have hfirst := @takeMoves_count pl.target (pooled pl c).current [] (near ++ LOCAL :: far) LOCAL
    List.not_mem_nil (pooled pl c).pool
  rw [List.nil_append, takeMoves_count hbefore, takeMoves_absent (List.nodup_cons.mp hfar).1,
    Nat.add_zero] at hfirst
  rw [chunkMoves]
  rw [hids, hfirst, wanted_eq, wanted_eq, hnearer, pooled_current, List.length_reverse, List.length_drop,
    List.length_reverse, pooled_length]
  have hnil : lacking pl c [] = 0 := rfl
  rw [hnil]
  congr 2
  omega

/-- A peer is not called like this node, or the location lacks nothing, or the nearer locations use
up what there is to give. -/
def Unshadowed (pl : Plan) (c : Chunk) : Prop :=
  LOCAL ∈ pl.ids → 0 < shortfall pl c LOCAL →
    spare pl c ≤ shortfall pl c LOCAL + lacking pl c (nearer pl)

theorem takes_le (h : Unshadowed pl c) (l : Text) :
    (chunkMoves pl c).countP (fun m => m.2 = l) ≤ shortfall pl c l := by
  by_cases hin : l ∈ LOCAL :: pl.ids
  · by_cases hlocal : l = LOCAL
    · subst hlocal
      by_cases hids : LOCAL ∈ pl.ids
      · have htakes := @local_takes pl c hids
        rcases Nat.eq_zero_or_pos (shortfall pl c LOCAL) with hzero | hpos
        · omega
        · have := h hids hpos
          omega
      · exact local_takes_le hids
    · exact peer_takes_le hlocal ((List.mem_cons.mp hin).resolve_left hlocal)
  · rw [shards_absent hin]
    exact Nat.zero_le _

/-! ### Convergence -/

/-- The location an entry of the layout stands for. -/
def place (pl : Plan) : Option ℕ → Text
  | none => LOCAL
  | some i => pl.ids.getD i []

theorem place_mem {o : Option ℕ} (ho : o ∈ pl.layout) : place pl o ∈ LOCAL :: pl.ids := by
  cases o with
  | none => exact List.mem_cons_self ..
  | some i =>
    have hlt := pl.valid i ho
    rw [place, List.getD_eq_getElem?_getD, List.getElem?_eq_getElem hlt, Option.getD_some]
    exact List.mem_cons_of_mem _ (List.getElem_mem hlt)

theorem target_eq (l : Text) : pl.target l = pl.layout.countP fun o => place pl o = l := by
  rw [Plan.target, targetCounts]
  refine List.countP_congr fun o ho => ?_
  cases o with
  | none =>
    rw [place, decide_eq_true_eq, decide_eq_true_eq]
    exact eq_comm
  | some i =>
    have hlt := pl.valid i ho
    simp [place, List.getD_eq_getElem?_getD, List.getElem?_eq_getElem hlt]

/-- The locations of the receivers, each once. -/
def sites (pl : Plan) : Finset Text := (LOCAL :: pl.ids).toFinset

theorem target_sum : ∑ l ∈ sites pl, pl.target l = TOTAL_SHARDS := by
  rw [Finset.sum_congr rfl fun l _ => target_eq l, sum_countP, pl.full]
  exact fun o ho => List.mem_toFinset.mpr (place_mem ho)

theorem target_outside {l : Text} (h : l ∉ LOCAL :: pl.ids) : pl.target l = 0 := by
  rw [target_eq]
  refine List.countP_eq_zero.mpr fun o ho heq => h ?_
  exact of_decide_eq_true heq ▸ place_mem ho

/-- The receivers lack no less than the locations do. -/
theorem sum_shortfall_le : ∑ l ∈ sites pl, shortfall pl c l ≤ lacking pl c (LOCAL :: pl.ids) := by
  have hids : ∑ l ∈ pl.ids.toFinset, shortfall pl c l = lacking pl c pl.ids :=
    List.sum_toFinset _ pl.distinct
  rw [sites, List.toFinset_cons, lacking, List.map_cons, List.sum_cons, ← lacking, ← hids]
  by_cases hlocal : LOCAL ∈ pl.ids.toFinset
  · rw [Finset.insert_eq_of_mem hlocal]
    exact Nat.le_add_left _ _
  · rw [Finset.sum_insert hlocal]

/-- Where all shards are within reach, the pool holds what the locations lack. -/
theorem spare_eq (hreach : ∀ s ∈ c.shards, reaches pl.reachable s.location = true)
    (htotal : c.shards.length = TOTAL_SHARDS) : spare pl c = ∑ l ∈ sites pl, shortfall pl c l := by
  have hsite : ∀ l, reaches pl.reachable l = true ↔ l ∈ sites pl := fun l =>
    reaches_iff.trans List.mem_toFinset.symm
  have hheld : ∑ l ∈ sites pl, held c.shards l = TOTAL_SHARDS := by
    rw [← htotal]
    exact sum_countP ShardRow.location fun s hs => (hsite _).mp (hreach s hs)
  have hpool : spare pl c = ∑ l ∈ sites pl, excess pl c l := by
    rw [← pooled_length, ← sum_countP ShardRow.location fun s hs => (hsite _).mp (mem_pooled hs).2]
    exact Finset.sum_congr rfl fun l _ => pooled_count l
  have hbalance : ∀ l ∈ sites pl, held c.shards l + shortfall pl c l = pl.target l + excess pl c l := by
    intro l hl
    rw [shortfall, excess, if_pos ((hsite l).mpr hl)]
    omega
  have hsums := Finset.sum_congr rfl hbalance
  rw [Finset.sum_add_distrib, Finset.sum_add_distrib, hheld, target_sum, ← hpool] at hsums
  omega

/-- Then every shard of the pool is moved, and every location takes what it lacks. -/
theorem moves_full (h : Unshadowed pl c)
    (hreach : ∀ s ∈ c.shards, reaches pl.reachable s.location = true)
    (htotal : c.shards.length = TOTAL_SHARDS) (l : Text) :
    (chunkMoves pl c).countP (fun m => m.1.location = l) = excess pl c l ∧
      (chunkMoves pl c).countP (fun m => m.2 = l) = shortfall pl c l := by
  have hspare := spare_eq hreach htotal
  have hfst : (chunkMoves pl c).map Prod.fst = (pooled pl c).pool.reverse := by
    rw [chunkMoves_fst, List.take_of_length_le]
    rw [List.length_reverse, pooled_length, hspare]
    exact sum_shortfall_le
  refine ⟨?_, ?_⟩
  · have hmap : (chunkMoves pl c).countP (fun m => m.1.location = l) =
        ((chunkMoves pl c).map Prod.fst).countP (fun s => s.location = l) := by
      rw [List.countP_map]
      rfl
    rw [hmap, hfst, List.countP_reverse, pooled_count]
  · have hlen : (chunkMoves pl c).length = spare pl c := by
      have hlens := congrArg List.length hfst
      rw [List.length_map, List.length_reverse, pooled_length] at hlens
      exact hlens
    have hdest : ∀ m ∈ chunkMoves pl c, m.2 ∈ sites pl := fun m hm =>
      List.mem_toFinset.mpr (takeMoves_mem hm).1
    have hsum := sum_countP Prod.snd hdest
    rw [hlen, hspare] at hsum
    by_cases hl : l ∈ sites pl
    · exact (Finset.sum_eq_sum_iff_of_le fun l _ => takes_le h l).mp hsum l hl
    · have hin : l ∉ LOCAL :: pl.ids := fun hin => hl (List.mem_toFinset.mpr hin)
      rw [shards_absent hin, shortfall, target_outside hin, Nat.zero_sub]

variable (pl c)

/-- What a pass keeps for a chunk, whichever moves work: no location ends above its target or, if it
was above, gains; none falls below its target or what it held; shards out of reach stay; a chunk at
its target stays; and one with all shards within reach is brought there when all moves work. -/
structure Settles : Prop where
  above : ∀ works l, held (rehomed pl c works) l ≤ max (held c.shards l) (pl.target l)
  below : ∀ works l, min (held c.shards l) (pl.target l) ≤ held (rehomed pl c works) l
  within : ∀ m ∈ chunkMoves pl c, reaches pl.reachable m.1.location = true
  still : (∀ l, held c.shards l = pl.target l) → chunkMoves pl c = []
  settled : (∀ s ∈ c.shards, reaches pl.reachable s.location = true) →
    c.shards.length = TOTAL_SHARDS → ∀ l, held (rehomed pl c fun _ _ => true) l = pl.target l

/-- A pass does all that exactly when the peer that is called like this node, if there is one, finds
nothing left to take: it lacks nothing, or the nearer locations use up the pool. -/
theorem settles_iff : Settles pl c ↔ Unshadowed pl c := by
  constructor
  · intro h hids hpos
    by_contra hspare
    have habove := h.above (fun _ _ => true) LOCAL
    have hcount := @rehomed_count pl c (fun _ _ => true) LOCAL
    have haway := @away_le pl c LOCAL
    have htakes := @local_takes pl c hids
    rw [done_all] at hcount
    rw [shortfall] at hpos
    rw [excess, if_pos (reaches_iff.mpr (List.mem_cons_self ..))] at haway
    rw [shortfall] at htakes hspare
    omega
  · intro h
    have hdone : ∀ works l, (done pl c works).countP (fun m => m.2 = l) ≤ shortfall pl c l :=
      fun works l => List.filter_sublist.countP_le.trans (takes_le h l)
    have haway : ∀ works l, (done pl c works).countP (fun m => m.1.location = l) ≤ excess pl c l :=
      fun works l => List.filter_sublist.countP_le.trans (away_le l)
    have hexcess : ∀ l, excess pl c l ≤ held c.shards l - pl.target l := by
      intro l
      rw [excess]
      split
      · exact le_rfl
      · exact Nat.zero_le _
    refine ⟨fun works l => ?_, fun works l => ?_, fun m hm => (chunkMoves_mem hm).2.1, fun heq => ?_,
      fun hreach htotal l => ?_⟩
    · have hcount := @rehomed_count pl c works l
      have htakes := hdone works l
      rw [shortfall] at htakes
      omega
    · have hcount := @rehomed_count pl c works l
      have hgives := (haway works l).trans (hexcess l)
      omega
    · have hzero : (chunkMoves pl c).length = 0 := by
        have hfst := congrArg List.length (@chunkMoves_fst pl c)
        have hlack : lacking pl c (LOCAL :: pl.ids) = 0 := by
          rw [lacking, List.sum_eq_zero]
          intro n hn
          obtain ⟨l, -, rfl⟩ := List.mem_map.mp hn
          rw [shortfall, heq l, Nat.sub_self]
        rw [hlack, List.take_zero, List.length_map, List.length_nil] at hfst
        exact hfst
      exact List.length_eq_zero_iff.mp hzero
    · obtain ⟨hgives, htakes⟩ := moves_full h hreach htotal l
      have hcount := @rehomed_count pl c (fun _ _ => true) l
      rw [done_all, hgives, htakes, shortfall] at hcount
      by_cases hl : reaches pl.reachable l = true
      · rw [excess, if_pos hl] at hcount
        omega
      · have hzero : pl.target l = 0 := target_outside fun hin => hl (reaches_iff.mpr hin)
        have hnone : held c.shards l = 0 := by
          refine List.countP_eq_zero.mpr fun s hs heq => hl ?_
          exact of_decide_eq_true heq ▸ hreach s hs
        rw [excess, if_neg hl] at hcount
        omega

end

/-! ### The plan of a pass -/

section
variable (sc : Scores) (zoneOfAddr : Text → Option Text) (me : Text) (t : PeerTable) (p : RebalancePass)

/-- The peers a pass asks. -/
def asked : List PeerRow := (t.others p.readsPeers me).filter fun r => r.status ≠ DOWN

def planOf : Plan where
  ids := (livePeers p.rtt (asked me t p)).map fun rm => rm.1.peerId
  reachable := reachableOf (asked me t p) fun r => (p.rtt r).isSome
  layout := planPlacementZoned sc (candidates zoneOfAddr (livePeers p.rtt (asked me t p))) none
    PARITY_SHARDS TOTAL_SHARDS
  distinct := by
    have hothers : (t.others p.readsPeers me).Sublist t.rows := by
      rw [PeerTable.others]
      split
      · exact List.filter_sublist
      · exact List.nil_sublist _
    have hsub : ((asked me t p).filter fun r => (p.rtt r).isSome).Sublist t.rows :=
      List.filter_sublist.trans (List.filter_sublist.trans hothers)
    exact (livePeers_ids p.rtt _).nodup_iff.mpr ((hsub.map _).nodup t.unique)
  answers := by
    intro l
    have hlookup : ((reachableOf (asked me t p) fun r => (p.rtt r).isSome).lookup l).isSome = true ↔
        l ∈ (reachableOf (asked me t p) fun r => (p.rtt r).isSome).map Prod.fst := by
      rw [Option.isSome_iff_ne_none, ne_eq, List.lookup_eq_none_iff]
      simp
    rw [hlookup, reachableOf, List.map_map, (livePeers_ids p.rtt _).mem_iff]
    rfl
  full := (planPlacementZoned_spec sc _ none TOTAL_SHARDS PARITY_SHARDS).1
  valid := by
    intro i hi
    have hlt := (planPlacementZoned_spec sc _ none TOTAL_SHARDS PARITY_SHARDS).2.1 i hi
    rw [List.length_map]
    rw [candidates, List.length_map] at hlt
    exact hlt

end

/-! A peer called `local`, and all shards of the chunk on one of the two others. -/

def shadowPeers : PeerTable where
  rows := [⟨LOCAL, [], [], none, none, 0⟩, ⟨['b'], [], [], none, none, 0⟩, ⟨['c'], [], [], none, none, 0⟩]
  unique := by decide

def shadowPass : RebalancePass := ⟨true, fun _ => some 0, [], fun _ => none, fun _ _ => true⟩

/-- Scores that only count the shards already there. -/
def shadowPlan : Plan := planOf ⟨fun _ _ _ n => n, fun _ n => n⟩ (fun _ => none) ['n'] shadowPeers shadowPass

def crowdedChunk : Chunk where
  shards := (List.range TOTAL_SHARDS).map fun i => ⟨[Char.ofNat (97 + i)], ['k'], i, ['b'], []⟩
  order := [['b']]
  fragments := by decide
  visited := by decide
  locations := by
    intro l
    constructor
    · intro h
      rw [List.mem_singleton.mp h]
      exact ⟨⟨['a'], ['k'], 0, ['b'], []⟩, by decide, rfl⟩
    · rintro ⟨s, hs, rfl⟩
      obtain ⟨i, -, rfl⟩ := List.mem_map.mp hs
      exact List.mem_singleton.mpr rfl

/-- This node takes its share twice and the third location gets nothing. -/
theorem crowded_overshoots : ¬ Settles shadowPlan crowdedChunk := by
  intro h
  have habove := h.above (fun _ _ => true) LOCAL
  have hheld : held crowdedChunk.shards LOCAL = 0 := by decide +kernel
  have htarget : shadowPlan.target LOCAL = 8 := by decide +kernel
  have hafter : held (rehomed shadowPlan crowdedChunk fun _ _ => true) LOCAL = 11 := by decide +kernel
  rw [hheld, htarget, hafter] at habove
  exact absurd habove (by decide)

end P2pnas.Node.Convergence
