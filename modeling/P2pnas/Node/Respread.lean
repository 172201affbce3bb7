import Mathlib.Algebra.BigOperators.Fin
import Mathlib.Algebra.Order.BigOperators.Group.Finset
import P2pnas.Node.Repair
import P2pnas.Node.Scrub

/-!
# Where a repair puts the rebuilt shards (`repair.rs:460-532`)

The target is a candidate that holds the fewest shards of the chunk, and the cap is part of the
same order. So a target at or above the cap means that all candidates are, and then they hold at
least the cap times their number.
-/

namespace P2pnas.Node.Respread
open P2pnas.Lib.Frames P2pnas.Lib.Strings P2pnas.Core P2pnas.Core.Erasure P2pnas.Store.Manifest
open P2pnas.Core.Base P2pnas.Store.Service P2pnas.Node.Repair P2pnas.Node.Scrub

/-- This node and every reachable peer. -/
def locations (view : PeerView) : Finset Text := (LOCAL :: view.reachable.map Prod.fst).toFinset

/-- An accepted placement adds one shard at its target. -/
def bump (count : Text → ℕ) (p : Placement) : Text → ℕ :=
  if p.accepted then fun l => if l = p.target then count l + 1 else count l else count

/-- The counts after some placements. -/
def countsAfter (count : Text → ℕ) (placed : List Placement) : Text → ℕ := placed.foldl bump count

/-! ### The target is a least loaded candidate -/

theorem ranksAfter_held {a b : Rank × Text} (ha : a.1.crowded = decide (PARITY_SHARDS ≤ a.1.held))
    (hb : b.1.crowded = decide (PARITY_SHARDS ≤ b.1.held)) (h : ranksAfter a b = true) :
    b.1.held ≤ a.1.held := by
  unfold ranksAfter at h
  split at h
  · next hne =>
    rw [ha, decide_eq_true_eq] at h
    have hlow : ¬ PARITY_SHARDS ≤ b.1.held := fun hhigh =>
      hne (by rw [ha, hb, decide_eq_true h, decide_eq_true hhigh])
    omega
  · split at h
    · rw [decide_eq_true_eq] at h
      exact h.le
    · next heq => exact (not_not.mp heq).ge

theorem not_ranksAfter_held {a b : Rank × Text}
    (ha : a.1.crowded = decide (PARITY_SHARDS ≤ a.1.held))
    (hb : b.1.crowded = decide (PARITY_SHARDS ≤ b.1.held)) (h : ranksAfter a b = false) :
    a.1.held ≤ b.1.held := by
  unfold ranksAfter at h
  split at h
  · next hne =>
    rw [ha, decide_eq_false_iff_not] at h
    have hhigh : PARITY_SHARDS ≤ b.1.held := by
      by_contra hlow
      exact hne (by rw [ha, hb, decide_eq_false h, decide_eq_false hlow])
    omega
  · split at h
    · rw [decide_eq_false_iff_not] at h
      exact Nat.not_lt.mp h
    · next heq => exact (not_not.mp heq).le

/-- `choose_target` names a candidate that holds no more than any other. -/
theorem chooseTarget_least (count : Text → ℕ) (view : PeerView) :
    chooseTarget count view ∈ locations view ∧
      ∀ l ∈ locations view, count (chooseTarget count view) ≤ count l := by
  -- the induction is on the candidates still to look at
  have hfold : ∀ (cs : List Text) (best : Text),
      cs.foldl (fun best c => if ranksAfter (rank count view.reliability best, best)
          (rank count view.reliability c, c) then c else best) best ∈ best :: cs ∧
        ∀ l ∈ best :: cs, count (cs.foldl (fun best c =>
          if ranksAfter (rank count view.reliability best, best)
            (rank count view.reliability c, c) then c else best) best) ≤ count l := by
    intro cs
    induction cs with
    | nil =>
      intro best
      refine ⟨List.mem_cons_self .., fun l hl => ?_⟩
      rw [List.mem_singleton.mp hl]
      exact le_rfl
    | cons c cs ih =>
      intro best
      rw [List.foldl_cons]
      cases h : ranksAfter (rank count view.reliability best, best)
        (rank count view.reliability c, c) with
      | true =>
        rw [if_pos rfl]
        obtain ⟨hmem, hle⟩ := ih c
        refine ⟨List.mem_cons_of_mem best hmem, fun l hl => ?_⟩
        rcases List.mem_cons.mp hl with rfl | hl
        · exact (hle c (List.mem_cons_self ..)).trans (ranksAfter_held rfl rfl h)
        · exact hle l hl
      | false =>
        rw [if_neg Bool.false_ne_true]
        obtain ⟨hmem, hle⟩ := ih best
        refine ⟨?_, fun l hl => ?_⟩
        · rcases List.mem_cons.mp hmem with heq | hmem
          · rw [heq]
            exact List.mem_cons_self ..
          · exact List.mem_cons_of_mem best (List.mem_cons_of_mem c hmem)
        · rcases List.mem_cons.mp hl with rfl | hl
          · exact hle l (List.mem_cons_self ..)
          · rcases List.mem_cons.mp hl with rfl | hl
            · exact (hle best (List.mem_cons_self ..)).trans (not_ranksAfter_held rfl rfl h)
            · exact hle l (List.mem_cons_of_mem best hl)
  obtain ⟨hmem, hle⟩ := hfold (view.reachable.map Prod.fst) LOCAL
  exact ⟨List.mem_toFinset.mpr hmem, fun l hl => hle l (List.mem_toFinset.mp hl)⟩

/-! ### The placement loop -/

/-- At its moment the target of a placement is a candidate that holds the fewest, and when it holds
the cap or more, all candidates do. -/
structure Fair (view : PeerView) (count : Text → ℕ) (target : Text) : Prop where
  candidate : target ∈ locations view
  least : ∀ l ∈ locations view, count target ≤ count l
  crowded : PARITY_SHARDS ≤ count target → ∀ l ∈ locations view, PARITY_SHARDS ≤ count l

theorem chooseTarget_fair (count : Text → ℕ) (view : PeerView) :
    Fair view count (chooseTarget count view) := by
  obtain ⟨hmem, hle⟩ := chooseTarget_least count view
  exact ⟨hmem, hle, fun h l hl => h.trans (hle l hl)⟩

section
variable {view : PeerView} {count : Text → ℕ}

/-- Placements one after the other, each at the target chosen at its moment; any of them may be
refused. -/
inductive Placed (view : PeerView) : (Text → ℕ) → List Placement → Prop
  | nil {count : Text → ℕ} : Placed view count []
  | cons {count : Text → ℕ} {p : Placement} {ps : List Placement}
      (target : p.target = chooseTarget count view) (rest : Placed view (bump count p) ps) :
      Placed view count (p :: ps)

theorem placeMissing_placed {d : Degraded} {all : List Bytes} {accepts : ℕ → Bool} (is : List ℕ) :
    Placed view count (placeMissing d view all accepts count is) ∧
      (placeMissing d view all accepts count is).length ≤ is.length := by
  induction is generalizing count with
  | nil => exact ⟨.nil, le_rfl⟩
  | cons i is ih =>
    rw [placeMissing]
    cases all[i]? with
    | none => exact ⟨ih.1, ih.2.trans (Nat.le_succ _)⟩
    | some bytes => exact ⟨.cons rfl ih.1, Nat.succ_le_succ ih.2⟩

theorem Placed.fair {before after : List Placement} {p : Placement}
    (h : Placed view count (before ++ p :: after)) : Fair view (countsAfter count before) p.target := by
  induction before generalizing count with
  | nil =>
    cases h with
    | cons target rest =>
      rw [target]
      exact chooseTarget_fair count view
  | cons b before ih =>
    cases h with
    | cons target rest => exact ih rest

theorem bump_le (p : Placement) (l : Text) : bump count p l ≤ count l + if l = p.target then 1 else 0 := by
  by_cases haccepted : p.accepted = true
  · by_cases hl : l = p.target
    · simp [bump, haccepted, hl]
    · simp [bump, haccepted, hl]
  · simp [bump, haccepted]

theorem sum_bump_le (view : PeerView) (p : Placement) :
    ∑ l ∈ locations view, bump count p l ≤ ∑ l ∈ locations view, count l + 1 := by
  calc ∑ l ∈ locations view, bump count p l
      ≤ ∑ l ∈ locations view, (count l + if l = p.target then 1 else 0) :=
        Finset.sum_le_sum fun l _ => bump_le p l
    _ = ∑ l ∈ locations view, count l + ∑ l ∈ locations view, if l = p.target then 1 else 0 :=
        Finset.sum_add_distrib
    _ ≤ ∑ l ∈ locations view, count l + 1 := by
        refine Nat.add_le_add_left ?_ _
        rw [Finset.sum_ite_eq' (locations view) p.target fun _ => 1]
        split
        · exact le_rfl
        · exact Nat.zero_le 1

/-- While the candidates hold less than the cap times their number, a fair target is below it. -/
theorem Fair.room {target : Text} (h : Fair view count target)
    (hsum : ∑ l ∈ locations view, count l < PARITY_SHARDS * (locations view).card) :
    count target < PARITY_SHARDS := by
  by_contra hfull
  have hall := h.crowded (Nat.not_lt.mp hfull)
  have hge : PARITY_SHARDS * (locations view).card ≤ ∑ l ∈ locations view, count l := by
    rw [Nat.mul_comm, ← smul_eq_mul]
    exact Finset.card_nsmul_le_sum _ _ _ hall
  omega

theorem Placed.capped {placed : List Placement} (h : Placed view count placed)
    (hcount : ∀ l, count l ≤ PARITY_SHARDS)
    (hsum : ∑ l ∈ locations view, count l + placed.length ≤ PARITY_SHARDS * (locations view).card) :
    ∀ l, countsAfter count placed l ≤ PARITY_SHARDS := by
  induction h with
  | nil => exact hcount
  | @cons count p ps target rest ih =>
    rw [List.length_cons] at hsum
    refine ih (fun l => ?_) ?_
    · have hroom := (chooseTarget_fair count view).room (by omega)
      have hbump := @bump_le count p l
      have hl := hcount l
      by_cases hlt : l = p.target
      · rw [if_pos hlt] at hbump
        rw [hlt, target] at hbump hl ⊢
        omega
      · rw [if_neg hlt] at hbump
        omega
    · have hle := @sum_bump_le count view p
      omega

end

/-! ### The shards of a chunk -/

/-- The peers that are marked down or known at all, and what reading or auditing a shard brings. -/
structure Survey where
  down : List Text
  known : List Text
  scrub : ScrubPlan
  intact : ShardRow → Bool
  present : Text → Bool
  audit : ShardRow → Option Text

/-- `classify_shard` (`repair.rs:546-592`). -/
def classifyShard (view : PeerView) (w : Survey) (s : ShardRow) : ShardState :=
  if s.location = LOCAL then
    if w.scrub.due s.fragmentId then if w.intact s then .Live else .Lost
    else if w.present s.fragmentId then .Live else .Lost
  else if (view.reachable.lookup s.location).isSome then
    if (w.audit s).any (fun h => h ≠ [] && (s.hash = [] || h = s.hash)) then .Live else .Lost
  else if w.down.contains s.location || !w.known.contains s.location then .Lost
  else .Grace

/-- A copy in grace sits on no candidate. -/
theorem classifyShard_grace {view : PeerView} {w : Survey} {s : ShardRow}
    (h : classifyShard view w s = .Grace) : s.location ∉ locations view := by
  rw [classifyShard] at h
  split at h
  · split at h
    · split at h <;> cases h
    · split at h <;> cases h
  · next hlocal =>
    split at h
    · split at h <;> cases h
    · next hsilent =>
      intro hin
      rcases List.mem_cons.mp (List.mem_toFinset.mp hin) with heq | hin
      · exact hlocal heq
      · obtain ⟨⟨id, addr⟩, hmem, hid⟩ := List.mem_map.mp hin
        have hnone := Option.not_isSome_iff_eq_none.mp hsilent
        have hall := List.lookup_eq_none_iff.mp hnone _ hmem
        exact (bne_iff_ne.mp hall) hid.symm

/-- The slots of a chunk that stay where they are on a candidate, and those to rebuild, are
different slots. -/
theorem kept_add_rebuilt {view : PeerView} {w : Survey} (critical : Bool)
    (slots : List (Option ShardRow)) :
    ∑ l ∈ locations view, (slots.zip (slots.map (Option.map (classifyShard view w)))).countP
        (fun ss => (ss.2 = some .Live || ss.2 = some .Grace) && ss.1.any (fun s => s.location = l)) +
      (slots.map (Option.map (classifyShard view w))).countP
        (fun s => s = some .Lost || (s = some .Grace && critical)) ≤ slots.length := by
  induction slots with
  | nil => simp
  | cons o slots ih =>
    have hslot : ∑ l ∈ locations view, (if ((o.map (classifyShard view w) = some .Live ||
          o.map (classifyShard view w) = some .Grace) && o.any (fun s => s.location = l)) = true
          then 1 else 0) +
        (if (o.map (classifyShard view w) = some .Lost ||
          (o.map (classifyShard view w) = some .Grace && critical)) = true then 1 else 0) ≤ 1 := by
      cases o with
      | none => simp
      | some s =>
        cases hs : classifyShard view w s with
        | Live =>
          simp only [Option.map_some, hs, Option.any_some]
          simp
          split <;> omega
        | Grace =>
          have hout := classifyShard_grace hs
          simp only [Option.map_some, hs, Option.any_some]
          simp [hout]
          split <;> omega
        | Lost => simp [hs]
    simp only [List.map_cons, List.zip_cons_cons, List.countP_cons, List.length_cons,
      Finset.sum_add_distrib]
    omega

theorem indexShards_length (rows : List ShardRow) : (indexShards rows).length = TOTAL_SHARDS := by
  have hfold : ∀ (l : List ShardRow) (slots : List (Option ShardRow)),
      (l.foldl (fun a s => a.set (asU64 s.shardIndex) (some s)) slots).length = slots.length := by
    intro l
    induction l with
    | nil => exact fun _ => rfl
    | cons s l ih =>
      intro slots
      rw [List.foldl_cons, ih, List.length_set]
  exact (hfold rows _).trans List.length_replicate

theorem missing_length (states : List (Option ShardState)) :
    (planChunk states).missing.length = states.countP fun s => s = some .Lost ||
      (s = some .Grace &&
        decide (states.countP (· = some .Live) < DATA_SHARDS + CRITICAL_MARGIN)) := by
  have hindex : ∀ rebuild : Option ShardState → Bool,
      (states.zipIdx.filter fun si => rebuild si.1).length = states.countP rebuild := by
    intro rebuild
    rw [← List.countP_eq_length_filter]
    conv_rhs => rw [← List.zipIdx_map_fst 0 states, List.countP_map]
    rfl
  rw [planChunk]
  dsimp only
  rw [List.length_map]
  exact hindex fun s => s = some .Lost || (s = some .Grace &&
    decide (states.countP (· = some .Live) < DATA_SHARDS + CRITICAL_MARGIN))

/-- What a degraded chunk keeps on the candidates and what it misses are at most its shards. -/
theorem assessChunk_total {view : PeerView} {w : Survey} {chunk : ChunkRow} {rows : List ShardRow}
    {d : Degraded} (h : assessChunk (classifyShard view w) chunk rows = some d) :
    ∑ l ∈ locations view, keptAt d l + d.missing.length ≤ TOTAL_SHARDS := by
  unfold assessChunk at h
  dsimp only at h
  split at h
  · cases h
  · split at h
    · cases h
    · cases h
      have hle := @kept_add_rebuilt view w (decide (((indexShards rows).map
        (Option.map (classifyShard view w))).countP (· = some .Live) < DATA_SHARDS + CRITICAL_MARGIN))
        (indexShards rows)
      rw [indexShards_length] at hle
      simp only [keptAt, missing_length]
      exact hle

/-- The placement loop goes to a least loaded candidate at every step, and to one at the cap only
when all candidates are there. So the cap is kept where the copies that stay keep it and the
candidates have room for all shards: of any counts, and of a chunk that a pass assessed. -/
theorem repair_spreads {K : Type} (P : Prims K) (view : PeerView) :
    (∀ d all accepts count is, Placed view count (placeMissing d view all accepts count is) ∧
      (placeMissing d view all accepts count is).length ≤ is.length) ∧
    (∀ count before p after, Placed view count (before ++ p :: after) →
      Fair view (countsAfter count before) p.target) ∧
    (∀ count placed, Placed view count placed → (∀ l, count l ≤ PARITY_SHARDS) →
      ∑ l ∈ locations view, count l + placed.length ≤ PARITY_SHARDS * (locations view).card →
      ∀ l, countsAfter count placed l ≤ PARITY_SHARDS) ∧
    (∀ w chunk rows d answers accepts, assessChunk (classifyShard view w) chunk rows = some d →
      (∀ l, keptAt d l ≤ PARITY_SHARDS) → TOTAL_SHARDS ≤ PARITY_SHARDS * (locations view).card →
      ∀ l, countsAfter (keptAt d) (repairChunk P d view answers accepts) l ≤ PARITY_SHARDS) := by
  refine ⟨fun d all accepts count is => placeMissing_placed is, fun count before p after h => h.fair,
    fun count placed h hcount hsum => h.capped hcount hsum, ?_⟩
  intro w chunk rows d answers accepts hd hkept htotal
  have hsum := assessChunk_total hd
  simp only [repairChunk]
  split
  · exact hkept
  · split
    · next all _ =>
      obtain ⟨hplaced, hlen⟩ := @placeMissing_placed view (keptAt d) d all accepts d.missing
      exact hplaced.capped hkept (by omega)
    · exact hkept

end P2pnas.Node.Respread
