import P2pnas.Node.RepairPass

/-!
# A pass that heals (`repair.rs:208-340`)

When nothing fails and the peers that answer are honest, a chunk that a pass takes on gets back
what it has lost, as long as ten of its shards are found live and sound; then there is nothing left
for the next pass to do.
-/

namespace P2pnas.Node.Healing
open P2pnas.Lib.Frames P2pnas.Lib.Strings P2pnas.Lib.TopK P2pnas.Core P2pnas.Core.Base P2pnas.Core.Erasure
open P2pnas.Store.Manifest P2pnas.Store.Service P2pnas.Node.Peers P2pnas.Node.Repair
open P2pnas.Node.Respread P2pnas.Node.Priority P2pnas.Node.Queries P2pnas.Node.RepairPass

section
variable {K : Type} {P : Prims K} {env : Env} {truth : Text → Option Bytes} {net net₀ : Net} {tried : List Text}
  {L : Text → Option Text}

/-! ### What a calm pass leaves -/

theorem classifyShard_congr {s : ShardRow} (hstore : net.store s.fragmentId = net₀.store s.fragmentId)
    (hhosts : ∀ h, net.hosts h s.fragmentId = net₀.hosts h s.fragmentId) :
    classifyShard env.view (survey P env net) s = classifyShard env.view (survey P env net₀) s := by
  have hread : readFile net.store s.fragmentId = readFile net₀.store s.fragmentId := by
    rw [readFile, readFile, hstore]
  have haudit : (survey P env net).audit s = (survey P env net₀).audit s := by
    simp only [survey, auditAnswer, readFile, hhosts]
  have hintact : (survey P env net).intact s = (survey P env net₀).intact s := by
    simp only [survey, hread]
  have hpresent : (survey P env net).present s.fragmentId = (survey P env net₀).present s.fragmentId := by
    simp only [survey, existsFile, hstore]
  unfold classifyShard
  rw [haudit, hintact, hpresent]
  rfl

theorem live_of_placed (hc : Calm env) {it : Item} {s : ShardRow} (hcoded : Coded P truth it) (hs : s ∈ it.rows)
    (hin : s.location ∈ locations env.view) (hsound : Sound truth net s) :
    classifyShard env.view (survey P env net) s = .Live := by
  by_cases hlocal : s.location = LOCAL
  · exact live_of_local hcoded hs hlocal hsound
  · obtain ⟨addr, haddr⟩ := (mem_locations hin).resolve_left hlocal
    obtain ⟨-, shards, -, -, -, hrows⟩ := hcoded.encoding
    obtain ⟨b, -, hb, hhash⟩ := hrows s hs
    obtain ⟨-, hvalid, hne⟩ := hcoded.rows s hs
    rw [Sound, Net.heldAt, if_neg hlocal, hb] at hsound
    have haudit : (survey P env net).audit s = some s.hash := by
      simp [survey, auditAnswer, hc.honest _ _ haddr, hc.audits, readFile, hvalid, hsound, hhash]
    rw [classifyShard, if_neg hlocal, haddr, haudit]
    simp [hne]

theorem indexShards_map (f : ShardRow → ShardRow) (hf : ∀ s, (f s).shardIndex = s.shardIndex) (rows : List ShardRow) :
    indexShards (rows.map f) = (indexShards rows).map (Option.map f) := by
  have hfold : ∀ (l : List ShardRow) (a : List (Option ShardRow)),
      (l.map f).foldl (fun a s => a.set (asU64 s.shardIndex) (some s)) (a.map (Option.map f)) =
        (l.foldl (fun a s => a.set (asU64 s.shardIndex) (some s)) a).map (Option.map f) := by
    intro l
    induction l with
    | nil => exact fun _ => rfl
    | cons s l ih =>
      intro a
      rw [List.map_cons, List.foldl_cons, List.foldl_cons, ← ih, hf, List.map_set]
      rfl
  have hinit : List.replicate TOTAL_SHARDS (none : Option ShardRow) =
      (List.replicate TOTAL_SHARDS none).map (Option.map f) := by
    rw [List.map_replicate]
    rfl
  rw [indexShards, hinit, hfold, indexShards]

/-- With one row an index, every row is at its slot. -/
theorem indexShards_of_mem {rows : List ShardRow} (hn : (rows.map fun s => asU64 s.shardIndex).Nodup) {s : ShardRow}
    (hs : s ∈ rows) (hlt : asU64 s.shardIndex < TOTAL_SHARDS) :
    (indexShards rows)[asU64 s.shardIndex]? = some (some s) := by
  have hlater : ∀ (l : List ShardRow) (a : List (Option ShardRow)) (i : ℕ),
      i ∉ l.map (fun s => asU64 s.shardIndex) →
      (l.foldl (fun a s => a.set (asU64 s.shardIndex) (some s)) a)[i]? = a[i]? := by
    intro l
    induction l with
    | nil => exact fun _ _ _ => rfl
    | cons r l ih =>
      intro a i hi
      rw [List.map_cons, List.mem_cons, not_or] at hi
      rw [List.foldl_cons, ih _ i hi.2, List.getElem?_set_ne (Ne.symm hi.1)]
  have hfold : ∀ (l : List ShardRow) (a : List (Option ShardRow)), (l.map fun s => asU64 s.shardIndex).Nodup →
      s ∈ l → asU64 s.shardIndex < a.length →
      (l.foldl (fun a s => a.set (asU64 s.shardIndex) (some s)) a)[asU64 s.shardIndex]? = some (some s) := by
    intro l
    induction l with
    | nil => exact fun a _ h => absurd h List.not_mem_nil
    | cons r l ih =>
      intro a hn hmem hlen
      rw [List.map_cons, List.nodup_cons] at hn
      rw [List.foldl_cons]
      rcases List.mem_cons.mp hmem with rfl | hmem
      · rw [hlater l _ _ hn.1, List.getElem?_set_self hlen]
      · exact ih _ hn.2 hmem (by rwa [List.length_set])
  exact hfold rows _ hn hs (by rwa [List.length_replicate])

/-- Whether the pass rebuilds a shard in this state, next to `live` others. -/
def Rebuilds (live : ℕ) (s : ShardState) : Prop := s = .Lost ∨ s = .Grace ∧ live < DATA_SHARDS + CRITICAL_MARGIN

theorem mem_missing {states : List (Option ShardState)} {i : ℕ} :
    i ∈ (planChunk states).missing ↔
      ∃ s, states[i]? = some (some s) ∧ Rebuilds (states.countP (· = some .Live)) s := by
  rw [planChunk]
  simp only [List.mem_map, List.mem_filter, Prod.exists, exists_eq_right, List.mem_zipIdx_iff_getElem?]
  constructor
  · rintro ⟨o, ho, hreb⟩
    cases o with
    | none => simp at hreb
    | some s => exact ⟨s, ho, by simpa [Rebuilds] using hreb⟩
  · rintro ⟨s, hs, hreb⟩
    exact ⟨some s, hs, by simpa [Rebuilds] using hreb⟩

/-- The live shards of a chunk, as one pass finds them. -/
def liveOf (P : Prims K) (env : Env) (net : Net) (slots : List (Option ShardRow)) : ℕ :=
  slots.countP fun o => o.map (classifyShard env.view (survey P env net)) = some .Live

theorem assessChunk_none {it : Item} :
    assessChunk (classifyShard env.view (survey P env net)) it.chunk it.rows = none ↔
      (∀ (i : ℕ) (s : ShardRow), (indexShards it.rows)[i]? = some (some s) →
        ¬ Rebuilds (liveOf P env net (indexShards it.rows)) (classifyShard env.view (survey P env net) s)) ∨
      liveOf P env net (indexShards it.rows) < DATA_SHARDS := by
  have hlive : ((indexShards it.rows).map (Option.map (classifyShard env.view (survey P env net)))).countP
      (· = some .Live) = liveOf P env net (indexShards it.rows) := by
    rw [List.countP_map]
    rfl
  have hempty : (planChunk ((indexShards it.rows).map
      (Option.map (classifyShard env.view (survey P env net))))).missing.isEmpty = true ↔
      ∀ (i : ℕ) (s : ShardRow), (indexShards it.rows)[i]? = some (some s) →
        ¬ Rebuilds (liveOf P env net (indexShards it.rows)) (classifyShard env.view (survey P env net) s) := by
    rw [List.isEmpty_iff, List.eq_nil_iff_forall_not_mem]
    constructor
    · intro h i s hs hreb
      refine h i (mem_missing.mpr ⟨classifyShard env.view (survey P env net) s, ?_, by rwa [hlive]⟩)
      rw [List.getElem?_map, hs]
      rfl
    · intro h i hi
      obtain ⟨st, hst, hreb⟩ := mem_missing.mp hi
      rw [hlive] at hreb
      rw [List.getElem?_map] at hst
      obtain ⟨o, ho, hmap⟩ := Option.map_eq_some_iff.mp hst
      obtain ⟨s, rfl, rfl⟩ := Option.map_eq_some_iff.mp hmap
      exact h i s ho hreb
  unfold assessChunk
  dsimp only
  by_cases hmiss : (planChunk ((indexShards it.rows).map
      (Option.map (classifyShard env.view (survey P env net))))).missing.isEmpty = true
  · rw [if_pos hmiss]
    exact ⟨fun _ => .inl (hempty.mp hmiss), fun _ => rfl⟩
  · rw [if_neg hmiss]
    have hplan : (planChunk ((indexShards it.rows).map
        (Option.map (classifyShard env.view (survey P env net))))).live =
          liveOf P env net (indexShards it.rows) := hlive
    rw [hplan]
    by_cases hfew : liveOf P env net (indexShards it.rows) < DATA_SHARDS
    · rw [if_pos hfew]
      exact ⟨fun _ => .inr hfew, fun _ => rfl⟩
    · rw [if_neg hfew]
      constructor
      · intro h
        cases h
      · rintro (h | h)
        · exact absurd (hempty.mpr h) hmiss
        · exact absurd h hfew

theorem missing_iff {it : Item} {d : Degraded} (h : FoundIn P env net₀ it d) {i : ℕ} {s : ShardRow}
    (hs : (indexShards it.rows)[i]? = some (some s)) :
    i ∈ d.missing ↔ Rebuilds (liveOf P env net₀ (indexShards it.rows)) (classifyShard env.view (survey P env net₀) s) := by
  have hlive : ((indexShards it.rows).map (Option.map (classifyShard env.view (survey P env net₀)))).countP
      (· = some .Live) = liveOf P env net₀ (indexShards it.rows) := by
    rw [List.countP_map]
    rfl
  have hassess := h.2
  unfold assessChunk at hassess
  dsimp only at hassess
  split at hassess
  · cases hassess
  · split at hassess
    · cases hassess
    · obtain rfl := Option.some.inj hassess
      dsimp only
      rw [mem_missing, List.getElem?_map, hs, hlive]
      constructor
      · rintro ⟨st, hst, hreb⟩
        obtain rfl := Option.some.inj (Option.some.inj hst)
        exact hreb
      · exact fun hreb => ⟨_, rfl, hreb⟩

/-- A pass as its end sees it. -/
structure Over (P : Prims K) (env : Env) (truth : Text → Option Bytes) (heap : Heap) (net₀ : Net)
    (tried : List Text) (L : Text → Option Text) : Prop where
  advance : Advance env truth net₀ [] (fun _ => none) ((taken P env heap net₀).flatMap missingFrags)
    (repairAll P env heap net₀) tried L
  placed : ∀ d ∈ taken P env heap net₀, Enough P env net₀ d → ∀ i ∈ d.missing, (L (fragAt d i)).isSome = true

theorem Over.untouched {heap : Heap} (h : Over P env truth heap net₀ tried L) {s : ShardRow}
    (hs : s.fragmentId ∉ (taken P env heap net₀).flatMap missingFrags) :
    moveRow L s = s ∧ classifyShard env.view (survey P env (repairAll P env heap net₀)) s =
      classifyShard env.view (survey P env net₀) s := by
  have hfree : s.fragmentId ∉ tried := by
    intro hin
    rcases h.advance.tried _ hin with hin | hin
    · cases hin
    · exact hs hin
  have hL : L s.fragmentId = none := h.advance.others _ hs
  obtain ⟨hstore, hhosts⟩ := h.advance.under.untouched _ hfree
  refine ⟨?_, classifyShard_congr hstore hhosts⟩
  rw [moveRow, hL]
  rfl

theorem slot_mem {rows : List ShardRow} {i : ℕ} {s : ShardRow} (h : (indexShards rows)[i]? = some (some s)) :
    s ∈ rows ∧ asU64 s.shardIndex = i := indexShards_some (by rw [h, Option.join_some])

/-- A shard of a chunk that the pass repaired: rebuilt and in its place, or as it was. -/
theorem Over.slot (hc : Calm env) (hw : Written P truth net₀) {heap : Heap} (h : Over P env truth heap net₀ tried L)
    {it : Item} {d : Degraded} (hd : FoundIn P env net₀ it d) (htaken : d ∈ taken P env heap net₀)
    (henough : Enough P env net₀ d) {i : ℕ} {s : ShardRow} (hs : (indexShards it.rows)[i]? = some (some s)) :
    (i ∈ d.missing ∧ Sound truth (repairAll P env heap net₀) (moveRow L s) ∧
      classifyShard env.view (survey P env (repairAll P env heap net₀)) (moveRow L s) = .Live) ∨
    (i ∉ d.missing ∧ classifyShard env.view (survey P env (repairAll P env heap net₀)) (moveRow L s) =
      classifyShard env.view (survey P env net₀) s) := by
  obtain ⟨hmem, hidx⟩ := slot_mem hs
  have hat : d.shardAt[i]?.join = some s := by rw [(assessChunk_some hd.2).2.1, hs, Option.join_some]
  have hfrag : fragAt d i = s.fragmentId := by
    rw [fragAt, hat]
    rfl
  by_cases hi : i ∈ d.missing
  · have hsome := h.placed d htaken henough i hi
    rw [hfrag] at hsome
    obtain ⟨loc, hL⟩ := Option.isSome_iff_exists.mp hsome
    obtain ⟨hloc, hheld⟩ := h.advance.under.placed _ loc hL
    have htrust : Trusted env loc := by
      rcases mem_locations hloc with hl | ⟨addr, haddr⟩
      · exact .inl hl
      · exact .inr (hc.honest loc addr haddr)
    have hmoved : (moveRow L s).location = loc := by
      rw [moveRow, hL]
      rfl
    have hsound : Sound truth (repairAll P env heap net₀) (moveRow L s) := by
      rw [Sound, hmoved]
      exact hheld htrust
    refine .inl ⟨hi, hsound, live_of_placed hc ((hw.coded it hd.1).move L) (List.mem_map_of_mem hmem) ?_ hsound⟩
    rw [hmoved]
    exact hloc
  · have hfree : s.fragmentId ∉ (taken P env heap net₀).flatMap missingFrags := by
      intro hin
      obtain ⟨d', hd', hf⟩ := List.mem_flatMap.mp hin
      by_cases heq : d = d'
      · subst heq
        obtain ⟨j, hj, hjf⟩ := List.mem_map.mp hf
        obtain ⟨t, ht, -, rfl, htf, -⟩ := hd.missing hj
        have hts := hw.row_eq hd.1 ht hd.1 hmem (by rw [← htf, hjf])
        rw [hts, hidx] at hj
        exact hi hj
      · obtain ⟨it', hfound'⟩ := taken_found hd'
        have hsymm : Std.Symm fun d d' => List.Disjoint (shardFrags d) (shardFrags d') := ⟨fun _ _ h => h.symm⟩
        have hdis := (taken_disjoint hw heap).forall htaken hd' heq
        exact hdis (mem_shardFrags.mpr ⟨i, s, hat, rfl⟩) (hfound'.missing_subset hf)
    obtain ⟨hmove, hclass⟩ := h.untouched hfree
    rw [hmove]
    exact .inr ⟨hi, hclass⟩

theorem Over.healed (hc : Calm env) (hw : Written P truth net₀) {heap : Heap} (h : Over P env truth heap net₀ tried L)
    {it : Item} {d : Degraded} (hd : FoundIn P env net₀ it d) (htaken : d ∈ taken P env heap net₀)
    (henough : Enough P env net₀ d) :
    assessChunk (classifyShard env.view (survey P env (repairAll P env heap net₀))) (it.move L).chunk (it.move L).rows =
      none := by
  have hslots : indexShards (it.move L).rows = (indexShards it.rows).map (Option.map (moveRow L)) :=
    indexShards_map (moveRow L) (fun _ => rfl) it.rows
  have hmore : liveOf P env net₀ (indexShards it.rows) ≤
      liveOf P env (repairAll P env heap net₀) (indexShards (it.move L).rows) := by
    rw [hslots, liveOf, liveOf, List.countP_map]
    refine List.countP_mono_left fun o ho hlive => ?_
    rw [decide_eq_true_eq] at hlive
    obtain ⟨s, rfl, hs⟩ := Option.map_eq_some_iff.mp hlive
    obtain ⟨i, hi⟩ := List.mem_iff_getElem?.mp ho
    rcases h.slot hc hw hd htaken henough hi with ⟨-, -, hlive'⟩ | ⟨-, hsame⟩
    · simp [hlive']
    · simp [hsame, hs]
  refine assessChunk_none.mpr (.inl fun i s' hs' hreb => ?_)
  rw [hslots, List.getElem?_map] at hs'
  obtain ⟨o, ho, hmap⟩ := Option.map_eq_some_iff.mp hs'
  obtain ⟨s, rfl, rfl⟩ := Option.map_eq_some_iff.mp hmap
  rcases h.slot hc hw hd htaken henough ho with ⟨-, -, hlive⟩ | ⟨hno, hsame⟩
  · rw [hlive] at hreb
    rcases hreb with hl | ⟨hg, -⟩
    · cases hl
    · cases hg
  · rw [hsame] at hreb
    refine hno ((missing_iff hd ho).mpr ?_)
    rcases hreb with hl | ⟨hg, hfew⟩
    · exact .inl hl
    · exact .inr ⟨hg, by omega⟩

/-- A chunk in which nothing was found to repair is left alone. -/
theorem Over.idle (hw : Written P truth net₀) {heap : Heap} (h : Over P env truth heap net₀ tried L) {it : Item}
    (hit : it ∈ net₀.items) (hnone : assessChunk (classifyShard env.view (survey P env net₀)) it.chunk it.rows = none) :
    assessChunk (classifyShard env.view (survey P env (repairAll P env heap net₀))) (it.move L).chunk (it.move L).rows =
      none := by
  have hfree : ∀ s ∈ it.rows, s.fragmentId ∉ (taken P env heap net₀).flatMap missingFrags := by
    intro s hs hin
    obtain ⟨d', hd', hf⟩ := List.mem_flatMap.mp hin
    obtain ⟨it', hfound'⟩ := taken_found hd'
    have hne : it ≠ it' := by
      rintro rfl
      rw [hfound'.2] at hnone
      cases hnone
    have hsymm : Std.Symm (Function.onFun List.Disjoint fun it : Item => it.rows.map ShardRow.fragmentId) :=
      ⟨fun _ _ h => h.symm⟩
    have hdis := (List.nodup_flatMap.mp hw.fragments).2.forall hit hfound'.1 hne
    exact hdis (List.mem_map_of_mem hs) (hfound'.shard_subset (hfound'.missing_subset hf))
  have hrows : (it.move L).rows = it.rows := by
    have hid : it.rows.map (moveRow L) = it.rows.map id :=
      List.map_congr_left fun s hs => (h.untouched (hfree s hs)).1
    rw [Item.move, hid, List.map_id]
  have hclass : ∀ i s, (indexShards it.rows)[i]? = some (some s) →
      classifyShard env.view (survey P env (repairAll P env heap net₀)) s =
        classifyShard env.view (survey P env net₀) s :=
    fun i s hs => (h.untouched (hfree s (slot_mem hs).1)).2
  have hlive : liveOf P env (repairAll P env heap net₀) (indexShards it.rows) =
      liveOf P env net₀ (indexShards it.rows) := by
    refine List.countP_congr fun o ho => ?_
    cases o with
    | none => simp
    | some s =>
      obtain ⟨i, hi⟩ := List.mem_iff_getElem?.mp ho
      simp [hclass i s hi]
  have hnone' := assessChunk_none.mp hnone
  have hgoal : assessChunk (classifyShard env.view (survey P env (repairAll P env heap net₀))) it.chunk it.rows =
      none := by
    refine assessChunk_none.mpr ?_
    rw [hlive]
    exact hnone'.imp (fun hall i s hs => by rw [hclass i s hs]; exact hall i s hs) id
  rw [hrows]
  exact hgoal

/-- A pass in which nothing fails and the peers that answer are honest repairs every chunk it takes on
and has ten shards of that were found live and pass their check: what was lost is back, where its row now says. When that goes for all
chunks that were found degraded, the next pass under the same view finds nothing to do. -/
theorem pass_heals (hrs : RsRestores P) (hc : Calm env) (hw : Written P truth net₀) (heap : Heap) :
    ∃ L, (repairAll P env heap net₀).items = net₀.items.map (Item.move L) ∧
      (∀ it d, FoundIn P env net₀ it d → d ∈ taken P env heap net₀ → Enough P env net₀ d → ∀ s ∈ it.rows,
        (classifyShard env.view (survey P env net₀) s = .Lost →
          Sound truth (repairAll P env heap net₀) (moveRow L s)) ∧
        classifyShard env.view (survey P env (repairAll P env heap net₀)) (moveRow L s) ≠ .Lost) ∧
      ((found P env net₀).length ≤ MAX_PENDING_REPAIRS → (∀ d ∈ found P env net₀, Enough P env net₀ d) →
        found P env (repairAll P env heap net₀) = [] ∧
          repairAll P env heap (repairAll P env heap net₀) = repairAll P env heap net₀) := by
  obtain ⟨tried, L, hadv, hplaced⟩ := pass_under env hrs hw heap
  have hover : Over P env truth heap net₀ tried L := ⟨hadv, hplaced hc⟩
  have hitems := hadv.under.items
  refine ⟨L, hitems, fun it d hd htaken henough s hs => ?_, fun hfew henough => ?_⟩
  · have hcoded := hw.coded it hd.1
    have hslot := indexShards_of_mem hcoded.indexes hs (hcoded.rows s hs).1
    rcases hover.slot hc hw hd htaken henough hslot with ⟨-, hsound, hlive⟩ | ⟨hno, hsame⟩
    · refine ⟨fun _ => hsound, ?_⟩
      rw [hlive]
      exact fun hcase => by cases hcase
    · have hkept : classifyShard env.view (survey P env net₀) s ≠ .Lost := fun hlost =>
        hno ((missing_iff hd hslot).mpr (.inl hlost))
      exact ⟨fun hlost => absurd hlost hkept, by rwa [hsame]⟩
  · have hnone : found P env (repairAll P env heap net₀) = [] := by
      rw [found, hitems, List.filterMap_eq_nil_iff]
      intro it' hit'
      obtain ⟨it, hit, rfl⟩ := List.mem_map.mp hit'
      cases hassess : assessChunk (classifyShard env.view (survey P env net₀)) it.chunk it.rows with
      | none => exact hover.idle hw hit hassess
      | some d =>
        have hd : FoundIn P env net₀ it d := ⟨hit, hassess⟩
        have hmem := mem_found.mpr ⟨it, hd⟩
        obtain ⟨deferred, hperm, hall⟩ := taken_perm P env heap net₀
        rw [hall hfew, List.append_nil] at hperm
        exact hover.healed hc hw hd (hperm.mem_iff.mpr hmem) (henough d hmem)
    refine ⟨hnone, ?_⟩
    obtain ⟨deferred, hperm, -⟩ := taken_perm P env heap (repairAll P env heap net₀)
    rw [hnone] at hperm
    have hnil := (List.append_eq_nil_iff.mp hperm.eq_nil).1
    rw [repairAll, hnil]
    rfl

end

/-! ### The sample file is healed -/

theorem sampleEnv_calm : Calm sampleEnv where
  honest _ _ _ := rfl
  audits _ _ := rfl
  fetches _ _ := rfl
  takes _ _ := rfl
  acks _ _ := rfl
  writes _ := rfl
  updates _ := rfl

theorem pass_heals_sample :
    (found (Sample.sample sampleKnown) sampleEnv sampleNet).length = 1 ∧
      found (Sample.sample sampleKnown) sampleEnv
        (repairAll (Sample.sample sampleKnown) sampleEnv (listHeap Degraded.margin) sampleNet) = [] := by
  obtain ⟨L, -, -, hheal⟩ := pass_heals (Sample.sample_rs sampleKnown) sampleEnv_calm sampleNet_written
    (listHeap Degraded.margin)
  refine ⟨by decide +kernel, (hheal (by decide +kernel) ?_).1⟩
  have henough : ∀ d ∈ found (Sample.sample sampleKnown) sampleEnv sampleNet, DATA_SHARDS ≤
      (List.range TOTAL_SHARDS).countP fun i =>
        (fetchAt (Sample.sample sampleKnown) d (answersFor sampleEnv sampleNet d) i).isSome := by decide +kernel
  exact henough

end P2pnas.Node.Healing
