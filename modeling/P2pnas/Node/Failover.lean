import P2pnas.Node.Spread

/-!
# Where the shards of an upload end up (`handlers/files.rs:370-435`)

Every shard is offered to the peer of the plan and then to the next two, each task by itself. What
a peer holds of a chunk is what it accepts of its own part of the plan, which the plan keeps below
the cap, and what it accepts after the one or two peers before it refused it.
-/

namespace P2pnas.Node.Failover
open P2pnas.Lib.Frames P2pnas.Lib.Strings P2pnas.Lib.Tables P2pnas.Core.Erasure
open P2pnas.Store.Manifest P2pnas.Store.Service P2pnas.Node.Peers P2pnas.Node.Placement
open P2pnas.Node.Spread

/-- The plan of a stored file: a fragment id names one shard, and so does an index within a chunk. -/
structure StoredPlan where
  chunks : List (ChunkRow × List ShardRow)
  fragments : ((chunks.flatMap Prod.snd).map ShardRow.fragmentId).Nodup
  indices : ∀ c ∈ chunks, (c.2.map fun s => asU64 s.shardIndex).Nodup

/-- The distribution of a stored file. -/
def ofFile (up : Upload) (f : StoredPlan) : Upload := { up with plan := some f.chunks }

section
variable (sc : Scores) (zoneOfAddr : Text → Option Text) (me : Text) (allow : List Text) (t : PeerTable)
  (up : Upload)

/-- The peers that answered, of those that cleared the vetting. -/
def liveOf : List (PeerRow × ℤ) :=
  let rows := (t.others up.readsPeers me).filter fun r => r.status ≠ DOWN
  livePeers up.rtt ((if allow.isEmpty then (some rows, t) else vetPeers allow up rows t).1.getD [])

def hosts : List PeerRow := (liveOf me allow t up).map Prod.fst

def layoutOf : List (Option ℕ) :=
  planPlacementZoned sc (candidates zoneOfAddr (liveOf me allow t up)) none PARITY_SHARDS TOTAL_SHARDS

/-- The peer the plan has for a shard. -/
def primaryOf (s : ShardRow) : Option ℕ :=
  (layoutOf sc zoneOfAddr me allow t up)[asU64 s.shardIndex]?.join

/-- The offset of the first peer asked that accepts a fragment. -/
def firstAck (n : ℕ) (acks : ℕ → Bool) : Option ℕ := (List.range (min n 3)).find? acks

/-- The peer that ends up with a shard. -/
def hostOf (s : ShardRow) : Option ℕ :=
  (primaryOf sc zoneOfAddr me allow t up s).bind fun p =>
    (up.readLocal s.fragmentId).bind fun _ =>
      (firstAck (hosts me allow t up).length (up.acks s.fragmentId)).map fun off =>
        (p + off) % (hosts me allow t up).length

/-- The shards of a chunk that a peer accepts of its part of the plan. -/
def kept (shards : List ShardRow) (j : ℕ) : ℕ :=
  shards.countP fun s => primaryOf sc zoneOfAddr me allow t up s = some j &&
    (up.readLocal s.fragmentId).isSome && up.acks s.fragmentId 0

/-- The answers to a shard planned for the peer `p` of `n`: the peer `j` is one of the three asked,
the peers before it refuse and it accepts. -/
def comesTo (n p j : ℕ) (s : ShardRow) : Bool :=
  (j + n - p) % n < 3 && up.acks s.fragmentId ((j + n - p) % n) &&
    (List.range ((j + n - p) % n)).all fun d => !up.acks s.fragmentId d

/-- The shards of a chunk planned for other peers that come to this one by their refusals. -/
def spilled (shards : List ShardRow) (j : ℕ) : ℕ :=
  shards.countP fun s => match primaryOf sc zoneOfAddr me allow t up s with
    | some p => p ≠ j && (up.readLocal s.fragmentId).isSome && comesTo up (hosts me allow t up).length p j s
    | none => false

/-- How many of the shards a distribution moved to a peer. -/
def movedTo (d : Distributed) (shards : List ShardRow) (peerId : Text) : ℕ :=
  shards.countP fun s => d.moved.contains (s.fragmentId, peerId)

end

/-! ### The peers asked -/

section
variable {sc : Scores} {zoneOfAddr : Text → Option Text} {me : Text} {allow : List Text} {t : PeerTable}
  {up : Upload}

theorem vetPeers_sublist {rows kept : List PeerRow} {t : PeerTable}
    (h : (vetPeers allow up rows t).1 = some kept) : kept.Sublist rows := by
  induction rows generalizing t kept with
  | nil =>
    cases h
    exact .slnil
  | cons r rs ih =>
    have hhead : ∀ (t' : PeerTable) (b : Bool),
        ((vetPeers allow up rs t').1.map fun kept => if b then r :: kept else kept) = some kept →
          kept.Sublist (r :: rs) := by
      intro t' b hkept
      obtain ⟨kept', hk', rfl⟩ := Option.map_eq_some_iff.mp hkept
      split
      · exact (ih hk').cons_cons r
      · exact (ih hk').cons r
    rw [vetPeers] at h
    cases hc : r.country with
    | some c =>
      rw [hc] at h
      exact hhead t _ h
    | none =>
      rw [hc] at h
      cases hg : up.geo r with
      | unavailable =>
        rw [hg] at h
        cases h
      | resolved country =>
        rw [hg] at h
        exact hhead _ _ h

theorem hosts_nodup : ((hosts me allow t up).map PeerRow.peerId).Nodup := by
  have hothers : (t.others up.readsPeers me).Sublist t.rows := by
    rw [PeerTable.others]
    split
    · exact List.filter_sublist
    · exact List.nil_sublist _
  have hrows : ((if allow.isEmpty then
        (some ((t.others up.readsPeers me).filter fun r => r.status ≠ DOWN), t)
      else vetPeers allow up ((t.others up.readsPeers me).filter fun r => r.status ≠ DOWN) t).1.getD
        []).Sublist t.rows := by
    split
    · exact List.filter_sublist.trans hothers
    · cases hv : (vetPeers allow up ((t.others up.readsPeers me).filter fun r => r.status ≠ DOWN) t).1 with
      | none => exact List.nil_sublist _
      | some kept => exact (vetPeers_sublist hv).trans (List.filter_sublist.trans hothers)
  rw [hosts, liveOf, List.map_map]
  refine (livePeers_ids up.rtt _).nodup_iff.mpr ?_
  exact ((List.filter_sublist.trans hrows).map _).nodup t.unique

theorem layoutOf_valid {j : ℕ} (h : some j ∈ layoutOf sc zoneOfAddr me allow t up) :
    j < (hosts me allow t up).length := by
  have hlt := (planPlacementZoned_spec sc _ none TOTAL_SHARDS PARITY_SHARDS).2.1 j h
  rw [candidates, List.length_map] at hlt
  rw [hosts, List.length_map]
  exact hlt

theorem primaryOf_lt {s : ShardRow} {j : ℕ} (h : primaryOf sc zoneOfAddr me allow t up s = some j) :
    j < (hosts me allow t up).length :=
  layoutOf_valid (List.mem_of_getElem? (Option.join_eq_some_iff.mp h))

/-! ### One shard -/

/-- A shard goes to the first peer in turn that accepts it. -/
theorem tryPeers_host {peers : List PeerRow} {acks : ℕ → Bool} {pl : Planned} {data : Bytes}
    (hne : 0 < peers.length) (offs : List ℕ) :
    (tryPeers peers acks pl data offs).2 =
      (offs.find? acks).bind fun off =>
        peers[(pl.primary + off) % peers.length]?.map PeerRow.peerId := by
  induction offs with
  | nil => rfl
  | cons off offs ih =>
    have hlt : (pl.primary + off) % peers.length < peers.length := Nat.mod_lt _ hne
    rw [tryPeers, List.getElem?_eq_getElem hlt]
    dsimp only
    cases hack : acks off with
    | true =>
      rw [if_pos rfl, List.find?_cons_of_pos hack, Option.bind_some, List.getElem?_eq_getElem hlt,
        Option.map_some]
    | false =>
      rw [if_neg Bool.false_ne_true, List.find?_cons_of_neg (by rw [hack]; exact Bool.false_ne_true)]
      exact ih

theorem hostOf_lt {s : ShardRow} {j : ℕ} (h : hostOf sc zoneOfAddr me allow t up s = some j) :
    j < (hosts me allow t up).length := by
  obtain ⟨p, hp, hrest⟩ := Option.bind_eq_some_iff.mp h
  obtain ⟨data, -, hoff⟩ := Option.bind_eq_some_iff.mp hrest
  obtain ⟨off, -, rfl⟩ := Option.map_eq_some_iff.mp hoff
  exact Nat.mod_lt _ (Nat.zero_lt_of_lt (primaryOf_lt hp))

/-- How far a peer is from another one in the ring. -/
theorem offset_iff {n p j off : ℕ} (hp : p < n) (hj : j < n) (hoff : off < n) :
    (p + off) % n = j ↔ off = (j + n - p) % n := by
  have hleft : (p + off) % n = if p + off < n then p + off else p + off - n := by
    split
    · next h => exact Nat.mod_eq_of_lt h
    · next h => rw [Nat.mod_eq_sub_mod (Nat.not_lt.mp h), Nat.mod_eq_of_lt (by omega)]
  have hright : (j + n - p) % n = if j < p then j + n - p else j - p := by
    split
    · next h => exact Nat.mod_eq_of_lt (by omega)
    · next h =>
      rw [Nat.mod_eq_sub_mod (by omega), Nat.mod_eq_of_lt (by omega)]
      omega
  rw [hleft, hright]
  split
  · split <;> omega
  · split <;> omega

/-- A shard ends up with the first of the peers asked that accepts it. -/
theorem hostOf_iff {s : ShardRow} {p j : ℕ} (hp : primaryOf sc zoneOfAddr me allow t up s = some p)
    (hj : j < (hosts me allow t up).length) :
    hostOf sc zoneOfAddr me allow t up s = some j ↔
      (up.readLocal s.fragmentId).isSome = true ∧ comesTo up (hosts me allow t up).length p j s = true := by
  have hplt := primaryOf_lt hp
  have hring : (j + (hosts me allow t up).length - p) % (hosts me allow t up).length <
      (hosts me allow t up).length := Nat.mod_lt _ (Nat.zero_lt_of_lt hj)
  unfold comesTo
  rw [hostOf, hp, Option.bind_some, Bool.and_eq_true, Bool.and_eq_true, decide_eq_true_eq]
  constructor
  · intro h
    obtain ⟨data, hdata, hoff⟩ := Option.bind_eq_some_iff.mp h
    obtain ⟨off, hfind, hmod⟩ := Option.map_eq_some_iff.mp hoff
    obtain ⟨hack, hmem, hbefore⟩ := List.find?_range_eq_some.mp hfind
    have hlt := List.mem_range.mp hmem
    have hat := (offset_iff hplt hj (by omega)).mp hmod
    rw [← hat]
    refine ⟨by rw [hdata]; rfl, ⟨by omega, hack⟩, List.all_eq_true.mpr fun d hd => ?_⟩
    exact hbefore d (List.mem_range.mp hd)
  · rintro ⟨hread, ⟨hthree, hack⟩, hbefore⟩
    obtain ⟨data, hdata⟩ := Option.isSome_iff_exists.mp hread
    have hfirst : firstAck (hosts me allow t up).length (up.acks s.fragmentId) =
        some ((j + (hosts me allow t up).length - p) % (hosts me allow t up).length) := by
      refine List.find?_range_eq_some.mpr ⟨hack, List.mem_range.mpr (by omega), fun d hd => ?_⟩
      exact List.all_eq_true.mp hbefore d (List.mem_range.mpr hd)
    rw [hdata, Option.bind_some, hfirst, Option.map_some, (offset_iff hplt hj hring).mpr rfl]

/-- Of its own part a peer gets what it accepts at once. -/
theorem comesTo_self {n j : ℕ} (s : ShardRow) :
    comesTo up n j j s = up.acks s.fragmentId 0 := by
  have hzero : (j + n - j) % n = 0 := by rw [Nat.add_sub_cancel_left, Nat.mod_self]
  rw [comesTo, hzero]
  simp

theorem countP_host (shards : List ShardRow) {j : ℕ} (hj : j < (hosts me allow t up).length) :
    shards.countP (fun s => hostOf sc zoneOfAddr me allow t up s = some j) =
      kept sc zoneOfAddr me allow t up shards j + spilled sc zoneOfAddr me allow t up shards j := by
  induction shards with
  | nil => rfl
  | cons s shards ih =>
    rw [kept, spilled, List.countP_cons, List.countP_cons, List.countP_cons, ih, kept, spilled]
    cases hp : primaryOf sc zoneOfAddr me allow t up s with
    | none =>
      have hnone : hostOf sc zoneOfAddr me allow t up s = none := by rw [hostOf, hp, Option.bind_none]
      simp [hnone]
    | some p =>
      have hhost : decide (hostOf sc zoneOfAddr me allow t up s = some j) =
          ((up.readLocal s.fragmentId).isSome && comesTo up (hosts me allow t up).length p j s) := by
        rw [Bool.eq_iff_iff, decide_eq_true_eq, Bool.and_eq_true, hostOf_iff hp hj]
      rw [hhost]
      by_cases hpj : p = j
      · subst hpj
        rw [comesTo_self]
        simp [Nat.add_right_comm]
      · simp [hpj, Nat.add_assoc]

/-! ### The whole distribution -/

theorem liveOf_empty (h : liveOf me allow t up = []) (s : ShardRow) :
    hostOf sc zoneOfAddr me allow t up s = none := by
  cases hhost : hostOf sc zoneOfAddr me allow t up s with
  | none => rfl
  | some j =>
    have hlt := hostOf_lt hhost
    rw [hosts, h] at hlt
    exact absurd hlt (Nat.not_lt_zero j)

/-- What moves is decided shard by shard. -/
theorem distributeShards_moved {plan : List (ChunkRow × List ShardRow)} (hplan : up.plan = some plan) :
    (distributeShards sc zoneOfAddr me allow t up).moved = (plan.flatMap Prod.snd).filterMap fun s =>
      (hostOf sc zoneOfAddr me allow t up s).bind fun j =>
        (hosts me allow t up)[j]?.map fun r => (s.fragmentId, r.peerId) := by
  have hnone : liveOf me allow t up = [] → (plan.flatMap Prod.snd).filterMap (fun s =>
      (hostOf sc zoneOfAddr me allow t up s).bind fun j =>
        (hosts me allow t up)[j]?.map fun r => (s.fragmentId, r.peerId)) = [] := fun h =>
    List.filterMap_eq_nil_iff.mpr fun s _ => by rw [liveOf_empty h, Option.bind_none]
  simp only [distributeShards, hplan]
  split
  · next hv =>
    have hlive : liveOf me allow t up = [] := by
      simp only [liveOf]
      rw [hv]
      rfl
    rw [hnone hlive]
  · next kept hv =>
    have hkept : livePeers up.rtt kept = liveOf me allow t up := by
      simp only [liveOf]
      rw [hv]
      rfl
    rw [hkept]
    split
    · next hempty =>
      rw [hnone (List.isEmpty_iff.mp hempty)]
    · next hempty =>
      have hpos : 0 < (hosts me allow t up).length := by
        rw [hosts, List.length_map]
        exact List.length_pos_iff.mpr fun h => hempty (List.isEmpty_iff.mpr h)
      rw [plannedShards, List.filterMap_filterMap, List.filterMap_filterMap]
      refine List.filterMap_congr fun s _ => ?_
      rw [hostOf, primaryOf, layoutOf]
      cases hp : (planPlacementZoned sc (candidates zoneOfAddr (liveOf me allow t up)) none PARITY_SHARDS
          TOTAL_SHARDS)[asU64 s.shardIndex]?.join with
      | none => rfl
      | some p =>
        cases hread : up.readLocal s.fragmentId with
        | none => simp [hread]
        | some data =>
          have hhost := @tryPeers_host _ (up.acks s.fragmentId) ⟨s.fragmentId, p, s.shardIndex⟩ data hpos
            (List.range (min (hosts me allow t up).length 3))
          simp only [Option.map_some, Option.bind_some, hread]
          rw [← hosts, hhost, firstAck]
          cases (List.range (min (hosts me allow t up).length 3)).find? (up.acks s.fragmentId) with
          | none => rfl
          | some off => simp [Option.map_map, Function.comp_def]

/-- Different indices at which a list has a value are at most its occurrences. -/
theorem countP_indices_le {layout : List (Option ℕ)} {is : List ℕ} (hn : is.Nodup) (j : ℕ) :
    is.countP (fun i => layout[i]?.join = some j) ≤ layout.count (some j) := by
  have hlayout : layout = (List.range layout.length).map fun i => layout[i]?.join := by
    refine List.ext_getElem (by simp) fun i hi _ => ?_
    simp [List.getElem?_eq_getElem hi]
  have hcount : layout.count (some j) =
      ((List.range layout.length).filter fun i => layout[i]?.join = some j).length := by
    rw [← List.countP_eq_length_filter]
    conv_lhs => rw [hlayout, List.count, List.countP_map]
    refine List.countP_congr fun i _ => ?_
    simp
  rw [hcount, List.countP_eq_length_filter]
  refine ((hn.filter _).subperm fun i hi => ?_).length_le
  obtain ⟨-, hj⟩ := List.mem_filter.mp hi
  refine List.mem_filter.mpr ⟨List.mem_range.mpr ?_, hj⟩
  by_contra hlt
  rw [List.getElem?_eq_none (Nat.not_lt.mp hlt)] at hj
  simp at hj

/-- The plan keeps every peer's own part below the cap. -/
theorem kept_le {shards : List ShardRow} (hn : (shards.map fun s => asU64 s.shardIndex).Nodup) (j : ℕ) :
    kept sc zoneOfAddr me allow t up shards j ≤ PARITY_SHARDS := by
  have hcap := (planPlacementZoned_spec sc (candidates zoneOfAddr (liveOf me allow t up)) none
    TOTAL_SHARDS PARITY_SHARDS).2.2.peer j
  have hindices := @countP_indices_le (layoutOf sc zoneOfAddr me allow t up) _ hn j
  rw [List.countP_map] at hindices
  have hmono : kept sc zoneOfAddr me allow t up shards j ≤
      shards.countP ((fun i => decide ((layoutOf sc zoneOfAddr me allow t up)[i]?.join = some j)) ∘
        fun s => asU64 s.shardIndex) := by
    refine List.countP_mono_left fun s _ hs => ?_
    rw [Bool.and_assoc, Bool.and_eq_true] at hs
    exact hs.1
  exact hmono.trans (hindices.trans hcap)

/-- Nothing spills where every shard is accepted at once or by no peer asked. -/
theorem spilled_none {shards : List ShardRow} {j : ℕ} (hj : j < (hosts me allow t up).length)
    (h : ∀ s ∈ shards, up.acks s.fragmentId 0 = true ∨
      up.acks s.fragmentId 1 = false ∧ up.acks s.fragmentId 2 = false) :
    spilled sc zoneOfAddr me allow t up shards j = 0 := by
  refine List.countP_eq_zero.mpr fun s hs hspill => ?_
  cases hp : primaryOf sc zoneOfAddr me allow t up s with
  | none => simp [hp] at hspill
  | some p =>
    simp only [hp, Bool.and_eq_true, decide_eq_true_eq, comesTo] at hspill
    obtain ⟨⟨hpj, -⟩, ⟨hthree, hack⟩, hbefore⟩ := hspill
    have hdist : 0 < (j + (hosts me allow t up).length - p) % (hosts me allow t up).length := by
      refine Nat.pos_of_ne_zero fun hzero => hpj ?_
      have hplt := primaryOf_lt hp
      have hback := (offset_iff hplt hj (Nat.zero_lt_of_lt hj)).mpr hzero.symm
      rwa [Nat.add_zero, Nat.mod_eq_of_lt hplt] at hback
    rcases h s hs with hfirst | ⟨hone, htwo⟩
    · have hrefused := List.all_eq_true.mp hbefore 0 (List.mem_range.mpr hdist)
      rw [hfirst] at hrefused
      cases hrefused
    · generalize (j + (hosts me allow t up).length - p) % (hosts me allow t up).length = d at *
      have hd : d = 1 ∨ d = 2 := by omega
      rcases hd with rfl | rfl
      · rw [hone] at hack
        cases hack
      · rw [htwo] at hack
        cases hack

variable {f : StoredPlan}

/-- A peer received a shard of the file exactly when it is the shard's host. -/
theorem moved_iff (hplan : up.plan = some f.chunks) {s : ShardRow} (hs : s ∈ f.chunks.flatMap Prod.snd)
    (peerId : Text) :
    (s.fragmentId, peerId) ∈ (distributeShards sc zoneOfAddr me allow t up).moved ↔
      ∃ j, hostOf sc zoneOfAddr me allow t up s = some j ∧
        (hosts me allow t up)[j]?.map PeerRow.peerId = some peerId := by
  rw [distributeShards_moved hplan, List.mem_filterMap]
  constructor
  · rintro ⟨s', hs', hmoved⟩
    obtain ⟨j, hj, hpair⟩ := Option.bind_eq_some_iff.mp hmoved
    obtain ⟨r, hr, heq⟩ := Option.map_eq_some_iff.mp hpair
    obtain ⟨hfrag, hid⟩ := Prod.mk.inj heq
    cases eq_of_key f.fragments hs' hs hfrag
    exact ⟨j, hj, by rw [hr, Option.map_some, hid]⟩
  · rintro ⟨j, hj, hid⟩
    obtain ⟨r, hr, rfl⟩ := Option.map_eq_some_iff.mp hid
    exact ⟨s, hs, by rw [hj, Option.bind_some, hr, Option.map_some]⟩

/-- What a peer holds of a chunk. -/
theorem movedTo_host (hplan : up.plan = some f.chunks) {c : ChunkRow × List ShardRow}
    (hc : c ∈ f.chunks) {j : ℕ} {r : PeerRow} (hr : (hosts me allow t up)[j]? = some r) :
    movedTo (distributeShards sc zoneOfAddr me allow t up) c.2 r.peerId =
      kept sc zoneOfAddr me allow t up c.2 j + spilled sc zoneOfAddr me allow t up c.2 j := by
  rw [movedTo, ← countP_host c.2 (List.getElem?_eq_some_iff.mp hr).1]
  refine List.countP_congr fun s hs => ?_
  rw [List.contains_iff_mem, moved_iff hplan (List.mem_flatMap.mpr ⟨c, hc, hs⟩), decide_eq_true_eq]
  constructor
  · rintro ⟨k, hk, hid⟩
    obtain ⟨r', hr', hid'⟩ := Option.map_eq_some_iff.mp hid
    obtain ⟨hjlt, hj⟩ := List.getElem?_eq_some_iff.mp hr
    obtain ⟨hklt, hk'⟩ := List.getElem?_eq_some_iff.mp hr'
    have hsame : k = j := by
      have hids : ((hosts me allow t up).map PeerRow.peerId)[k]? =
          ((hosts me allow t up).map PeerRow.peerId)[j]? := by
        rw [List.getElem?_map, List.getElem?_map, hr, hr', Option.map_some, Option.map_some, hid']
      refine (List.getElem?_inj ?_ hosts_nodup).mp hids
      rw [List.length_map]
      exact hklt
    rw [← hsame]
    exact hk
  · intro hj
    exact ⟨j, hj, by rw [hr, Option.map_some]⟩

/-- A distribution keeps every peer below the cap of every chunk exactly when no peer accepts more
refused shards than its own part of the plan, as far as it accepted that, leaves free. That is so
where every shard is accepted by the peer of the plan, or by neither of the two after it. -/
theorem distribute_capped_iff (sc : Scores) (zoneOfAddr : Text → Option Text) (me : Text)
    (allow : List Text) (t : PeerTable) (up : Upload) (f : StoredPlan) :
    ((∀ c ∈ f.chunks, ∀ peerId,
      movedTo (distributeShards sc zoneOfAddr me allow t (ofFile up f)) c.2 peerId ≤ PARITY_SHARDS) ↔
    ∀ c ∈ f.chunks, ∀ j < (hosts me allow t (ofFile up f)).length,
      spilled sc zoneOfAddr me allow t (ofFile up f) c.2 j ≤
        PARITY_SHARDS - kept sc zoneOfAddr me allow t (ofFile up f) c.2 j) ∧
    ((∀ c ∈ f.chunks, ∀ s ∈ c.2, up.acks s.fragmentId 0 = true ∨
        up.acks s.fragmentId 1 = false ∧ up.acks s.fragmentId 2 = false) →
      ∀ c ∈ f.chunks, ∀ peerId,
        movedTo (distributeShards sc zoneOfAddr me allow t (ofFile up f)) c.2 peerId ≤ PARITY_SHARDS) := by
  have hiff : (∀ c ∈ f.chunks, ∀ peerId,
      movedTo (distributeShards sc zoneOfAddr me allow t (ofFile up f)) c.2 peerId ≤ PARITY_SHARDS) ↔
      ∀ c ∈ f.chunks, ∀ j < (hosts me allow t (ofFile up f)).length,
        spilled sc zoneOfAddr me allow t (ofFile up f) c.2 j ≤
          PARITY_SHARDS - kept sc zoneOfAddr me allow t (ofFile up f) c.2 j := by
    constructor
    · intro h c hc j hj
      have hr := List.getElem?_eq_getElem hj
      have hle := h c hc (hosts me allow t (ofFile up f))[j].peerId
      rw [movedTo_host rfl hc hr] at hle
      omega
    · intro h c hc peerId
      by_cases hpeer : ∃ (j : ℕ) (r : PeerRow),
          (hosts me allow t (ofFile up f))[j]? = some r ∧ r.peerId = peerId
      · obtain ⟨j, r, hr, rfl⟩ := hpeer
        rw [movedTo_host rfl hc hr]
        have hkept := @kept_le sc zoneOfAddr me allow t (ofFile up f) c.2 (f.indices c hc) j
        have hspilled := h c hc j (List.getElem?_eq_some_iff.mp hr).1
        omega
      · have hzero : movedTo (distributeShards sc zoneOfAddr me allow t (ofFile up f)) c.2 peerId = 0 := by
          refine List.countP_eq_zero.mpr fun s hs hin => hpeer ?_
          obtain ⟨j, -, hid⟩ := (moved_iff rfl (List.mem_flatMap.mpr ⟨c, hc, hs⟩) peerId).mp
            (List.contains_iff_mem.mp hin)
          obtain ⟨r, hr, hid'⟩ := Option.map_eq_some_iff.mp hid
          exact ⟨j, r, hr, hid'⟩
        rw [hzero]
        exact Nat.zero_le _
  refine ⟨hiff, fun hwilling => hiff.mpr fun c hc j hj => ?_⟩
  rw [spilled_none hj (hwilling c hc)]
  exact Nat.zero_le _

end

/-! Two peers, the first of which refuses every shard. -/

def refusalPeers : PeerTable where
  rows := [⟨['a'], [], [], none, none, 0⟩, ⟨['b'], [], [], none, none, 0⟩]
  unique := by decide

def newFile : StoredPlan where
  chunks := [(⟨['k'], ['f'], 0, [], false, 1, 1, 1⟩,
    (List.range TOTAL_SHARDS).map fun i => ⟨[Char.ofNat (97 + i)], ['k'], i, LOCAL, []⟩)]
  fragments := by decide
  indices := by decide

/-- The plan has the shards `b`, `e`, `h` and `k` for the first peer. -/
def refusingUpload : Upload where
  readsPeers := true
  geo := fun _ => .unavailable
  records := fun _ => true
  rtt := fun r => if r.peerId = ['a'] then some 1 else some 2
  plan := none
  readLocal := fun _ => some [0]
  acks := fun frag off => off = 1 || frag ∉ [['b'], ['e'], ['h'], ['k']]

/-- The upload with peers that accept every shard. -/
def willingUpload : Upload := { refusingUpload with acks := fun _ _ => true }

theorem willing_capped :
    (∀ c ∈ newFile.chunks, ∀ peerId, movedTo (distributeShards ⟨fun _ _ _ n => n, fun _ n => n⟩
      (fun _ => none) ['n'] [] refusalPeers (ofFile willingUpload newFile)) c.2 peerId ≤ PARITY_SHARDS) ∧
    newFile.chunks.map (fun c => movedTo (distributeShards ⟨fun _ _ _ n => n, fun _ n => n⟩
      (fun _ => none) ['n'] [] refusalPeers (ofFile willingUpload newFile)) c.2 ['b']) = [4] := by
  refine ⟨(distribute_capped_iff ⟨fun _ _ _ n => n, fun _ n => n⟩ (fun _ => none) ['n'] [] refusalPeers
    willingUpload newFile).2 fun _ _ _ _ => .inl rfl, by decide +kernel⟩

/-- The second peer gets its own four shards and the four of the first; the scores count the shards
already there. -/
theorem refused_overflow : ¬ ∀ c ∈ newFile.chunks, ∀ peerId,
    movedTo (distributeShards ⟨fun _ _ _ n => n, fun _ n => n⟩ (fun _ => none) ['n'] [] refusalPeers
      (ofFile refusingUpload newFile)) c.2 peerId ≤ PARITY_SHARDS := by
  intro h
  have hle := h _ (List.mem_singleton.mpr rfl) ['b']
  have hcount : movedTo (distributeShards ⟨fun _ _ _ n => n, fun _ n => n⟩ (fun _ => none) ['n'] []
      refusalPeers (ofFile refusingUpload newFile))
      ((List.range TOTAL_SHARDS).map fun i => ⟨[Char.ofNat (97 + i)], ['k'], i, LOCAL, []⟩) ['b'] = 8 := by
    decide +kernel
  rw [hcount] at hle
  exact absurd hle (by decide)

end P2pnas.Node.Failover
