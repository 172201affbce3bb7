import Mathlib.Algebra.BigOperators.Fin
import Mathlib.Algebra.Order.BigOperators.Group.Finset
import P2pnas.Lib.Tally
import P2pnas.Node.Placement

/-!
# The caps of a placement plan (`placement.rs:117-216`)

The counters of the greedy are counts over the plan made so far. A location is open under a cap
when it has room below the cap, and so has its zone if zones are honoured. Each shard goes to an
open location, the zone caps being dropped where nothing else is open, or stays on this node
where nothing is open at all.
-/

namespace P2pnas.Node.Spread
open P2pnas.Lib.Strings P2pnas.Node.Placement

section
variable (peers : List PeerCandidate) (selfZone : Option Text)

/-- The zone key of a location, `none` being this node. -/
def keyOf : Option ℕ → Text
  | none => selfKey selfZone
  | some i =>
    match peers[i]? with
    | some p => zoneKey i p
    | none => []

/-- The distinct zone keys, the owner's included. -/
def zoneKeys : Finset Text :=
  ((none :: (List.range peers.length).map some).map (keyOf peers selfZone)).toFinset

/-- How many shards of a plan lie in a zone. -/
def inZone (plan : List (Option ℕ)) (z : Text) : ℕ := plan.countP fun l => keyOf peers selfZone l = z

/-- One more shard at a location. -/
def bump (c : Counts) : Option ℕ → Counts
  | some i => { c with
      peer := fun j => if j = i then c.peer j + 1 else c.peer j
      zone := fun z => if z = keyOf peers selfZone (some i) then c.zone z + 1 else c.zone z }
  | none => { c with
      self := c.self + 1
      zone := fun z => if z = keyOf peers selfZone none then c.zone z + 1 else c.zone z }

/-- A location has room, and so has its zone where zones are honoured. -/
structure Open (parity : ℕ) (honorZones : Bool) (c : Counts) (l : Option ℕ) : Prop where
  valid : ∀ i, l = some i → i < peers.length
  room : ∀ i, l = some i → c.peer i < parity
  own : l = none → c.self < parity
  zone : honorZones = true → c.zone (keyOf peers selfZone l) < parity

end

section
variable {sc : Scores} {peers : List PeerCandidate} {selfZone : Option Text} {parity : ℕ}
  {honorZones : Bool} {c : Counts}

/-! ### The best location -/

/-- What one peer contributes to the search. -/
def consider (sc : Scores) (peers : List PeerCandidate) (parity : ℕ) (honorZones : Bool) (c : Counts)
    (best : Option (Option ℕ × ℤ)) (pi : PeerCandidate × ℕ) : Option (Option ℕ × ℤ) :=
  if parity ≤ c.peer pi.2 then best
  else if honorZones && parity ≤ c.zone (zoneKey pi.2 pi.1) then best
  else
    let score := sc.peer peers parity pi.2 (c.peer pi.2)
    if best.all (fun b => score < b.2) then some (some pi.2, score) else best

theorem keyOf_zipIdx {pi : PeerCandidate × ℕ} (h : pi ∈ peers.zipIdx) :
    pi.2 < peers.length ∧ keyOf peers selfZone (some pi.2) = zoneKey pi.2 pi.1 := by
  have hget := List.mem_zipIdx_iff_getElem?.mp h
  refine ⟨(List.getElem?_eq_some_iff.mp hget).1, ?_⟩
  simp only [keyOf, hget]

theorem consider_cases {best : Option (Option ℕ × ℤ)} {pi : PeerCandidate × ℕ} (h : pi ∈ peers.zipIdx) :
    consider sc peers parity honorZones c best pi = best ∨
      ∃ s, consider sc peers parity honorZones c best pi = some (some pi.2, s) ∧
        Open peers selfZone parity honorZones c (some pi.2) := by
  obtain ⟨hlt, hkey⟩ := @keyOf_zipIdx _ selfZone _ h
  rw [consider]
  split
  · exact .inl rfl
  · next hroom =>
    split
    · exact .inl rfl
    · next hzone =>
      dsimp only
      split
      · refine .inr ⟨_, rfl, ?_, ?_, nofun, fun hz => ?_⟩
        · rintro i ⟨⟩
          exact hlt
        · rintro i ⟨⟩
          exact Nat.not_le.mp hroom
        · rw [hz, Bool.true_and, decide_eq_true_eq] at hzone
          rw [hkey]
          exact Nat.not_le.mp hzone
      · exact .inl rfl

theorem consider_open {best : Option (Option ℕ × ℤ)} {pi : PeerCandidate × ℕ} (h : pi ∈ peers.zipIdx)
    (hopen : Open peers selfZone parity honorZones c (some pi.2)) :
    (consider sc peers parity honorZones c best pi).isSome = true := by
  obtain ⟨-, hkey⟩ := @keyOf_zipIdx _ selfZone _ h
  have hzone : (honorZones && decide (parity ≤ c.zone (zoneKey pi.2 pi.1))) = false := by
    cases honorZones with
    | false => rfl
    | true =>
      have hlt := hopen.zone rfl
      rw [hkey] at hlt
      rw [Bool.true_and, decide_eq_false (Nat.not_le.mpr hlt)]
  rw [consider, if_neg (Nat.not_le.mpr (hopen.room pi.2 rfl)), hzone, if_neg Bool.false_ne_true]
  cases best with
  | none => rfl
  | some b =>
    dsimp only
    split
    · rfl
    · rfl

theorem foldl_consider {l : List (PeerCandidate × ℕ)} (hl : ∀ pi ∈ l, pi ∈ peers.zipIdx)
    {best : Option (Option ℕ × ℤ)}
    (hbest : ∀ b ∈ best, Open peers selfZone parity honorZones c b.1) :
    (∀ b ∈ l.foldl (consider sc peers parity honorZones c) best,
        Open peers selfZone parity honorZones c b.1) ∧
      ((best.isSome = true ∨ ∃ pi ∈ l, Open peers selfZone parity honorZones c (some pi.2)) →
        (l.foldl (consider sc peers parity honorZones c) best).isSome = true) := by
  induction l generalizing best with
  | nil => exact ⟨hbest, fun h => h.elim id fun ⟨_, hm, _⟩ => absurd hm List.not_mem_nil⟩
  | cons pi l ih =>
    have hpi := hl pi (List.mem_cons_self ..)
    have hnext : ∀ b ∈ consider sc peers parity honorZones c best pi,
        Open peers selfZone parity honorZones c b.1 := by
      intro b hb
      rcases @consider_cases sc _ selfZone parity honorZones c best _ hpi with heq | ⟨s, heq, hopen⟩
      · exact hbest b (heq ▸ hb)
      · rw [heq] at hb
        cases hb
        exact hopen
    obtain ⟨hall, hsome⟩ := ih (fun q hq => hl q (List.mem_cons_of_mem pi hq)) hnext
    refine ⟨hall, fun h => hsome ?_⟩
    rcases h with hs | ⟨q, hq, hopen⟩
    · left
      rcases @consider_cases sc _ selfZone parity honorZones c best _ hpi with heq | ⟨s, heq, -⟩
      · rw [heq]
        exact hs
      · rw [heq]
        rfl
    · rcases List.mem_cons.mp hq with rfl | hq
      · exact .inl (consider_open hpi hopen)
      · exact .inr ⟨q, hq, hopen⟩

theorem bestLocation_spec :
    (∀ b ∈ bestLocation sc peers selfZone parity honorZones c,
        Open peers selfZone parity honorZones c b.1) ∧
      ((∃ l, Open peers selfZone parity honorZones c l) →
        (bestLocation sc peers selfZone parity honorZones c).isSome = true) := by
  have hfold := fun best => @foldl_consider sc peers selfZone parity honorZones c peers.zipIdx
    (fun _ h => h) best
  rw [bestLocation]
  by_cases hown : Open peers selfZone parity honorZones c none
  · have hcond : (decide (c.self < parity) &&
        (!honorZones || decide (c.zone (selfKey selfZone) < parity))) = true := by
      rw [decide_eq_true (hown.own rfl), Bool.true_and]
      cases honorZones with
      | false => rfl
      | true => exact decide_eq_true (hown.zone rfl)
    rw [if_pos hcond]
    obtain ⟨hall, hsome⟩ := hfold (some (none, sc.own parity c.self)) (by rintro b ⟨⟩; exact hown)
    exact ⟨hall, fun _ => hsome (.inl rfl)⟩
  · have hcond : (decide (c.self < parity) &&
        (!honorZones || decide (c.zone (selfKey selfZone) < parity))) = false := by
      rw [Bool.eq_false_iff]
      intro h
      rw [Bool.and_eq_true, decide_eq_true_eq] at h
      refine hown ⟨nofun, nofun, fun _ => h.1, fun hz => ?_⟩
      rw [hz] at h
      exact of_decide_eq_true h.2
    rw [hcond, if_neg Bool.false_ne_true]
    obtain ⟨hall, hsome⟩ := hfold none nofun
    refine ⟨hall, fun ⟨l, hopen⟩ => hsome (.inr ?_)⟩
    cases l with
    | none => exact absurd hopen hown
    | some i =>
      have hlt := hopen.valid i rfl
      refine ⟨(peers[i], i), ?_, hopen⟩
      exact List.mem_zipIdx_iff_getElem?.mpr (List.getElem?_eq_getElem hlt)

/-! ### One shard -/

/-- Where a shard goes: to a location that is open under all caps; where there is none, to one that
is open under its own; where there is none either, nowhere else. -/
inductive Chosen (peers : List PeerCandidate) (selfZone : Option Text) (parity : ℕ) (c : Counts) :
    Option ℕ → Prop
  | strict {l : Option ℕ} (isOpen : Open peers selfZone parity true c l) :
      Chosen peers selfZone parity c l
  | relaxed {l : Option ℕ} (full : ∀ l', ¬ Open peers selfZone parity true c l')
      (isOpen : Open peers selfZone parity false c l) : Chosen peers selfZone parity c l
  | overflow (full : ∀ l', ¬ Open peers selfZone parity false c l') : Chosen peers selfZone parity c none

theorem open_relax {l : Option ℕ} (h : Open peers selfZone parity true c l) :
    Open peers selfZone parity false c l := ⟨h.valid, h.room, h.own, nofun⟩

theorem placeOne_chosen : Chosen peers selfZone parity c (placeOne sc peers selfZone parity c).1 ∧
    (placeOne sc peers selfZone parity c).2 =
      bump peers selfZone c (placeOne sc peers selfZone parity c).1 := by
  obtain ⟨hstrict, hstrict'⟩ := @bestLocation_spec sc peers selfZone parity true c
  obtain ⟨hrelaxed, hrelaxed'⟩ := @bestLocation_spec sc peers selfZone parity false c
  have hchosen : Chosen peers selfZone parity c (((bestLocation sc peers selfZone parity true c).or
      (bestLocation sc peers selfZone parity false c)).bind Prod.fst) := by
    cases hs : bestLocation sc peers selfZone parity true c with
    | some b =>
      rw [Option.some_or, Option.bind_some]
      exact .strict (hstrict b (by rw [hs]; rfl))
    | none =>
      have hfull : ∀ l', ¬ Open peers selfZone parity true c l' := by
        intro l' hl'
        have hsome := hstrict' ⟨l', hl'⟩
        rw [hs] at hsome
        cases hsome
      cases hr : bestLocation sc peers selfZone parity false c with
      | some b =>
        rw [Option.none_or, Option.bind_some]
        exact .relaxed hfull (hrelaxed b (by rw [hr]; rfl))
      | none =>
        refine .overflow fun l' hl' => ?_
        have hsome := hrelaxed' ⟨l', hl'⟩
        rw [hr] at hsome
        cases hsome
  rw [placeOne]
  dsimp only
  generalize hl : ((bestLocation sc peers selfZone parity true c).or
    (bestLocation sc peers selfZone parity false c)).bind Prod.fst = l at hchosen
  cases l with
  | none => exact ⟨hchosen, rfl⟩
  | some i => exact ⟨hchosen, rfl⟩

theorem bump_peer (l : Option ℕ) (j : ℕ) :
    (bump peers selfZone c l).peer j = c.peer j + if l = some j then 1 else 0 := by
  cases l with
  | none => rfl
  | some i =>
    by_cases h : j = i
    · simp [bump, h]
    · simp [bump, h, Ne.symm h]

theorem bump_self (l : Option ℕ) :
    (bump peers selfZone c l).self = c.self + if l = none then 1 else 0 := by
  cases l with
  | none => rfl
  | some i => rfl

theorem bump_zone (l : Option ℕ) (z : Text) :
    (bump peers selfZone c l).zone z = c.zone z + if keyOf peers selfZone l = z then 1 else 0 := by
  by_cases h : z = keyOf peers selfZone l
  · cases l <;> simp [bump, h]
  · cases l <;> simp [bump, h, Ne.symm h]

/-! ### The whole plan -/

/-- The counters are the counts of the plan so far. -/
structure Tallied (peers : List PeerCandidate) (selfZone : Option Text) (plan : List (Option ℕ))
    (c : Counts) : Prop where
  peer : ∀ i, c.peer i = plan.count (some i)
  self : c.self = plan.count none
  zone : ∀ z, c.zone z = inZone peers selfZone plan z
  valid : ∀ i, some i ∈ plan → i < peers.length

theorem Tallied.snoc {plan : List (Option ℕ)} {l : Option ℕ} (h : Tallied peers selfZone plan c)
    (hl : ∀ i, l = some i → i < peers.length) :
    Tallied peers selfZone (plan ++ [l]) (bump peers selfZone c l) := by
  refine ⟨fun i => ?_, ?_, fun z => ?_, fun i hi => ?_⟩
  · rw [bump_peer, h.peer, List.count_append, List.count_singleton]
    simp
  · rw [bump_self, h.self, List.count_append, List.count_singleton]
    simp
  · rw [bump_zone, h.zone, inZone, inZone, List.countP_append, List.countP_singleton]
    simp
  · rcases List.mem_append.mp hi with hi | hi
    · exact h.valid i hi
    · exact hl i (List.mem_singleton.mp hi).symm

/-- The caps that a plan keeps. -/
structure Capped (peers : List PeerCandidate) (selfZone : Option Text) (parity : ℕ)
    (plan : List (Option ℕ)) : Prop where
  peer : ∀ i, plan.count (some i) ≤ parity
  own : parity < plan.count none → ∀ i < peers.length, plan.count (some i) = parity
  zone : plan.length ≤ parity * (zoneKeys peers selfZone).card →
    ∀ z, inZone peers selfZone plan z ≤ parity

theorem mem_zoneKeys {z : Text} : z ∈ zoneKeys peers selfZone ↔
    ∃ l : Option ℕ, (∀ i, l = some i → i < peers.length) ∧ keyOf peers selfZone l = z := by
  rw [zoneKeys, List.mem_toFinset, List.mem_map]
  constructor
  · rintro ⟨l, hl, rfl⟩
    refine ⟨l, ?_, rfl⟩
    rintro i rfl
    rcases List.mem_cons.mp hl with h | h
    · cases h
    · obtain ⟨j, hj, hji⟩ := List.mem_map.mp h
      cases hji
      exact List.mem_range.mp hj
  · rintro ⟨l, hl, rfl⟩
    refine ⟨l, ?_, rfl⟩
    cases l with
    | none => exact List.mem_cons_self ..
    | some i => exact List.mem_cons_of_mem _ (List.mem_map_of_mem (List.mem_range.mpr (hl i rfl)))

/-- Every shard lies in the zone of its location. -/
theorem sum_inZone {plan : List (Option ℕ)} (h : ∀ i, some i ∈ plan → i < peers.length) :
    ∑ z ∈ zoneKeys peers selfZone, inZone peers selfZone plan z = plan.length := by
  refine P2pnas.Lib.Tally.sum_countP (keyOf peers selfZone) fun l hl => mem_zoneKeys.mpr ⟨l, ?_, rfl⟩
  rintro i rfl
  exact h i hl

theorem count_le_inZone (plan : List (Option ℕ)) (l : Option ℕ) :
    plan.count l ≤ inZone peers selfZone plan (keyOf peers selfZone l) := by
  rw [List.count, inZone]
  refine List.countP_mono_left fun l' _ hl' => ?_
  rw [eq_of_beq hl']
  exact decide_eq_true rfl

/-- While some zone has room, a location in it is open under all caps. -/
theorem exists_open {plan : List (Option ℕ)} (ht : Tallied peers selfZone plan c)
    (hlen : plan.length < parity * (zoneKeys peers selfZone).card) :
    ∃ l, Open peers selfZone parity true c l := by
  have hsum : ∑ z ∈ zoneKeys peers selfZone, inZone peers selfZone plan z <
      ∑ _z ∈ zoneKeys peers selfZone, parity := by
    rw [sum_inZone ht.valid, Finset.sum_const, smul_eq_mul, Nat.mul_comm]
    exact hlen
  obtain ⟨z, hz, hlt⟩ := Finset.exists_lt_of_sum_lt hsum
  obtain ⟨l, hl, rfl⟩ := mem_zoneKeys.mp hz
  have hcount := Nat.lt_of_le_of_lt (count_le_inZone plan l) hlt
  refine ⟨l, hl, ?_, ?_, fun _ => by rw [ht.zone]; exact hlt⟩
  · rintro i rfl
    rw [ht.peer]
    exact hcount
  · rintro rfl
    rw [ht.self]
    exact hcount

theorem Capped.snoc {plan : List (Option ℕ)} {l : Option ℕ} (h : Capped peers selfZone parity plan)
    (ht : Tallied peers selfZone plan c) (hl : Chosen peers selfZone parity c l) :
    Capped peers selfZone parity (plan ++ [l]) := by
  have hroom : ∀ i, l = some i → plan.count (some i) < parity := by
    intro i hi
    rw [← ht.peer]
    cases hl with
    | strict isOpen => exact isOpen.room i hi
    | relaxed full isOpen => exact isOpen.room i hi
    | overflow => cases hi
  have hcount : ∀ l', (plan ++ [l]).count l' = plan.count l' + if l = l' then 1 else 0 := by
    intro l'
    rw [List.count_append, List.count_singleton]
    simp
  refine ⟨fun i => ?_, fun hself i hi => ?_, fun hlen z => ?_⟩
  · rw [hcount]
    have hle := h.peer i
    by_cases hli : l = some i
    · have hlt := hroom i hli
      rw [if_pos hli]
      omega
    · rw [if_neg hli]
      omega
  · rw [hcount] at hself
    have hfull : plan.count (some i) = parity := by
      by_cases hprev : parity < plan.count none
      · exact h.own hprev i hi
      · -- the owner reaches its cap now, so nothing was open
        have hnone : l = none := by
          by_contra hne
          rw [if_neg hne] at hself
          omega
        subst hnone
        rw [if_pos rfl] at hself
        have hge : parity ≤ c.self := by
          rw [ht.self]
          omega
        cases hl with
        | strict isOpen => exact absurd (isOpen.own rfl) (Nat.not_lt.mpr hge)
        | relaxed full isOpen => exact absurd (isOpen.own rfl) (Nat.not_lt.mpr hge)
        | overflow full =>
          refine le_antisymm (h.peer i) ?_
          by_contra hlt
          refine full (some i) ⟨?_, ?_, nofun, nofun⟩
          · rintro j ⟨⟩
            exact hi
          · rintro j ⟨⟩
            rw [ht.peer]
            omega
    have hne : l ≠ some i := fun hli => by
      have hlt := hroom i hli
      omega
    rw [hcount, if_neg hne, Nat.add_zero, hfull]
  · rw [List.length_append, List.length_singleton] at hlen
    have hle := h.zone (by omega) z
    obtain ⟨l', hl'⟩ := exists_open ht (Nat.lt_of_succ_le hlen)
    rw [inZone, List.countP_append, List.countP_singleton, ← inZone]
    by_cases hz : keyOf peers selfZone l = z
    · have hlt : inZone peers selfZone plan z < parity := by
        rw [← ht.zone, ← hz]
        cases hl with
        | strict isOpen => exact isOpen.zone rfl
        | relaxed full isOpen => exact absurd hl' (full l')
        | overflow full => exact absurd (open_relax hl') (full l')
      rw [hz, decide_eq_true rfl, if_pos rfl]
      omega
    · rw [decide_eq_false hz, if_neg Bool.false_ne_true]
      omega

theorem Chosen.valid {l : Option ℕ} (h : Chosen peers selfZone parity c l) :
    ∀ i, l = some i → i < peers.length := by
  intro i hi
  cases h with
  | strict isOpen => exact isOpen.valid i hi
  | relaxed full isOpen => exact isOpen.valid i hi
  | overflow full => cases hi

/-- The plan of the first `n` shards and the counters then. -/
def planned (sc : Scores) (peers : List PeerCandidate) (selfZone : Option Text) (parity n : ℕ) :
    List (Option ℕ) × Counts :=
  (List.range n).foldl (fun acc _ =>
    let next := placeOne sc peers selfZone parity acc.2
    (acc.1 ++ [next.1], next.2)) ([], ⟨fun _ => 0, fun _ => 0, 0⟩)

theorem planned_spec (n : ℕ) :
    Tallied peers selfZone (planned sc peers selfZone parity n).1
        (planned sc peers selfZone parity n).2 ∧
      (planned sc peers selfZone parity n).1.length = n ∧
      Capped peers selfZone parity (planned sc peers selfZone parity n).1 := by
  induction n with
  | zero =>
    refine ⟨⟨fun _ => rfl, rfl, fun _ => rfl, nofun⟩, rfl, fun _ => Nat.zero_le _, ?_,
      fun _ _ => Nat.zero_le _⟩
    exact fun h => absurd h (Nat.not_lt_zero _)
  | succ n ih =>
    obtain ⟨ht, hlen, hcap⟩ := ih
    obtain ⟨hchosen, hbump⟩ := @placeOne_chosen sc peers selfZone parity
      (planned sc peers selfZone parity n).2
    have hnext : planned sc peers selfZone parity (n + 1) =
        ((planned sc peers selfZone parity n).1 ++
            [(placeOne sc peers selfZone parity (planned sc peers selfZone parity n).2).1],
          (placeOne sc peers selfZone parity (planned sc peers selfZone parity n).2).2) := by
      rw [planned, List.range_succ, List.foldl_append]
      rfl
    rw [hnext]
    dsimp only
    rw [hbump]
    refine ⟨ht.snoc hchosen.valid, ?_, hcap.snoc ht hchosen⟩
    rw [List.length_append, hlen]
    rfl

theorem planPlacementZoned_spec (sc : Scores) (peers : List PeerCandidate) (selfZone : Option Text)
    (total parity : ℕ) :
    (planPlacementZoned sc peers selfZone parity total).length = total ∧
      (∀ i, some i ∈ planPlacementZoned sc peers selfZone parity total → i < peers.length) ∧
      Capped peers selfZone parity (planPlacementZoned sc peers selfZone parity total) := by
  obtain ⟨ht, hlen, hcap⟩ := @planned_spec sc peers selfZone parity total
  exact ⟨hlen, ht.valid, hcap⟩

/-- Where the zones have room for all shards, no location is above its cap either. -/
theorem Capped.location {plan : List (Option ℕ)} (h : Capped peers selfZone parity plan)
    (hlen : plan.length ≤ parity * (zoneKeys peers selfZone).card) (l : Option ℕ) :
    plan.count l ≤ parity :=
  (count_le_inZone plan l).trans (h.zone hlen _)

/-- A plan places every shard on a peer of the list or on this node and keeps the caps: each peer's
always, this node's until all peers are full, and each zone's and location's where the zones have
room for all shards. -/
theorem planPlacementZoned_capped (sc : Scores) (peers : List PeerCandidate) (selfZone : Option Text)
    (total parity : ℕ) :
    (planPlacementZoned sc peers selfZone parity total).length = total ∧
      (∀ i, some i ∈ planPlacementZoned sc peers selfZone parity total → i < peers.length) ∧
      Capped peers selfZone parity (planPlacementZoned sc peers selfZone parity total) ∧
      (total ≤ parity * (zoneKeys peers selfZone).card →
        ∀ l, (planPlacementZoned sc peers selfZone parity total).count l ≤ parity) := by
  obtain ⟨hlen, hvalid, hcap⟩ := planPlacementZoned_spec sc peers selfZone total parity
  refine ⟨hlen, hvalid, hcap, fun hroom => hcap.location ?_⟩
  rw [hlen]
  exact hroom

end

end P2pnas.Node.Spread
