import P2pnas.Dht.Budget

/-!
# The maps of the bookkeeping stay small (`dht.rs:353-430`)

Each call that may insert prunes first, and a map at its bound that nothing in it lets go is
cleared, so an insertion never takes it past the bound. While fewer addresses than the bound have
asked, no budget is ever dropped and each window of an address lets its charges through and no more.
-/

namespace P2pnas.Dht.Sources
open P2pnas.Lib.Tables P2pnas.Lib.Runs P2pnas.Lib.Budget P2pnas.Dht.Table P2pnas.Dht.Overlay
open P2pnas.Dht.Budget

inductive Call where
  | allowLearn (ip : IpAddr) (now : Instant)
  | noteQuery (addr : SocketAddr) (now : Instant)
  | takePending (addr : SocketAddr) (now : Instant)
  | allowPing (addr : SocketAddr) (now : Instant)

def Call.time : Call → Instant
  | .allowLearn _ now | .noteQuery _ now | .takePending _ now | .allowPing _ now => now

/-- The bookkeeping, and for whom `allow_learn` returned true and when, latest first. -/
structure Ledger where
  sources : SourceState
  granted : List (IpAddr × Instant)

def step (st : Ledger) : Call → Ledger
  | .allowLearn ip now =>
    let r := st.sources.allowLearn ip now
    ⟨r.1, if r.2 then (ip, now) :: st.granted else st.granted⟩
  | .noteQuery addr now => { st with sources := st.sources.noteQuery addr now }
  | .takePending addr now => { st with sources := (st.sources.takePending addr now).1 }
  | .allowPing addr now => { st with sources := (st.sources.allowPing addr now).1 }

/-- The bookkeeping after the calls, from empty maps. -/
def after (calls : List Call) : Ledger := run step ⟨.empty, []⟩ calls

/-- When `allow_learn` returned true for the address. -/
def Ledger.grants (st : Ledger) (ip : IpAddr) : List Instant :=
  (st.granted.filter fun g => g.1 = ip).map Prod.snd

/-- The addresses that `allow_learn` was asked for. -/
def asking (calls : List Call) : List IpAddr :=
  calls.filterMap fun
    | .allowLearn ip _ => some ip
    | _ => none

structure Bounded (s : SourceState) : Prop where
  learn : s.learn.length ≤ MAX_TRACKED_SOURCES
  pending : s.pending.length ≤ MAX_TRACKED_SOURCES
  pinged : s.pinged.length ≤ MAX_TRACKED_SOURCES

/-! ### The bound -/

/-- A pruned map has room for one more. -/
theorem pruned_room {ρ : Type} (live : ρ → Bool) (rows : List ρ) :
    (SourceState.pruned live rows).length < MAX_TRACKED_SOURCES := by
  unfold SourceState.pruned
  split
  · dsimp only
    split
    · exact Nat.zero_lt_succ 4095
    · next hfew => exact Nat.not_le.mp hfew
  · next hfew => exact Nat.not_le.mp hfew

theorem upsert_length_le {ρ κ : Type} [DecidableEq κ] (key : ρ → κ) (r : ρ) (rows : List ρ) :
    (upsert key r rows).length ≤ rows.length + 1 := by
  unfold upsert
  split
  · rw [update, List.length_map]
    exact Nat.le_succ _
  · rw [List.length_append, List.length_singleton]

theorem prune_bounded (s : SourceState) (now : Instant) : Bounded (s.prune now) :=
  ⟨Nat.le_of_lt (pruned_room _ _), Nat.le_of_lt (pruned_room _ _), Nat.le_of_lt (pruned_room _ _)⟩

theorem allowLearn_upsert (s : SourceState) (ip : IpAddr) (now : Instant) :
    ∃ w, (s.allowLearn ip now).1 =
      { s.prune now with learn := upsert Prod.fst (ip, w) (s.prune now).learn } := by
  unfold SourceState.allowLearn
  dsimp only
  generalize (if LEARN_WINDOW < now - _ then (now, 0) else _ : Instant × ℕ) = w
  split
  · exact ⟨w, rfl⟩
  · exact ⟨(w.1, w.2 + 1), rfl⟩

theorem allowPing_upsert (s : SourceState) (addr : SocketAddr) (now : Instant) :
    (s.allowPing addr now).1 = s.prune now ∨ (s.allowPing addr now).1 =
      { s.prune now with pinged := upsert Prod.fst (addr, now) (s.prune now).pinged } := by
  unfold SourceState.allowPing
  dsimp only
  rcases (lookup Prod.fst addr (s.prune now).pinged).map Prod.snd with _ | t
  · exact .inr rfl
  · dsimp only
    split
    · exact .inl rfl
    · exact .inr rfl

theorem step_bounded (st : Ledger) (c : Call) (h : Bounded st.sources) : Bounded (step st c).sources := by
  cases c with
  | allowLearn ip now =>
    have hp := prune_bounded st.sources now
    obtain ⟨w, heq⟩ := allowLearn_upsert st.sources ip now
    change Bounded (st.sources.allowLearn ip now).1
    rw [heq]
    exact ⟨(upsert_length_le _ _ _).trans (pruned_room _ _), hp.pending, hp.pinged⟩
  | noteQuery addr now =>
    have hp := prune_bounded st.sources now
    exact ⟨hp.learn, (upsert_length_le _ _ _).trans (pruned_room _ _), hp.pinged⟩
  | takePending addr now =>
    exact ⟨h.learn, (List.length_filter_le _ _).trans h.pending, h.pinged⟩
  | allowPing addr now =>
    have hp := prune_bounded st.sources now
    change Bounded (st.sources.allowPing addr now).1
    rcases allowPing_upsert st.sources addr now with heq | heq
    · rw [heq]
      exact hp
    · rw [heq]
      exact ⟨hp.learn, hp.pending, (upsert_length_le _ _ _).trans (pruned_room _ _)⟩

/-! ### The windows of an address -/

section
variable {ips : List IpAddr} {ip : IpAddr}

/-- Only addresses of the list are tracked, and the budget covers what was granted. -/
structure Covered (ips : List IpAddr) (ip : IpAddr) (st : Ledger) : Prop where
  nodup : (st.sources.learn.map Prod.fst).Nodup
  seen : ∀ k ∈ st.sources.learn.map Prod.fst, k ∈ ips
  covers : Covers LEARN_PER_WINDOW LEARN_WINDOW (st.sources.slotOf ip) (st.grants ip)

theorem Covered.few {st : Ledger} (hfew : ips.length < MAX_TRACKED_SOURCES) (h : Covered ips ip st) :
    st.sources.learn.length < MAX_TRACKED_SOURCES := by
  have hle := (List.subperm_of_subset h.nodup h.seen).length_le
  rw [List.length_map] at hle
  omega

/-- The call leaves the budget of the address alone, or charges it. -/
theorem step_slot {st : Ledger} (hfew : st.sources.learn.length < MAX_TRACKED_SOURCES) (c : Call) :
    ((step st c).sources.slotOf ip = st.sources.slotOf ip ∧ (step st c).grants ip = st.grants ip) ∨
      (step st c).sources.slotOf ip =
          some (charge LEARN_PER_WINDOW LEARN_WINDOW (st.sources.slotOf ip) c.time).1 ∧
        (step st c).grants ip =
          if (charge LEARN_PER_WINDOW LEARN_WINDOW (st.sources.slotOf ip) c.time).2 then
            c.time :: st.grants ip else st.grants ip := by
  cases c with
  | allowLearn k now =>
    obtain ⟨hlearn, hallowed⟩ := allowLearn_few k now hfew
    have hslot := slotOf_upsert hlearn ip
    by_cases hk : ip = k
    · subst hk
      right
      refine ⟨hslot.trans (if_pos rfl), ?_⟩
      cases hlet : (charge LEARN_PER_WINDOW LEARN_WINDOW (st.sources.slotOf ip) now).2 with
      | true => simp only [step, Ledger.grants, Call.time, hallowed, hlet, if_true, List.filter_cons,
          decide_true, List.map_cons]
      | false => simp only [step, Ledger.grants, Call.time, hallowed, hlet, Bool.false_eq_true, if_false]
    · left
      refine ⟨hslot.trans (if_neg hk), ?_⟩
      simp only [step, Ledger.grants]
      split
      · simp only [List.filter_cons, decide_eq_false (Ne.symm hk), Bool.false_eq_true, if_false]
      · rfl
  | noteQuery addr now => exact .inl ⟨slotOf_congr (pruned_few _ hfew) ip, rfl⟩
  | takePending addr now => exact .inl ⟨slotOf_congr rfl ip, rfl⟩
  | allowPing addr now =>
    left
    refine ⟨slotOf_congr ?_ ip, rfl⟩
    change (st.sources.allowPing addr now).1.learn = st.sources.learn
    rcases allowPing_upsert st.sources addr now with heq | heq
    · rw [heq]
      exact pruned_few _ hfew
    · rw [heq]
      exact pruned_few _ hfew

/-- No call makes the bookkeeping track an address that it was not asked for. -/
theorem step_tracked {st : Ledger} (hfew : st.sources.learn.length < MAX_TRACKED_SOURCES) (c : Call)
    (hn : (st.sources.learn.map Prod.fst).Nodup) (hseen : ∀ k ∈ st.sources.learn.map Prod.fst, k ∈ ips)
    (hc : ∀ k ∈ asking [c], k ∈ ips) : ((step st c).sources.learn.map Prod.fst).Nodup ∧
      ∀ k ∈ (step st c).sources.learn.map Prod.fst, k ∈ ips := by
  cases c with
  | allowLearn k now =>
    obtain ⟨hlearn, -⟩ := allowLearn_few k now hfew
    change ((st.sources.allowLearn k now).1.learn.map Prod.fst).Nodup ∧
      ∀ k' ∈ (st.sources.allowLearn k now).1.learn.map Prod.fst, k' ∈ ips
    rw [hlearn]
    refine ⟨nodup_upsert Prod.fst hn _, fun k' hk' => ?_⟩
    obtain ⟨row, hrow, rfl⟩ := List.mem_map.mp hk'
    rcases mem_upsert Prod.fst hrow with rfl | hrow
    · exact hc k (List.mem_singleton.mpr rfl)
    · exact hseen _ (List.mem_map_of_mem hrow)
  | noteQuery addr now =>
    have hsame : (step st (.noteQuery addr now)).sources.learn = st.sources.learn := pruned_few _ hfew
    rw [hsame]
    exact ⟨hn, hseen⟩
  | takePending addr now => exact ⟨hn, hseen⟩
  | allowPing addr now =>
    have hsame : (step st (.allowPing addr now)).sources.learn = st.sources.learn := by
      change (st.sources.allowPing addr now).1.learn = st.sources.learn
      rcases allowPing_upsert st.sources addr now with heq | heq
      · rw [heq]
        exact pruned_few _ hfew
      · rw [heq]
        exact pruned_few _ hfew
    rw [hsame]
    exact ⟨hn, hseen⟩

theorem step_covered (hfew : ips.length < MAX_TRACKED_SOURCES) {st : Ledger} (c : Call)
    (hc : ∀ k ∈ asking [c], k ∈ ips) (h : Covered ips ip st) : Covered ips ip (step st c) := by
  obtain ⟨hn, hseen⟩ := step_tracked (h.few hfew) c h.nodup h.seen hc
  refine ⟨hn, hseen, ?_⟩
  rcases @step_slot ip st (h.few hfew) c with ⟨hslot, hgrants⟩ | ⟨hslot, hgrants⟩
  · rw [hslot, hgrants]
    exact h.covers
  · rw [hslot, hgrants]
    split
    · next hlet => exact h.covers.spend hlet
    · exact h.covers.charge c.time

/-- What was granted in the window that starts at `start`. -/
def Ledger.grantedIn (st : Ledger) (ip : IpAddr) (start : Instant) : ℕ :=
  (st.grants ip).countP fun t => start ≤ t && t ≤ start + LEARN_WINDOW

/-- The window is the current one, or it has passed and no later call falls into it. -/
def Kept (ip : IpAddr) (start : Instant) (st : Ledger) (rest : List Call) : Prop :=
  (∃ used, st.sources.slotOf ip = some (start, used)) ∨
    (∀ c ∈ rest, start + LEARN_WINDOW < c.time) ∧ st.grantedIn ip start ≤ LEARN_PER_WINDOW

theorem step_kept {st : Ledger} {start : Instant} {c : Call} {rest : List Call}
    (hfew : ips.length < MAX_TRACKED_SOURCES) (hcov : Covered ips ip st)
    (hclock : ∀ c' ∈ rest, c.time ≤ c'.time) (h : Kept ip start st (c :: rest)) :
    Kept ip start (step st c) rest := by
  have hlate : start + LEARN_WINDOW < c.time → st.grantedIn ip start ≤ LEARN_PER_WINDOW →
      ∀ granted : Bool, (step st c).grants ip = (if granted then c.time :: st.grants ip else st.grants ip) →
      Kept ip start (step st c) rest := by
    intro hpast hcount granted hgrants
    refine .inr ⟨fun c' hc' => Nat.lt_of_lt_of_le hpast (hclock c' hc'), ?_⟩
    rw [Ledger.grantedIn, hgrants]
    split
    · rw [List.countP_cons_of_neg]
      · exact hcount
      · simp only [Bool.and_eq_true, decide_eq_true_eq, not_and, not_le]
        exact fun _ => hpast
    · exact hcount
  rcases @step_slot ip st (hcov.few hfew) c with ⟨hslot, hgrants⟩ | ⟨hslot, hgrants⟩
  · rcases h with ⟨used, hused⟩ | ⟨hpast, hcount⟩
    · exact .inl ⟨used, hslot.trans hused⟩
    · refine .inr ⟨fun c' hc' => hpast c' (List.mem_cons_of_mem _ hc'), ?_⟩
      rw [Ledger.grantedIn, hgrants]
      exact hcount
  · rcases h with ⟨used, hused⟩ | ⟨hpast, hcount⟩
    · by_cases hend : LEARN_WINDOW < c.time - start
      · have hcovers := hcov.covers
        rw [hused] at hcovers
        have hcount : st.grantedIn ip start ≤ LEARN_PER_WINDOW := @Spans.bounded _ _ (start, used) _ hcovers
        exact hlate (Nat.add_lt_of_lt_sub' hend) hcount _ hgrants
      · left
        rw [hslot, hused]
        simp only [charge, windowAt, Option.getD_some, if_neg hend]
        split
        · exact ⟨used, rfl⟩
        · exact ⟨used + 1, rfl⟩
    · exact hlate (hpast c (List.mem_cons_self ..)) hcount _ hgrants

theorem run_kept {start : Instant} (hfew : ips.length < MAX_TRACKED_SOURCES) (rest : List Call)
    (hips : ∀ k ∈ asking rest, k ∈ ips) (hclock : rest.Pairwise fun a b => a.time ≤ b.time) {st : Ledger}
    (hcov : Covered ips ip st) (h : Kept ip start st rest) :
    (run step st rest).grantedIn ip start ≤ LEARN_PER_WINDOW := by
  induction rest generalizing st with
  | nil =>
    rcases h with ⟨used, hused⟩ | ⟨-, hcount⟩
    · have hcovers := hcov.covers
      rw [hused] at hcovers
      exact @Spans.bounded _ _ (start, used) _ hcovers
    · exact hcount
  | cons c rest ih =>
    obtain ⟨hfirst, hrest⟩ := List.pairwise_cons.mp hclock
    have hsplit : asking (c :: rest) = asking [c] ++ asking rest := by
      rw [asking, asking, asking, ← List.filterMap_append, List.singleton_append]
    rw [hsplit] at hips
    exact ih (fun k hk => hips k (List.mem_append_right _ hk)) hrest
      (step_covered hfew c (fun k hk => hips k (List.mem_append_left _ hk)) hcov)
      (step_kept hfew hcov hfirst h)

theorem run_covered (hfew : ips.length < MAX_TRACKED_SOURCES) (calls : List Call)
    (hips : ∀ k ∈ asking calls, k ∈ ips) {st : Ledger} (hcov : Covered ips ip st) :
    Covered ips ip (run step st calls) := by
  induction calls generalizing st with
  | nil => exact hcov
  | cons c rest ih =>
    have hsplit : asking (c :: rest) = asking [c] ++ asking rest := by
      rw [asking, asking, asking, ← List.filterMap_append, List.singleton_append]
    rw [hsplit] at hips
    exact ih (fun k hk => hips k (List.mem_append_right _ hk))
      (step_covered hfew c (fun k hk => hips k (List.mem_append_left _ hk)) hcov)

end

/-- After every call each map holds at most `MAX_TRACKED_SOURCES` entries. While fewer addresses have
asked and the clock is monotonic, no window of an address, as it stood after some of the calls, lets
more than `LEARN_PER_WINDOW` of all calls through. -/
theorem run_bounded (calls : List Call) : Bounded (after calls).sources ∧
    ((asking calls).dedup.length < MAX_TRACKED_SOURCES → calls.Pairwise (fun a b => a.time ≤ b.time) →
      ∀ before, before <+: calls → ∀ ip start used,
        (after before).sources.slotOf ip = some (start, used) →
          (after calls).grantedIn ip start ≤ LEARN_PER_WINDOW) := by
  refine ⟨?_, fun hfew hclock before hfront ip start used hslot => ?_⟩
  · have hempty : Bounded SourceState.empty := ⟨Nat.zero_le _, Nat.zero_le _, Nat.zero_le _⟩
    exact run_invariant (I := fun st => Bounded st.sources) (s := ⟨.empty, []⟩)
      (fun st c h _ => step_bounded st c h) hempty
      (allMeet_of_forall (Q := fun _ => True) fun _ _ => trivial)
  · obtain ⟨rest, rfl⟩ := hfront
    have hempty : Covered (asking (before ++ rest)).dedup ip ⟨.empty, []⟩ :=
      ⟨List.nodup_nil, fun _ hk => absurd hk List.not_mem_nil, rfl⟩
    have hin : ∀ k ∈ asking (before ++ rest), k ∈ (asking (before ++ rest)).dedup :=
      fun k hk => List.mem_dedup.mpr hk
    have hsplit : asking (before ++ rest) = asking before ++ asking rest := List.filterMap_append
    have hcov := run_covered hfew before
      (fun k hk => hin k (by rw [hsplit]; exact List.mem_append_left _ hk)) hempty
    have hrun : after (before ++ rest) = run step (after before) rest := List.foldl_append
    rw [hrun]
    exact run_kept hfew rest (fun k hk => hin k (by rw [hsplit]; exact List.mem_append_right _ hk))
      (List.pairwise_append.mp hclock).2.1 hcov (.inl ⟨used, hslot⟩)

/-- Seventeen requests of one address at one moment. -/
def flood : List Call := List.replicate 17 (.allowLearn (.v4 203 0 113 7) 0)

theorem flood_bounded : (asking flood).dedup.length < MAX_TRACKED_SOURCES ∧
    flood.Pairwise (fun a b => a.time ≤ b.time) ∧
    (after flood).sources.slotOf (.v4 203 0 113 7) = some (0, 16) ∧
    (after flood).grantedIn (.v4 203 0 113 7) 0 ≤ LEARN_PER_WINDOW := by
  have hfew : (asking flood).dedup.length < MAX_TRACKED_SOURCES := by decide +kernel
  have hclock : flood.Pairwise (fun a b => a.time ≤ b.time) := by decide +kernel
  have hslot : (after flood).sources.slotOf (.v4 203 0 113 7) = some (0, 16) := by decide +kernel
  exact ⟨hfew, hclock, hslot, (run_bounded flood).2 hfew hclock flood (List.prefix_refl _) _ 0 16 hslot⟩

end P2pnas.Dht.Sources
