import P2pnas.Node.Jobs

/-!
# How many periodic jobs wait (`jobs.rs:20-75`, `main.rs:358-450`)

The tickers enqueue their jobs blindly. An `INSERT` of a coalesced kind does nothing while a job of
the kind waits; of the other kinds every tick adds one. A claim takes a job away, and what a pass
over stale jobs puts back is not counted.
-/

namespace P2pnas.Node.Backlog
open P2pnas.Lib.Runs P2pnas.Lib.Tables P2pnas.Node.Jobs
open P2pnas.Lib.Interleave (Label step_move)
open P2pnas.Lib.Strings (Text)

/-- The kinds the tickers of `main.rs` enqueue. -/
def PERIODIC_KINDS : List Text :=
  ["repair".toList, "retention".toList, "repack_small".toList, "compact_packs".toList,
    "manifest_backup".toList, "gc_trash".toList]

/-- A pass over stale jobs put the job back. -/
def putBack (log : List Entry) (id : ℕ) : Bool :=
  log.any fun
    | .requeued i _ => i = id
    | _ => false

/-- The job waits and was not put back. -/
def waits (log : List Entry) (kind : Text) (j : Job) : Bool :=
  j.kind = kind && j.state = .pending && !putBack log j.id

def waiting (q : Queue) (kind : Text) : ℕ := q.jobs.countP (waits q.log kind)

/-- At most one job of every periodic kind waits. -/
def Bounded (q : Queue) : Prop := ∀ kind ∈ PERIODIC_KINDS, waiting q kind ≤ 1

/-- An `INSERT` of a periodic kind that is not coalesced, or that is delayed, finds no job of the
kind waiting. -/
def Spaced (s : Workers) : Label Call Env → Prop
  | .start _ => True
  | .move k e => ∀ kind payload delay, s.procs[k]? = some (.enqueue kind payload delay) →
      e.works = true → kind ∈ PERIODIC_KINDS → kind ∉ COALESCED_KINDS ∨ delay ≠ none →
      waiting s.shared kind = 0

/-! ### The statements -/

theorem putBack_append (before log : List Entry) (id : ℕ) :
    putBack (before ++ log) id = (putBack before id || putBack log id) := List.any_append

/-- The log and the table speak of ids that were given out. -/
structure Issued (q : Queue) : Prop where
  jobs : ∀ j ∈ q.jobs, j.id < q.nextId
  log : ∀ e ∈ q.log, e.job < q.nextId

theorem Issued.fresh {q : Queue} (h : Issued q) : putBack q.log q.nextId = false := by
  rw [putBack, List.any_eq_false]
  intro e he
  have hlt := h.log e he
  cases e with
  | requeued i t =>
    rw [decide_eq_true_eq]
    change i < q.nextId at hlt
    omega
  | claimed w i t => exact Bool.false_ne_true
  | finished w i => exact Bool.false_ne_true

/-- A change of rows and log after which no other job waits. -/
theorem waiting_le {q q' : Queue} {f : Job → Job} (hjobs : q'.jobs = q.jobs.map f) (kind : Text)
    (h : ∀ j ∈ q.jobs, waits q'.log kind (f j) = true → waits q.log kind j = true) :
    waiting q' kind ≤ waiting q kind := by
  rw [waiting, waiting, hjobs, List.countP_map]
  exact List.countP_mono_left h

theorem waits_of_state {log log' : List Entry} {kind : Text} {j j' : Job} (hkind : j'.kind = j.kind)
    (hid : j'.id = j.id) (hstate : j'.state = .pending → j.state = .pending)
    (hlog : putBack log j.id = true → putBack log' j.id = true) (h : waits log' kind j' = true) :
    waits log kind j = true := by
  simp only [waits, Bool.and_eq_true, decide_eq_true_eq, Bool.not_eq_true', hkind, hid] at h ⊢
  refine ⟨⟨h.1.1, hstate h.1.2⟩, ?_⟩
  cases hback : putBack log j.id with
  | false => rfl
  | true => exact absurd (hlog hback) (by rw [h.2]; exact Bool.false_ne_true)

theorem waiting_markRunning (q : Queue) (me id : ℕ) (now : Time) (kind : Text) :
    waiting (q.markRunning me id now) kind ≤ waiting q kind := by
  refine waiting_le rfl kind fun j _ => ?_
  split
  · exact waits_of_state rfl rfl nofun fun h => h
  · exact waits_of_state rfl rfl (fun h => h) fun h => h

theorem waiting_markFinished (q : Queue) (me id : ℕ) (ok : Bool) (kind : Text) :
    waiting (q.markFinished me id ok) kind ≤ waiting q kind := by
  have hlog : ∀ i, putBack q.log i = true → putBack (q.markFinished me id ok).log i = true := by
    intro i hi
    rw [Queue.markFinished]
    dsimp only
    split
    · exact hi
    · exact hi
  refine waiting_le rfl kind fun j _ => ?_
  split
  · refine waits_of_state rfl rfl ?_ (hlog j.id)
    cases ok with
    | true =>
      intro h
      cases h
    | false =>
      intro h
      cases h
  · exact waits_of_state rfl rfl (fun h => h) (hlog j.id)

theorem waiting_requeueStale (q : Queue) (now : Time) (kind : Text) :
    waiting (q.requeueStale now) kind ≤ waiting q kind := by
  have hlog : ∀ i, putBack q.log i = true → putBack (q.requeueStale now).log i = true := by
    intro i hi
    rw [Queue.requeueStale]
    dsimp only
    rw [putBack_append, hi, Bool.or_true]
  refine waiting_le rfl kind fun j hj => ?_
  split
  · next hstale =>
    -- the pass itself puts the job back
    intro h
    have hback : putBack (q.requeueStale now).log j.id = true := by
      rw [Queue.requeueStale]
      dsimp only
      rw [putBack_append, Bool.or_eq_true]
      refine .inl (List.any_eq_true.mpr ⟨.requeued j.id now, ?_, decide_eq_true rfl⟩)
      exact List.mem_map_of_mem (List.mem_filter.mpr ⟨hj, hstale⟩)
    rw [waits, Bool.and_eq_true, Bool.not_eq_true'] at h
    rw [hback] at h
    cases h.2
  · exact waits_of_state rfl rfl (fun h => h) (hlog j.id)

theorem waiting_purgeOld (q : Queue) (now : Time) (kind : Text) :
    waiting (q.purgeOld now) kind ≤ waiting q kind :=
  List.filter_sublist.countP_le

/-- An `INSERT` adds one waiting job of its kind, unless a job of a coalesced kind is pending. -/
theorem waiting_insert {q : Queue} (h : Issued q) (kind payload : Text) (delay : Option Time)
    (now : Time) (kind' : Text) :
    waiting (q.insert kind payload delay now) kind' = waiting q kind' +
      if kind' = kind ∧ ¬ (delay.isNone && COALESCED_KINDS.contains kind &&
        q.jobs.any (fun j => j.kind = kind && j.state = .pending)) = true then 1 else 0 := by
  rw [Queue.insert]
  split
  · next hskip => rw [if_neg fun hand => hand.2 hskip, Nat.add_zero]
  · next hadd =>
    rw [waiting, List.countP_append, List.countP_singleton]
    change waiting q kind' + _ = _
    have hnew : waits q.log kind' ⟨q.nextId, kind, payload, .pending, 0, now + delay.getD 0, now⟩ =
        decide (kind' = kind) := by
      rw [waits, h.fresh]
      simp [eq_comm]
    rw [hnew]
    by_cases hkind : kind' = kind
    · rw [decide_eq_true hkind, if_pos rfl, if_pos ⟨hkind, hadd⟩]
    · rw [decide_eq_false hkind, if_neg Bool.false_ne_true, if_neg fun hand => hkind hand.1]

/-- While no job of a kind is pending, none waits. -/
theorem waiting_zero {q : Queue} {kind : Text}
    (h : q.jobs.any (fun j => j.kind = kind && j.state = .pending) = false) : waiting q kind = 0 := by
  refine List.countP_eq_zero.mpr fun j hj hw => ?_
  rw [waits, Bool.and_eq_true] at hw
  exact List.any_eq_false.mp h j hj hw.1

/-- An `INSERT` keeps the bound exactly when it is spaced. -/
theorem bounded_insert {q : Queue} (h : Issued q) (hb : Bounded q) (kind payload : Text)
    (delay : Option Time) (now : Time) : Bounded (q.insert kind payload delay now) ↔
      (kind ∈ PERIODIC_KINDS → kind ∉ COALESCED_KINDS ∨ delay ≠ none → waiting q kind = 0) := by
  constructor
  · intro hafter hkind hplain
    have hle := hafter kind hkind
    have hguard : ¬ (delay.isNone && COALESCED_KINDS.contains kind &&
        q.jobs.any (fun j => j.kind = kind && j.state = .pending)) = true := by
      intro hall
      rw [Bool.and_eq_true, Bool.and_eq_true, Option.isNone_iff_eq_none, List.contains_iff_mem] at hall
      rcases hplain with hnot | hdelay
      · exact hnot hall.1.2
      · exact hdelay hall.1.1
    rw [waiting_insert h, if_pos ⟨rfl, hguard⟩] at hle
    omega
  · intro hspaced kind' hkind'
    rw [waiting_insert h]
    split
    · next hand =>
      obtain ⟨rfl, hguard⟩ := hand
      have hzero : waiting q kind' = 0 := by
        by_cases hplain : kind' ∉ COALESCED_KINDS ∨ delay ≠ none
        · exact hspaced hkind' hplain
        · rw [not_or, not_not, not_not] at hplain
          refine waiting_zero (Bool.eq_false_iff.mpr fun hany => hguard ?_)
          rw [hplain.2, hany, List.contains_iff_mem.mpr hplain.1]
          rfl
      omega
    · exact hb kind' hkind'

/-! ### Runs -/

theorem Issued.of_map {q q' : Queue} {f : Job → Job} (h : Issued q) (hjobs : q'.jobs = q.jobs.map f)
    (hf : ∀ j, (f j).id = j.id) (hnext : q'.nextId = q.nextId)
    (hlog : ∀ e ∈ q'.log, e ∈ q.log ∨ ∃ j ∈ q.jobs, e.job = j.id) : Issued q' := by
  refine ⟨fun j hj => ?_, fun e he => ?_⟩
  · rw [hjobs] at hj
    obtain ⟨j₀, hj₀, rfl⟩ := List.mem_map.mp hj
    rw [hf, hnext]
    exact h.jobs j₀ hj₀
  · rw [hnext]
    rcases hlog e he with he | ⟨j, hj, hid⟩
    · exact h.log e he
    · rw [hid]
      exact h.jobs j hj

theorem advance_issued {e : Env} {q : Queue} {pc : Pc} (h : Issued q) : Issued (advance e q pc).1 := by
  cases pc with
  | enqueue kind payload delay =>
    unfold advance
    dsimp only
    split
    · rw [Queue.insert]
      split
      · exact h
      · refine ⟨fun j hj => ?_, fun e he => (h.log e he).trans (Nat.lt_succ_self _)⟩
        rcases List.mem_append.mp hj with hj | hj
        · exact (h.jobs j hj).trans (Nat.lt_succ_self _)
        · rw [List.mem_singleton.mp hj]
          exact Nat.lt_succ_self _
    · exact h
  | look me =>
    unfold advance
    dsimp only
    split
    · exact h
    · exact h
  | update me id =>
    unfold advance
    dsimp only
    split
    · next hclaim =>
      obtain ⟨j, hj, hid⟩ := List.any_eq_true.mp (Bool.and_eq_true _ _ ▸ hclaim).2
      rw [Bool.and_eq_true, decide_eq_true_eq] at hid
      refine h.of_map rfl (fun j => by split <;> rfl) rfl fun e he => ?_
      rcases List.mem_cons.mp he with rfl | he
      · exact .inr ⟨j, hj, hid.1.symm⟩
      · exact .inl he
    · exact h
  | reselect me id =>
    unfold advance
    dsimp only
    split
    · exact h
    · exact h
  | finish me id kind payload =>
    unfold advance
    dsimp only
    split
    · refine h.of_map rfl (fun j => by split <;> rfl) rfl fun e he => ?_
      rw [Queue.markFinished] at he
      dsimp only at he
      split at he
      · next hany =>
        obtain ⟨j, hj, hid⟩ := List.any_eq_true.mp hany
        rcases List.mem_cons.mp he with rfl | he
        · exact .inr ⟨j, hj, (of_decide_eq_true hid).symm⟩
        · exact .inl he
      · exact .inl he
    · exact h
  | requeue =>
    unfold advance
    dsimp only
    split
    · refine h.of_map rfl (fun j => by split <;> rfl) rfl fun e he => ?_
      rcases List.mem_append.mp he with he | he
      · obtain ⟨j, hj, rfl⟩ := List.mem_map.mp he
        exact .inr ⟨j, (List.mem_filter.mp hj).1, rfl⟩
      · exact .inl he
    · exact h
  | purge =>
    unfold advance
    dsimp only
    split
    · exact ⟨fun j hj => h.jobs j (List.mem_filter.mp hj).1, h.log⟩
    · exact h

/-- Of the statements only an `INSERT` makes more jobs wait. -/
theorem advance_waiting {e : Env} {q : Queue} {pc : Pc}
    (h : ∀ kind payload delay, pc = .enqueue kind payload delay → e.works = false) (kind : Text) :
    waiting (advance e q pc).1 kind ≤ waiting q kind := by
  cases pc with
  | enqueue kind payload delay =>
    unfold advance
    rw [h kind payload delay rfl]
    exact le_rfl
  | look me =>
    unfold advance
    dsimp only
    split
    · exact le_rfl
    · exact le_rfl
  | update me id =>
    unfold advance
    dsimp only
    split
    · exact waiting_markRunning q me id e.now kind
    · exact le_rfl
  | reselect me id =>
    unfold advance
    dsimp only
    split
    · exact le_rfl
    · exact le_rfl
  | finish me id _ _ =>
    unfold advance
    dsimp only
    split
    · exact waiting_markFinished q me id e.ok kind
    · exact le_rfl
  | requeue =>
    unfold advance
    dsimp only
    split
    · exact waiting_requeueStale q e.now kind
    · exact le_rfl
  | purge =>
    unfold advance
    dsimp only
    split
    · exact waiting_purgeOld q e.now kind
    · exact le_rfl

theorem step_issued (s : Workers) (l : Label Call Env) (h : Issued s.shared) :
    Issued (step s l).shared := by
  cases l with
  | start c =>
    cases c with
    | enqueue kind payload | enqueueAfter kind payload delay | requeueStaleJobs | purgeOldRows => exact h
    | claim => exact ⟨h.jobs, h.log⟩
  | move k e =>
    cases ht : s.procs[k]? with
    | none =>
      have hsame : step s (.move k e) = s := by simp only [step, P2pnas.Lib.Interleave.step, ht]
      rw [hsame]
      exact h
    | some pc =>
      rw [step, step_move enter advance ht]
      exact advance_issued h

theorem step_bounded (s : Workers) (l : Label Call Env) (h : Issued s.shared) (hb : Bounded s.shared) :
    Bounded (step s l).shared ↔ Spaced s l := by
  cases l with
  | start c =>
    refine ⟨fun _ => trivial, fun _ => ?_⟩
    cases c with
    | enqueue kind payload | enqueueAfter kind payload delay | requeueStaleJobs | purgeOldRows => exact hb
    | claim => exact hb
  | move k e =>
    cases ht : s.procs[k]? with
    | none =>
      have hsame : step s (.move k e) = s := by simp only [step, P2pnas.Lib.Interleave.step, ht]
      rw [hsame]
      refine ⟨fun _ kind payload delay hpc => ?_, fun _ => hb⟩
      rw [ht] at hpc
      cases hpc
    | some pc =>
      rw [step, step_move enter advance ht]
      by_cases hinsert : ∃ kind payload delay, pc = .enqueue kind payload delay ∧ e.works = true
      · obtain ⟨kind, payload, delay, rfl, hworks⟩ := hinsert
        have hadvance : (advance e s.shared (.enqueue kind payload delay)).1 =
            s.shared.insert kind payload delay e.now := by
          unfold advance
          rw [hworks]
          rfl
        change Bounded (advance e s.shared (.enqueue kind payload delay)).1 ↔ _
        rw [hadvance, bounded_insert h hb]
        constructor
        · intro hspaced kind' payload' delay' hpc _
          rw [ht] at hpc
          cases hpc
          exact hspaced
        · exact fun hspaced => hspaced kind payload delay ht hworks
      · have hkeep : Bounded (advance e s.shared pc).1 := by
          intro kind hkind
          refine (advance_waiting (fun kind payload delay hpc => ?_) kind).trans (hb kind hkind)
          exact Bool.eq_false_iff.mpr fun hworks => hinsert ⟨kind, payload, delay, hpc, hworks⟩
        refine ⟨fun _ kind payload delay hpc hworks => ?_, fun _ => hkeep⟩
        rw [ht] at hpc
        cases hpc
        exact absurd ⟨kind, payload, delay, rfl, hworks⟩ hinsert

theorem idle_issued : Issued idle.shared := ⟨nofun, nofun⟩

/-- In every state of a run at most one job of every periodic kind waits exactly when every `INSERT`
of a kind that is not coalesced finds none of its kind waiting. -/
theorem run_bounded_iff (ls : List (Label Call Env)) :
    (∀ before, before <+: ls → Bounded (run step idle before).shared) ↔ AllMeet step Spaced idle ls := by
  have hissued : ∀ before, Issued (run step idle before).shared := fun before =>
    @run_invariant Workers _ step (fun _ _ => True) (fun s => Issued s.shared)
      (fun s l h _ => step_issued s l h) idle idle_issued before (allMeet_of_forall fun _ _ => trivial)
  have hiff := @run_prefix_iff Workers (Label Call Env) step Spaced
    (fun s => Issued s.shared ∧ Bounded s.shared)
    (fun s l h => ⟨fun hs => (step_bounded s l h.1 h.2).mp hs.2,
      fun hl => ⟨step_issued s l h.1, (step_bounded s l h.1 h.2).mpr hl⟩⟩) idle ls
  constructor
  · intro h
    exact (hiff.mp fun before hbefore => ⟨hissued before, h before hbefore⟩).2
  · intro h before hbefore
    exact (hiff.mpr ⟨⟨idle_issued, fun kind _ => Nat.zero_le 1⟩, h⟩ before hbefore).2

/-- The ticker enqueues a `repack_small` job every six hours while no worker claims one. -/
theorem repack_piles_up : ¬ ∀ ls : List (Label Call Env), ∀ before, before <+: ls →
    Bounded (run step idle before).shared := by
  intro h
  have hle := h ((List.range 2).flatMap fun i =>
    [.start (.enqueue "repack_small".toList "{}".toList), .move 0 ⟨i * (6 * HOUR), true, true⟩]) _
    (List.prefix_refl _) "repack_small".toList (by decide)
  revert hle
  decide +kernel

end P2pnas.Node.Backlog
