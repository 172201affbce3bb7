import P2pnas.Lib.Interleave
import P2pnas.Lib.Strings
import P2pnas.Lib.Tables

/-!
# The job queue (`jobs.rs`)

Any number of workers share the `jobs` table. A call is the statement it is about to run;
every reading of the clock and the fate of every statement come from the environment. A pass over
stale jobs measures their age from `created_at`, so a job that waited in the queue longer than
`STALE_RUNNING_HOURS` is put back as soon as a pass finds it running. What was claimed, put back
and finished is logged beside the table.
-/

namespace P2pnas.Node.Jobs
open P2pnas.Lib.Runs P2pnas.Lib.Tables P2pnas.Lib.Interleave
open P2pnas.Lib.Strings (Text)

/-- Nanoseconds. -/
abbrev Time := ℤ

def HOUR : Time := 60 * 60 * 1000000000
def STALE_RUNNING_HOURS : Time := 1
def RETAIN_DAYS : Time := 30

def COALESCED_KINDS : List Text :=
  ["repair".toList, "retention".toList, "gc_trash".toList, "manifest_backup".toList]

inductive JobState where
  | pending
  | running
  | done
  | failed
  deriving DecidableEq, Repr

def JobState.ended : JobState → Bool
  | .done | .failed => true
  | _ => false

structure Job where
  id : ℕ
  kind : Text
  payload : Text
  state : JobState
  attempts : ℕ
  runAfter : Time
  createdAt : Time
  deriving DecidableEq, Repr

/-- What the statements did to a job; `worker` numbers the calls of `claim`. -/
inductive Entry where
  | claimed (worker id : ℕ) (at' : Time)
  | requeued (id : ℕ) (at' : Time)
  | finished (worker id : ℕ)
  deriving DecidableEq, Repr

def Entry.job : Entry → ℕ
  | .claimed _ id _ | .requeued id _ | .finished _ id => id

/-- The table with its sequence of ids, the next worker's number, and the log, latest first. -/
structure Queue where
  jobs : List Job
  nextId : ℕ
  nextWorker : ℕ
  log : List Entry
  deriving DecidableEq, Repr

/-- A call before its next statement; a worker that has a job runs it and then finishes it. -/
inductive Pc where
  | enqueue (kind payload : Text) (delay : Option Time)
  | look (me : ℕ)
  | update (me id : ℕ)
  | reselect (me id : ℕ)
  | finish (me id : ℕ) (kind payload : Text)
  | requeue
  | purge
  deriving DecidableEq, Repr

inductive Call where
  | enqueue (kind payload : Text)
  | enqueueAfter (kind payload : Text) (delay : Time)
  | claim
  | requeueStaleJobs
  | purgeOldRows
  deriving DecidableEq, Repr

/-- The clock, whether the statement works, and what a finished job reports. -/
structure Env where
  now : Time
  works : Bool
  ok : Bool

def enter (c : Call) (q : Queue) : Queue × Pc :=
  match c with
  | .enqueue kind payload => (q, .enqueue kind payload none)
  | .enqueueAfter kind payload delay => (q, .enqueue kind payload (some delay))
  | .claim => ({ q with nextWorker := q.nextWorker + 1 }, .look q.nextWorker)
  | .requeueStaleJobs => (q, .requeue)
  | .purgeOldRows => (q, .purge)

/-! ### The statements -/

/-- `INSERT`; a coalesced kind that is waiting is not queued twice. -/
def Queue.insert (q : Queue) (kind payload : Text) (delay : Option Time) (now : Time) : Queue :=
  if delay.isNone && COALESCED_KINDS.contains kind &&
      q.jobs.any (fun j => j.kind = kind && j.state = .pending) then q
  else { q with
    jobs := q.jobs ++ [⟨q.nextId, kind, payload, .pending, 0, now + delay.getD 0, now⟩]
    nextId := q.nextId + 1 }

/-- `ORDER BY id LIMIT 1` among the runnable jobs. -/
def Queue.candidate (q : Queue) (now : Time) : Option ℕ :=
  ((q.jobs.filter fun j => j.state = .pending && j.runAfter ≤ now).map Job.id).min?

def Queue.find (q : Queue) (id : ℕ) : Option Job := q.jobs.find? fun j => j.id = id

/-- The job is there and pending. -/
def Queue.claimable (q : Queue) (id : ℕ) : Bool := q.jobs.any fun j => j.id = id && j.state = .pending

def Queue.markRunning (q : Queue) (me id : ℕ) (now : Time) : Queue :=
  { q with
    jobs := update (fun j => j.id = id && j.state = .pending)
      (fun j => { j with state := .running, attempts := j.attempts + 1 }) q.jobs
    log := .claimed me id now :: q.log }

def Queue.markFinished (q : Queue) (me id : ℕ) (ok : Bool) : Queue :=
  { q with
    jobs := update (fun j => j.id = id) (fun j => { j with state := if ok then .done else .failed }) q.jobs
    log := if q.jobs.any (fun j => j.id = id) then .finished me id :: q.log else q.log }

/-- A running job that was created long ago. -/
def stale (now : Time) (j : Job) : Bool :=
  j.state = .running && j.createdAt < now - STALE_RUNNING_HOURS * HOUR

def Queue.requeueStale (q : Queue) (now : Time) : Queue :=
  { q with
    jobs := update (stale now) (fun j => { j with state := .pending, runAfter := now }) q.jobs
    log := (q.jobs.filter (stale now)).map (fun j => .requeued j.id now) ++ q.log }

def Queue.purgeOld (q : Queue) (now : Time) : Queue :=
  { q with jobs := q.jobs.filter fun j => !(j.state.ended && j.createdAt < now - RETAIN_DAYS * (24 * HOUR)) }

/-- One statement of a call; `none` when it was the last. -/
def advance (e : Env) (q : Queue) : Pc → Queue × Option Pc
  | .enqueue kind payload delay => (if e.works then q.insert kind payload delay e.now else q, none)
  | .look me =>
    match (if e.works then q.candidate e.now else none) with
    | some id => (q, some (.update me id))
    | none => (q, none)
  | .update me id =>
    if e.works && q.claimable id then (q.markRunning me id e.now, some (.reselect me id))
    else (q, some (.look me))
  | .reselect me id =>
    match (if e.works then q.find id else none) with
    | some j => (q, some (.finish me id j.kind j.payload))
    | none => (q, some (.look me))
  | .finish me id _ _ => (if e.works then q.markFinished me id e.ok else q, none)
  | .requeue => (if e.works then q.requeueStale e.now else q, none)
  | .purge => (if e.works then q.purgeOld e.now else q, none)

abbrev Workers := Sys Queue Pc

def step : Workers → Label Call Env → Workers := P2pnas.Lib.Interleave.step enter advance

def idle : Workers := ⟨⟨[], 0, 0, []⟩, []⟩

/-! ### What must not happen -/

/-- Between the claim at `t` and what came after it, the job stayed running for
`STALE_RUNNING_HOURS` and was then put back. -/
def RanLong (id : ℕ) (t : Time) (between : List Entry) : Prop :=
  ∃ later earlier s, between = later ++ .requeued id s :: earlier ∧ (∀ e ∈ earlier, e.job ≠ id) ∧
    t + STALE_RUNNING_HOURS * HOUR ≤ s

/-- Two claims of one job: in between it ran long, or its first claimer finished it. -/
def OneAtATime (log : List Entry) : Prop :=
  ∀ later between earlier b a id t' t,
    log = later ++ .claimed b id t' :: (between ++ .claimed a id t :: earlier) →
      RanLong id t between ∨ .finished a id ∈ between

/-- A finished job is not claimed again. -/
def FinishedForGood (log : List Entry) : Prop :=
  ∀ later earlier a id, log = later ++ .finished a id :: earlier → ∀ b t, .claimed b id t ∉ later

/-- The last thing that happened to a job. -/
def latest (log : List Entry) (id : ℕ) : Option Entry := log.find? fun e => e.job = id

/-- The job was claimed at least `STALE_RUNNING_HOURS` ago, if it is claimed. -/
def claimedLongAgo (log : List Entry) (id : ℕ) (now : Time) : Bool :=
  match latest log id with
  | some (.claimed _ _ t) => t + STALE_RUNNING_HOURS * HOUR ≤ now
  | _ => true

/-- A pass puts back only jobs that were claimed at least `STALE_RUNNING_HOURS` ago. -/
def Patient (s : Workers) : Label Call Env → Prop
  | .start _ => True
  | .move k e => s.procs[k]? = some .requeue → e.works = true →
      ∀ j ∈ s.shared.jobs, stale e.now j = true → claimedLongAgo s.shared.log j.id e.now = true

instance : ∀ s l, Decidable (Patient s l)
  | _, .start _ => .isTrue trivial
  | s, .move k e => inferInstanceAs (Decidable (s.procs[k]? = some .requeue → e.works = true →
      ∀ j ∈ s.shared.jobs, stale e.now j = true → claimedLongAgo s.shared.log j.id e.now = true))

/-! ### The log -/

theorem latest_cons (e : Entry) (log : List Entry) (id : ℕ) :
    latest (e :: log) id = if e.job = id then some e else latest log id := by
  rw [latest, List.find?_cons]
  by_cases he : e.job = id
  · rw [if_pos he, decide_eq_true he]
  · rw [if_neg he, decide_eq_false he, latest]

theorem latest_append {before log : List Entry} {id : ℕ} (h : ∀ e ∈ before, e.job ≠ id) :
    latest (before ++ log) id = latest log id := by
  induction before with
  | nil => rfl
  | cons e before ih =>
    rw [List.cons_append, latest_cons, if_neg (h e (List.mem_cons_self ..))]
    exact ih fun x hx => h x (List.mem_cons_of_mem _ hx)

theorem latest_none {log : List Entry} {id : ℕ} (h : latest log id = none) : ∀ e ∈ log, e.job ≠ id := by
  intro e he heq
  exact List.find?_eq_none.mp h e he (decide_eq_true heq)

theorem latest_some {log : List Entry} {id : ℕ} {e : Entry} (h : latest log id = some e) :
    ∃ later earlier, log = later ++ e :: earlier ∧ ∀ x ∈ later, x.job ≠ id := by
  obtain ⟨-, later, earlier, heq, hno⟩ := List.find?_eq_some_iff_append.mp h
  exact ⟨later, earlier, heq, fun x hx => by simpa using hno x hx⟩

/-- An entry that is not in the first part of the log is in the rest. -/
theorem split_after {before log later earlier : List Entry} {e : Entry}
    (h : before ++ log = later ++ e :: earlier) (hno : e ∉ before) :
    ∃ rest, later = before ++ rest ∧ log = rest ++ e :: earlier := by
  rcases List.append_eq_append_iff.mp h with ⟨rest, hl, hr⟩ | ⟨rest, hb, hr⟩
  · exact ⟨rest, hl, hr⟩
  · cases rest with
    | nil =>
      rw [List.append_nil] at hb
      exact ⟨[], by rw [List.append_nil, hb], hr.symm⟩
    | cons x rest =>
      rw [List.cons_append] at hr
      obtain ⟨rfl, -⟩ := List.cons.inj hr
      exact absurd (hb ▸ List.mem_append_right _ (List.mem_cons_self ..)) hno

theorem RanLong.extend {id : ℕ} {t : Time} {between : List Entry} (h : RanLong id t between)
    (before : List Entry) : RanLong id t (before ++ between) := by
  obtain ⟨later, earlier, s, rfl, hno, hlong⟩ := h
  exact ⟨before ++ later, earlier, s, by rw [List.append_assoc], hno, hlong⟩

/-- Entries that are no claims come before the log. -/
theorem OneAtATime.quiet {before log : List Entry} (h : OneAtATime log)
    (hno : ∀ b id t, .claimed b id t ∉ before) : OneAtATime (before ++ log) := by
  intro later between earlier b a id t' t heq
  obtain ⟨rest, -, hlog⟩ := split_after heq (hno b id t')
  exact h rest between earlier b a id t' t hlog

theorem FinishedForGood.quiet {before log : List Entry} (h : FinishedForGood log)
    (hno : ∀ b id t, .claimed b id t ∉ before) (hend : ∀ a id, .finished a id ∉ before) :
    FinishedForGood (before ++ log) := by
  intro later earlier a id heq b t hin
  obtain ⟨rest, rfl, hlog⟩ := split_after heq (hend a id)
  rcases List.mem_append.mp hin with hin | hin
  · exact hno b id t hin
  · exact h rest earlier a id hlog b t hin

/-! ### The table and the log -/

/-- What the last entry about a job says of its state, and what must not happen. -/
structure Traced (q : Queue) : Prop where
  ids : (q.jobs.map Job.id).Nodup
  fresh : ∀ j ∈ q.jobs, j.id < q.nextId
  known : ∀ e ∈ q.log, e.job < q.nextId
  pending : ∀ j ∈ q.jobs, j.state = .pending →
    latest q.log j.id = none ∨ ∃ s, latest q.log j.id = some (.requeued j.id s)
  running : ∀ j ∈ q.jobs, j.state = .running → ∃ a t, latest q.log j.id = some (.claimed a j.id t)
  ended : ∀ a id, .finished a id ∈ q.log → ∀ j ∈ q.jobs, j.id = id → j.state.ended = true
  waited : ∀ later id s earlier, q.log = later ++ .requeued id s :: earlier →
    ∃ a t, latest earlier id = some (.claimed a id t) ∧ t + STALE_RUNNING_HOURS * HOUR ≤ s
  apart : OneAtATime q.log
  forGood : FinishedForGood q.log

theorem Traced.eq_of_id {q : Queue} (h : Traced q) {i j : Job} (hi : i ∈ q.jobs) (hj : j ∈ q.jobs)
    (hid : i.id = j.id) : i = j := eq_of_key h.ids hi hj hid

theorem Traced.insert {q : Queue} (h : Traced q) (kind payload : Text) (delay : Option Time)
    (now : Time) : Traced (q.insert kind payload delay now) := by
  unfold Queue.insert
  split
  · exact h
  · have hnew : latest q.log q.nextId = none :=
      List.find?_eq_none.mpr fun e he => by
        have := h.known e he
        simp only [decide_eq_true_eq]
        omega
    refine ⟨?_, fun j hj => ?_, fun e he => ?_, fun j hj hp => ?_, fun j hj hr => ?_,
      fun a id hf j hj hid => ?_, h.waited, h.apart, h.forGood⟩
    · apply nodup_concat h.ids
      intro hm
      obtain ⟨j, hj, hid⟩ := List.mem_map.mp hm
      exact absurd hid (h.fresh j hj).ne
    · rcases List.mem_append.mp hj with hj | hj
      · exact (h.fresh j hj).trans (Nat.lt_succ_self _)
      · rw [List.mem_singleton.mp hj]
        exact Nat.lt_succ_self _
    · exact (h.known e he).trans (Nat.lt_succ_self _)
    · rcases List.mem_append.mp hj with hj | hj
      · exact h.pending j hj hp
      · rw [List.mem_singleton.mp hj]
        exact .inl hnew
    · rcases List.mem_append.mp hj with hj | hj
      · exact h.running j hj hr
      · rw [List.mem_singleton.mp hj] at hr
        cases hr
    · rcases List.mem_append.mp hj with hj | hj
      · exact h.ended a id hf j hj hid
      · rw [List.mem_singleton.mp hj] at hid
        have hlt := h.known _ hf
        change id < q.nextId at hlt
        exact absurd hid hlt.ne'

theorem Traced.purge {q : Queue} (h : Traced q) (now : Time) : Traced (q.purgeOld now) := by
  have hin : ∀ j ∈ (q.purgeOld now).jobs, j ∈ q.jobs := fun j hj => (List.mem_filter.mp hj).1
  exact ⟨nodup_filter _ h.ids, fun j hj => h.fresh j (hin j hj), h.known,
    fun j hj => h.pending j (hin j hj), fun j hj => h.running j (hin j hj),
    fun a id hf j hj => h.ended a id hf j (hin j hj), h.waited, h.apart, h.forGood⟩

/-- A job that the log says was put back ran long before. -/
theorem Traced.reclaimed {q : Queue} (h : Traced q) {id : ℕ} {s : Time}
    (hlast : latest q.log id = some (.requeued id s)) {between earlier : List Entry} {a : ℕ} {t : Time}
    (hlog : q.log = between ++ .claimed a id t :: earlier) :
    RanLong id t between ∨ .finished a id ∈ between := by
  obtain ⟨l, rest, hl, hnol⟩ := latest_some hlast
  obtain ⟨a₀, t₀, hlast₀, hlong⟩ := h.waited l id s rest hl
  obtain ⟨m, r, hm, hnom⟩ := latest_some hlast₀
  -- the claim is the one before the pass, or lies before that one
  have hsplit : (l ++ [.requeued id s]) ++ rest = between ++ .claimed a id t :: earlier := by
    rw [List.append_assoc, List.singleton_append, ← hl, hlog]
  have hnot : (.claimed a id t : Entry) ∉ l ++ [.requeued id s] := by
    intro hin
    rcases List.mem_append.mp hin with hin | hin
    · exact hnol _ hin rfl
    · cases List.mem_singleton.mp hin
  obtain ⟨c, rfl, hrest⟩ := split_after hsplit hnot
  have hranlong : RanLong id t₀ (l ++ [.requeued id s] ++ m) :=
    ⟨l, m, s, by rw [List.append_assoc, List.singleton_append], hnom, hlong⟩
  rcases List.append_eq_append_iff.mp (hm.symm.trans hrest) with ⟨d, hc, hr⟩ | ⟨d, hmd, hr⟩
  · cases d with
    | nil =>
      rw [List.nil_append] at hr
      obtain ⟨heq, -⟩ := List.cons.inj hr
      cases heq
      rw [List.append_nil] at hc
      rw [hc]
      exact .inl hranlong
    | cons x d =>
      rw [List.cons_append] at hr
      obtain ⟨rfl, hr⟩ := List.cons.inj hr
      have hpair : q.log = (l ++ [.requeued id s] ++ m) ++ .claimed a₀ id t₀ ::
          (d ++ .claimed a id t :: earlier) := by
        rw [hl, hm, hr]
        simp
      have hc' : l ++ [.requeued id s] ++ c =
          (l ++ [.requeued id s] ++ m ++ [.claimed a₀ id t₀]) ++ d := by
        rw [hc]
        simp
      rw [hc']
      exact (h.apart _ d earlier a₀ a id t₀ t hpair).imp (fun hd => hd.extend _)
        fun hd => List.mem_append_right _ hd
  · cases d with
    | nil =>
      rw [List.nil_append] at hr
      obtain ⟨heq, -⟩ := List.cons.inj hr
      cases heq
      rw [List.append_nil] at hmd
      rw [← hmd]
      exact .inl hranlong
    | cons x d =>
      rw [List.cons_append] at hr
      obtain ⟨rfl, -⟩ := List.cons.inj hr
      exact absurd rfl (hnom _ (hmd ▸ List.mem_append_right _ (List.mem_cons_self ..)))

/-- A pending job that is claimed ran long before, was finished, or was never claimed. -/
theorem Traced.claim_apart {q : Queue} (h : Traced q) {x : Job} (hx : x ∈ q.jobs)
    (hxp : x.state = .pending) (me : ℕ) (now : Time) : OneAtATime (.claimed me x.id now :: q.log) := by
  intro later between earlier b a id t' t heq
  cases later with
  | nil =>
    obtain ⟨heq', hlog⟩ := List.cons.inj heq
    cases heq'
    rcases h.pending x hx hxp with hnone | ⟨s, hlast⟩
    · refine absurd rfl (latest_none hnone (.claimed a x.id t) ?_)
      rw [hlog]
      exact List.mem_append_right _ (List.mem_cons_self ..)
    · exact h.reclaimed hlast hlog
  | cons y later =>
    obtain ⟨-, hlog⟩ := List.cons.inj heq
    exact h.apart later between earlier b a id t' t hlog

/-- A job that nobody finished is claimed. -/
theorem FinishedForGood.claim {log : List Entry} (h : FinishedForGood log) {id : ℕ}
    (hnotover : ∀ a, .finished a id ∉ log) (me : ℕ) (now : Time) :
    FinishedForGood (.claimed me id now :: log) := by
  intro later earlier a id' heq b t hin
  obtain ⟨rest, rfl, hlog⟩ := @split_after [.claimed me id now] log _ _ _ heq (by simp)
  rcases List.mem_append.mp hin with hin | hin
  · cases List.mem_singleton.mp hin
    refine hnotover a ?_
    rw [hlog]
    exact List.mem_append_right _ (List.mem_cons_self ..)
  · exact h rest earlier a id' hlog b t hin

/-- A job is finished, once more perhaps. -/
theorem FinishedForGood.finish {log : List Entry} (h : FinishedForGood log) (me id : ℕ) :
    FinishedForGood (.finished me id :: log) := by
  intro later earlier a id' heq b t hin
  cases later with
  | nil => cases hin
  | cons y later =>
    obtain ⟨rfl, hrest⟩ := List.cons.inj heq
    rcases List.mem_cons.mp hin with heq' | hin
    · cases heq'
    · exact h later earlier a id' hrest b t hin

/-- Jobs that keep their ids stay below the sequence. -/
theorem Traced.fresh_of_ids {q : Queue} (h : Traced q) {jobs : List Job}
    (hids : jobs.map Job.id = q.jobs.map Job.id) : ∀ j ∈ jobs, j.id < q.nextId := by
  intro j hj
  obtain ⟨j₀, hj₀, hid⟩ := List.mem_map.mp (hids ▸ List.mem_map_of_mem hj)
  rw [← hid]
  exact h.fresh j₀ hj₀

theorem Traced.markRunning {q : Queue} (h : Traced q) {me id : ℕ} (hclaim : q.claimable id = true)
    (now : Time) : Traced (q.markRunning me id now) := by
  obtain ⟨x, hx, hsel⟩ := List.any_eq_true.mp hclaim
  rw [Bool.and_eq_true, decide_eq_true_eq, decide_eq_true_eq] at hsel
  obtain ⟨rfl, hxp⟩ := hsel
  have hjob : ∀ j ∈ (q.markRunning me x.id now).jobs,
      j.id = x.id ∧ j.state = .running ∨ j.id ≠ x.id ∧ j ∈ q.jobs := by
    intro j hj
    obtain ⟨j₀, hj₀, ⟨hs, rfl⟩ | ⟨hs, rfl⟩⟩ := mem_update.mp hj
    · rw [Bool.and_eq_true, decide_eq_true_eq] at hs
      exact .inl ⟨hs.1, rfl⟩
    · refine .inr ⟨fun hid => ?_, hj₀⟩
      rw [h.eq_of_id hj₀ hx hid, decide_eq_true rfl, decide_eq_true hxp] at hs
      cases hs
  have hids : (q.markRunning me x.id now).jobs.map Job.id = q.jobs.map Job.id := by
    apply update_map Job.id
    exact fun _ => rfl
  have hnotover : ∀ a, .finished a x.id ∉ q.log := by
    intro a hf
    have hover := h.ended a x.id hf x hx rfl
    rw [hxp] at hover
    cases hover
  have hlatest : ∀ k, latest (q.markRunning me x.id now).log k =
      if x.id = k then some (.claimed me x.id now) else latest q.log k := fun k => latest_cons _ q.log k
  refine ⟨by rw [hids]; exact h.ids, h.fresh_of_ids hids, fun e he => ?_, fun j hj hp => ?_,
    fun j hj hr => ?_, fun a id' hf j hj hid => ?_, fun later id' s earlier heq => ?_,
    h.claim_apart hx hxp me now, h.forGood.claim hnotover me now⟩
  · rcases List.mem_cons.mp he with rfl | he
    · exact h.fresh x hx
    · exact h.known e he
  · rcases hjob j hj with ⟨-, hr⟩ | ⟨hne, hj⟩
    · rw [hr] at hp
      cases hp
    · rw [hlatest, if_neg fun heq => hne heq.symm]
      exact h.pending j hj hp
  · rw [hlatest]
    rcases hjob j hj with ⟨hid, -⟩ | ⟨hne, hj⟩
    · rw [if_pos hid.symm, hid]
      exact ⟨me, now, rfl⟩
    · rw [if_neg fun heq => hne heq.symm]
      exact h.running j hj hr
  · rcases List.mem_cons.mp hf with heq | hf
    · cases heq
    · rcases hjob j hj with ⟨hjid, -⟩ | ⟨-, hj⟩
      · exact absurd (hjid.symm.trans hid ▸ hf) (hnotover a)
      · exact h.ended a id' hf j hj hid
  · obtain ⟨rest, -, hlog⟩ := @split_after [.claimed me x.id now] q.log _ _ _ heq (by simp)
    exact h.waited rest id' s earlier hlog

/-- `finish` of a job that is gone does nothing. -/
theorem markFinished_gone {q : Queue} (me : ℕ) {id : ℕ} (ok : Bool)
    (h : q.jobs.any (fun j => j.id = id) = false) : q.markFinished me id ok = q := by
  have hjobs : update (fun j : Job => j.id = id)
      (fun j => { j with state := if ok then .done else .failed }) q.jobs = q.jobs := by
    rw [update]
    conv_rhs => rw [← List.map_id q.jobs]
    apply List.map_congr_left
    intro j hj
    rw [if_neg (List.any_eq_false.mp h j hj)]
    rfl
  rw [Queue.markFinished, hjobs, h]
  rfl

theorem Traced.markFinished {q : Queue} (h : Traced q) (me id : ℕ) (ok : Bool) :
    Traced (q.markFinished me id ok) := by
  cases hany : q.jobs.any (fun j => j.id = id) with
  | false =>
    rw [markFinished_gone me ok hany]
    exact h
  | true =>
    obtain ⟨x, hx, hxid⟩ := List.any_eq_true.mp hany
    have hlog : (q.markFinished me id ok).log = .finished me id :: q.log := by
      rw [Queue.markFinished, hany]
      rfl
    have hjob : ∀ j ∈ (q.markFinished me id ok).jobs,
        j.id = id ∧ j.state.ended = true ∨ j.id ≠ id ∧ j ∈ q.jobs := by
      intro j hj
      obtain ⟨j₀, hj₀, ⟨hs, rfl⟩ | ⟨hs, rfl⟩⟩ := mem_update.mp hj
      · refine .inl ⟨of_decide_eq_true hs, ?_⟩
        cases ok with
        | true => rfl
        | false => rfl
      · exact .inr ⟨of_decide_eq_false hs, hj₀⟩
    have hids : (q.markFinished me id ok).jobs.map Job.id = q.jobs.map Job.id := by
      apply update_map Job.id
      exact fun _ => rfl
    have hlatest : ∀ k, k ≠ id → latest (q.markFinished me id ok).log k = latest q.log k := by
      intro k hk
      rw [hlog, latest_cons, if_neg fun heq => hk heq.symm]
    refine ⟨by rw [hids]; exact h.ids, h.fresh_of_ids hids, fun e he => ?_, fun j hj hp => ?_,
      fun j hj hr => ?_, fun a id' hf j hj hid => ?_, fun later id' s earlier heq => ?_, ?_, ?_⟩
    · rw [hlog] at he
      rcases List.mem_cons.mp he with rfl | he
      · change id < q.nextId
        rw [← of_decide_eq_true hxid]
        exact h.fresh x hx
      · exact h.known e he
    · rcases hjob j hj with ⟨-, hover⟩ | ⟨hne, hj⟩
      · rw [hp] at hover
        cases hover
      · rw [hlatest j.id hne]
        exact h.pending j hj hp
    · rcases hjob j hj with ⟨-, hover⟩ | ⟨hne, hj⟩
      · rw [hr] at hover
        cases hover
      · rw [hlatest j.id hne]
        exact h.running j hj hr
    · rcases hjob j hj with ⟨-, hover⟩ | ⟨hne, hj⟩
      · exact hover
      · rw [hlog] at hf
        rcases List.mem_cons.mp hf with heq | hf
        · cases heq
          exact absurd hid hne
        · exact h.ended a id' hf j hj hid
    · rw [hlog] at heq
      obtain ⟨rest, -, hrest⟩ := @split_after [.finished me id] q.log _ _ _ heq (by simp)
      exact h.waited rest id' s earlier hrest
    · rw [hlog]
      exact @OneAtATime.quiet [.finished me id] q.log h.apart (by simp)
    · rw [hlog]
      exact h.forGood.finish me id

/-- What a pass over the jobs writes in the log. -/
def put (now : Time) (jobs : List Job) : List Entry :=
  (jobs.filter (stale now)).map fun j => .requeued j.id now

theorem mem_put {now : Time} {jobs : List Job} {e : Entry} (h : e ∈ put now jobs) :
    ∃ j ∈ jobs, stale now j = true ∧ e = .requeued j.id now := by
  obtain ⟨j, hj, heq⟩ := List.mem_map.mp h
  obtain ⟨hj, hs⟩ := List.mem_filter.mp hj
  exact ⟨j, hj, hs, heq.symm⟩

theorem running_of_stale {now : Time} {j : Job} (hs : stale now j = true) : j.state = .running := by
  rw [stale, Bool.and_eq_true] at hs
  exact of_decide_eq_true hs.1

/-- The pass is the last that happened to a job that it put back. -/
theorem latest_put {now : Time} {jobs : List Job} {j : Job} (hj : j ∈ jobs) (hs : stale now j = true)
    (log : List Entry) : latest (put now jobs ++ log) j.id = some (.requeued j.id now) := by
  rw [latest, List.find?_append]
  have hmem : Entry.requeued j.id now ∈ put now jobs :=
    List.mem_map_of_mem (List.mem_filter.mpr ⟨hj, hs⟩)
  cases hf : (put now jobs).find? fun e => e.job = j.id with
  | none => exact absurd (decide_eq_true rfl) (List.find?_eq_none.mp hf _ hmem)
  | some e =>
    obtain ⟨j₁, -, -, rfl⟩ := mem_put (List.mem_of_find?_eq_some hf)
    have hsel := @List.find?_some _ (fun e : Entry => decide (e.job = j.id)) _ _ hf
    have hid₁ : j₁.id = j.id := of_decide_eq_true hsel
    rw [Option.some_or, hid₁]

/-- A job that was not put back has no entry in the pass. -/
theorem Traced.latest_kept {q : Queue} (h : Traced q) {now : Time} {j : Job} (hj : j ∈ q.jobs)
    (hs : stale now j = false) : latest (put now q.jobs ++ q.log) j.id = latest q.log j.id := by
  apply latest_append
  intro e he hid
  obtain ⟨j₀, hj₀, hs₀, rfl⟩ := mem_put he
  rw [h.eq_of_id hj₀ hj hid, hs] at hs₀
  cases hs₀

/-- Behind an entry of the pass, the last that happened to the job is its claim. -/
theorem Traced.put_waited {q : Queue} (h : Traced q) {now : Time}
    (hpatient : ∀ j ∈ q.jobs, stale now j = true → claimedLongAgo q.log j.id now = true)
    {before after : List Entry} {id : ℕ} {s : Time} (hb : put now q.jobs = before ++ .requeued id s :: after) :
    ∃ a t, latest (after ++ q.log) id = some (.claimed a id t) ∧ t + STALE_RUNNING_HOURS * HOUR ≤ s := by
  obtain ⟨j, hj, hs, hjeq⟩ := mem_put (hb ▸ List.mem_append_right before (List.mem_cons_self ..))
  cases hjeq
  obtain ⟨a, t, hlast⟩ := h.running j hj (running_of_stale hs)
  have hlong := hpatient j hj hs
  rw [claimedLongAgo, hlast] at hlong
  have hnodup : ((put now q.jobs).map Entry.job).Nodup := by
    rw [put, List.map_map]
    exact nodup_filter (stale now) h.ids
  rw [hb, List.map_append, List.map_cons, List.nodup_append, List.nodup_cons] at hnodup
  have hno : ∀ e ∈ after, e.job ≠ j.id := by
    intro e he hid
    have hm : e.job ∈ after.map Entry.job := List.mem_map_of_mem he
    rw [hid] at hm
    exact hnodup.2.1.1 hm
  exact ⟨a, t, (latest_append hno).trans hlast, of_decide_eq_true hlong⟩

/-- A pass that puts back only jobs claimed long before. -/
theorem Traced.requeueStale {q : Queue} (h : Traced q) {now : Time}
    (hpatient : ∀ j ∈ q.jobs, stale now j = true → claimedLongAgo q.log j.id now = true) :
    Traced (q.requeueStale now) := by
  have hlog : (q.requeueStale now).log = put now q.jobs ++ q.log := rfl
  have hjob : ∀ j ∈ (q.requeueStale now).jobs,
      (∃ j₀ ∈ q.jobs, stale now j₀ = true ∧ j.id = j₀.id ∧ j.state = .pending) ∨
        stale now j = false ∧ j ∈ q.jobs := by
    intro j hj
    obtain ⟨j₀, hj₀, ⟨hs, rfl⟩ | ⟨hs, rfl⟩⟩ := mem_update.mp hj
    · exact .inl ⟨j₀, hj₀, hs, rfl, rfl⟩
    · exact .inr ⟨hs, hj₀⟩
  have hids : (q.requeueStale now).jobs.map Job.id = q.jobs.map Job.id := by
    apply update_map Job.id
    exact fun _ => rfl
  have hnoclaim : ∀ b i t, Entry.claimed b i t ∉ put now q.jobs := by
    intro b i t hin
    obtain ⟨_, _, _, heq⟩ := mem_put hin
    cases heq
  have hnoend : ∀ a i, Entry.finished a i ∉ put now q.jobs := by
    intro a i hin
    obtain ⟨_, _, _, heq⟩ := mem_put hin
    cases heq
  refine ⟨by rw [hids]; exact h.ids, h.fresh_of_ids hids, fun e he => ?_, fun j hj hp => ?_,
    fun j hj hr => ?_, fun a id hf j hj hid => ?_, fun later id s earlier heq => ?_,
    h.apart.quiet hnoclaim, h.forGood.quiet hnoclaim hnoend⟩
  · rcases List.mem_append.mp he with he | he
    · obtain ⟨j, hj, -, rfl⟩ := mem_put he
      exact h.fresh j hj
    · exact h.known e he
  · rw [hlog]
    rcases hjob j hj with ⟨j₀, hj₀, hs, hid, -⟩ | ⟨hs, hj⟩
    · rw [hid]
      exact .inr ⟨now, latest_put hj₀ hs q.log⟩
    · rw [h.latest_kept hj hs]
      exact h.pending j hj hp
  · rcases hjob j hj with ⟨_, _, _, _, hpending⟩ | ⟨hs, hj⟩
    · rw [hr] at hpending
      cases hpending
    · rw [hlog, h.latest_kept hj hs]
      exact h.running j hj hr
  · rcases List.mem_append.mp hf with hf | hf
    · exact absurd hf (hnoend a id)
    · rcases hjob j hj with ⟨j₀, hj₀, hs, hid₀, -⟩ | ⟨-, hj⟩
      · have hover := h.ended a id hf j₀ hj₀ (hid₀ ▸ hid)
        rw [running_of_stale hs] at hover
        cases hover
      · exact h.ended a id hf j hj hid
  · rw [hlog] at heq
    rcases List.append_eq_append_iff.mp heq with ⟨c, -, hr⟩ | ⟨c, hb, hr⟩
    · exact h.waited c id s earlier hr
    · cases c with
      | nil => exact h.waited [] id s earlier hr.symm
      | cons e c =>
        obtain ⟨rfl, rfl⟩ := List.cons.inj hr
        exact h.put_waited hpatient hb

/-! ### Runs -/

theorem step_traced (s : Workers) (l : Label Call Env) (h : Traced s.shared) (hl : Patient s l) :
    Traced (step s l).shared := by
  cases l with
  | start c =>
    cases c with
    | enqueue kind payload | enqueueAfter kind payload delay | requeueStaleJobs | purgeOldRows => exact h
    | claim =>
      exact ⟨h.ids, h.fresh, h.known, h.pending, h.running, h.ended, h.waited, h.apart, h.forGood⟩
  | move k e =>
    cases ht : s.procs[k]? with
    | none =>
      have hsame : step s (.move k e) = s := by simp only [step, P2pnas.Lib.Interleave.step, ht]
      rw [hsame]
      exact h
    | some pc =>
      rw [step, step_move enter advance ht]
      change Traced (advance e s.shared pc).1
      cases pc with
      | enqueue kind payload delay =>
        unfold advance
        dsimp only
        split
        · exact h.insert kind payload delay e.now
        · exact h
      | look me =>
        unfold advance
        dsimp only
        split
        · exact h
        · exact h
      | update me id =>
        unfold advance
        dsimp only
        split
        · next hc => exact h.markRunning (Bool.and_eq_true _ _ ▸ hc).2 e.now
        · exact h
      | reselect me id =>
        unfold advance
        dsimp only
        split
        · exact h
        · exact h
      | finish me id kind payload =>
        unfold advance
        dsimp only
        split
        · exact h.markFinished me id e.ok
        · exact h
      | requeue =>
        unfold advance
        dsimp only
        split
        · next hw => exact h.requeueStale (hl ht hw)
        · exact h
      | purge =>
        unfold advance
        dsimp only
        split
        · exact h.purge e.now
        · exact h

theorem idle_traced : Traced idle.shared where
  ids := List.nodup_nil
  fresh := nofun
  known := nofun
  pending := nofun
  running := nofun
  ended := nofun
  waited _ _ _ _ h := by cases (List.append_eq_nil_iff.mp h.symm).2
  apart _ _ _ _ _ _ _ _ h := by cases (List.append_eq_nil_iff.mp h.symm).2
  forGood _ _ _ _ h := by cases (List.append_eq_nil_iff.mp h.symm).2

/-- Where every pass puts back only jobs that were claimed long before, no job runs twice at
once, and none runs again that was finished. -/
theorem run_oneAtATime (ls : List (Label Call Env)) (h : AllMeet step Patient idle ls) :
    OneAtATime (run step idle ls).shared.log ∧ FinishedForGood (run step idle ls).shared.log := by
  have hinv : Traced (run step idle ls).shared :=
    @run_invariant Workers _ step Patient (fun s => Traced s.shared) step_traced idle idle_traced ls h
  exact ⟨hinv.apart, hinv.forGood⟩

/-- Statements that work, at one time each. -/
def moves (k : ℕ) (times : List Time) : List (Label Call Env) :=
  times.map fun now => .move k ⟨now, true, true⟩

/-- A repair is queued at 0, claimed at once, put back by a pass and claimed again. -/
def slowRepair (claim pass : Time) : List (Label Call Env) :=
  .start (.enqueue "repair".toList []) :: moves 0 [0] ++
    .start .claim :: moves 0 [claim, claim, claim] ++
    .start .requeueStaleJobs :: moves 1 [pass] ++
    .start .claim :: moves 1 [pass, pass, pass]

/-- Claimed two hours before the pass, the job ran long. -/
theorem slowRepair_apart :
    (∃ a b t t', .claimed a 0 t ∈ (run step idle (slowRepair 1 (2 * HOUR))).shared.log ∧
      .claimed b 0 t' ∈ (run step idle (slowRepair 1 (2 * HOUR))).shared.log ∧ a ≠ b) ∧
      OneAtATime (run step idle (slowRepair 1 (2 * HOUR))).shared.log ∧
      FinishedForGood (run step idle (slowRepair 1 (2 * HOUR))).shared.log :=
  ⟨⟨0, 1, 1, 2 * HOUR, by decide +kernel⟩, run_oneAtATime _ (by decide +kernel)⟩

/-- A job that waited two hours in the queue is put back a moment after it is claimed, and two
workers run it. -/
theorem waitedRepair_runsTwice :
    (run step idle (slowRepair (2 * HOUR) (2 * HOUR + 1))).shared.log =
      [.claimed 1 0 (2 * HOUR + 1), .requeued 0 (2 * HOUR + 1), .claimed 0 0 (2 * HOUR)] ∧
    ¬ ∀ ls : List (Label Call Env), OneAtATime (run step idle ls).shared.log ∧
      FinishedForGood (run step idle ls).shared.log := by
  have hlog : (run step idle (slowRepair (2 * HOUR) (2 * HOUR + 1))).shared.log =
      [.claimed 1 0 (2 * HOUR + 1), .requeued 0 (2 * HOUR + 1), .claimed 0 0 (2 * HOUR)] := by
    decide +kernel
  refine ⟨hlog, fun hall => ?_⟩
  rcases (hall (slowRepair (2 * HOUR) (2 * HOUR + 1))).1 [] [.requeued 0 (2 * HOUR + 1)] [] 1 0 0
    (2 * HOUR + 1) (2 * HOUR) hlog with ⟨later, earlier, s, heq, -, hlong⟩ | hfin
  · have hs : s ≤ 2 * HOUR + 1 := by
      have hin : Entry.requeued 0 s ∈ [Entry.requeued 0 (2 * HOUR + 1)] :=
        heq ▸ List.mem_append_right _ (List.mem_cons_self ..)
      cases List.mem_singleton.mp hin
      exact le_refl _
    have hhour : 2 * HOUR + 1 < 2 * HOUR + STALE_RUNNING_HOURS * HOUR := by decide
    exact absurd (hlong.trans hs) (not_le.mpr hhour)
  · cases List.mem_singleton.mp hfin

end P2pnas.Node.Jobs
