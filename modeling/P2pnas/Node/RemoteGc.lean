import P2pnas.Lib.Runs
import P2pnas.Lib.Strings
import Mathlib.Data.List.Nodup

/-!
# Telling peers to drop a deleted file's shards (`jobs.rs:15-18, 77-145`)

A job asks the peer of every shard in its list and hands the ones that were not acknowledged to the
next job. A lookup that fails reads like a peer that is gone. The log has what happened to each
shard; a shard carries its place in the first list, so that two equal entries are told apart.
-/

namespace P2pnas.Node.RemoteGc
open P2pnas.Lib.Runs
open P2pnas.Lib.Strings (Text)

def GC_MAX_ATTEMPTS : ℕ := 5

/-- A fragment and its peer, with its place in the first list. -/
abbrev Shard := (Text × Text) × ℕ

/-- What the job of an attempt meets for a shard: the address of the peer, if the table has it,
whether the lookup fails, and whether the peer acknowledges. -/
structure Env where
  known : ℕ → Shard → Option Text
  fails : ℕ → Shard → Bool
  acks : ℕ → Shard → Bool

/-- `SELECT addr FROM peers WHERE peer_id = $1`, `.ok().flatten()`. -/
def Env.lookup (env : Env) (attempt : ℕ) (s : Shard) : Option Text :=
  if env.fails attempt s then none else env.known attempt s

inductive Event where
  | skipped (attempt : ℕ) (s : Shard)
  | sent (attempt : ℕ) (s : Shard) (acked : Bool)
  | gaveUp (s : Shard)
  deriving DecidableEq, Repr

/-- The body of the loop. -/
def handle (env : Env) (attempt : ℕ) (s : Shard) : Event :=
  match env.lookup attempt s with
  | none => .skipped attempt s
  | some _ => .sent attempt s (env.acks attempt s)

/-- A `DeleteShard` that got no acknowledgement. -/
def unacked (env : Env) (attempt : ℕ) (s : Shard) : Bool :=
  (env.lookup attempt s).isSome && !env.acks attempt s

/-- A `gc_remote` job. -/
structure Payload where
  shards : List Shard
  attempt : ℕ
  deriving DecidableEq, Repr

/-- `run_gc_remote`: what happened to the shards and the job enqueued for the others. -/
def runGcRemote (env : Env) (p : Payload) : List Event × Option Payload :=
  let failed := p.shards.filter (unacked env p.attempt)
  let events := p.shards.map (handle env p.attempt)
  if failed.isEmpty then (events, none)
  else if p.attempt + 1 < GC_MAX_ATTEMPTS then (events, some ⟨failed, p.attempt + 1⟩)
  else (events ++ failed.map .gaveUp, none)

/-- The job that waits and what happened so far. -/
structure Chain where
  pending : Option Payload
  log : List Event
  deriving DecidableEq, Repr

/-- `enqueue_remote_gc` (`files.rs:248-253`). -/
def enqueueRemoteGc (shards : List (Text × Text)) : Chain :=
  if shards.isEmpty then ⟨none, []⟩ else ⟨some ⟨shards.zipIdx, 0⟩, []⟩

/-- The waiting job runs. -/
def runJob (env : Env) (c : Chain) : Chain :=
  match c.pending with
  | none => c
  | some p => ⟨(runGcRemote env p).2, c.log ++ (runGcRemote env p).1⟩

/-- The chain after `n` jobs. -/
def chainAfter (env : Env) (shards : List (Text × Text)) (n : ℕ) : Chain :=
  run (fun c _ => runJob env c) (enqueueRemoteGc shards) (List.range n)

/-! ### Who is still in the list -/

section
variable (env : Env)

/-- No attempt before this one was the last for the shard. -/
def open' (attempt : ℕ) (s : Shard) : Bool := (List.range attempt).all fun a => unacked env a s

/-- The list of an attempt. -/
def listAt (shards : List (Text × Text)) (attempt : ℕ) : List Shard :=
  shards.zipIdx.filter (open' env attempt)

/-- What an attempt adds to the log. -/
def eventsAt (shards : List (Text × Text)) (attempt : ℕ) : List Event :=
  (listAt env shards attempt).map (handle env attempt) ++
    if attempt + 1 = GC_MAX_ATTEMPTS then (listAt env shards GC_MAX_ATTEMPTS).map .gaveUp else []

variable {env} {shards : List (Text × Text)}

theorem open_succ (attempt : ℕ) (s : Shard) :
    open' env (attempt + 1) s = (open' env attempt s && unacked env attempt s) := by
  rw [open', List.range_succ, List.all_append, List.all_cons, List.all_nil, Bool.and_true, ← open']

theorem open_iff {attempt : ℕ} {s : Shard} :
    open' env attempt s = true ↔ ∀ a < attempt, unacked env a s = true := by
  rw [open', List.all_eq_true]
  exact forall_congr' fun a => by rw [List.mem_range]

theorem listAt_succ (attempt : ℕ) : listAt env shards (attempt + 1) =
    (listAt env shards attempt).filter (unacked env attempt) := by
  rw [listAt, listAt, List.filter_filter]
  exact List.filter_congr fun s _ => (open_succ attempt s).trans (Bool.and_comm _ _)

theorem listAt_nil {attempt later : ℕ} (h : listAt env shards attempt = []) (hle : attempt ≤ later) :
    listAt env shards later = [] := by
  induction later, hle using Nat.le_induction with
  | base => exact h
  | succ n _ ih => rw [listAt_succ, ih, List.filter_nil]

theorem eventsAt_nil {attempt : ℕ} (h : listAt env shards attempt = []) :
    eventsAt env shards attempt = [] := by
  rw [eventsAt, h, List.map_nil, List.nil_append]
  split
  · next hlast => rw [listAt_nil h (by omega), List.map_nil]
  · rfl

/-- The jobs of a chain: each takes the shards that no earlier one was done with, and after
`GC_MAX_ATTEMPTS` of them there is none. -/
theorem chainAfter_eq (n : ℕ) : chainAfter env shards n =
    ⟨if n < GC_MAX_ATTEMPTS ∧ listAt env shards n ≠ [] then some ⟨listAt env shards n, n⟩ else none,
      (List.range (min n GC_MAX_ATTEMPTS)).flatMap (eventsAt env shards)⟩ := by
  induction n with
  | zero =>
    have hall : listAt env shards 0 = shards.zipIdx := List.filter_eq_self.mpr fun _ _ => rfl
    rw [chainAfter, List.range_zero, run, List.foldl_nil, enqueueRemoteGc, hall]
    cases shards with
    | nil => rfl
    | cons s shards => rfl
  | succ n ih =>
    have hstep : chainAfter env shards (n + 1) = runJob env (chainAfter env shards n) := by
      rw [chainAfter, chainAfter, List.range_succ, run, List.foldl_append]
      rfl
    rw [hstep, ih]
    by_cases hlt : n < GC_MAX_ATTEMPTS
    · have hlog : (List.range (min (n + 1) GC_MAX_ATTEMPTS)).flatMap (eventsAt env shards) =
          (List.range (min n GC_MAX_ATTEMPTS)).flatMap (eventsAt env shards) ++
            eventsAt env shards n := by
        rw [Nat.min_eq_left hlt, Nat.min_eq_left hlt.le, List.range_succ, List.flatMap_append,
          List.flatMap_cons, List.flatMap_nil, List.append_nil]
      by_cases hnil : listAt env shards n = []
      · have hnext := listAt_nil hnil (Nat.le_succ n)
        rw [if_neg fun h => h.2 hnil, if_neg fun h => h.2 hnext, hlog, eventsAt_nil hnil,
          List.append_nil]
        rfl
      · rw [if_pos ⟨hlt, hnil⟩, hlog, eventsAt, listAt_succ]
        simp only [runJob, runGcRemote]
        by_cases hfailed : (listAt env shards n).filter (unacked env n) = []
        · have hend : n + 1 = GC_MAX_ATTEMPTS → listAt env shards GC_MAX_ATTEMPTS = [] := by
            intro heq
            rw [← heq, listAt_succ, hfailed]
          rw [hfailed]
          by_cases hlast : n + 1 = GC_MAX_ATTEMPTS
          · simp [hlast, hend hlast]
          · simp [hlast]
        · have hempty : ((listAt env shards n).filter (unacked env n)).isEmpty = false := by
            rw [List.isEmpty_eq_false_iff]
            exact hfailed
          rw [hempty, if_neg Bool.false_ne_true]
          by_cases hmore : n + 1 < GC_MAX_ATTEMPTS
          · rw [if_pos hmore, if_pos ⟨hmore, hfailed⟩, if_neg hmore.ne, List.append_nil]
          · have hlast : n + 1 = GC_MAX_ATTEMPTS := by omega
            rw [if_neg hmore, if_neg fun h => hmore h.1, if_pos hlast, ← hlast, listAt_succ]
    · have hmin : min (n + 1) GC_MAX_ATTEMPTS = min n GC_MAX_ATTEMPTS := by omega
      rw [if_neg fun h => hlt h.1, if_neg fun h => hlt (Nat.lt_of_succ_lt h.1), hmin]
      rfl

/-! ### What happened to a shard -/

/-- The log when the chain is at its end. -/
def finalLog (env : Env) (shards : List (Text × Text)) : List Event :=
  (chainAfter env shards GC_MAX_ATTEMPTS).log

theorem mem_finalLog {e : Event} : e ∈ finalLog env shards ↔
    (∃ a < GC_MAX_ATTEMPTS, ∃ s ∈ listAt env shards a, handle env a s = e) ∨
      ∃ s ∈ listAt env shards GC_MAX_ATTEMPTS, e = .gaveUp s := by
  rw [finalLog, chainAfter_eq, Nat.min_self, List.mem_flatMap]
  constructor
  · rintro ⟨a, ha, he⟩
    rw [eventsAt, List.mem_append] at he
    rcases he with he | he
    · obtain ⟨s, hs, rfl⟩ := List.mem_map.mp he
      exact .inl ⟨a, List.mem_range.mp ha, s, hs, rfl⟩
    · split at he
      · obtain ⟨s, hs, rfl⟩ := List.mem_map.mp he
        exact .inr ⟨s, hs, rfl⟩
      · cases he
  · rintro (⟨a, ha, s, hs, rfl⟩ | ⟨s, hs, rfl⟩)
    · refine ⟨a, List.mem_range.mpr ha, ?_⟩
      rw [eventsAt]
      exact List.mem_append_left _ (List.mem_map_of_mem hs)
    · refine ⟨GC_MAX_ATTEMPTS - 1, List.mem_range.mpr (by decide), ?_⟩
      rw [eventsAt, if_pos (by decide)]
      exact List.mem_append_right _ (List.mem_map_of_mem hs)

theorem handle_sent {a b : ℕ} {s s' : Shard} {acked : Bool} :
    handle env a s = .sent b s' acked ↔
      a = b ∧ s = s' ∧ (env.lookup a s).isSome = true ∧ env.acks a s = acked := by
  rw [handle]
  cases env.lookup a s with
  | none => simp
  | some addr => simp

theorem handle_skipped {a b : ℕ} {s s' : Shard} :
    handle env a s = .skipped b s' ↔ a = b ∧ s = s' ∧ env.lookup a s = none := by
  rw [handle]
  cases env.lookup a s with
  | none => simp
  | some addr => simp

theorem handle_gaveUp {a : ℕ} {s s' : Shard} : handle env a s ≠ .gaveUp s' := by
  rw [handle]
  cases env.lookup a s with
  | none => exact nofun
  | some addr => exact nofun

theorem mem_sent {a : ℕ} {s : Shard} {acked : Bool} : .sent a s acked ∈ finalLog env shards ↔
    a < GC_MAX_ATTEMPTS ∧ s ∈ listAt env shards a ∧ (env.lookup a s).isSome = true ∧
      env.acks a s = acked := by
  rw [mem_finalLog]
  constructor
  · rintro (⟨b, hb, s', hs', heq⟩ | ⟨s', -, heq⟩)
    · obtain ⟨rfl, rfl, hsome, hacks⟩ := handle_sent.mp heq
      exact ⟨hb, hs', hsome, hacks⟩
    · cases heq
  · rintro ⟨ha, hs, hsome, hacks⟩
    exact .inl ⟨a, ha, s, hs, handle_sent.mpr ⟨rfl, rfl, hsome, hacks⟩⟩

theorem mem_skipped {a : ℕ} {s : Shard} : .skipped a s ∈ finalLog env shards ↔
    a < GC_MAX_ATTEMPTS ∧ s ∈ listAt env shards a ∧ env.lookup a s = none := by
  rw [mem_finalLog]
  constructor
  · rintro (⟨b, hb, s', hs', heq⟩ | ⟨s', -, heq⟩)
    · obtain ⟨rfl, rfl, hnone⟩ := handle_skipped.mp heq
      exact ⟨hb, hs', hnone⟩
    · cases heq
  · rintro ⟨ha, hs, hnone⟩
    exact .inl ⟨a, ha, s, hs, handle_skipped.mpr ⟨rfl, rfl, hnone⟩⟩

theorem mem_gaveUp {s : Shard} :
    .gaveUp s ∈ finalLog env shards ↔ s ∈ listAt env shards GC_MAX_ATTEMPTS := by
  rw [mem_finalLog]
  constructor
  · rintro (⟨a, -, s', -, heq⟩ | ⟨s', hs', heq⟩)
    · exact absurd heq handle_gaveUp
    · cases heq
      exact hs'
  · exact fun hs => .inr ⟨s, hs, rfl⟩

/-- The attempt at which a shard leaves the list is the only one at which it does. -/
theorem leaves_once {a b : ℕ} {s : Shard} (ha : open' env a s = true) (hb : open' env b s = true)
    (hla : unacked env a s = false) (hlb : unacked env b s = false) : a = b := by
  have hle : ∀ {a b : ℕ}, open' env b s = true → unacked env a s = false → b ≤ a := by
    intro a b hb hla
    by_contra hlt
    rw [open_iff.mp hb a (by omega)] at hla
    cases hla
  exact le_antisymm (hle ha hlb) (hle hb hla)

end

section
variable (env : Env) (shards : List (Text × Text))

/-- Acknowledged by its peer. -/
def Acked (s : Shard) : Prop := ∃ a, .sent a s true ∈ finalLog env shards

/-- Skipped, its peer being absent from the table. -/
def Absent (s : Shard) : Prop := ∃ a, .skipped a s ∈ finalLog env shards ∧ env.known a s = none

/-- Given up after it was refused at every attempt. -/
def GivenUp (s : Shard) : Prop := .gaveUp s ∈ finalLog env shards ∧
  ∀ a < GC_MAX_ATTEMPTS, .sent a s false ∈ finalLog env shards

/-- After `GC_MAX_ATTEMPTS` jobs nothing waits, every listed shard came to exactly one end, and what
was acknowledged was not sent again. -/
structure Collected : Prop where
  ends : (chainAfter env shards GC_MAX_ATTEMPTS).pending = none
  oneEnd : ∀ s ∈ shards.zipIdx,
    (Acked env shards s ∧ ¬ Absent env shards s ∧ ¬ GivenUp env shards s) ∨
    (¬ Acked env shards s ∧ Absent env shards s ∧ ¬ GivenUp env shards s) ∨
    (¬ Acked env shards s ∧ ¬ Absent env shards s ∧ GivenUp env shards s)
  notAgain : ∀ s before after' a, finalLog env shards = before ++ .sent a s true :: after' →
    ∀ b acked, .sent b s acked ∉ after'

/-- No lookup of the chain fails for a peer that is in the table. -/
def LooksUp : Prop := ∀ s ∈ shards.zipIdx, ∀ a < GC_MAX_ATTEMPTS, open' env a s = true →
  env.fails a s = true → env.known a s = none

end

/-! ### The order of the log -/

section
variable {env : Env} {shards : List (Text × Text)}

/-- Of two requests for one shard the later one belongs to a later attempt. -/
def Later (e e' : Event) : Prop :=
  ∀ a b s acked acked', e = .sent a s acked → e' = .sent b s acked' → a < b

theorem listAt_nodup (a : ℕ) : (listAt env shards a).Nodup := by
  have hplaces : (shards.zipIdx.map Prod.snd).Nodup := by
    rw [List.zipIdx_map_snd]
    exact List.nodup_range'
  exact hplaces.of_map.filter _

theorem finalLog_ordered : (finalLog env shards).Pairwise Later := by
  have hevent : ∀ {a : ℕ} {e : Event}, e ∈ eventsAt env shards a → ∀ b s acked,
      e = .sent b s acked → b = a := by
    rintro a e he b s acked rfl
    rw [eventsAt, List.mem_append] at he
    rcases he with he | he
    · obtain ⟨s', -, heq⟩ := List.mem_map.mp he
      exact (handle_sent.mp heq).1.symm
    · split at he
      · obtain ⟨s', -, heq⟩ := List.mem_map.mp he
        cases heq
      · cases he
  rw [finalLog, chainAfter_eq, Nat.min_self]
  refine List.pairwise_flatMap.mpr ⟨fun a _ => ?_, ?_⟩
  · rw [eventsAt, List.pairwise_append]
    refine ⟨?_, ?_, ?_⟩
    · -- within an attempt every shard is asked for once
      refine List.pairwise_map.mpr ((listAt_nodup a).imp fun {s s'} hne => ?_)
      intro b b' x k k' h h'
      obtain ⟨-, rfl, -⟩ := handle_sent.mp h
      obtain ⟨-, rfl, -⟩ := handle_sent.mp h'
      exact absurd rfl hne
    · split
      · exact List.pairwise_map.mpr ((listAt_nodup _).imp fun _ => nofun)
      · exact .nil
    · intro e _ e' he'
      split at he'
      · obtain ⟨s, -, rfl⟩ := List.mem_map.mp he'
        exact fun a b x k k' _ h' => nomatch h'
      · cases he'
  · refine List.pairwise_lt_range.imp fun {a b} hab e he e' he' => ?_
    intro a' b' s k k' h h'
    rw [hevent he a' s k h, hevent he' b' s k' h']
    exact hab

theorem not_again {s : Shard} {before after' : List Event} {a : ℕ}
    (h : finalLog env shards = before ++ .sent a s true :: after') (b : ℕ) (acked : Bool) :
    .sent b s acked ∉ after' := by
  intro hin
  have hordered := @finalLog_ordered env shards
  rw [h] at hordered
  have hlt := (List.pairwise_cons.mp (List.pairwise_append.mp hordered).2.1).1 _ hin a b s true acked
    rfl rfl
  -- after an acknowledgement the shard is in no list
  have hmem : ∀ {k : ℕ} {x : Bool}, .sent k s x ∈ before ++ .sent a s true :: after' →
      s ∈ listAt env shards k := fun hk => (mem_sent.mp (h ▸ hk)).2.1
  have hacked : .sent a s true ∈ finalLog env shards := by
    rw [h]
    exact List.mem_append_right _ (List.mem_cons_self ..)
  have hopen := (List.mem_filter.mp (hmem (List.mem_append_right _ (List.mem_cons_of_mem _ hin)))).2
  have hunacked := open_iff.mp hopen a hlt
  rw [unacked, (mem_sent.mp hacked).2.2.2] at hunacked
  simp at hunacked

/-- Either every attempt asked for a shard in vain, or it left the list at one of them. -/
theorem ends_cases (s : Shard) : open' env GC_MAX_ATTEMPTS s = true ∨
    ∃ a < GC_MAX_ATTEMPTS, open' env a s = true ∧ unacked env a s = false := by
  have hall : ∀ n, open' env n s = true ∨ ∃ a < n, open' env a s = true ∧ unacked env a s = false := by
    intro n
    induction n with
    | zero => exact .inl rfl
    | succ n ih =>
      rcases ih with hopen | ⟨a, ha, hleft⟩
      · cases hn : unacked env n s with
        | true => exact .inl (by rw [open_succ, hopen, hn]; rfl)
        | false => exact .inr ⟨n, Nat.lt_succ_self n, hopen, hn⟩
      · exact .inr ⟨a, Nat.lt_succ_of_lt ha, hleft⟩
  exact hall GC_MAX_ATTEMPTS

/-- A shard that was refused at every attempt is given up, and nothing else. -/
theorem refused_end {s : Shard} (hs : s ∈ shards.zipIdx) (hopen : open' env GC_MAX_ATTEMPTS s = true) :
    ¬ Acked env shards s ∧ ¬ Absent env shards s ∧ GivenUp env shards s := by
  have hunacked := open_iff.mp hopen
  have hparts : ∀ a < GC_MAX_ATTEMPTS, (env.lookup a s).isSome = true ∧ env.acks a s = false := by
    intro a ha
    have hua := hunacked a ha
    rw [unacked, Bool.and_eq_true, Bool.not_eq_true'] at hua
    exact hua
  refine ⟨?_, ?_, mem_gaveUp.mpr (List.mem_filter.mpr ⟨hs, hopen⟩), fun a ha => ?_⟩
  · rintro ⟨a, ha⟩
    obtain ⟨hlt, -, -, hacks⟩ := mem_sent.mp ha
    rw [(hparts a hlt).2] at hacks
    cases hacks
  · rintro ⟨a, ha, -⟩
    obtain ⟨hlt, -, hnone⟩ := mem_skipped.mp ha
    have hsome := (hparts a hlt).1
    rw [hnone] at hsome
    cases hsome
  · refine mem_sent.mpr ⟨ha, List.mem_filter.mpr ⟨hs, ?_⟩, hparts a ha⟩
    exact open_iff.mpr fun b hb => hunacked b (hb.trans ha)

/-- What else happens to a shard is decided by the attempt at which it leaves the list. -/
theorem left_end {s : Shard} (hs : s ∈ shards.zipIdx) {a : ℕ} (ha : a < GC_MAX_ATTEMPTS)
    (hopen : open' env a s = true) (hleft : unacked env a s = false) :
    (Acked env shards s ↔ (env.lookup a s).isSome = true) ∧
      (Absent env shards s ↔ env.lookup a s = none ∧ env.known a s = none) ∧
      ¬ GivenUp env shards s := by
  have hin : s ∈ listAt env shards a := List.mem_filter.mpr ⟨hs, hopen⟩
  refine ⟨⟨?_, fun hsome => ?_⟩, ⟨?_, ?_⟩, ?_⟩
  · rintro ⟨b, hb⟩
    obtain ⟨-, hlist, hsome, hacks⟩ := mem_sent.mp hb
    have hleftb : unacked env b s = false := by rw [unacked, hacks, Bool.not_true, Bool.and_false]
    rw [leaves_once hopen (List.mem_filter.mp hlist).2 hleft hleftb]
    exact hsome
  · rw [unacked, hsome, Bool.true_and, Bool.not_eq_false'] at hleft
    exact ⟨a, mem_sent.mpr ⟨ha, hin, hsome, hleft⟩⟩
  · rintro ⟨b, hb, hknown⟩
    obtain ⟨-, hlist, hnone⟩ := mem_skipped.mp hb
    have hleftb : unacked env b s = false := by rw [unacked, hnone]; rfl
    rw [leaves_once hopen (List.mem_filter.mp hlist).2 hleft hleftb]
    exact ⟨hnone, hknown⟩
  · rintro ⟨hnone, hknown⟩
    exact ⟨a, mem_skipped.mpr ⟨ha, hin, hnone⟩, hknown⟩
  · rintro ⟨-, hrefused⟩
    obtain ⟨-, -, hsome, hacks⟩ := mem_sent.mp (hrefused a ha)
    rw [unacked, hsome, hacks] at hleft
    cases hleft

end

/-- Remote collection ends as it should for every shard exactly when no lookup that it makes fails for
a peer that is in the table. -/
theorem collected_iff (env : Env) (shards : List (Text × Text)) :
    Collected env shards ↔ LooksUp env shards := by
  constructor
  · intro h s hs a ha hopen hfails
    by_contra hknown
    have hnone : env.lookup a s = none := by rw [Env.lookup, hfails, if_pos rfl]
    have hleft : unacked env a s = false := by rw [unacked, hnone]; rfl
    obtain ⟨hacked, habsent, hgiven⟩ := left_end hs ha hopen hleft
    rcases h.oneEnd s hs with ⟨hend, -, -⟩ | ⟨-, hend, -⟩ | ⟨-, -, hend⟩
    · have hsome := hacked.mp hend
      rw [hnone] at hsome
      cases hsome
    · exact hknown (habsent.mp hend).2
    · exact hgiven hend
  · intro h
    refine ⟨?_, fun s hs => ?_, fun s before after' a hlog => not_again hlog⟩
    · rw [chainAfter_eq]
      dsimp only
      rw [if_neg fun hlt => Nat.lt_irrefl _ hlt.1]
    · rcases @ends_cases env s with hopen | ⟨a, ha, hopen, hleft⟩
      · exact .inr (.inr (refused_end hs hopen))
      · obtain ⟨hacked, habsent, hgiven⟩ := left_end hs ha hopen hleft
        cases hlookup : env.lookup a s with
        | some addr =>
          rw [hlookup] at hacked habsent
          refine .inl ⟨hacked.mpr rfl, fun hend => ?_, hgiven⟩
          cases (habsent.mp hend).1
        | none =>
          rw [hlookup] at hacked habsent
          have hknown : env.known a s = none := by
            cases hfails : env.fails a s with
            | true => exact h s hs a ha hopen hfails
            | false =>
              rw [Env.lookup, hfails, if_neg Bool.false_ne_true] at hlookup
              exact hlookup
          refine .inr (.inl ⟨fun hend => ?_, habsent.mpr ⟨rfl, hknown⟩, hgiven⟩)
          cases hacked.mp hend

/-! One shard of a peer that is in the table, whose lookup fails at the first attempt. -/

def busyDatabase : Env := ⟨fun _ _ => some ['x'], fun a _ => a = 0, fun _ _ => true⟩

theorem busyDatabase_loses : ¬ Collected busyDatabase [(['f'], ['p'])] := by
  intro h
  have hlost : ((['f'], ['p']), 0) ∈ [(['f'], ['p'])].zipIdx := List.mem_singleton.mpr rfl
  have hlog : finalLog busyDatabase [(['f'], ['p'])] = [.skipped 0 ((['f'], ['p']), 0)] := by decide
  rcases h.oneEnd _ hlost with ⟨⟨a, ha⟩, -, -⟩ | ⟨-, ⟨a, -, hknown⟩, -⟩ | ⟨-, -, hgave, -⟩
  · rw [hlog] at ha
    cases List.mem_singleton.mp ha
  · cases hknown
  · rw [hlog] at hgave
    cases List.mem_singleton.mp hgave

end P2pnas.Node.RemoteGc
