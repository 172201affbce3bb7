import P2pnas.Core.Sample
import P2pnas.Lib.Runs
import P2pnas.Node.Peers
import P2pnas.Store.Backup

/-!
# Backup passes (`manifest_backup.rs:113-330`)

One pass looks up the event of a finished backup of the day, pings the peers, seals a
snapshot of the manifest and sends the fourteen shards round-robin. Every outcome the pass
does not decide itself is a field of `Pass`. Over runs of passes the sealing key is that of
the day and the nonce never changes, so what matters is which passes of one day seal.
-/

namespace P2pnas.Node.ManifestBackup
open P2pnas.Lib.Frames P2pnas.Lib.Strings P2pnas.Lib.Runs P2pnas.Core P2pnas.Core.Base
open P2pnas.Core.Crypto P2pnas.Core.Erasure P2pnas.Store.Manifest P2pnas.Store.Session P2pnas.Store.Backup
open P2pnas.Node.Peers

def KEEP_VERSIONS : ℕ := 7
def SWEEP_DEPTH : ℕ := 30
def MAX_PEER_SHARD_BYTES : ℕ := 8 * 1024 * 1024

/-- The events a pass records. -/
inductive BackupEvent where
  | manifestBackup (version shardsPlaced peers snapshotBytes : ℕ)
  | noReachablePeer (version : ℕ)
  | buildFailed (version : ℕ) (reason : Option StoreError)
  | snapshotTooLarge (version : ℕ)
  | tooFewShards (version shardsPlaced needed : ℕ)
  deriving DecidableEq, Repr

/-- What a pass finds: the clock, whether the event lookup works, the peer table (`none` when
it cannot be read) and who answers, the snapshot (`none` when taking or reading it fails),
whether the blocking task comes back, which shards and deletions are acknowledged, and
whether recording the event works. -/
structure Pass where
  secs : Option UInt64
  lookupWorks : Bool
  peers : Option (List PeerRow)
  answers : PeerRow → Bool
  snapshot : Option Bytes
  joins : Bool
  acks : ℕ → Bool
  deletes : Text → Text → Bool
  records : Bool

/-- `ManifestBackupReport`. -/
structure ManifestBackupReport where
  version : ℕ
  skipped : Bool := false
  snapshotBytes : ℕ := 0
  blobBytes : ℕ := 0
  shardsPlaced : ℕ := 0
  peersUsed : ℕ := 0
  recoverable : Bool := false
  versionsSwept : ℕ := 0
  deleteAcks : ℕ := 0
  deriving DecidableEq, Repr

/-- What a pass did: its report, the events table it leaves, the calls of
`seal_manifest_snapshot` it made (version and snapshot) and the shards it sent. -/
structure PassResult where
  report : ManifestBackupReport
  events : List BackupEvent
  sealed : List (ℕ × Bytes)
  sent : List Sent
  deriving DecidableEq, Repr

/-- `already_placed`: a lookup that fails says no. -/
def alreadyPlaced (events : List BackupEvent) (lookupWorks : Bool) (version : ℕ) : Bool :=
  lookupWorks && events.any fun
    | .manifestBackup v _ _ _ => v = version
    | _ => false

/-- `reachable_peers`: the peers that answered, by id. -/
def reachablePeers (me : Text) (p : Pass) : List (Text × Text) :=
  (((p.peers.getD []).filter fun r => r.peerId ≠ me && p.answers r).map fun r =>
    (r.peerId, r.addr)).insertionSort (fun a b => pairLe a b)

def emit (events : List BackupEvent) (records : Bool) (e : BackupEvent) : List BackupEvent :=
  if records then events ++ [e] else events

/-- The versions `sweep_old_versions` asks the peers to drop. -/
def sweptVersions (current : ℕ) : List ℕ :=
  if current < KEEP_VERSIONS then []
  else
    let newestStale := current - KEEP_VERSIONS
    List.range' (newestStale - SWEEP_DEPTH) (newestStale - (newestStale - SWEEP_DEPTH) + 1)

section
variable {K : Type} (P : Prims K) (key : K) (me : Text)

/-- The round-robin over the peers: shard `i` goes to peer `i mod n`. -/
def placements (peers : List (Text × Text)) (version : ℕ) (shards : List Bytes) : List Sent :=
  shards.zipIdx.filterMap fun s => (peers[s.2 % peers.length]?).map fun pa => {
    peerId := pa.1
    addr := pa.2
    fragmentId := manifestBackupFragmentId P me version s.2
    shardIndex := s.2
    data := s.1 }

def sweepAcks (peers : List (Text × Text)) (deletes : Text → Text → Bool) (current : ℕ) : ℕ :=
  (sweptVersions current).map (fun v => (List.range TOTAL_SHARDS).map (fun i =>
    peers.countP fun pa => deletes pa.2 (manifestBackupFragmentId P me v i)) |>.sum) |>.sum

/-- `run_backup` (`manifest_backup.rs:113-224`). -/
def runBackup (events : List BackupEvent) (p : Pass) : PassResult :=
  let version := manifestBackupVersionNow p.secs
  let rep : ManifestBackupReport := { version := version }
  if alreadyPlaced events p.lookupWorks version then
    ⟨{ rep with skipped := true }, events, [], []⟩
  else
    let peers := reachablePeers me p
    let rep := { rep with peersUsed := peers.length }
    if peers.isEmpty then ⟨rep, emit events p.records (.noReachablePeer version), [], []⟩
    else match p.snapshot with
      | none =>
        ⟨rep, if p.joins then emit events p.records (.buildFailed version none) else events, [], []⟩
      | some snapshot =>
        let sealed := [(version, snapshot)]
        match p.joins, buildManifestBackup P key me version snapshot with
        | false, _ => ⟨rep, events, sealed, []⟩
        | _, .error .panic => ⟨rep, events, sealed, []⟩
        | _, .error (.err e) =>
          ⟨rep, emit events p.records (.buildFailed version (some e)), sealed, []⟩
        | _, .ok built =>
          let rep := { rep with snapshotBytes := built.snapshotLen, blobBytes := built.blobLen }
          if MAX_PEER_SHARD_BYTES < (built.shards.headD []).length then
            ⟨rep, emit events p.records (.snapshotTooLarge version), sealed, []⟩
          else
            let sent := placements P me peers version built.shards
            let placed := (List.range built.shards.length).countP p.acks
            if DATA_SHARDS ≤ placed then
              ⟨{ rep with
                  shardsPlaced := placed
                  recoverable := true
                  versionsSwept := (sweptVersions version).length
                  deleteAcks := sweepAcks P me peers p.deletes version },
                emit events p.records
                  (.manifestBackup version placed peers.length built.snapshotLen), sealed, sent⟩
            else
              ⟨{ rep with shardsPlaced := placed },
                emit events p.records (.tooFewShards version placed DATA_SHARDS), sealed, sent⟩

/-! ### Which passes seal -/

/-- A pass calls `seal_manifest_snapshot` once, or not at all: the event of the day is found,
nobody answers, or there is no snapshot. -/
theorem runBackup_sealed (events : List BackupEvent) (p : Pass) :
    (runBackup P key me events p).sealed =
      if alreadyPlaced events p.lookupWorks (manifestBackupVersionNow p.secs) ||
          (reachablePeers me p).isEmpty then []
      else (p.snapshot.map fun s => (manifestBackupVersionNow p.secs, s)).toList := by
  rw [runBackup]
  by_cases hplaced : alreadyPlaced events p.lookupWorks (manifestBackupVersionNow p.secs) = true
  · simp only [hplaced, if_true, Bool.true_or]
  · by_cases hpeers : (reachablePeers me p).isEmpty = true
    · simp only [hplaced, hpeers, if_true, if_false, Bool.or_true, Bool.false_eq_true]
    · simp only [hplaced, hpeers, if_false, Bool.or_self, Bool.false_eq_true]
      cases p.snapshot with
      | none => rfl
      | some s =>
        simp only
        split
        · rfl
        · rfl
        · rfl
        · split
          · rfl
          · split <;> rfl

/-- A pass sends the placements of a backup it built, or nothing. It is recoverable when ten of
the shards it sent were acknowledged. -/
theorem runBackup_sent (events : List BackupEvent) (p : Pass) :
    ((runBackup P key me events p).sent = [] ∧
        (runBackup P key me events p).report.recoverable = false) ∨
      ∃ snapshot built, p.snapshot = some snapshot ∧
        buildManifestBackup P key me (manifestBackupVersionNow p.secs) snapshot = .ok built ∧
        (reachablePeers me p).isEmpty = false ∧
        (built.shards.headD []).length ≤ MAX_PEER_SHARD_BYTES ∧
        (runBackup P key me events p).sent =
          placements P me (reachablePeers me p) (manifestBackupVersionNow p.secs) built.shards ∧
        (runBackup P key me events p).report.recoverable =
          decide (DATA_SHARDS ≤ (List.range built.shards.length).countP p.acks) := by
  rw [runBackup]
  by_cases hplaced : alreadyPlaced events p.lookupWorks (manifestBackupVersionNow p.secs) = true
  · simp only [hplaced, if_true, and_self, true_or]
  · by_cases hpeers : (reachablePeers me p).isEmpty = true
    · simp only [hplaced, hpeers, if_true, if_false, and_self, true_or, Bool.false_eq_true]
    · simp only [hplaced, hpeers, if_false, Bool.false_eq_true]
      cases hsnap : p.snapshot with
      | none => exact .inl ⟨rfl, rfl⟩
      | some snapshot =>
        simp only
        split
        · exact .inl ⟨rfl, rfl⟩
        · exact .inl ⟨rfl, rfl⟩
        · exact .inl ⟨rfl, rfl⟩
        · next built hbuilt _ =>
          split
          · exact .inl ⟨rfl, rfl⟩
          · next hfits =>
            refine .inr ⟨snapshot, built, rfl, hbuilt, trivial, Nat.not_lt.mp hfits, ?_⟩
            split
            · next hten => exact ⟨rfl, by rw [decide_eq_true hten]⟩
            · next hten => exact ⟨rfl, by rw [decide_eq_false hten]⟩

theorem runBackup_version (events : List BackupEvent) (p : Pass) :
    (runBackup P key me events p).report.version = manifestBackupVersionNow p.secs := by
  rw [runBackup]
  simp only
  repeat' split
  all_goals rfl

theorem mem_placements {peers : List (Text × Text)} {version : ℕ} {shards : List Bytes} {m : Sent} :
    m ∈ placements P me peers version shards ↔ ∃ i b pa, shards[i]? = some b ∧
      peers[i % peers.length]? = some pa ∧ m = ⟨pa.1, pa.2, manifestBackupFragmentId P me version i,
        i, b⟩ := by
  rw [placements, List.mem_filterMap]
  constructor
  · rintro ⟨⟨b, i⟩, hx, hm⟩
    obtain ⟨pa, hpa, rfl⟩ := Option.map_eq_some_iff.mp hm
    exact ⟨i, b, pa, List.mem_zipIdx_iff_getElem?.mp hx, hpa, rfl⟩
  · rintro ⟨i, b, pa, hb, hpa, rfl⟩
    exact ⟨(b, i), List.mem_zipIdx_iff_getElem?.mpr hb, by rw [hpa]; rfl⟩

/-- A pass that finds peers and can build its backup places it. -/
theorem runBackup_built {events : List BackupEvent} {p : Pass} {snapshot : Bytes}
    {built : ManifestBackupBlob}
    (hnot : alreadyPlaced events p.lookupWorks (manifestBackupVersionNow p.secs) = false)
    (hpeers : (reachablePeers me p).isEmpty = false) (hsnap : p.snapshot = some snapshot)
    (hjoins : p.joins = true)
    (hbuilt : buildManifestBackup P key me (manifestBackupVersionNow p.secs) snapshot = .ok built)
    (hmax : (built.shards.headD []).length ≤ MAX_PEER_SHARD_BYTES) :
    (runBackup P key me events p).sent =
        placements P me (reachablePeers me p) (manifestBackupVersionNow p.secs) built.shards ∧
      (runBackup P key me events p).report.recoverable =
        decide (DATA_SHARDS ≤ (List.range built.shards.length).countP p.acks) ∧
      (runBackup P key me events p).events = emit events p.records
        (if DATA_SHARDS ≤ (List.range built.shards.length).countP p.acks then
          .manifestBackup (manifestBackupVersionNow p.secs) ((List.range built.shards.length).countP p.acks)
            (reachablePeers me p).length built.snapshotLen
        else .tooFewShards (manifestBackupVersionNow p.secs)
          ((List.range built.shards.length).countP p.acks) DATA_SHARDS) := by
  rw [runBackup]
  simp only [hnot, hpeers, hsnap, hjoins, hbuilt, Nat.not_lt.mpr hmax, if_false, Bool.false_eq_true]
  split
  · next hten => exact ⟨rfl, (decide_eq_true hten).symm, rfl⟩
  · next hten => exact ⟨rfl, (decide_eq_false hten).symm, rfl⟩

/-! ### Runs of passes -/

/-- The node over its passes: the events table and, so far, every snapshot sealed with its
version. -/
structure Backups where
  events : List BackupEvent
  sealed : List (ℕ × Bytes)
  deriving DecidableEq, Repr

/-- Between passes old events are purged (`jobs.rs:246-263`). -/
inductive Action where
  | pass (p : Pass)
  | purgeEvents (keep : BackupEvent → Bool)

def step (s : Backups) : Action → Backups
  | .pass p =>
    let r := runBackup P key me s.events p
    ⟨r.events, s.sealed ++ r.sealed⟩
  | .purgeEvents keep => { s with events := s.events.filter keep }

/-- The seal operations behind the sealed snapshots. -/
def seals (sealed : List (ℕ × Bytes)) : List (Seal K) :=
  sealed.flatMap fun c => sealOps P key me c.1 c.2

/-- No two seal operations share key and nonce for different plaintexts. -/
def NonceSafe (ops : List (Seal K)) : Prop :=
  ∀ a ∈ ops, ∀ b ∈ ops, a.key = b.key → a.nonce = b.nonce → a.plain = b.plain

/-- The pass does not seal, or every snapshot sealed for its day so far is the one it seals. -/
def Guarded (s : Backups) : Action → Prop
  | .purgeEvents _ => True
  | .pass p =>
    alreadyPlaced s.events p.lookupWorks (manifestBackupVersionNow p.secs) = true ∨
      (reachablePeers me p).isEmpty = true ∨ p.snapshot = none ∨
      ∀ c ∈ s.sealed, c.1 = manifestBackupVersionNow p.secs → p.snapshot = some c.2

instance (s : Backups) : (a : Action) → Decidable (Guarded me s a)
  | .purgeEvents _ => inferInstanceAs (Decidable True)
  | .pass p => inferInstanceAs (Decidable (_ ∨ _ ∨ p.snapshot = none ∨ ∀ c ∈ s.sealed,
      c.1 = manifestBackupVersionNow p.secs → p.snapshot = some c.2))

/-- One snapshot a day. -/
def OneADay (sealed : List (ℕ × Bytes)) : Prop :=
  ∀ c ∈ sealed, ∀ d ∈ sealed, c.1 = d.1 → c.2 = d.2

end

section
variable {K : Type} {P : Prims K} {key : K} {me : Text}

/-- Keys separate days and frames separate snapshots: the nonce is safe exactly when every day
has one snapshot. -/
theorem nonceSafe_iff (hk : HkdfSeparates P) (hme : byteLen me = PEER_ID_LEN)
    {sealed : List (ℕ × Bytes)} (hv : ∀ c ∈ sealed, c.1 < 2 ^ 64) :
    NonceSafe (seals P key me sealed) ↔ OneADay sealed := by
  have hops : ∀ v s, sealOps P key me v s =
      [⟨manifestBackupSealer P key me v, nonceFor 0, [], snapshotFrame me v s⟩] := by
    intro v s
    rw [sealOps, if_neg (not_not.mpr hme)]
  have hlen : byteLen me < 2 ^ 64 := by rw [hme]; decide
  have hmem : ∀ op, op ∈ seals P key me sealed ↔ ∃ c ∈ sealed, op =
      ⟨manifestBackupSealer P key me c.1, nonceFor 0, [], snapshotFrame me c.1 c.2⟩ := by
    intro op
    simp only [seals, List.mem_flatMap, hops, List.mem_singleton]
  constructor
  · intro h c hc d hd hcd
    have hplain := h _ ((hmem _).mpr ⟨c, hc, rfl⟩) _ ((hmem _).mpr ⟨d, hd, rfl⟩)
      (by simp only [hcd]) rfl
    simp only [hcd] at hplain
    exact snapshotFrame_inj hplain
  · intro h a ha b hb hkey _
    obtain ⟨c, hc, rfl⟩ := (hmem a).mp ha
    obtain ⟨d, hd, rfl⟩ := (hmem b).mp hb
    have hcd := manifestBackupSealer_inj P hk hlen (hv c hc) (hv d hd) hkey
    have hs := h c hc d hd hcd
    simp only [hcd, hs]

/-- A pass keeps one snapshot a day exactly when it is guarded. -/
theorem step_oneADay (s : Backups) (a : Action) (hs : OneADay s.sealed) :
    OneADay (step P key me s a).sealed ↔ Guarded me s a := by
  cases a with
  | purgeEvents keep => exact ⟨fun _ => trivial, fun _ => hs⟩
  | pass p =>
    simp only [step, runBackup_sealed, Guarded]
    by_cases hplaced : alreadyPlaced s.events p.lookupWorks (manifestBackupVersionNow p.secs) = true
    · simp only [hplaced, Bool.true_or, if_true, List.append_nil, true_or, iff_true]
      exact hs
    · by_cases hpeers : (reachablePeers me p).isEmpty = true
      · simp only [hpeers, Bool.or_true, if_true, List.append_nil, true_or, or_true, iff_true]
        exact hs
      · simp only [hplaced, hpeers, Bool.or_self, if_false, false_or, Bool.false_eq_true]
        cases hsnap : p.snapshot with
        | none =>
          simp only [Option.map_none, Option.toList_none, List.append_nil, true_or, iff_true]
          exact hs
        | some snapshot =>
          simp only [Option.map_some, Option.toList_some, reduceCtorEq, false_or,
            Option.some.injEq]
          constructor
          · intro h c hc hday
            exact (h c (List.mem_append_left _ hc) _
              (List.mem_append_right _ (List.mem_singleton.mpr rfl)) hday).symm
          · intro h c hc d hd hcd
            rcases List.mem_append.mp hc with hc | hc <;> rcases List.mem_append.mp hd with hd | hd
            · exact hs c hc d hd hcd
            · rw [List.mem_singleton] at hd
              subst hd
              exact (h c hc hcd).symm
            · rw [List.mem_singleton] at hc
              subst hc
              exact h d hd hcd.symm
            · rw [List.mem_singleton] at hc hd
              rw [hc, hd]

theorem step_sealed (s : Backups) (a : Action) :
    s.sealed <+: (step P key me s a).sealed := by
  cases a with
  | pass p => exact List.prefix_append ..
  | purgeEvents keep => exact List.prefix_refl _

theorem step_versions (s : Backups) (a : Action) (hs : ∀ c ∈ s.sealed, c.1 < 2 ^ 64) :
    ∀ c ∈ (step P key me s a).sealed, c.1 < 2 ^ 64 := by
  cases a with
  | purgeEvents keep => exact hs
  | pass p =>
    intro c hc
    rcases List.mem_append.mp hc with hc | hc
    · exact hs c hc
    · rw [runBackup_sealed] at hc
      split at hc
      · cases hc
      · cases hsnap : p.snapshot with
        | none => simp [hsnap] at hc
        | some snapshot =>
          simp only [hsnap, Option.map_some, Option.toList_some, List.mem_singleton] at hc
          rw [hc]
          exact version_lt p.secs

/-- From a node that has sealed nothing, a run reuses no nonce exactly when all its passes are
guarded. -/
theorem run_nonceSafe_iff (hk : HkdfSeparates P) (hme : byteLen me = PEER_ID_LEN)
    (events : List BackupEvent) (actions : List Action) :
    NonceSafe (seals P key me (run (step P key me) ⟨events, []⟩ actions).sealed) ↔
      AllMeet (step P key me) (Guarded me) ⟨events, []⟩ actions := by
  have hv : ∀ (actions : List Action) (s : Backups), (∀ c ∈ s.sealed, c.1 < 2 ^ 64) →
      ∀ c ∈ (run (step P key me) s actions).sealed, c.1 < 2 ^ 64 := by
    intro actions
    induction actions with
    | nil => exact fun _ hs => hs
    | cons a as ih => exact fun s hs => ih _ (step_versions s a hs)
  rw [nonceSafe_iff hk hme (hv actions _ (fun c hc => absurd hc List.not_mem_nil))]
  refine run_iff (I := fun s : Backups => OneADay s.sealed) step_oneADay ?_ ?_ actions
  · intro s a h c hc d hd
    exact h c ((step_sealed s a).subset hc) d ((step_sealed s a).subset hd)
  · intro c hc
    cases hc

end

/-! ### Two passes on one day -/

def sampleMe : Text := List.replicate 32 'a'

/-- A pass with one peer that answers. -/
def samplePass (secs : UInt64) (snapshot : Bytes) (accepted : Bool) : Pass where
  secs := some secs
  lookupWorks := true
  peers := some [⟨['b'], ['x'], [], none, none, 0⟩]
  answers := fun _ => true
  snapshot := some snapshot
  joins := true
  acks := fun _ => accepted
  deletes := fun _ _ => true
  records := true

/-- The peer refuses the shards of the first pass, the manifest changes, and the second pass
of the day seals it under the same key and nonce. -/
theorem retry_reuses_nonce :
    byteLen sampleMe = PEER_ID_LEN ∧ HkdfSeparates (Sample.sample []) ∧
      ¬ NonceSafe (seals (Sample.sample []) .node sampleMe (run (step (Sample.sample []) .node sampleMe)
        ⟨[], []⟩ [.pass (samplePass 0 [1] false), .pass (samplePass 0 [2] false)]).sealed) := by
  have hrun : (run (step (Sample.sample []) .node sampleMe) ⟨[], []⟩
      [.pass (samplePass 0 [1] false), .pass (samplePass 0 [2] false)]).sealed =
      [(0, [1]), (0, [2])] := by decide +kernel
  refine ⟨by decide, Sample.sample_hkdf [], ?_⟩
  rw [hrun]
  intro h
  have hplain := h ⟨manifestBackupSealer (Sample.sample []) .node sampleMe 0, nonceFor 0, [],
      snapshotFrame sampleMe 0 [1]⟩ (by decide +kernel)
    ⟨manifestBackupSealer (Sample.sample []) .node sampleMe 0, nonceFor 0, [],
      snapshotFrame sampleMe 0 [2]⟩ (by decide +kernel) rfl rfl
  exact absurd (snapshotFrame_inj hplain) (by decide)

/-- A recorded pass, a second one the same day and one the day after. -/
theorem recorded_days_nonceSafe :
    NonceSafe (seals (Sample.sample []) .node sampleMe (run (step (Sample.sample []) .node sampleMe)
      ⟨[], []⟩ [.pass (samplePass 0 [1] true), .pass (samplePass 3600 [2] true),
        .pass (samplePass 86400 [3] true)]).sealed) :=
  (run_nonceSafe_iff (Sample.sample_hkdf []) (by decide) [] _).mpr (by decide +kernel)

end P2pnas.Node.ManifestBackup
