import P2pnas.Node.Recoverable
import P2pnas.Store.Addresses
import P2pnas.Store.Import

/-!
# Restoring a lost node over the days (`manifest_backup.rs:305-343`, `359-461`)

A restore asks for one version after the other, from today back, and installs the first it can
open. What the hosts hold comes from the passes of many days, and from the sweeps of those that
were recoverable.
-/

namespace P2pnas.Node.Recovery
open P2pnas.Lib.Frames P2pnas.Lib.Strings P2pnas.Lib.Runs P2pnas.Lib.Steps P2pnas.Core
open P2pnas.Core.Base P2pnas.Core.Erasure P2pnas.Store.Backup P2pnas.Store.Restore
open P2pnas.Node.Peers P2pnas.Node.Restoring P2pnas.Node.Recoverable
open P2pnas.Store.Addresses (backupInput backupInput_inj)
open P2pnas.Store.Manifest (textLe)
open P2pnas.Store.Session (StoreError Event)
open P2pnas.Store.Import (Disk ManifestDb ensureFreshNode restoreManifestDb)
open P2pnas.Node.ManifestBackup (BackupEvent runBackup reachablePeers sweptVersions KEEP_VERSIONS SWEEP_DEPTH
  runBackup_sent runBackup_version)

def DEFAULT_LOOKBACK_DAYS : ℕ := 90
def MAX_LOOKBACK_DAYS : ℕ := 400

structure ManifestRestoreOutcome where
  version : ℕ
  snapshotBytes : ℕ
  shardsUsed : ℕ
  peersTried : ℕ
  versionsProbed : ℕ
  deriving DecidableEq, Repr

/-- The errors of a restore: those of the store, and bad requests of its own. -/
inductive RestoreError where
  | store (e : StoreError)
  | badRequest (message : Text)
  deriving DecidableEq, Repr

def noPeerKnown : RestoreError :=
  .badRequest ("aucun pair connu : fournissez `peers` (une liste d'adresses ip:port) - sans pair, " ++
    "les fragments de la sauvegarde sont introuvables").toList

def nothingFound (probed peers : ℕ) : RestoreError :=
  .badRequest (s!"aucune sauvegarde du manifeste retrouvée après {probed} version(s) auprès de {peers} " ++
    "pair(s) - élargissez `lookback_days` ou fournissez d'autres adresses de pairs").toList

/-- What the peers answer about each version: the `HasShard` probes and the fetches, in order of
completion. -/
structure Network where
  answers : ℕ → List (ℕ × Text × Bool)
  replies : ℕ → List (Option Bytes)

def lookbackDepth (lookbackDays : Option ℕ) : ℕ :=
  min (max (lookbackDays.getD DEFAULT_LOOKBACK_DAYS) 1) MAX_LOOKBACK_DAYS

/-- The versions a restore tries: the one it was given, or back from today. -/
def candidates (today : ℕ) (version lookbackDays : Option ℕ) : List ℕ :=
  match version with
  | some v => [v]
  | none =>
    (List.range (lookbackDepth lookbackDays + 1)).filterMap fun d =>
      if d ≤ today then some (today - d) else none

/-- `restore_peer_addresses`; a peer table that cannot be read counts as empty. -/
def restorePeerAddresses (me : Text) (table : Option (List PeerRow)) (extra : List Text) : List Text :=
  ((((table.getD []).filter (·.peerId ≠ me)).map (·.addr) ++
    (extra.map trim).filter (· ≠ [])).insertionSort fun a b => textLe a b).dedup

section
variable {K : Type} (P : Prims K) (key : K) (me : Text)

/-- The loop over the versions, `probed` of them tried before: the version, its snapshot, the
shards used and the versions tried. A version that cannot be opened makes way for an older one. -/
def tryVersions (net : Network) (probed : ℕ) :
    List ℕ → Outcome StoreError (Except ℕ (ℕ × Bytes × ℕ × ℕ))
  | [] => .ok (.error probed)
  | v :: vs =>
    if (probeVersion (net.answers v)).length < DATA_SHARDS then tryVersions net (probed + 1) vs
    else match fetchAndOpen P key me v (net.replies v) with
      | .error e => .error e
      | .ok none => tryVersions net (probed + 1) vs
      | .ok (some (snapshot, used)) => .ok (.ok (v, snapshot, used, probed + 1))

/-- An error of the store is wrapped. -/
def wrapped {α : Type} (p : Store.Import.Restore α) : Proc Disk RestoreError α := fun d =>
  match p d with
  | (.ok a, d') => (.ok a, d')
  | (.err e, d') => (.err (.store e), d')
  | (.stopped, d') => (.stopped, d')

/-- `restore`: the guard, the peers, the versions, the install. `guard` and `install` are what the
steps of the two blocking tasks meet; a panic ends the request. -/
def restore (load : Bytes → Option ManifestDb) (guard install : Store.Import.Step → Fate)
    (secs : Option UInt64) (table : Option (List PeerRow)) (extra : List Text)
    (version lookbackDays : Option ℕ) (net : Network) : Proc Disk RestoreError ManifestRestoreOutcome := do
  wrapped (ensureFreshNode load guard)
  let addrs := restorePeerAddresses me table extra
  let versions := candidates (manifestBackupVersionNow secs) version lookbackDays
  if addrs.isEmpty then raise noPeerKnown
  else match tryVersions P key me net 0 versions with
    | .error _ => fun d => (.stopped, d)
    | .ok (.error probed) => raise (nothingFound probed addrs.length)
    | .ok (.ok (v, snapshot, used, probed)) => do
      wrapped (restoreManifestDb load install snapshot)
      return {
        version := v
        snapshotBytes := snapshot.length
        shardsUsed := used
        peersTried := addrs.length
        versionsProbed := probed }

/-- Every peer asked is reachable and answers with what it holds, in any order. -/
def Honest (held : Holdings) (addrs : List Text) (net : Network) : Prop := ∀ v,
  (net.answers v).Perm (probes P me v held addrs) ∧
  (net.replies v).Perm ((probeVersion (net.answers v)).map fun x =>
    held x.2 (manifestBackupFragmentId P me v x.1))

/-- The ids of the shards of the days up to `n` differ. -/
def DaysApart (n : ℕ) : Prop := ∀ v ≤ n, ∀ w ≤ n, ∀ i < TOTAL_SHARDS, ∀ j < TOTAL_SHARDS,
  manifestBackupFragmentId P me v i = manifestBackupFragmentId P me w j → v = w ∧ i = j

/-- The indices of a day of which some peer has a shard. -/
def copies (version : ℕ) (held : Holdings) (addrs : List Text) : ℕ :=
  (List.range TOTAL_SHARDS).countP fun i =>
    addrs.any fun a => (held a (manifestBackupFragmentId P me version i)).isSome

end

/-- The day of a pass. -/
def dayOf (p : HostedPass) : ℕ := manifestBackupVersionNow p.pass.secs

/-- The days of the passes of a run, in order. -/
def days (actions : List Action) : List ℕ :=
  actions.filterMap fun
    | .pass p => some (dayOf p)
    | .purgeEvents _ => none

/-- The snapshots that the passes of a day took. -/
def takenOn (version : ℕ) (actions : List Action) : List Bytes :=
  actions.filterMap fun
    | .pass p => if dayOf p = version then p.pass.snapshot else none
    | .purgeEvents _ => none

theorem days_append (as bs : List Action) : days (as ++ bs) = days as ++ days bs :=
  List.filterMap_append

/-! ### The versions tried -/

theorem mem_candidates {today v : ℕ} {lookbackDays : Option ℕ} :
    v ∈ candidates today none lookbackDays ↔ v ≤ today ∧ today - v ≤ lookbackDepth lookbackDays := by
  simp only [candidates, List.mem_filterMap, List.mem_range]
  constructor
  · rintro ⟨d, hd, hv⟩
    split at hv
    · cases hv
      omega
    · cases hv
  · rintro ⟨hv, hdepth⟩
    refine ⟨today - v, by omega, ?_⟩
    rw [if_pos (Nat.sub_le ..)]
    congr 1
    omega

theorem candidates_back (today : ℕ) (lookbackDays : Option ℕ) :
    (candidates today none lookbackDays).Pairwise (· > ·) := by
  refine List.Pairwise.filterMap _ (fun a b hab v hv w hw => ?_) List.pairwise_lt_range
  simp only [Option.ite_none_right_eq_some, Option.some.injEq] at hv hw
  omega

section
variable {K : Type} {P : Prims K} {key : K} {me : Text} {net : Network}

/-- When no version ends the loop by a panic, the first that opens is taken. -/
theorem tryVersions_first {vs : List ℕ} (probed : ℕ)
    (hret : ∀ v ∈ vs, ∃ o, fetchAndOpen P key me v (net.replies v) = .ok o)
    (hfew : ∀ v ∈ vs, (probeVersion (net.answers v)).length < DATA_SHARDS →
      fetchAndOpen P key me v (net.replies v) = .ok none) :
    (tryVersions P key me net probed vs = .ok (.error (probed + vs.length)) ∧
      ∀ v ∈ vs, fetchAndOpen P key me v (net.replies v) = .ok none) ∨
    ∃ newer v older snapshot used, vs = newer ++ v :: older ∧
      (∀ w ∈ newer, fetchAndOpen P key me w (net.replies w) = .ok none) ∧
      fetchAndOpen P key me v (net.replies v) = .ok (some (snapshot, used)) ∧
      tryVersions P key me net probed vs = .ok (.ok (v, snapshot, used, probed + newer.length + 1)) := by
  induction vs generalizing probed with
  | nil => exact .inl ⟨rfl, fun v hv => absurd hv List.not_mem_nil⟩
  | cons v vs ih =>
    have hrest := ih (probed + 1) (fun w hw => hret w (List.mem_cons_of_mem _ hw))
      fun w hw => hfew w (List.mem_cons_of_mem _ hw)
    obtain ⟨o, ho⟩ := hret v (List.mem_cons_self ..)
    cases o with
    | some found =>
      obtain ⟨snapshot, used⟩ := found
      refine .inr ⟨[], v, vs, snapshot, used, rfl, fun w hw => absurd hw List.not_mem_nil, ho, ?_⟩
      have hmany : ¬ (probeVersion (net.answers v)).length < DATA_SHARDS := by
        intro h
        have hnone := hfew v (List.mem_cons_self ..) h
        rw [ho] at hnone
        cases hnone
      rw [tryVersions, if_neg hmany, ho]
      rfl
    | none =>
      have hnext : tryVersions P key me net probed (v :: vs) = tryVersions P key me net (probed + 1) vs := by
        rw [tryVersions, ho, ite_self]
      rw [hnext]
      rcases hrest with ⟨hnot, hnone⟩ | ⟨newer, w, older, snapshot, used, rfl, hnone, hw, htry⟩
      · refine .inl ⟨?_, List.forall_mem_cons.mpr ⟨ho, hnone⟩⟩
        rw [hnot, List.length_cons, Nat.add_assoc, Nat.add_comm 1]
      · refine .inr ⟨v :: newer, w, older, snapshot, used, rfl, List.forall_mem_cons.mpr ⟨ho, hnone⟩, hw, ?_⟩
        rw [htry, List.length_cons]
        congr 5
        omega

/-! ### What honest peers make of a version -/

variable {version : ℕ} {snapshots : List Bytes} {held : Holdings} {addrs : List Text}

theorem blobsApart_of_same (hsame : ∀ s ∈ snapshots, ∀ t ∈ snapshots, s = t) :
    BlobsApart P key me version snapshots := by
  intro s hs t ht b c hb hc _
  rw [hsame s hs t ht] at hb
  exact Except.ok.inj (hb.symm.trans hc)

/-- A version opens to a snapshot of its day, or not at all. -/
theorem honest_opens (hB : Backends P) (hv : version < 2 ^ 64)
    (hs : Stocked P key me version snapshots held) (hapart : BlobsApart P key me version snapshots)
    (hnet : Honest P me held addrs net) :
    fetchAndOpen P key me version (net.replies version) = .ok none ∨
      ∃ t ∈ snapshots, ∃ n, fetchAndOpen P key me version (net.replies version) = .ok (some (t, n)) := by
  have h := replies_spec hB hv hs (hnet version).1 (hnet version).2
  by_cases hlong : DATA_SHARDS ≤ ((net.replies version).filterMap (decodeReply version)).length
  · have hne : ((net.replies version).filterMap (decodeReply version)).map (·.key) ≠ [] := by
      rw [ne_eq, ← List.length_eq_zero_iff, List.length_map]
      exact Nat.ne_of_gt (Nat.lt_of_lt_of_le (by decide) hlong)
    obtain ⟨k, m, he, hk⟩ := Lib.Tally.elect_mem hne
    obtain ⟨s, hs, rfl⟩ := List.mem_map.mp hk
    -- the elected key is that of a blob of the day
    obtain ⟨-, -, -, -, t, ht, blob, shards, hday, hfits, -, -⟩ := h.origin s hs
    rw [hfits.1] at he
    rw [fetchAndOpen_elected hB hv hapart ht hday h hlong he]
    split
    · exact .inl rfl
    · exact .inr ⟨t, ht, _, rfl⟩
  · left
    rw [fetchAndOpen]
    simp only [Nat.not_le.mp hlong, if_true]

theorem honest_few (hnet : Honest P me held addrs net)
    (hfew : (probeVersion (net.answers version)).length < DATA_SHARDS) :
    fetchAndOpen P key me version (net.replies version) = .ok none := by
  have hlen := (hnet version).2.length_eq
  rw [List.length_map] at hlen
  have hle := List.length_filterMap_le (decodeReply version) (net.replies version)
  rw [fetchAndOpen]
  simp only [show ((net.replies version).filterMap (decodeReply version)).length < DATA_SHARDS by omega,
    if_true]

/-- When a day has one snapshot and ten indices with a copy, and all copies are whole, it opens to that
snapshot. -/
theorem honest_backed (hB : Backends P) (hv : version < 2 ^ 64)
    (hs : Stocked P key me version snapshots held) {t blob : Bytes} {shards : List Bytes}
    (ht : t ∈ snapshots) (hsame : ∀ s ∈ snapshots, ∀ t ∈ snapshots, s = t)
    (hwhole : ∀ a, ∀ i < TOTAL_SHARDS, Decodes P me version held a i)
    (hday : DayBlob P key me version t blob shards) (hten : DATA_SHARDS ≤ copies P me version held addrs)
    (hnet : Honest P me held addrs net) :
    ∃ n, fetchAndOpen P key me version (net.replies version) = .ok (some (t, n)) := by
  refine restores_of_clean hB hv hs (blobsApart_of_same hsame) ht hday
    (le_trans hten (List.countP_mono_left ?_)) _ (hnet version).1 _ (hnet version).2
  intro i hi hany
  obtain ⟨a, ha, hsome⟩ := List.any_eq_true.mp hany
  have hlt := List.mem_range.mp hi
  exact clean_of_same hB hv hs (fun s hs => hsame s hs t ht) hday hlt (fun a _ => hwhole a i hlt) ⟨a, ha, hsome⟩

/-! ### What the passes of many days leave -/

variable {n : ℕ} {s : State} {p : HostedPass}

theorem mem_sweptVersions {current v : ℕ} : v ∈ sweptVersions current ↔
    v + KEEP_VERSIONS ≤ current ∧ current ≤ v + KEEP_VERSIONS + SWEEP_DEPTH := by
  unfold sweptVersions
  split
  · simp only [List.not_mem_nil, false_iff]
    omega
  · rw [List.mem_range'_1]
    omega

theorem DaysApart.ids (h : DaysApart P me n) (hv : version ≤ n) : IdsApart P me version := by
  refine ⟨fun i hi j hj hid => (h version hv version hv i hi j hj hid).2, fun v hswept i hi j hj hid => ?_⟩
  have hlt := (mem_sweptVersions.mp hswept).1
  have hsame := (h v (by omega) version hv i hi j hj hid).1
  have hkeep : KEEP_VERSIONS = 7 := rfl
  omega

/-- A pass writes no shard of another day. -/
theorem step_other_day (hB : Backends P) (hids : DaysApart P me n) (hp : dayOf p ≤ n) {v : ℕ} (hv : v ≤ n)
    (hne : dayOf p ≠ v) {a : Text} {i : ℕ} (hi : i < TOTAL_SHARDS) {b : Bytes}
    (hb : (step P key me s (.pass p)).held a (manifestBackupFragmentId P me v i) = some b) :
    s.held a (manifestBackupFragmentId P me v i) = some b := by
  have hsent : ((runBackup P key me s.events p.pass).sent.foldl (storeSent p.stores) s.held) a
      (manifestBackupFragmentId P me v i) = some b := by
    simp only [step] at hb
    split at hb
    · unfold sweep at hb
      split at hb
      · cases hb
      · exact hb
    · exact hb
  rcases foldl_storeSent_cases hsent with hold | ⟨m, hm, -, hf, -⟩
  · exact hold
  · -- a shard of another day has another id
    obtain ⟨t, -, blob, shards, shard, j, hblob, hget, hid, -⟩ := sent_day hB rfl hm
    have hj : j < TOTAL_SHARDS := by
      rw [← (encode_shards hB.restores hB.sizes hblob.coded).1]
      exact (List.getElem?_eq_some_iff.mp hget).1
    exact absurd (hids _ hp v hv j hj i hi (hid.symm.trans hf)).1 hne

/-- Every copy of a shard of a day is of the one a pass of that day made. -/
def StockedDays (P : Prims K) (key : K) (me : Text) (n : ℕ) (actions : List Action) (held : Holdings) :
    Prop := ∀ v ≤ n, Stocked P key me v (takenOn v actions) held

theorem step_stockedDays (hB : Backends P) (hids : DaysApart P me n) {actions : List Action}
    (hs : StockedDays P key me n actions s.held) {a : Action} (ha : a ∈ actions)
    (hday : ∀ d ∈ days [a], d ≤ n) : StockedDays P key me n actions (step P key me s a).held := by
  intro v hv
  cases a with
  | purgeEvents keep => exact hs v hv
  | pass p =>
    have hp : dayOf p ≤ n := hday _ (List.mem_singleton_self _)
    by_cases hsame : dayOf p = v
    · refine step_stocked hB (hids.ids hv) (hs v hv) hsame fun t ht => ?_
      obtain ⟨b, hb, ht⟩ := List.mem_filterMap.mp ht
      rw [List.mem_singleton.mp hb] at ht
      exact List.mem_filterMap.mpr ⟨_, ha, (if_pos hsame).trans ht⟩
    · exact fun a i hi b hb => hs v hv a i hi b (step_other_day hB hids hp hv hsame hi hb)

theorem run_stockedDays (hB : Backends P) (hids : DaysApart P me n) {all actions : List Action}
    (hs : StockedDays P key me n all s.held) (hall : ∀ a ∈ actions, a ∈ all)
    (hdays : ∀ d ∈ days actions, d ≤ n) :
    StockedDays P key me n all (run (step P key me) s actions).held := by
  induction actions generalizing s with
  | nil => exact hs
  | cons a actions ih =>
    rw [show a :: actions = [a] ++ actions from rfl, days_append] at hdays
    refine ih (step_stockedDays hB hids hs (hall a (List.mem_cons_self ..)) fun d hd => ?_)
      (fun b hb => hall b (List.mem_cons_of_mem _ hb)) fun d hd => ?_
    · exact hdays d (List.mem_append_left _ hd)
    · exact hdays d (List.mem_append_right _ hd)

/-- The copies of the shards of all days decode. -/
def DecodeDays (P : Prims K) (me : Text) (n : ℕ) (held : Holdings) : Prop :=
  ∀ v ≤ n, ∀ a, ∀ i < TOTAL_SHARDS, Decodes P me v held a i

theorem step_decodeDays (hB : Backends P) (hids : DaysApart P me n) (hs : DecodeDays P me n s.held) {a : Action}
    (hday : ∀ d ∈ days [a], d ≤ n) (hwhole : ∀ q, a = .pass q → q.Unbroken) :
    DecodeDays P me n (step P key me s a).held := by
  intro v hv
  cases a with
  | purgeEvents keep => exact hs v hv
  | pass p =>
    by_cases hsame : dayOf p = v
    · exact step_decodes hB (hids.ids hv) (hs v hv) hsame hwhole
    · have hp : dayOf p ≤ n := hday _ (List.mem_singleton_self _)
      exact fun a i hi b hb => hs v hv a i hi b (step_other_day hB hids hp hv hsame hi hb)

theorem run_decodeDays (hB : Backends P) (hids : DaysApart P me n) {actions : List Action}
    (hs : DecodeDays P me n s.held) (hdays : ∀ d ∈ days actions, d ≤ n)
    (hwhole : ∀ q, .pass q ∈ actions → q.Unbroken) :
    DecodeDays P me n (run (step P key me) s actions).held := by
  have hall : ∀ a ∈ actions, (∀ d ∈ days [a], d ≤ n) ∧ ∀ q, a = .pass q → q.Unbroken := by
    intro a ha
    refine ⟨fun d hd => hdays d ?_, fun q hq => hwhole q (hq ▸ ha)⟩
    obtain ⟨b, hb, hbd⟩ := List.mem_filterMap.mp hd
    rw [List.mem_singleton.mp hb] at hbd
    exact List.mem_filterMap.mpr ⟨a, ha, hbd⟩
  exact run_invariant (I := fun s : State => DecodeDays P me n s.held)
    (fun s a hI hok => step_decodeDays hB hids hI hok.1 hok.2) hs (allMeet_of_forall hall)

theorem foldl_storeSent_isSome {stores : ℕ → Event} {sent : List Sent} {a f : Text}
    (h : (held a f).isSome) : (sent.foldl (storeSent stores) held a f).isSome := by
  induction sent generalizing held with
  | nil => exact h
  | cons m sent ih =>
    refine ih ?_
    rw [storeSent]
    split
    · rw [Option.isSome_or, h, Bool.or_true]
    · exact h

theorem copies_mono {held' : Holdings}
    (h : ∀ a f, (held a f).isSome → (held' a f).isSome) :
    copies P me version held addrs ≤ copies P me version held' addrs := by
  refine List.countP_mono_left fun i _ hany => ?_
  obtain ⟨a, ha, hsome⟩ := List.any_eq_true.mp hany
  exact List.any_eq_true.mpr ⟨a, ha, h a _ hsome⟩

/-- Ten indices of a backup of the day are there. -/
def Backed (P : Prims K) (key : K) (me : Text) (actions : List Action) (addrs : List Text)
    (version : ℕ) (held : Holdings) : Prop :=
  (∃ t ∈ takenOn version actions, ∃ blob shards, DayBlob P key me version t blob shards) ∧
    DATA_SHARDS ≤ copies P me version held addrs

/-- A recoverable pass backs its day. -/
theorem recoverable_backed (hB : Backends P) (hids : DaysApart P me n) (hp : dayOf p ≤ n)
    {actions : List Action} (hmem : .pass p ∈ actions)
    (haddrs : ∀ pa ∈ reachablePeers me p.pass, pa.2 ∈ addrs)
    (hrec : (runBackup P key me s.events p.pass).report.recoverable = true) :
    Backed P key me actions addrs (dayOf p) (step P key me s (.pass p)).held := by
  rcases runBackup_sent P key me s.events p.pass with
    ⟨-, hno⟩ | ⟨t, built, ht, hbuilt, hpeers, hmax, hsent, hten⟩
  · rw [hno] at hrec
    cases hrec
  · obtain ⟨blob, shards, hday, hshards⟩ : ∃ blob shards, DayBlob P key me (dayOf p) t blob shards ∧
        built.shards = envelopes P (dayOf p) blob shards := buildManifestBackup_day hB hbuilt hmax
    have h14 : built.shards.length = TOTAL_SHARDS := by
      rw [hshards, envelopes, List.length_map, List.length_zipIdx,
        (encode_shards hB.restores hB.sizes hday.coded).1]
    rw [hten, decide_eq_true_eq, h14] at hrec
    refine ⟨⟨t, List.mem_filterMap.mpr ⟨_, hmem, (if_pos rfl).trans ht⟩, blob, shards, hday⟩,
      le_trans hrec (List.countP_mono_left fun i hi hack => ?_)⟩
    have hlt := List.mem_range.mp hi
    rw [hshards] at hsent
    obtain ⟨pa, hpa, hheld⟩ := acked_held hB (hids.ids hp) s p rfl hday hsent hpeers hlt hack
    refine List.any_eq_true.mpr ⟨pa.2, haddrs pa hpa, ?_⟩
    rw [hheld, ← hshards, List.getElem?_eq_getElem (by rw [h14]; exact hlt)]
    rfl

/-- A pass leaves a backed day backed, or backs its own. -/
theorem step_backed (hB : Backends P) (hids : DaysApart P me n) {a : Action}
    (hdays : ∀ d ∈ days [a], d ≤ n) {actions : List Action} (hmem : a ∈ actions)
    (haddrs : ∀ q, a = .pass q → ∀ pa ∈ reachablePeers me q.pass, pa.2 ∈ addrs)
    (h : Backed P key me actions addrs version s.held) :
    ∃ d ∈ version :: days [a], Backed P key me actions addrs d (step P key me s a).held := by
  cases a with
  | purgeEvents keep => exact ⟨version, List.mem_cons_self .., h⟩
  | pass q =>
    by_cases hrec : (runBackup P key me s.events q.pass).report.recoverable = true
    · exact ⟨dayOf q, List.mem_cons_of_mem _ (List.mem_singleton_self _),
        recoverable_backed hB hids (hdays _ (List.mem_singleton_self _)) hmem (haddrs q rfl) hrec⟩
    · refine ⟨version, List.mem_cons_self .., h.1, le_trans h.2 (copies_mono fun a f hsome => ?_)⟩
      simp only [step, hrec]
      exact foldl_storeSent_isSome hsome

/-- While the clock does not go back, some day from the first one on is backed. -/
theorem run_dated (hB : Backends P) (hids : DaysApart P me n) {all actions : List Action}
    (hdays : ∀ d ∈ days actions, d ≤ n) (hall : ∀ a ∈ actions, a ∈ all)
    (haddrs : ∀ q, .pass q ∈ actions → ∀ pa ∈ reachablePeers me q.pass, pa.2 ∈ addrs)
    (hclock : (version :: days actions).Pairwise (· ≤ ·))
    (h : Backed P key me all addrs version s.held) :
    ∃ d ∈ version :: days actions, Backed P key me all addrs d (run (step P key me) s actions).held := by
  induction actions generalizing s version with
  | nil => exact ⟨version, List.mem_cons_self .., h⟩
  | cons a actions ih =>
    have hsplit : days (a :: actions) = days [a] ++ days actions := days_append [a] actions
    rw [hsplit] at hdays hclock ⊢
    obtain ⟨d, hd, hback⟩ := step_backed hB hids (fun d hd => hdays d (List.mem_append_left _ hd))
      (hall a (List.mem_cons_self ..)) (fun q hq => haddrs q (hq ▸ List.mem_cons_self ..)) h
    have hsub : (d :: days actions).Sublist (version :: (days [a] ++ days actions)) := by
      rw [← List.cons_append]
      exact (List.singleton_sublist.mpr hd).append (List.Sublist.refl _)
    obtain ⟨d', hd', hback'⟩ := ih (fun d hd => hdays d (List.mem_append_right _ hd))
      (fun b hb => hall b (List.mem_cons_of_mem _ hb))
      (fun q hq => haddrs q (List.mem_cons_of_mem _ hq)) (hclock.sublist hsub) hback
    exact ⟨d', hsub.subset hd', hback'⟩

/-! ### The restore of a lost node -/

variable {load : Bytes → Option ManifestDb}

theorem trouble_calm {faults : Store.Import.Step → Fate} (hcalm : ∀ s, faults s = .works)
    (steps : List Store.Import.Step) : trouble faults steps = .works := by
  induction steps with
  | nil => rfl
  | cons s steps ih => rw [trouble, hcalm s, ih]

/-- The guard lets a node without files pass and leaves it without files. -/
theorem guard_fresh {faults : Store.Import.Step → Fate} (hcalm : ∀ s, faults s = .works) {d : Disk}
    (hfresh : Store.Import.Fresh load d.manifest) :
    ∃ d', ensureFreshNode load faults d = (.ok (), d') ∧ Store.Import.Fresh load d'.manifest ∧
      d'.identity = d.identity := by
  have hpass : (ensureFreshNode load faults d).1 = .ok () :=
    (Store.Import.ensureFreshNode_passes d).mpr (.inr ⟨trouble_calm hcalm _, hfresh⟩)
  have hkept : Store.Import.Untouched load d (ensureFreshNode load faults d).2 :=
    Store.Import.ensureFreshNode_untouched d
  refine ⟨_, Prod.ext hpass rfl, fun m hm => ?_, hkept.identity⟩
  obtain ⟨m₀, hm₀, hdb⟩ := hkept.rows hm
  rw [hdb]
  exact hfresh m₀ hm₀

theorem restoreManifestDb_calm {faults : Store.Import.Step → Fate} (hcalm : ∀ s, faults s = .works)
    {d : Disk} (hfresh : Store.Import.Fresh load d.manifest) (snapshot : Bytes) :
    ∃ d', restoreManifestDb load faults snapshot d = (.ok (), d') ∧ d'.manifest = .bytes snapshot ∧
      d'.identity = d.identity := by
  obtain ⟨d₁, hguard, -, hid⟩ := guard_fresh hcalm hfresh
  refine ⟨{ d₁ with manifest := .bytes snapshot, temp := none }, ?_, rfl, hid⟩
  rw [restoreManifestDb, bind_apply, hguard]
  simp [Store.Import.installManifest, Store.Import.createDirAll, Store.Import.writeAtomic, bind_apply,
    attempt, hcalm]

/-- The restore takes the newest version that opens, when some day within the lookback is backed. -/
theorem tryVersions_backed (hB : Backends P) {today d : ℕ} (htoday : today < 2 ^ 64)
    {actions : List Action} (hstock : StockedDays P key me today actions held)
    (hwhole : DecodeDays P me today held)
    (hone : ∀ v, ∀ s ∈ takenOn v actions, ∀ t ∈ takenOn v actions, s = t)
    (hnet : Honest P me held addrs net) {lookbackDays : Option ℕ}
    (hd : d ∈ candidates today none lookbackDays) (hback : Backed P key me actions addrs d held) :
    ∃ v snapshot used probed, tryVersions P key me net 0 (candidates today none lookbackDays) =
        .ok (.ok (v, snapshot, used, probed)) ∧
      d ≤ v ∧ v ≤ today ∧ snapshot ∈ takenOn v actions := by
  have hopens : ∀ v ∈ candidates today none lookbackDays,
      fetchAndOpen P key me v (net.replies v) = .ok none ∨
        ∃ t ∈ takenOn v actions, ∃ n, fetchAndOpen P key me v (net.replies v) = .ok (some (t, n)) := by
    intro v hv
    have hle := (mem_candidates.mp hv).1
    exact honest_opens hB (Nat.lt_of_le_of_lt hle htoday) (hstock v hle) (blobsApart_of_same (hone v)) hnet
  have hret : ∀ v ∈ candidates today none lookbackDays, ∃ o,
      fetchAndOpen P key me v (net.replies v) = .ok o := by
    intro v hv
    rcases hopens v hv with h | ⟨t, -, n, h⟩
    · exact ⟨_, h⟩
    · exact ⟨_, h⟩
  obtain ⟨⟨t, ht, blob, shards, hday⟩, hten⟩ := hback
  have hle := (mem_candidates.mp hd).1
  obtain ⟨n, hopen⟩ := honest_backed hB (Nat.lt_of_le_of_lt hle htoday) (hstock d hle) ht (hone d) (hwhole d hle) hday hten hnet
  rcases tryVersions_first 0 hret (fun v _ hfew => honest_few hnet hfew) with
    ⟨-, hnone⟩ | ⟨newer, v, older, snapshot, used, hsplit, hnone, hv, htry⟩
  · rw [hnone d hd] at hopen
    cases hopen
  · have hdown := candidates_back today lookbackDays
    rw [hsplit] at hdown hd
    have hv' : v ∈ candidates today none lookbackDays := by
      rw [hsplit]
      exact List.mem_append_right _ (List.mem_cons_self ..)
    have hdv : d ≤ v := by
      rcases List.mem_append.mp hd with hnew | hold
      · rw [hnone d hnew] at hopen
        cases hopen
      · rcases List.mem_cons.mp hold with rfl | hold
        · exact le_refl _
        · have hgt := (List.pairwise_cons.mp (List.pairwise_append.mp hdown).2.1).1 d hold
          omega
    refine ⟨v, snapshot, used, _, htry, hdv, (mem_candidates.mp hv').1, ?_⟩
    rcases hopens v hv' with h | ⟨t', ht', n', h⟩
    · rw [h] at hv
      cases hv
    · rw [h] at hv
      cases hv
      exact ht'

/-- After a recoverable backup, and any further passes on a clock that does not go back, whatever
fails in them, a node that lost everything but its key restores a manifest that is at least as new,
as long as the backup is within the lookback, the restore knows the peers and its own steps work.
The hosts must have kept what they stored, whole, and must all answer honestly; and the passes of one
day must have taken one snapshot. -/
theorem lost_node_restores (hB : Backends P) {s : State} {before after : List Action}
    (hnew : ∀ v a i, s.held a (manifestBackupFragmentId P me v i) = none)
    (hwhole : ∀ q, .pass q ∈ before ++ .pass p :: after → q.Unbroken)
    (hone : ∀ v, ∀ t ∈ takenOn v (before ++ .pass p :: after), ∀ t' ∈ takenOn v (before ++ .pass p :: after),
      t = t')
    (hrec : (runBackup P key me (run (step P key me) s before).events p.pass).report.recoverable = true)
    (hclock : (days (.pass p :: after)).Pairwise (· ≤ ·))
    {secs : Option UInt64} (hids : DaysApart P me (manifestBackupVersionNow secs))
    (hpast : ∀ d ∈ days (before ++ .pass p :: after), d ≤ manifestBackupVersionNow secs)
    {lookbackDays : Option ℕ}
    (hback : manifestBackupVersionNow secs - dayOf p ≤ lookbackDepth lookbackDays)
    {table : Option (List PeerRow)} {extra : List Text}
    (hknown : ∀ q, .pass q ∈ .pass p :: after → ∀ pa ∈ reachablePeers me q.pass,
      pa.2 ∈ restorePeerAddresses me table extra)
    (hnet : Honest P me (run (step P key me) s (before ++ .pass p :: after)).held
      (restorePeerAddresses me table extra) net)
    {guard install : Store.Import.Step → Fate} (hguard : ∀ s, guard s = .works)
    (hinstall : ∀ s, install s = .works) {disk : Disk} (hfresh : Store.Import.Fresh load disk.manifest) :
    ∃ out disk' snapshot,
      restore P key me load guard install secs table extra none lookbackDays net disk = (.ok out, disk') ∧
      dayOf p ≤ out.version ∧ out.version ≤ manifestBackupVersionNow secs ∧
      snapshot ∈ takenOn out.version (before ++ .pass p :: after) ∧
      disk'.manifest = .bytes snapshot ∧ disk'.identity = disk.identity := by
  generalize hall : before ++ .pass p :: after = all at hwhole hone hpast hnet ⊢
  have hmem : .pass p ∈ all := by simp [← hall]
  have hrun : run (step P key me) s all =
      run (step P key me) (step P key me (run (step P key me) s before) (.pass p)) after := by
    rw [← hall]
    exact List.foldl_append
  have hstart : StockedDays P key me (manifestBackupVersionNow secs) all s.held := by
    intro v _ a i _ b hb
    rw [hnew v a i] at hb
    cases hb
  have hstock := run_stockedDays hB hids hstart (fun a ha => ha) hpast
  have hdecode : DecodeDays P me (manifestBackupVersionNow secs) (run (step P key me) s all).held := by
    refine run_decodeDays hB hids (fun v _ a i _ b hb => ?_) hpast hwhole
    rw [hnew v a i] at hb
    cases hb
  have hp : dayOf p ≤ manifestBackupVersionNow secs := by
    refine hpast _ ?_
    rw [← hall, days_append]
    exact List.mem_append_right _ (List.mem_cons_self ..)
  have hfirst := recoverable_backed hB hids hp hmem (hknown p (List.mem_cons_self ..)) hrec
  have hdays : ∀ d ∈ days after, d ≤ manifestBackupVersionNow secs := by
    intro d hd
    refine hpast _ ?_
    rw [← hall, days_append]
    exact List.mem_append_right _ (List.mem_cons_of_mem _ hd)
  obtain ⟨d, hd, hbacked⟩ := run_dated hB hids hdays (fun a ha => by simp [← hall, ha])
    (fun q hq => hknown q (List.mem_cons_of_mem _ hq)) hclock hfirst
  rw [← hrun] at hbacked
  have hpd : dayOf p ≤ d ∧ d ≤ manifestBackupVersionNow secs := by
    rcases List.mem_cons.mp hd with rfl | hd
    · exact ⟨le_refl _, hp⟩
    · exact ⟨(List.pairwise_cons.mp hclock).1 d hd, hdays d hd⟩
  have hwindow : d ∈ candidates (manifestBackupVersionNow secs) none lookbackDays :=
    mem_candidates.mpr ⟨hpd.2, by omega⟩
  obtain ⟨v, snapshot, used, probed, htry, hdv, hv, hsnap⟩ :=
    tryVersions_backed hB (version_lt secs) hstock hdecode hone hnet hwindow hbacked
  obtain ⟨d₁, hg, hfresh₁, hid₁⟩ := guard_fresh hguard hfresh
  obtain ⟨d₂, hi, hman, hid₂⟩ := restoreManifestDb_calm hinstall hfresh₁ snapshot
  have haddrs : (restorePeerAddresses me table extra).isEmpty = false := by
    by_contra hempty
    rw [Bool.not_eq_false, List.isEmpty_iff] at hempty
    have hten := hbacked.2
    simp [copies, hempty] at hten
    cases hten
  refine ⟨⟨v, snapshot.length, used, (restorePeerAddresses me table extra).length, probed⟩, d₂, snapshot,
    ?_, le_trans hpd.1 hdv, hv, hsnap, hman, hid₂.trans hid₁⟩
  simp [restore, bind_apply, wrapped, hg, haddrs, htry, hi]
  rfl

end

/-! ### What the sweeps leave at the hosts -/

/-- The passes of a run, with the oldest day of which hosts may hold shards. -/
structure Watched where
  state : State
  oldest : Option ℕ

section
variable {K : Type} (P : Prims K) (key : K) (me : Text)

def watch (w : Watched) (a : Action) : Watched where
  state := step P key me w.state a
  oldest := match a with
    | .purgeEvents _ => w.oldest
    | .pass p =>
      if (runBackup P key me w.state.events p.pass).report.recoverable then
        some (dayOf p + 1 - KEEP_VERSIONS)
      else some (w.oldest.getD (dayOf p))

/-- A pass goes with the clock. When it is recoverable, the oldest day is within the depth of its
sweep, and every host with shards answers it and carries out its deletions. -/
def Punctual (w : Watched) : Action → Prop
  | .purgeEvents _ => True
  | .pass p => (∀ d ∈ w.oldest, d ≤ dayOf p) ∧
    ((runBackup P key me w.state.events p.pass).report.recoverable = true →
      (∀ d ∈ w.oldest, dayOf p ≤ d + KEEP_VERSIONS + SWEEP_DEPTH) ∧
      ∀ a f, (w.state.held a f).isSome → a ∈ (reachablePeers me p.pass).map Prod.snd ∧
        ∀ g, p.drops a g = true)

/-- The hosts hold no shard of an older day. -/
def Recent (n : ℕ) (w : Watched) : Prop := ∀ v ≤ n, ∀ a, ∀ i < TOTAL_SHARDS,
  (w.state.held a (manifestBackupFragmentId P me v i)).isSome → ∃ d ∈ w.oldest, d ≤ v

end

section
variable {K : Type} {P : Prims K} {key : K} {me : Text} {n : ℕ} {w : Watched} {p : HostedPass}

/-- A shard that hosts hold after the sends of a pass is of its day, or was there. -/
theorem sent_or_old (hB : Backends P) (hids : DaysApart P me n) (hp : dayOf p ≤ n) {s : State} {v : ℕ}
    (hv : v ≤ n) {a : Text} {i : ℕ} (hi : i < TOTAL_SHARDS)
    (h : (((runBackup P key me s.events p.pass).sent.foldl (storeSent p.stores) s.held) a
      (manifestBackupFragmentId P me v i)).isSome) :
    v = dayOf p ∨ (s.held a (manifestBackupFragmentId P me v i)).isSome := by
  obtain ⟨b, hb⟩ := Option.isSome_iff_exists.mp h
  rcases foldl_storeSent_cases hb with hold | ⟨m, hm, -, hf, -⟩
  · exact .inr (by rw [hold]; rfl)
  · left
    obtain ⟨t, -, blob, shards, shard, j, hblob, hget, hid, -⟩ := sent_day hB rfl hm
    have hj : j < TOTAL_SHARDS := by
      rw [← (encode_shards hB.restores hB.sizes hblob.coded).1]
      exact (List.getElem?_eq_some_iff.mp hget).1
    exact (hids v hv _ hp i hi j hj (hf.symm.trans hid)).1

theorem watch_recent (hB : Backends P) (hids : DaysApart P me n) (h : Recent P me n w) {a : Action}
    (hdays : ∀ d ∈ days [a], d ≤ n) (ha : Punctual P key me w a) : Recent P me n (watch P key me w a) := by
  cases a with
  | purgeEvents keep => exact h
  | pass p =>
    have hp : dayOf p ≤ n := hdays _ (List.mem_singleton_self _)
    obtain ⟨hclock, hsweep⟩ := ha
    have hkeep : KEEP_VERSIONS = 7 := rfl
    intro v hv a i hi hheld
    by_cases hrec : (runBackup P key me w.state.events p.pass).report.recoverable = true
    · obtain ⟨hdepth, hreach⟩ := hsweep hrec
      simp only [watch, step, hrec, if_true] at hheld ⊢
      rw [sweep] at hheld
      split at hheld
      · cases hheld
      · next hkept =>
        refine ⟨_, rfl, ?_⟩
        rcases sent_or_old hB hids hp hv hi hheld with rfl | hold
        · omega
        · obtain ⟨d, hd, hdv⟩ := h v hv a i hi hold
          obtain ⟨hhost, hdrops⟩ := hreach a _ hold
          have hfar := hdepth d hd
          -- an older day within the depth would have been swept
          by_contra hlate
          refine hkept ⟨hdrops _, hhost, v, ?_, i, List.mem_range.mpr hi, rfl⟩
          rw [runBackup_version, mem_sweptVersions]
          simp only [dayOf] at hlate hfar hp
          omega
    · simp only [watch, step, hrec] at hheld ⊢
      refine ⟨_, rfl, ?_⟩
      rcases sent_or_old hB hids hp hv hi hheld with rfl | hold
      · cases ho : w.oldest with
        | none => exact le_refl _
        | some d => exact hclock d ho
      · obtain ⟨d, hd, hdv⟩ := h v hv a i hi hold
        rw [Option.mem_def.mp hd]
        exact hdv

/-- As long as a recoverable pass comes in time and reaches the hosts with shards, it leaves shards of
the last seven days only, whatever the passes before it left where. -/
theorem backups_swept (hB : Backends P) (hids : DaysApart P me n) {s : State}
    (hnew : ∀ v a i, s.held a (manifestBackupFragmentId P me v i) = none) {actions : List Action}
    (hdays : ∀ d ∈ days (actions ++ [.pass p]), d ≤ n)
    (hrun : AllMeet (watch P key me) (Punctual P key me) ⟨s, none⟩ (actions ++ [.pass p]))
    (hrec : (runBackup P key me (run (watch P key me) ⟨s, none⟩ actions).state.events
      p.pass).report.recoverable = true) {v : ℕ} (hv : v ≤ n) {a : Text} {i : ℕ} (hi : i < TOTAL_SHARDS)
    (hheld : ((run (watch P key me) ⟨s, none⟩ (actions ++ [.pass p])).state.held a
      (manifestBackupFragmentId P me v i)).isSome) : dayOf p < v + KEEP_VERSIONS := by
  have hstart : Recent P me n ⟨s, none⟩ := by
    intro v _ a i _ h
    rw [hnew v a i] at h
    cases h
  have hall : ∀ a ∈ actions ++ [.pass p], ∀ d ∈ days [a], d ≤ n := by
    intro a ha d hd
    obtain ⟨b, hb, hbd⟩ := List.mem_filterMap.mp hd
    rw [List.mem_singleton.mp hb] at hbd
    exact hdays d (List.mem_filterMap.mpr ⟨a, ha, hbd⟩)
  have hrecent : Recent P me n (run (watch P key me) ⟨s, none⟩ (actions ++ [.pass p])) :=
    run_invariant (I := Recent P me n) (fun w a h hok => watch_recent hB hids h hok.2 hok.1) hstart (hrun.and_forall hall)
  obtain ⟨d, hd, hdv⟩ := hrecent v hv a i hi hheld
  have happ : run (watch P key me) ⟨s, none⟩ (actions ++ [.pass p]) =
      watch P key me (run (watch P key me) ⟨s, none⟩ actions) (.pass p) := List.foldl_append
  have hlast : (run (watch P key me) ⟨s, none⟩ (actions ++ [.pass p])).oldest =
      some (dayOf p + 1 - KEEP_VERSIONS) := by
    rw [happ]
    simp only [watch, hrec, if_true]
  rw [hlast, Option.mem_some_iff] at hd
  have hkeep : KEEP_VERSIONS = 7 := rfl
  omega

end

/-! ### A backup, a failed retry, a restore or another backup -/

/-- After the backup its event is purged and a second pass reaches one host for nine shards. -/
def retried : List Action := [.purgeEvents fun _ => false, .pass (oneHost 'b' 9 2)]

/-- The state that is left. -/
noncomputable def leftHeld : Holdings :=
  (run (step dayPrims .node sampleMe) ⟨[], noHoldings⟩ ([] ++ .pass (oneHost 'c' 14 2) :: retried)).held

/-- The peers answer in the order they are asked. -/
noncomputable def inOrder (held : Holdings) (addrs : List Text) : Network where
  answers v := probes dayPrims sampleMe v held addrs
  replies v := (probeVersion (probes dayPrims sampleMe v held addrs)).map fun x =>
    held x.2 (manifestBackupFragmentId dayPrims sampleMe v x.1)

theorem dayPrims_apart : DaysApart dayPrims sampleMe 0 := by
  intro v hv w hw i hi j hj hid
  obtain rfl : v = 0 := Nat.le_zero.mp hv
  obtain rfl : w = 0 := Nat.le_zero.mp hw
  exact ⟨rfl, dayPrims_ids.1 i hi j hj hid⟩

theorem inOrder_honest (held : Holdings) (addrs : List Text) :
    Honest dayPrims sampleMe held addrs (inOrder held addrs) := fun _ => ⟨List.Perm.refl _, List.Perm.refl _⟩

theorem lost_node_restores_sample : ∃ out disk' snapshot,
    restore dayPrims .node sampleMe (fun _ => none) (fun _ => .works) (fun _ => .works) (some 0) none
        [['b'], [' ', 'c']] none none (inOrder leftHeld [['b'], ['c']]) ⟨.absent, none, some [7]⟩ =
      (.ok out, disk') ∧
    dayOf (oneHost 'c' 14 2) ≤ out.version ∧ out.version ≤ manifestBackupVersionNow (some 0) ∧
    snapshot ∈ takenOn out.version ([] ++ .pass (oneHost 'c' 14 2) :: retried) ∧
    disk'.manifest = .bytes snapshot ∧ disk'.identity = some [7] := by
  have haddrs : restorePeerAddresses sampleMe none [['b'], [' ', 'c']] = [['b'], ['c']] := by decide
  obtain ⟨-, -, -, -, -, -, hrec, -⟩ := oneHost_placed [] 'c' 14 2 rfl
  have hten : decide (DATA_SHARDS ≤ (List.range TOTAL_SHARDS).countP (· < 14)) = true := by decide
  have hplaced : (runBackup dayPrims .node sampleMe (run (step dayPrims .node sampleMe) ⟨[], noHoldings⟩
      []).events (oneHost 'c' 14 2).pass).report.recoverable = true := hrec.trans hten
  have hempty : ∀ v a i, (State.mk [] noHoldings).held a (manifestBackupFragmentId dayPrims sampleMe v i) =
      none := fun _ _ _ => rfl
  have hone : ∀ v, ∀ t ∈ takenOn v ([] ++ .pass (oneHost 'c' 14 2) :: retried), t = [2] := by
    intro v t ht
    simp only [takenOn, retried, oneHost, List.nil_append, List.filterMap_cons, List.filterMap_nil] at ht
    split at ht <;> split at ht <;> simp_all
  have hfresh : Store.Import.Fresh (fun _ => none) Store.Import.ManifestFile.absent := by
    intro m hm
    cases hm
    rfl
  have hids : DaysApart dayPrims sampleMe (manifestBackupVersionNow (some 0)) := dayPrims_apart
  have hwhole : ∀ q, .pass q ∈ [] ++ .pass (oneHost 'c' 14 2) :: retried → q.Unbroken := by
    intro q hq
    simp only [retried, List.nil_append, List.mem_cons, Action.pass.injEq, reduceCtorEq, List.not_mem_nil, or_false,
      false_or] at hq
    rcases hq with rfl | rfl
    · exact oneHost_unbroken 'c' 14 2
    · exact oneHost_unbroken 'b' 9 2
  refine lost_node_restores dayPrims_backends hempty hwhole
    (fun v t ht t' ht' => (hone v t ht).trans (hone v t' ht').symm) hplaced (by decide)
    hids (by decide) (by decide) (fun q hq pa hpa => ?_) ?_ (fun _ => rfl) (fun _ => rfl) hfresh
  · rw [haddrs]
    simp only [retried, List.mem_cons, Action.pass.injEq, reduceCtorEq, List.not_mem_nil, or_false,
      false_or] at hq
    rcases hq with rfl | rfl
    · rw [oneHost_peers] at hpa
      simp_all
    · rw [oneHost_peers] at hpa
      simp_all
  · rw [haddrs]
    exact inOrder_honest leftHeld _

/-! ### Two backups a week apart -/

/-- The preimages of the ids of the days 0 to 7. -/
def weekKnown : List Bytes :=
  (List.range 8).flatMap fun v => (List.range TOTAL_SHARDS).map fun i => backupInput sampleMe v i

noncomputable def weekPrims : Prims Sample.Key := Mds.withMds (Sample.sample weekKnown)

theorem mem_weekKnown {b : Bytes} : b ∈ weekKnown ↔ ∃ v < 8, ∃ i < TOTAL_SHARDS, backupInput sampleMe v i = b := by
  simp only [weekKnown, List.mem_flatMap, List.mem_map, List.mem_range]

theorem weekPrims_apart : DaysApart weekPrims sampleMe 7 := by
  intro v hv w hw i hi j hj hid
  have hlong : ∀ s ∈ weekKnown, 14 < s.length := by
    intro s hs
    obtain ⟨v, -, i, -, rfl⟩ := mem_weekKnown.mp hs
    have hme : (utf8 sampleMe).length = 32 := by decide
    simp only [backupInput, List.length_append, beBytes_length, hme]
    omega
  have hknown : backupInput sampleMe w j ∈ weekKnown := mem_weekKnown.mpr ⟨w, by omega, j, hj, rfl⟩
  have hinput : backupInput sampleMe v i = backupInput sampleMe w j :=
    Sample.digestSample_inj hlong (by decide) hknown (hexEncode_inj hid)
  have h14 : TOTAL_SHARDS = 14 := rfl
  obtain ⟨-, hvw, hij⟩ := backupInput_inj (by omega) (by omega) (by omega) (by omega) hinput
  exact ⟨hvw, hij⟩

/-- A pass of the day over one host that takes all shards. -/
def weekPass (day : ℕ) : HostedPass where
  pass := { (oneHost 'c' 14 2).pass with secs := some (UInt64.ofNat (86400 * day)) }
  stores := (oneHost 'c' 14 2).stores
  drops := (oneHost 'c' 14 2).drops
  honest := (oneHost 'c' 14 2).honest

theorem weekPass_peers (day : ℕ) : reachablePeers sampleMe (weekPass day).pass = [(['c'], ['c'])] :=
  oneHost_peers 'c' 14 2

theorem weekPass_recoverable {events : List BackupEvent} {day : ℕ} (hday : dayOf (weekPass day) = day)
    (hnot : ManifestBackup.alreadyPlaced events true day = false) :
    (runBackup weekPrims .node sampleMe events (weekPass day).pass).report.recoverable = true ∧
    ∃ size, (runBackup weekPrims .node sampleMe events (weekPass day).pass).events =
      events ++ [.manifestBackup day 14 1 size] := by
  have hB : Backends weekPrims := sample_backends weekKnown
  have hseal : sealManifestSnapshot weekPrims .node sampleMe day [2] =
      .ok (snapshotFrame sampleMe day [2] ++ List.replicate 16 0) := by
    rw [sealManifestSnapshot, if_neg (by decide)]
    rfl
  have hframe : (snapshotFrame sampleMe day [2] ++ List.replicate 16 (0 : Byte)).length = 74 := by
    rw [List.length_append, List.length_replicate]
    rfl
  obtain ⟨shards, built, hblob, hbuilt, hshards, hmax⟩ := buildManifestBackup_ok hB hseal (by
    rw [hframe]
    decide)
  have h14 : built.shards.length = TOTAL_SHARDS := by
    rw [hshards, envelopes, List.length_map, List.length_zipIdx, (encode_shards hB.restores hB.sizes hblob.coded).1]
  have hpeers := weekPass_peers day
  have hver : manifestBackupVersionNow (weekPass day).pass.secs = day := hday
  obtain ⟨-, hrec, hevents⟩ := ManifestBackup.runBackup_built weekPrims .node sampleMe
    (p := (weekPass day).pass) (by rw [hver]; exact hnot) (by rw [hpeers]; rfl) rfl rfl
    (by rw [hver]; exact hbuilt) hmax
  have hacks : (List.range TOTAL_SHARDS).countP (weekPass day).pass.acks = 14 := by
    change (List.range TOTAL_SHARDS).countP (fun i => decide (i < 14)) = 14
    decide
  rw [h14, hacks] at hrec hevents
  refine ⟨hrec, built.snapshotLen, hevents.trans ?_⟩
  rw [if_pos (by decide), hver, hpeers]
  rfl

/-- The first pass leaves shards at its one host only. -/
theorem weekPass_hosts {a f : Text}
    (h : ((step weekPrims .node sampleMe ⟨[], noHoldings⟩ (.pass (weekPass 0))).held a f).isSome) : a = ['c'] := by
  obtain ⟨hfirst, -⟩ := @weekPass_recoverable [] 0 (by decide) rfl
  by_contra hne
  have hother : ∀ m ∈ (runBackup weekPrims .node sampleMe [] (weekPass 0).pass).sent, m.addr ≠ a := by
    intro m hm
    rcases runBackup_sent weekPrims .node sampleMe [] (weekPass 0).pass with
      ⟨hnil, -⟩ | ⟨-, built, -, -, -, -, hsent, -⟩
    · rw [hnil] at hm
      cases hm
    · rw [hsent, weekPass_peers] at hm
      obtain ⟨j, b, pa, -, hpa, rfl⟩ := (ManifestBackup.mem_placements weekPrims sampleMe).mp hm
      rw [List.mem_singleton.mp (List.mem_of_getElem? hpa)]
      exact Ne.symm hne
  simp only [step, hfirst, if_true, sweep] at h
  split at h
  · cases h
  · rw [foldl_storeSent_other hother] at h
    cases h

theorem weekPass_punctual : AllMeet (watch weekPrims .node sampleMe) (Punctual weekPrims .node sampleMe)
    ⟨⟨[], noHoldings⟩, none⟩ ([.pass (weekPass 0)] ++ [.pass (weekPass 7)]) := by
  have h0 : dayOf (weekPass 0) = 0 := by decide
  have h7 : dayOf (weekPass 7) = 7 := by decide
  obtain ⟨hfirst, -⟩ := @weekPass_recoverable [] 0 h0 rfl
  refine ⟨⟨fun d hd => absurd hd (by simp), fun _ => ⟨fun d hd => absurd hd (by simp), fun a f h => by cases h⟩⟩,
    ⟨fun d hd => ?_, fun _ => ⟨fun d hd => ?_, ?_⟩⟩, trivial⟩
  · simp only [watch, hfirst, if_true, h0] at hd
    cases hd
    exact Nat.zero_le _
  · simp only [watch, hfirst, if_true, h0] at hd
    cases hd
    rw [h7]
    decide
  · intro a f h
    rw [weekPass_hosts h, weekPass_peers]
    exact ⟨List.mem_singleton_self _, fun _ => rfl⟩

/-- The host holds shards of the first day until the pass of the seventh, and none after it. -/
theorem backups_swept_sample : ∃ i < TOTAL_SHARDS,
    ((step weekPrims .node sampleMe ⟨[], noHoldings⟩ (.pass (weekPass 0))).held ['c']
      (manifestBackupFragmentId weekPrims sampleMe 0 i)).isSome ∧
    (run (watch weekPrims .node sampleMe) ⟨⟨[], noHoldings⟩, none⟩
      ([.pass (weekPass 0)] ++ [.pass (weekPass 7)])).state.held ['c']
        (manifestBackupFragmentId weekPrims sampleMe 0 i) = none := by
  have hB : Backends weekPrims := sample_backends weekKnown
  have h0 : dayOf (weekPass 0) = 0 := by decide
  have h7 : dayOf (weekPass 7) = 7 := by decide
  obtain ⟨hfirst, size, hevents⟩ := @weekPass_recoverable [] 0 h0 rfl
  have hstate : (step weekPrims .node sampleMe ⟨[], noHoldings⟩ (.pass (weekPass 0))).events =
      [.manifestBackup 0 14 1 size] := hevents
  have hlast : (runBackup weekPrims .node sampleMe (step weekPrims .node sampleMe ⟨[], noHoldings⟩
      (.pass (weekPass 0))).events (weekPass 7).pass).report.recoverable = true := by
    rw [hstate]
    exact (weekPass_recoverable h7 rfl).1
  have hempty : ∀ v a i, (State.mk [] noHoldings).held a (manifestBackupFragmentId weekPrims sampleMe v i) =
      none := fun _ _ _ => rfl
  have hbacked : Backed weekPrims .node sampleMe [.pass (weekPass 0)] [['c']] (dayOf (weekPass 0))
      (step weekPrims .node sampleMe ⟨[], noHoldings⟩ (.pass (weekPass 0))).held :=
    recoverable_backed hB weekPrims_apart (by rw [h0]; decide) (List.mem_singleton_self _)
      (fun pa hpa => by
        rw [weekPass_peers, List.mem_singleton] at hpa
        rw [hpa]
        exact List.mem_singleton_self _) hfirst
  rw [h0] at hbacked
  obtain ⟨i, hi, hany⟩ := List.countP_pos_iff.mp (Nat.lt_of_lt_of_le (by decide) hbacked.2)
  obtain ⟨a, ha, hsome⟩ := List.any_eq_true.mp hany
  rw [List.mem_singleton.mp ha] at hsome
  refine ⟨i, List.mem_range.mp hi, hsome, Option.not_isSome_iff_eq_none.mp fun hheld => ?_⟩
  have hdays : ∀ d ∈ days ([.pass (weekPass 0)] ++ [.pass (weekPass 7)]), d ≤ 7 := by
    simp only [days, List.cons_append, List.nil_append, List.filterMap_cons, List.filterMap_nil, h0, h7]
    decide
  have hrecent := backups_swept hB weekPrims_apart hempty hdays weekPass_punctual hlast (Nat.zero_le 7) (List.mem_range.mp hi) hheld
  rw [h7] at hrecent
  exact absurd hrecent (by decide)

end P2pnas.Node.Recovery
