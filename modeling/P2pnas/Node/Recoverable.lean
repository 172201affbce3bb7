import P2pnas.Core.Mds
import P2pnas.Node.ManifestBackup
import P2pnas.Node.Restoring

/-!
# Restoring what a day's passes left behind (`manifest_backup.rs:170-224`)

The ids of a backup's shards are those of the node, the day and the index, so passes of one day
write over each other's shards where they meet the same host and leave them where they do not. A
host whose write breaks off refuses the shard and keeps a part of it.
-/

namespace P2pnas.Node.Recoverable
open P2pnas.Lib.Frames P2pnas.Lib.Strings P2pnas.Lib.Runs P2pnas.Core P2pnas.Core.Base
open P2pnas.Core.Erasure P2pnas.Store.Session P2pnas.Store.Backup P2pnas.Store.Restore
open P2pnas.Node.Peers P2pnas.Node.Restoring
open P2pnas.Node.ManifestBackup (Pass BackupEvent runBackup reachablePeers sweptVersions placements
  MAX_PEER_SHARD_BYTES runBackup_sent runBackup_version mem_placements)

/-- A pass, what becomes of each shard at its host, which acknowledges only what it has stored, and
the deletions the hosts carry out. -/
structure HostedPass where
  pass : Pass
  stores : ℕ → Event
  drops : Text → Text → Bool
  honest : ∀ i, pass.acks i = true → stores i = .works

/-- Between passes old events are purged. -/
inductive Action where
  | pass (p : HostedPass)
  | purgeEvents (keep : BackupEvent → Bool)

structure State where
  events : List BackupEvent
  held : Holdings

/-- The bytes a host writes over what it had under the id, if it comes to write. -/
def written (stores : ℕ → Event) (m : Sent) : Option Bytes :=
  match stores m.shardIndex.toNat with
  | .works => some m.data
  | .fails none => none
  | .fails (some n) => some (m.data.take n)

def storeSent (stores : ℕ → Event) (held : Holdings) (m : Sent) : Holdings := fun a f =>
  if a = m.addr ∧ f = m.fragmentId then (written stores m).or (held a f) else held a f

section
variable {K : Type} (P : Prims K) (key : K) (me : Text)

/-- `sweep_old_versions` at the hosts. -/
def sweep (p : HostedPass) (version : ℕ) (held : Holdings) : Holdings := fun a f =>
  if p.drops a f ∧ a ∈ (reachablePeers me p.pass).map Prod.snd ∧
      ∃ v ∈ sweptVersions version, ∃ i ∈ List.range TOTAL_SHARDS, manifestBackupFragmentId P me v i = f
  then none else held a f

def step (s : State) : Action → State
  | .pass p =>
    let r := runBackup P key me s.events p.pass
    let held := r.sent.foldl (storeSent p.stores) s.held
    ⟨r.events, if r.report.recoverable then sweep P me p r.report.version held else held⟩
  | .purgeEvents keep => { s with events := s.events.filter keep }

/-- The ids of a day's shards differ from each other and from those its sweep drops. -/
def IdsApart (version : ℕ) : Prop :=
  (∀ i < TOTAL_SHARDS, ∀ j < TOTAL_SHARDS,
    manifestBackupFragmentId P me version i = manifestBackupFragmentId P me version j → i = j) ∧
  ∀ v ∈ sweptVersions version, ∀ i < TOTAL_SHARDS, ∀ j < TOTAL_SHARDS,
    manifestBackupFragmentId P me v i ≠ manifestBackupFragmentId P me version j

end

section
variable {K : Type} {P : Prims K} {key : K} {me : Text} {version : ℕ} {snapshots : List Bytes}

/-! ### A day's passes -/

theorem buildManifestBackup_day (hB : Backends P) {t : Bytes} {built : ManifestBackupBlob}
    (h : buildManifestBackup P key me version t = .ok built)
    (hmax : (built.shards.headD []).length ≤ MAX_PEER_SHARD_BYTES) : ∃ blob shards,
      DayBlob P key me version t blob shards ∧ built.shards = envelopes P version blob shards := by
  rw [buildManifestBackup] at h
  obtain ⟨blob, hseal, h⟩ := bind_eq_ok h
  obtain ⟨es, hes, h⟩ := bind_eq_ok h
  cases h
  obtain ⟨shards, hcoded, rfl⟩ := encodeManifestBackupShards_eq_ok hes
  refine ⟨blob, shards, ⟨hseal, hcoded, ?_⟩, rfl⟩
  obtain ⟨h14, hsize⟩ := encode_shards hB.restores hB.sizes hcoded
  cases shards with
  | nil => cases h14
  | cons shard rest =>
    have hlen := hsize shard (List.mem_cons_self ..)
    have hle : shard.length ≤ (envelope P version blob shard 0).length := by
      rw [envelope, List.length_append]
      exact Nat.le_add_left ..
    have hhead : (envelope P version blob shard 0).length ≤ MAX_PEER_SHARD_BYTES := hmax
    have h8 : MAX_PEER_SHARD_BYTES < 2 ^ 32 := by decide
    omega

/-- A sealed snapshot that is not too large is built. -/
theorem buildManifestBackup_ok (hB : Backends P) {t blob : Bytes}
    (hseal : sealManifestSnapshot P key me version t = .ok blob)
    (hlen : 46 + shardLen blob.length ≤ MAX_PEER_SHARD_BYTES) : ∃ shards built,
      DayBlob P key me version t blob shards ∧ buildManifestBackup P key me version t = .ok built ∧
        built.shards = envelopes P version blob shards ∧
        (built.shards.headD []).length ≤ MAX_PEER_SHARD_BYTES := by
  obtain ⟨recovery, hrec, -, -⟩ := hB.restores (dataShards blob) _ (dataShards_length blob)
    (dataShards_mem_length blob) (shardLen_pos _) (shardLen_dvd _)
  have hcoded : encode P blob = .ok (dataShards blob ++ recovery) := by
    rw [encode, hrec, orFail_some, ok_bind]
    rfl
  obtain ⟨h14, hsize⟩ := encode_shards hB.restores hB.sizes hcoded
  generalize dataShards blob ++ recovery = shards at hcoded h14 hsize
  have h8 : MAX_PEER_SHARD_BYTES < 2 ^ 32 := by decide
  refine ⟨shards, ⟨version, t.length, blob.length, envelopes P version blob shards⟩,
    ⟨hseal, hcoded, by omega⟩, ?_, rfl, ?_⟩
  · rw [buildManifestBackup, hseal, ok_bind, encodeManifestBackupShards, hcoded]
    rfl
  · cases shards with
    | nil => cases h14
    | cons shard rest =>
      have hhead := envelope_length P hB.digest version blob shard 0
      rw [hsize shard (List.mem_cons_self ..)] at hhead
      exact le_of_eq_of_le hhead hlen

/-- A sent shard is the envelope of its index, under the id of its index. -/
theorem sent_day (hB : Backends P) {events : List BackupEvent} {p : Pass}
    (hv : manifestBackupVersionNow p.secs = version) {m : Sent}
    (hm : m ∈ (runBackup P key me events p).sent) : ∃ t, p.snapshot = some t ∧
      ∃ blob shards shard i, DayBlob P key me version t blob shards ∧ shards[i]? = some shard ∧
        m.fragmentId = manifestBackupFragmentId P me version i ∧
        m.data = envelope P version blob shard i := by
  rcases runBackup_sent P key me events p with ⟨hnil, -⟩ | ⟨t, built, ht, hbuilt, -, hmax, hsent, -⟩
  · rw [hnil] at hm
    cases hm
  · rw [hv] at hbuilt hsent
    obtain ⟨blob, shards, hday, hshards⟩ := buildManifestBackup_day hB hbuilt hmax
    rw [hsent] at hm
    obtain ⟨i, b, pa, hb, -, rfl⟩ := (mem_placements P me).mp hm
    have hlt : i < shards.length := by
      have hlt := (List.getElem?_eq_some_iff.mp hb).1
      rwa [hshards, envelopes, List.length_map, List.length_zipIdx] at hlt
    have hget : shards[i]? = some shards[i] := List.getElem?_eq_getElem hlt
    rw [hshards, envelopes_getElem? hget] at hb
    exact ⟨t, ht, blob, shards, _, i, hday, hget, rfl, (Option.some.inj hb).symm⟩

theorem written_part {stores : ℕ → Event} {m : Sent} {b : Bytes} (h : written stores m = some b) :
    (∃ n, b = m.data.take n) ∧ ((∀ i n, stores i ≠ .fails (some n)) → b = m.data) := by
  unfold written at h
  split at h
  · obtain rfl := Option.some.inj h
    exact ⟨⟨m.data.length, List.take_length.symm⟩, fun _ => rfl⟩
  · cases h
  · next n hn =>
    obtain rfl := Option.some.inj h
    exact ⟨⟨n, rfl⟩, fun hno => absurd hn (hno _ n)⟩

/-- What the hosts hold after some shards were sent is what they held, or what one of the sends
wrote. -/
theorem foldl_storeSent_cases {stores : ℕ → Event} {sent : List Sent} {held : Holdings} {a f : Text}
    {b : Bytes} (h : sent.foldl (storeSent stores) held a f = some b) :
    held a f = some b ∨ ∃ m ∈ sent, m.addr = a ∧ m.fragmentId = f ∧ written stores m = some b := by
  induction sent generalizing held with
  | nil => exact .inl h
  | cons m sent ih =>
    rw [List.foldl_cons] at h
    rcases ih h with hm | ⟨m', hm', hrest⟩
    · unfold storeSent at hm
      split at hm
      · next haf =>
        rcases Option.or_eq_some_iff.mp hm with hw | ⟨-, hold⟩
        · exact .inr ⟨m, List.mem_cons_self .., haf.1.symm, haf.2.symm, hw⟩
        · exact .inl hold
      · exact .inl hm
    · exact .inr ⟨m', List.mem_cons_of_mem _ hm', hrest⟩

/-- A stored shard stays when no other shard of the pass has its id. -/
theorem foldl_storeSent_stored {stores : ℕ → Event} {sent : List Sent} {held : Holdings} {m : Sent}
    (hst : stores m.shardIndex.toNat = .works)
    (hsame : ∀ m' ∈ sent, m'.fragmentId = m.fragmentId → m' = m ∨ m'.addr ≠ m.addr)
    (h : held m.addr m.fragmentId = some m.data ∨ m ∈ sent) :
    sent.foldl (storeSent stores) held m.addr m.fragmentId = some m.data := by
  have hwrites : written stores m = some m.data := by rw [written, hst]
  induction sent generalizing held with
  | nil => exact h.resolve_right List.not_mem_nil
  | cons x sent ih =>
    rw [List.foldl_cons]
    refine ih (fun m' hm' => hsame m' (List.mem_cons_of_mem _ hm')) ?_
    rw [storeSent]
    split
    · next hx =>
      rcases hsame x (List.mem_cons_self ..) hx.2.symm with rfl | hother
      · exact .inl (by rw [hwrites, Option.some_or])
      · exact absurd hx.1.symm hother
    · next hx =>
      rcases h with h | h
      · exact .inl h
      · rcases List.mem_cons.mp h with rfl | h
        · exact absurd ⟨rfl, rfl⟩ hx
        · exact .inr h

theorem foldl_storeSent_other {stores : ℕ → Event} {sent : List Sent} {held : Holdings} {a f : Text}
    (h : ∀ m ∈ sent, m.addr ≠ a) : sent.foldl (storeSent stores) held a f = held a f := by
  induction sent generalizing held with
  | nil => rfl
  | cons x sent ih =>
    rw [List.foldl_cons, ih fun m hm => h m (List.mem_cons_of_mem _ hm), storeSent,
      if_neg fun hx => h x (List.mem_cons_self ..) hx.1.symm]

/-- What a pass did to a copy of the day: nothing the sweep does reaches it. -/
theorem step_pass_held (hids : IdsApart P me version) (s : State) (p : HostedPass)
    (hv : manifestBackupVersionNow p.pass.secs = version) (a : Text) {i : ℕ} (hi : i < TOTAL_SHARDS) :
    (step P key me s (.pass p)).held a (manifestBackupFragmentId P me version i) =
      (runBackup P key me s.events p.pass).sent.foldl (storeSent p.stores) s.held a
        (manifestBackupFragmentId P me version i) := by
  simp only [step]
  split
  · rw [sweep, if_neg]
    rintro ⟨-, -, v, hv', j, hj, hid⟩
    rw [runBackup_version, hv] at hv'
    exact hids.2 v hv' j (List.mem_range.mp hj) i hi hid
  · rfl

/-- An index of the last backup that a host acknowledged has a copy of its envelope. -/
theorem acked_held (hB : Backends P) (hids : IdsApart P me version) (s : State) (p : HostedPass)
    (hv : manifestBackupVersionNow p.pass.secs = version) {blob : Bytes} {shards : List Bytes}
    {t : Bytes} (hday : DayBlob P key me version t blob shards)
    (hsent : (runBackup P key me s.events p.pass).sent =
      placements P me (reachablePeers me p.pass) version (envelopes P version blob shards))
    (hpeers : (reachablePeers me p.pass).isEmpty = false) {i : ℕ} (hi : i < TOTAL_SHARDS)
    (hack : p.pass.acks i = true) : ∃ pa ∈ reachablePeers me p.pass,
      (step P key me s (.pass p)).held pa.2 (manifestBackupFragmentId P me version i) =
        (envelopes P version blob shards)[i]? := by
  have h14 : shards.length = TOTAL_SHARDS := (encode_shards hB.restores hB.sizes hday.coded).1
  have hes : (envelopes P version blob shards).length = TOTAL_SHARDS := by
    rw [envelopes, List.length_map, List.length_zipIdx, h14]
  have hb : (envelopes P version blob shards)[i]? = some (envelopes P version blob shards)[i] :=
    List.getElem?_eq_getElem (by rw [hes]; exact hi)
  have hpos : 0 < (reachablePeers me p.pass).length := by
    rw [List.length_pos_iff, ne_eq, ← List.isEmpty_iff, hpeers]
    exact Bool.false_ne_true
  have hmod : i % (reachablePeers me p.pass).length < (reachablePeers me p.pass).length :=
    Nat.mod_lt _ hpos
  have hpa := List.getElem?_eq_getElem hmod
  refine ⟨_, List.getElem_mem hmod, ?_⟩
  rw [step_pass_held hids s p hv _ hi, hsent, hb]
  refine foldl_storeSent_stored (m := ⟨_, _, manifestBackupFragmentId P me version i, i, _⟩) ?_ ?_
    (.inr ((mem_placements P me).mpr ⟨i, _, _, hb, hpa, rfl⟩))
  · exact p.honest i hack
  · intro m hm hid
    obtain ⟨j, b, pb, hbj, hpb, rfl⟩ := (mem_placements P me).mp hm
    have hj : j < TOTAL_SHARDS := by
      rw [← hes]
      exact (List.getElem?_eq_some_iff.mp hbj).1
    obtain rfl := hids.1 j hj i hi hid
    obtain rfl := Option.some.inj (hbj.symm.trans hb)
    obtain rfl := Option.some.inj (hpb.symm.trans hpa)
    exact .inl rfl

/-- The snapshots the passes of a run took. -/
def taken (actions : List Action) : List Bytes :=
  actions.filterMap fun
    | .pass p => p.pass.snapshot
    | .purgeEvents _ => none

/-- All passes of the run are of one day. -/
def OfDay (version : ℕ) : Action → Prop
  | .pass p => manifestBackupVersionNow p.pass.secs = version
  | .purgeEvents _ => True

theorem step_stocked (hB : Backends P) (hids : IdsApart P me version) {s : State} {a : Action}
    (hs : Stocked P key me version snapshots s.held) (hday : OfDay version a)
    (hsnap : ∀ t ∈ taken [a], t ∈ snapshots) :
    Stocked P key me version snapshots (step P key me s a).held := by
  cases a with
  | purgeEvents keep => exact hs
  | pass p =>
    have hsent : Stocked P key me version snapshots
        ((runBackup P key me s.events p.pass).sent.foldl (storeSent p.stores) s.held) := by
      intro a i hi b hb
      rcases foldl_storeSent_cases hb with hold | ⟨m, hm, -, hf, hwritten⟩
      · exact hs a i hi b hold
      · obtain ⟨t, ht, blob, shards, shard, j, hblob, hget, hid, hdata⟩ := sent_day hB hday hm
        obtain ⟨n, hpart⟩ := (written_part hwritten).1
        have hj : j < TOTAL_SHARDS := by
          rw [← (encode_shards hB.restores hB.sizes hblob.coded).1]
          exact (List.getElem?_eq_some_iff.mp hget).1
        obtain rfl := hids.1 i hi j hj (hf.symm.trans hid)
        exact ⟨t, hsnap t (List.mem_filterMap.mpr ⟨_, List.mem_singleton_self _, ht⟩), blob, shards,
          shard, hblob, hget, n, by rw [hpart, hdata]⟩
    simp only [step]
    split
    · -- the sweep only takes copies away
      intro a i hi b hb
      unfold sweep at hb
      split at hb
      · cases hb
      · exact hsent a i hi b hb
    · exact hsent

/-- When all passes of the day took one snapshot, an index with a copy is clean if its copies decode. -/
theorem clean_of_same (hB : Backends P) (hv : version < 2 ^ 64) {held : Holdings} {addrs : List Text} {t blob : Bytes} {shards : List Bytes}
    (hs : Stocked P key me version snapshots held) (hsame : ∀ s ∈ snapshots, s = t)
    (hday : DayBlob P key me version t blob shards) {i : ℕ} (hi : i < TOTAL_SHARDS)
    (hwhole : ∀ a ∈ addrs, Decodes P me version held a i)
    (hcopy : ∃ a ∈ addrs, (held a (manifestBackupFragmentId P me version i)).isSome) :
    clean P me version held addrs (envelopes P version blob shards) i = true := by
  refine clean_iff.mpr ⟨hcopy, ?_⟩
  intro a ha b hb
  obtain ⟨r, hreply⟩ := Option.isSome_iff_exists.mp (hwhole a ha b hb)
  rw [← hb] at hreply
  obtain ⟨s, hmem, blob', shards', shard, hday', hget, rfl, -, -⟩ := decodeReply_stocked hB hv hs hi hb hreply
  obtain rfl := hsame s hmem
  cases hday'.sealed.symm.trans hday.sealed
  cases hday'.coded.symm.trans hday.coded
  exact envelopes_getElem? hget

/-- No host's write of a shard of the pass breaks off part-way. -/
def HostedPass.Unbroken (p : HostedPass) : Prop := ∀ i n, p.stores i ≠ .fails (some n)

/-- Without writes that break off, the copies at the hosts stay such that they decode. -/
theorem step_decodes (hB : Backends P) (hids : IdsApart P me version) {s : State} {a : Action}
    (hs : ∀ a, ∀ i < TOTAL_SHARDS, Decodes P me version s.held a i) (hday : OfDay version a)
    (hwhole : ∀ p, a = .pass p → p.Unbroken) :
    ∀ a', ∀ i < TOTAL_SHARDS, Decodes P me version (step P key me s a).held a' i := by
  cases a with
  | purgeEvents keep => exact hs
  | pass p =>
    intro a' i hi b hb
    rw [step_pass_held hids s p hday a' hi] at hb
    rcases foldl_storeSent_cases hb with hold | ⟨m, hm, -, hf, hwritten⟩
    · exact hs a' i hi b hold
    · obtain ⟨t, -, blob, shards, shard, j, hblob, hget, hid, hdata⟩ := sent_day hB hday hm
      have hj : j < TOTAL_SHARDS := by
        rw [← (encode_shards hB.restores hB.sizes hblob.coded).1]
        exact (List.getElem?_eq_some_iff.mp hget).1
      obtain rfl := hids.1 i hi j hj (hf.symm.trans hid)
      rw [(written_part hwritten).2 (hwhole p rfl), hdata]
      exact hblob.decodeReply hB (hday ▸ version_lt _) hget

end

/-! ### Two days -/

def sampleMe : Text := List.replicate 32 'a'

/-- The preimages of the ids of day 0, and two blobs. -/
def known : List Bytes :=
  ((List.range TOTAL_SHARDS).map fun i =>
    MANIFEST_BACKUP_DOMAIN ++ utf8 sampleMe ++ beBytes 8 0 ++ beBytes 4 i) ++
  ([1, 2].map fun b => snapshotFrame sampleMe 0 [b] ++ List.replicate 16 0)

/-- Primitives with a Reed-Solomon codec that tell these apart. -/
noncomputable def dayPrims : Prims Sample.Key := Mds.withMds (Sample.sample known)

theorem sample_backends (known : List Bytes) : Backends (Mds.withMds (Sample.sample known)) where
  opens := Sample.sample_aead known
  tags := by
    intro k n a p c h
    cases h
    simp
  restores := Mds.withMds_restores _
  sizes := Mds.withMds_sizes _
  digest := by
    intro b
    change (Sample.digestSample known b).length = 32
    unfold Sample.digestSample
    split
    · simp only [Lib.Stripes.padTo_length, List.length_cons]
      omega
    · split
      · simp
      · simp

theorem dayPrims_backends : Backends dayPrims := sample_backends known

theorem dayPrims_ids : IdsApart dayPrims sampleMe 0 := by
  refine ⟨by decide +kernel, ?_⟩
  intro v hv
  have hnone : sweptVersions 0 = [] := by decide
  rw [hnone] at hv
  cases hv

/-- A pass of day 0 over one host that takes the first `n` shards. -/
def oneHost (host : Char) (n : ℕ) (byte : Byte) : HostedPass where
  pass := {
    secs := some 0
    lookupWorks := true
    peers := some [⟨[host], [host], [], none, none, 0⟩]
    answers := fun _ => true
    snapshot := some [byte]
    joins := true
    acks := fun i => i < n
    deletes := fun _ _ => true
    records := true }
  stores := fun i => if i < n then .works else .fails none
  drops := fun _ _ => true
  honest := fun _ h => if_pos (of_decide_eq_true h)

theorem oneHost_unbroken (host : Char) (n : ℕ) (byte : Byte) : (oneHost host n byte).Unbroken := by
  intro i k
  simp only [oneHost]
  split
  · exact Event.noConfusion
  · exact fun h => by cases h

def sampleBlob (byte : Byte) : Bytes := snapshotFrame sampleMe 0 [byte] ++ List.replicate 16 0

theorem sampleBlob_sealed (byte : Byte) :
    sealManifestSnapshot dayPrims .node sampleMe 0 [byte] = .ok (sampleBlob byte) := by
  rw [sealManifestSnapshot, if_neg (by decide)]
  rfl

theorem oneHost_peers (host : Char) (n : ℕ) (byte : Byte) :
    reachablePeers sampleMe (oneHost host n byte).pass = [([host], [host])] := by
  have hne : [host] ≠ sampleMe := by
    intro h
    have hlen := congrArg List.length h
    simp [sampleMe] at hlen
  simp [reachablePeers, oneHost, hne]

/-- A pass of day 0 that was not preceded by a recorded one places its shards. -/
theorem oneHost_placed (events : List BackupEvent) (host : Char) (n : ℕ) (byte : Byte)
    (hnot : ManifestBackup.alreadyPlaced events true 0 = false) : ∃ shards built,
      DayBlob dayPrims .node sampleMe 0 [byte] (sampleBlob byte) shards ∧
      buildManifestBackup dayPrims .node sampleMe 0 [byte] = .ok built ∧
      built.shards = envelopes dayPrims 0 (sampleBlob byte) shards ∧
      (runBackup dayPrims .node sampleMe events (oneHost host n byte).pass).sent =
        placements dayPrims sampleMe [([host], [host])] 0 (envelopes dayPrims 0 (sampleBlob byte) shards) ∧
      (runBackup dayPrims .node sampleMe events (oneHost host n byte).pass).report.recoverable =
        decide (DATA_SHARDS ≤ (List.range TOTAL_SHARDS).countP (· < n)) ∧
      (DATA_SHARDS ≤ (List.range TOTAL_SHARDS).countP (· < n) ∨ ManifestBackup.alreadyPlaced
        (runBackup dayPrims .node sampleMe events (oneHost host n byte).pass).events true 0 = false) := by
  obtain ⟨shards, built, hday, hbuilt, hshards, hmax⟩ :=
    buildManifestBackup_ok dayPrims_backends (sampleBlob_sealed byte) (by
      have hlen : (sampleBlob byte).length = 74 := rfl
      rw [hlen]
      decide)
  have h14 : built.shards.length = TOTAL_SHARDS := by
    rw [hshards, envelopes, List.length_map, List.length_zipIdx,
      (encode_shards dayPrims_backends.restores dayPrims_backends.sizes hday.coded).1]
  have hpeers := oneHost_peers host n byte
  obtain ⟨hsent, hrec, hevents⟩ := ManifestBackup.runBackup_built dayPrims .node sampleMe
    (p := (oneHost host n byte).pass) hnot (by rw [hpeers]; rfl) rfl rfl hbuilt hmax
  rw [h14] at hrec hevents
  refine ⟨shards, built, hday, hbuilt, hshards, ?_, hrec, ?_⟩
  · rw [hsent, hshards, hpeers]
    rfl
  · by_cases hten : DATA_SHARDS ≤ (List.range TOTAL_SHARDS).countP (· < n)
    · exact .inl hten
    · refine .inr ?_
      have hacks : ¬ DATA_SHARDS ≤ (List.range TOTAL_SHARDS).countP (oneHost host n byte).pass.acks := hten
      rw [hevents, if_neg hacks]
      rw [ManifestBackup.alreadyPlaced, Bool.true_and] at hnot ⊢
      change (events ++ [_]).any _ = false
      rw [List.any_append, hnot]
      rfl

def noHoldings : Holdings := fun _ _ => none

/-- The first pass reaches one host for nine shards, the second another host for all. -/
def moved : List Action := [.pass (oneHost 'b' 9 1), .pass (oneHost 'c' 14 2)]

end P2pnas.Node.Recoverable
