import P2pnas.Store.Restore

/-!
# The restore of a manifest backup over the network (`manifest_backup.rs:460-525`)

A restore asks every peer for every index, keeps the first host that answers for each, fetches
from it, and puts what comes back to the vote. Peers are honest and reachable, with a row for what
they hold, so that a probe and a fetch of a shard answer alike; the order of their answers is not
fixed. Copies of several backups of one day may be around under one id, and parts of copies whose
write broke off.
-/

namespace P2pnas.Node.Restoring
open P2pnas.Lib.Frames P2pnas.Lib.Strings P2pnas.Lib.Tally P2pnas.Core P2pnas.Core.Base
open P2pnas.Core.Erasure P2pnas.Store.Session P2pnas.Store.Backup P2pnas.Store.Restore

/-- What the hosts hold, by address and fragment id. -/
abbrev Holdings := Text → Text → Option Bytes

section
variable {K : Type} (P : Prims K) (key : K) (me : Text)

/-- The `HasShard` probes of a version with what honest peers answer. -/
def probes (version : ℕ) (held : Holdings) (addrs : List Text) : List (ℕ × Text × Bool) :=
  (List.range TOTAL_SHARDS).flatMap fun i => addrs.map fun a =>
    (i, a, (held a (manifestBackupFragmentId P me version i)).isSome)

/-- The loop of `probe_version`: the first answer for a shard wins. -/
def firstHost (host : List (Option Text)) (x : ℕ × Text × Bool) : List (Option Text) :=
  if x.2.2 && (host[x.1]?.join).isNone then host.set x.1 (some x.2.1) else host

/-- `probe_version`, the answers in order of completion. -/
def probeVersion (answers : List (ℕ × Text × Bool)) : List (ℕ × Text) :=
  let host := answers.foldl firstHost (List.replicate TOTAL_SHARDS none)
  (List.range TOTAL_SHARDS).filterMap fun i => (host[i]?.join).map fun a => (i, a)

/-- An envelope that decodes and is of the version asked for. -/
def decodeReply (version : ℕ) (reply : Option Bytes) : Option ManifestBackupShard :=
  reply.bind fun bytes =>
    match decodeManifestBackupShard bytes with
    | .ok s => if s.version = version then some s else none
    | .error _ => none

/-- `fetch_and_open`, the replies in order of completion. -/
def fetchAndOpen (version : ℕ) (replies : List (Option Bytes)) :
    Outcome StoreError (Option (Bytes × ℕ)) :=
  let shards := replies.filterMap (decodeReply version)
  if shards.length < DATA_SHARDS then .ok none
  else
    match reassembleManifestBackup P shards with
    | .error .panic => .error .panic
    | .error (.err _) => .ok none
    | .ok blob =>
      match openManifestSnapshot P key me version blob with
      | .error .panic => .error .panic
      | .error (.err _) => .ok none
      | .ok snapshot => .ok (some (snapshot, shards.length))

/-- In whatever order the peers answer, the restore gives this snapshot. -/
def Restores (version : ℕ) (held : Holdings) (addrs : List Text) (snapshot : Bytes) : Prop :=
  ∀ answers, answers.Perm (probes P me version held addrs) → ∀ replies : List (Option Bytes),
    replies.Perm ((probeVersion answers).map fun x =>
      held x.2 (manifestBackupFragmentId P me version x.1)) →
      ∃ n, fetchAndOpen P key me version replies = .ok (some (snapshot, n))

/-- Some peer holds shard `i`, and every peer that does holds the envelope given. -/
def clean (version : ℕ) (held : Holdings) (addrs : List Text) (envelopes : List Bytes) (i : ℕ) : Bool :=
  addrs.any (fun a => (held a (manifestBackupFragmentId P me version i)).isSome) &&
    addrs.all fun a => (held a (manifestBackupFragmentId P me version i)).isNone ||
      held a (manifestBackupFragmentId P me version i) = envelopes[i]?

/-! ### Assumptions -/

/-- The tag is appended to the ciphertext. -/
def AeadAppendsTag : Prop := ∀ k n a p c, P.sealInPlace k n a p = some c → c.length = p.length + 16

/-- The blobs of these snapshots are told apart by length and hash. -/
def BlobsApart (version : ℕ) (snapshots : List Bytes) : Prop :=
  ∀ s ∈ snapshots, ∀ t ∈ snapshots, ∀ b c, sealManifestSnapshot P key me version s = .ok b →
    sealManifestSnapshot P key me version t = .ok c → blobKey P b = blobKey P c → b = c

end

/-! ### The first host that answers -/

/-- A peer that says it holds shard `i`. -/
def saysYes (i : ℕ) (x : ℕ × Text × Bool) : Bool := x.1 = i && x.2.2

theorem saysYes_iff {i : ℕ} {x : ℕ × Text × Bool} : saysYes i x = true ↔ x.1 = i ∧ x.2.2 = true := by
  rw [saysYes, Bool.and_eq_true, decide_eq_true_eq]

theorem foldl_firstHost (answers : List (ℕ × Text × Bool)) (host : List (Option Text)) {i : ℕ}
    (hi : i < host.length) : ((answers.foldl firstHost host)[i]?).join =
      (host[i]?.join).or ((answers.find? (saysYes i)).map (·.2.1)) := by
  induction answers generalizing host with
  | nil => simp
  | cons x xs ih =>
    have hlen : (firstHost host x).length = host.length := by
      unfold firstHost
      split
      · exact List.length_set ..
      · rfl
    rw [List.foldl_cons, ih _ (by rw [hlen]; exact hi)]
    by_cases hx : saysYes i x = true
    · obtain ⟨hxi, hyes⟩ := saysYes_iff.mp hx
      rw [List.find?_cons_of_pos hx, firstHost, hxi, hyes]
      cases hh : host[i]?.join with
      | none => simp [hi]
      | some a => simp [hh]
    · rw [List.find?_cons_of_neg hx]
      congr 1
      unfold firstHost
      split
      · next hset =>
        have hne : x.1 ≠ i := fun he => hx (saysYes_iff.mpr ⟨he, (Bool.and_eq_true_iff.mp hset).1⟩)
        rw [List.getElem?_set_ne hne]
      · rfl

/-- What `probe_version` finds: for each index the first peer that said yes. -/
theorem mem_probeVersion {answers : List (ℕ × Text × Bool)} {i : ℕ} {a : Text} :
    (i, a) ∈ probeVersion answers ↔
      i < TOTAL_SHARDS ∧ answers.find? (saysYes i) = some (i, a, true) := by
  have hhost : ∀ j < TOTAL_SHARDS,
      ((answers.foldl firstHost (List.replicate TOTAL_SHARDS none))[j]?).join =
        (answers.find? (saysYes j)).map (·.2.1) := by
    intro j hj
    rw [foldl_firstHost answers _ (by rw [List.length_replicate]; exact hj),
      List.getElem?_replicate_of_lt hj]
    rfl
  have hshape : ∀ {j : ℕ} {x : ℕ × Text × Bool}, answers.find? (saysYes j) = some x →
      x = (j, x.2.1, true) := by
    intro j x hx
    obtain ⟨h1, h2⟩ := saysYes_iff.mp (List.find?_some hx)
    rw [← h1, ← h2]
  simp only [probeVersion, List.mem_filterMap, List.mem_range]
  constructor
  · rintro ⟨j, hj, hja⟩
    rw [hhost j hj, Option.map_map] at hja
    obtain ⟨x, hx, heq⟩ := Option.map_eq_some_iff.mp hja
    cases heq
    exact ⟨hj, hx.trans (congrArg some (hshape hx))⟩
  · rintro ⟨hi, hfind⟩
    refine ⟨i, hi, ?_⟩
    rw [hhost i hi, hfind]
    rfl

theorem probeVersion_nodup (answers : List (ℕ × Text × Bool)) :
    ((probeVersion answers).map Prod.fst).Nodup := by
  have hsub : ((probeVersion answers).map Prod.fst).Sublist (List.range TOTAL_SHARDS) := by
    simp only [probeVersion]
    generalize answers.foldl firstHost (List.replicate TOTAL_SHARDS none) = host
    induction List.range TOTAL_SHARDS with
    | nil => exact List.Sublist.slnil
    | cons i is ih =>
      rw [List.filterMap_cons]
      cases host[i]?.join with
      | none => exact ih.cons _
      | some a => exact ih.cons_cons _
  exact List.nodup_range.sublist hsub

/-! ### What comes back -/

section
variable {K : Type} {P : Prims K} {key : K} {me : Text} {version : ℕ}

/-- A snapshot of the day as its pass distributed it. -/
structure DayBlob (P : Prims K) (key : K) (me : Text) (version : ℕ) (snapshot blob : Bytes)
    (shards : List Bytes) : Prop where
  sealed : sealManifestSnapshot P key me version snapshot = .ok blob
  coded : encode P blob = .ok shards
  small : shardLen blob.length < 2 ^ 32

/-- Every copy of a shard of the day is the envelope some pass of the day made for its index, or what
a write of it that broke off has left. -/
def Stocked (P : Prims K) (key : K) (me : Text) (version : ℕ) (snapshots : List Bytes)
    (held : Holdings) : Prop :=
  ∀ a, ∀ i < TOTAL_SHARDS, ∀ b, held a (manifestBackupFragmentId P me version i) = some b →
    ∃ s ∈ snapshots, ∃ blob shards shard, DayBlob P key me version s blob shards ∧
      shards[i]? = some shard ∧ ∃ n, b = (envelope P version blob shard i).take n

/-- The host's copy of the shard, if it has one, decodes. -/
def Decodes (P : Prims K) (me : Text) (version : ℕ) (held : Holdings) (a : Text) (i : ℕ) : Prop :=
  ∀ b, held a (manifestBackupFragmentId P me version i) = some b → (decodeReply version (some b)).isSome

/-- An envelope that decodes has the length it declares. -/
theorem decode_length {bytes : Bytes} {s : ManifestBackupShard} (h : decodeManifestBackupShard bytes = .ok s) :
    bytes.length = MS_HEADER + beVal (bytesAt bytes 18 22) := by
  rw [decodeManifestBackupShard] at h
  split at h
  · cases h
  · split at h
    · cases h
    · dsimp only at h
      split at h
      · cases h
      · split at h
        · cases h
        · split at h
          · cases h
          · next hlong _ _ _ hlen =>
            rw [not_not, List.length_drop] at hlen
            omega

/-- A part of an envelope does not decode. -/
theorem decode_take {bytes : Bytes} {s s' : ManifestBackupShard} {n : ℕ}
    (h : decodeManifestBackupShard bytes = .ok s) (hn : n < bytes.length) :
    decodeManifestBackupShard (bytes.take n) ≠ .ok s' := by
  intro hpart
  have hfull := decode_length h
  have hlen := decode_length hpart
  have hhead : MS_HEADER = 46 := rfl
  rw [List.length_take, Nat.min_eq_left (Nat.le_of_lt hn)] at hlen
  have hword : bytesAt (bytes.take n) 18 22 = bytesAt bytes 18 22 := by
    rw [bytesAt, bytesAt, List.drop_take, List.take_take]
    congr 1
    omega
  rw [hword] at hlen
  omega

theorem sealManifestSnapshot_length (ht : AeadAppendsTag P) {snapshot blob : Bytes}
    (h : sealManifestSnapshot P key me version snapshot = .ok blob) :
    snapshot.length < blob.length ∧ blob.length ≠ 0 := by
  rw [sealManifestSnapshot] at h
  split at h
  · cases h
  · have hlen := ht _ _ _ _ _ (orFail_eq_ok (wrapErr_eq_ok h))
    simp only [snapshotFrame, List.length_append] at hlen
    omega

/-- The envelope of a day's blob decodes to its shard. -/
theorem DayBlob.decode (hb : Blake3Len P) (ht : AeadAppendsTag P) (hr : RsRestores P) (hz : RsSizes P)
    (hv : version < 2 ^ 64) {snapshot blob : Bytes} {shards : List Bytes}
    (h : DayBlob P key me version snapshot blob shards) {i : ℕ} {shard : Bytes}
    (hi : shards[i]? = some shard) :
    decodeManifestBackupShard (envelope P version blob shard i) =
        .ok ⟨version, i, blob.length, blobHash P blob, shard⟩ ∧
      shard.length = shardLen blob.length ∧ i < TOTAL_SHARDS := by
  obtain ⟨h14, hsize⟩ := encode_shards hr hz h.coded
  have hlt : i < TOTAL_SHARDS := by
    rw [← h14]
    exact (List.getElem?_eq_some_iff.mp hi).1
  have hshard := hsize shard (List.mem_of_getElem? hi)
  have hblob := le_mul_shardLen blob.length
  have hsmall := h.small
  simp only [DATA_SHARDS] at hblob
  have hblob64 : blob.length < 2 ^ 64 := by omega
  have hshard32 : shard.length < 2 ^ 32 := hshard ▸ hsmall
  refine ⟨?_, hshard, hlt⟩
  rw [decode_envelope P hb hv hlt hblob64 hshard32, if_neg (sealManifestSnapshot_length ht h.sealed).2]

/-- What the proofs need of the libraries. -/
structure Backends (P : Prims K) : Prop where
  opens : AeadOpens P
  tags : AeadAppendsTag P
  restores : RsRestores P
  sizes : RsSizes P
  digest : Blake3Len P

/-- Equal envelopes vote alike. -/
theorem DayBlob.key_eq {t t' blob blob' : Bytes} {shards shards' : List Bytes}
    (h : DayBlob P key me version t blob shards) (hB : Backends P) (hv : version < 2 ^ 64)
    (h' : DayBlob P key me version t' blob' shards') {i : ℕ} {shard shard' : Bytes}
    (hi : shards[i]? = some shard) (hi' : shards'[i]? = some shard')
    (heq : envelope P version blob shard i = envelope P version blob' shard' i) :
    blobKey P blob = blobKey P blob' := by
  have hdec := (h.decode hB.digest hB.tags hB.restores hB.sizes hv hi).1
  rw [heq, (h'.decode hB.digest hB.tags hB.restores hB.sizes hv hi').1] at hdec
  simp only [Except.ok.injEq, ManifestBackupShard.mk.injEq] at hdec
  obtain ⟨-, -, hlen, hhash, -⟩ := hdec
  rw [blobKey, blobKey, hlen, hhash]

/-- The shards a restore works with: one per index, each decoded from a copy some peer holds, and
one for every index that has a copy when all of them decode. -/
structure Replies (P : Prims K) (key : K) (me : Text) (version : ℕ) (snapshots : List Bytes)
    (held : Holdings) (addrs : List Text) (found : List (ℕ × Text)) (l : List ManifestBackupShard) :
    Prop where
  nodup : (l.map (·.shardIndex)).Nodup
  origin : ∀ s ∈ l, s.shardIndex < TOTAL_SHARDS ∧ ∃ a ∈ addrs, (s.shardIndex, a) ∈ found ∧
    ∃ t ∈ snapshots, ∃ blob shards, DayBlob P key me version t blob shards ∧
      Fits (blobKey P blob) (shardLen blob.length) s ∧ shards[s.shardIndex]? = some s.data ∧
      held a (manifestBackupFragmentId P me version s.shardIndex) =
        some (envelope P version blob s.data s.shardIndex)
  covers : ∀ i < TOTAL_SHARDS, (∀ a ∈ addrs, Decodes P me version held a i) → ∀ a ∈ addrs,
    (held a (manifestBackupFragmentId P me version i)).isSome → ∃ s ∈ l, s.shardIndex = i

theorem map_filterMap_sublist {α β γ : Type} {f : α → Option β} {g : β → γ} {h : α → γ}
    {l : List α} (hf : ∀ x ∈ l, ∀ y, f x = some y → g y = h x) :
    ((l.filterMap f).map g).Sublist (l.map h) := by
  induction l with
  | nil => exact List.Sublist.slnil
  | cons x l ih =>
    have hl := ih fun z hz => hf z (List.mem_cons_of_mem _ hz)
    rw [List.filterMap_cons, List.map_cons]
    cases hx : f x with
    | none => exact hl.cons _
    | some y =>
      simp only [List.map_cons]
      rw [hf x (List.mem_cons_self ..) y hx]
      exact hl.cons_cons _

theorem mem_probes {held : Holdings} {addrs : List Text} {x : ℕ × Text × Bool} :
    x ∈ probes P me version held addrs ↔ x.1 < TOTAL_SHARDS ∧ x.2.1 ∈ addrs ∧
      x.2.2 = (held x.2.1 (manifestBackupFragmentId P me version x.1)).isSome := by
  simp only [probes, List.mem_flatMap, List.mem_range, List.mem_map]
  constructor
  · rintro ⟨i, hi, a, ha, rfl⟩
    exact ⟨hi, ha, rfl⟩
  · rintro ⟨hi, ha, hb⟩
    exact ⟨x.1, hi, x.2.1, ha, by rw [← hb]⟩

/-- A peer that was found holds the shard. -/
theorem found_held {held : Holdings} {addrs : List Text} {answers : List (ℕ × Text × Bool)}
    (hp : answers.Perm (probes P me version held addrs)) {i : ℕ} {a : Text}
    (h : (i, a) ∈ probeVersion answers) : i < TOTAL_SHARDS ∧ a ∈ addrs ∧
      ∃ b, held a (manifestBackupFragmentId P me version i) = some b := by
  obtain ⟨hi, hfind⟩ := mem_probeVersion.mp h
  obtain ⟨-, ha, hyes⟩ := mem_probes.mp (hp.subset (List.mem_of_find?_eq_some hfind))
  exact ⟨hi, ha, Option.isSome_iff_exists.mp hyes.symm⟩

variable {snapshots : List Bytes} {held : Holdings} {addrs : List Text}

theorem decodeReply_stocked (hB : Backends P) (hv : version < 2 ^ 64)
    (hs : Stocked P key me version snapshots held) {i : ℕ} {a : Text} (hi : i < TOTAL_SHARDS)
    {b : Bytes} (hb : held a (manifestBackupFragmentId P me version i) = some b)
    {s : ManifestBackupShard}
    (hreply : decodeReply version (held a (manifestBackupFragmentId P me version i)) = some s) :
    ∃ t ∈ snapshots, ∃ blob shards shard, DayBlob P key me version t blob shards ∧
      shards[i]? = some shard ∧ b = envelope P version blob shard i ∧
      shard.length = shardLen blob.length ∧ s = ⟨version, i, blob.length, blobHash P blob, shard⟩ := by
  obtain ⟨t, ht, blob, shards, shard, hday, hget, n, rfl⟩ := hs a i hi b hb
  obtain ⟨hdec, hlen, -⟩ := hday.decode hB.digest hB.tags hB.restores hB.sizes hv hget
  rw [hb, decodeReply, Option.bind_some] at hreply
  by_cases hn : n < (envelope P version blob shard i).length
  · -- a part of an envelope is no reply
    split at hreply
    · next s' hpart => exact absurd hpart (decode_take hdec hn)
    · cases hreply
  · rw [List.take_of_length_le (Nat.not_lt.mp hn), hdec] at hreply
    simp only [if_true, Option.some.injEq] at hreply
    exact ⟨t, ht, blob, shards, shard, hday, hget, List.take_of_length_le (Nat.not_lt.mp hn), hlen, hreply.symm⟩

/-- The whole envelope decodes. -/
theorem DayBlob.decodeReply (hB : Backends P) (hv : version < 2 ^ 64) {t blob : Bytes} {shards : List Bytes}
    (h : DayBlob P key me version t blob shards) {i : ℕ} {shard : Bytes} (hi : shards[i]? = some shard) :
    (Restoring.decodeReply version (some (envelope P version blob shard i))).isSome := by
  have hdec := (h.decode hB.digest hB.tags hB.restores hB.sizes hv hi).1
  rw [Restoring.decodeReply, Option.bind_some, hdec]
  simp

theorem replies_spec (hB : Backends P) (hv : version < 2 ^ 64)
    (hs : Stocked P key me version snapshots held) {answers : List (ℕ × Text × Bool)}
    (hp : answers.Perm (probes P me version held addrs)) {replies : List (Option Bytes)}
    (hrep : replies.Perm ((probeVersion answers).map fun x =>
      held x.2 (manifestBackupFragmentId P me version x.1))) :
    Replies P key me version snapshots held addrs (probeVersion answers)
      (replies.filterMap (decodeReply version)) := by
  have hperm : (replies.filterMap (decodeReply version)).Perm ((probeVersion answers).filterMap
      fun x => decodeReply version (held x.2 (manifestBackupFragmentId P me version x.1))) := by
    have h := hrep.filterMap (decodeReply version)
    rwa [List.filterMap_map] at h
  have hmem : ∀ s, s ∈ replies.filterMap (decodeReply version) ↔ ∃ x ∈ probeVersion answers,
      decodeReply version (held x.2 (manifestBackupFragmentId P me version x.1)) = some s := by
    intro s
    rw [hperm.mem_iff, List.mem_filterMap]
  refine ⟨?_, ?_, ?_⟩
  · refine (hperm.map _).nodup_iff.mpr ?_
    refine (probeVersion_nodup answers).sublist (map_filterMap_sublist ?_)
    rintro ⟨i, a⟩ hx s hdec
    obtain ⟨hi, -, b, hb⟩ := found_held hp hx
    obtain ⟨t, ht, blob, shards, shard, -, -, -, -, rfl⟩ := decodeReply_stocked hB hv hs hi hb hdec
    rfl
  · intro s hmem'
    obtain ⟨⟨i, a⟩, hx, hdec⟩ := (hmem s).mp hmem'
    obtain ⟨hi, ha, b, hb⟩ := found_held hp hx
    obtain ⟨t, ht, blob, shards, shard, hday, hget, rfl, hlen, rfl⟩ :=
      decodeReply_stocked hB hv hs hi hb hdec
    exact ⟨hi, a, ha, hx, t, ht, blob, shards, hday, ⟨rfl, hi, hlen⟩, hget, hb⟩
  · intro i hi hwhole a ha hsome
    have hyes : (i, a, true) ∈ answers :=
      hp.symm.subset (mem_probes.mpr ⟨hi, ha, hsome.symm⟩)
    have hany : (answers.find? (saysYes i)).isSome :=
      List.find?_isSome.mpr ⟨_, hyes, saysYes_iff.mpr ⟨rfl, rfl⟩⟩
    obtain ⟨x, hfind⟩ := Option.isSome_iff_exists.mp hany
    obtain ⟨h1, h2⟩ := saysYes_iff.mp (List.find?_some hfind)
    have hx : (i, x.2.1) ∈ probeVersion answers := by
      refine mem_probeVersion.mpr ⟨hi, hfind.trans ?_⟩
      rw [← h1, ← h2]
    obtain ⟨-, hknown, b, hb⟩ := found_held hp hx
    obtain ⟨s, hreply⟩ := Option.isSome_iff_exists.mp (hwhole _ hknown b hb)
    rw [← hb] at hreply
    obtain ⟨t, ht, blob, shards, shard, -, -, -, -, rfl⟩ := decodeReply_stocked hB hv hs hi hb hreply
    exact ⟨_, (hmem _).mpr ⟨_, hx, hreply⟩, rfl⟩

/-! ### The vote -/

/-- The envelopes of a day's blob. -/
def envelopes (P : Prims K) (version : ℕ) (blob : Bytes) (shards : List Bytes) : List Bytes :=
  shards.zipIdx.map fun x => envelope P version blob x.1 x.2

theorem envelopes_getElem? {blob : Bytes} {shards : List Bytes} {i : ℕ} {shard : Bytes}
    (h : shards[i]? = some shard) :
    (envelopes P version blob shards)[i]? = some (envelope P version blob shard i) := by
  rw [envelopes, List.getElem?_map, List.getElem?_zipIdx, h]
  simp

section
variable {found : List (ℕ × Text)} {l : List ManifestBackupShard} {t blob : Bytes}
  {shards : List Bytes}

theorem BlobsApart.same (h : BlobsApart P key me version snapshots) (ht : t ∈ snapshots)
    (hday : DayBlob P key me version t blob shards) {t' blob' : Bytes} {shards' : List Bytes}
    (ht' : t' ∈ snapshots) (hday' : DayBlob P key me version t' blob' shards')
    (hkey : blobKey P blob' = blobKey P blob) : blob' = blob ∧ shards' = shards := by
  obtain rfl := h t' ht' t ht blob' blob hday'.sealed hday.sealed hkey
  have hcoded := hday'.coded.symm.trans hday.coded
  cases hcoded
  exact ⟨rfl, rfl⟩

/-- A shard that votes for a blob of the day is one of its shards. -/
theorem Replies.genuine (h : Replies P key me version snapshots held addrs found l)
    (hapart : BlobsApart P key me version snapshots) (ht : t ∈ snapshots)
    (hday : DayBlob P key me version t blob shards) {s : ManifestBackupShard} (hs : s ∈ l)
    (hkey : s.key = blobKey P blob) : Fits (blobKey P blob) (shardLen blob.length) s ∧
      shards[s.shardIndex]? = some s.data := by
  obtain ⟨-, a, -, -, t', ht', blob', shards', hday', hfits, hget, -⟩ := h.origin s hs
  obtain ⟨rfl, rfl⟩ := hapart.same ht hday ht' hday' (hfits.1.symm.trans hkey)
  exact ⟨hfits, hget⟩

theorem Replies.length_le (h : Replies P key me version snapshots held addrs found l) :
    l.length ≤ TOTAL_SHARDS := by
  have hle : (l.map (·.shardIndex)).length ≤ (List.range TOTAL_SHARDS).length := by
    apply List.Subperm.length_le
    apply List.subperm_of_subset h.nodup
    intro i hi
    obtain ⟨s, hs, rfl⟩ := List.mem_map.mp hi
    exact List.mem_range.mpr (h.origin s hs).1
  rwa [List.length_map, List.length_range] at hle

/-- The outcome once the vote is on a blob of the day. -/
theorem fetchAndOpen_elected (hB : Backends P) (hv : version < 2 ^ 64)
    (hapart : BlobsApart P key me version snapshots) (ht : t ∈ snapshots)
    (hday : DayBlob P key me version t blob shards) {replies : List (Option Bytes)}
    (h : Replies P key me version snapshots held addrs found (replies.filterMap (decodeReply version)))
    (hten : DATA_SHARDS ≤ (replies.filterMap (decodeReply version)).length) {n : ℕ}
    (he : elect (tally ((replies.filterMap (decodeReply version)).map (·.key))) =
      some (blobKey P blob, n)) :
    fetchAndOpen P key me version replies =
      .ok (if (replies.filterMap (decodeReply version)).countP (·.key = blobKey P blob) < DATA_SHARDS
        then none else some (t, (replies.filterMap (decodeReply version)).length)) := by
  have hre := reassemble_uniform hB.restores hday.coded hten h.nodup
    (fun s hs hk => h.genuine hapart ht hday hs hk) he
  have hlen := (sealManifestSnapshot_length hB.tags hday.sealed).1
  have hblob := le_mul_shardLen blob.length
  have hsmall := hday.small
  simp only [DATA_SHARDS] at hblob
  have hopen := openManifestSnapshot_seal hB.opens hv (by omega) hday.sealed
  rw [fetchAndOpen]
  simp only [Nat.not_lt.mpr hten, if_false]
  rw [hre]
  by_cases hfew : (replies.filterMap (decodeReply version)).countP (·.key = blobKey P blob) < DATA_SHARDS
  · rw [if_pos hfew, if_pos hfew]
    rfl
  · rw [if_neg hfew, if_neg hfew]
    simp only [hopen]

/-- The restore, when the vote is won: the snapshot. -/
theorem fetchAndOpen_most (hB : Backends P) (hv : version < 2 ^ 64)
    (hapart : BlobsApart P key me version snapshots) (ht : t ∈ snapshots)
    (hday : DayBlob P key me version t blob shards) {replies : List (Option Bytes)}
    (h : Replies P key me version snapshots held addrs found (replies.filterMap (decodeReply version)))
    (hten : DATA_SHARDS ≤ (replies.filterMap (decodeReply version)).countP (·.key = blobKey P blob)) :
    fetchAndOpen P key me version replies =
      .ok (some (t, (replies.filterMap (decodeReply version)).length)) := by
  have hlong : DATA_SHARDS ≤ (replies.filterMap (decodeReply version)).length :=
    le_trans hten List.countP_le_length
  have hfew := h.length_le
  generalize hl : replies.filterMap (decodeReply version) = l at *
  have hvotes : ∀ k, (l.map (·.key)).countP (· = k) = l.countP (·.key = k) := by
    intro k
    rw [List.countP_map]
    rfl
  have helect : ∃ n, elect (tally (l.map (·.key))) = some (blobKey P blob, n) := by
    apply elect_tally
    · have hpos : 0 < l.countP (·.key = blobKey P blob) := Nat.lt_of_lt_of_le (by decide) hten
      obtain ⟨s, hs, hkey⟩ := List.countP_pos_iff.mp hpos
      exact List.mem_map.mpr ⟨s, hs, by simpa using hkey⟩
    · intro k hk
      rw [hvotes, hvotes]
      -- the votes for the blob and for another key are at most fourteen together
      have hsplit := List.length_eq_countP_add_countP (fun s => decide (s.key = blobKey P blob)) (l := l)
      have hother : l.countP (·.key = k) ≤
          l.countP (fun s => decide ¬ decide (s.key = blobKey P blob) = true) := by
        apply List.countP_mono_left
        intro s _ hs
        have hsk : s.key = k := by simpa using hs
        simp [hsk, hk]
      have h14 : TOTAL_SHARDS = 14 := rfl
      have h10 : DATA_SHARDS = 10 := rfl
      omega
  obtain ⟨n, hn⟩ := helect
  subst hl
  rw [fetchAndOpen_elected hB hv hapart ht hday h hlong hn, if_neg (Nat.not_lt.mpr hten)]

theorem clean_iff {es : List Bytes} {i : ℕ} : clean P me version held addrs es i = true ↔
    (∃ a ∈ addrs, (held a (manifestBackupFragmentId P me version i)).isSome) ∧
      ∀ a ∈ addrs, ∀ b, held a (manifestBackupFragmentId P me version i) = some b → es[i]? = some b := by
  rw [clean, Bool.and_eq_true, List.any_eq_true, List.all_eq_true]
  refine and_congr Iff.rfl (forall₂_congr fun a _ => ?_)
  cases held a (manifestBackupFragmentId P me version i) with
  | none => simp
  | some b =>
    simp only [Option.isNone_some, Bool.false_or, decide_eq_true_eq, Option.some.injEq, forall_eq']
    exact eq_comm

/-- A shard of a clean index votes for the blob. -/
theorem Replies.clean_key (hB : Backends P) (hv : version < 2 ^ 64)
    (h : Replies P key me version snapshots held addrs found l)
    (hday : DayBlob P key me version t blob shards) {s : ManifestBackupShard} (hs : s ∈ l)
    (hc : clean P me version held addrs (envelopes P version blob shards) s.shardIndex = true) :
    s.key = blobKey P blob := by
  obtain ⟨hi, a, ha, -, t', -, blob', shards', hday', hfits, hget', hheld⟩ := h.origin s hs
  have henv := (clean_iff.mp hc).2 a ha _ hheld
  have hlt : s.shardIndex < shards.length := by
    rw [(encode_shards hB.restores hB.sizes hday.coded).1]
    exact hi
  have hget : shards[s.shardIndex]? = some shards[s.shardIndex] := List.getElem?_eq_getElem hlt
  rw [envelopes_getElem? hget] at henv
  rw [hfits.1]
  exact hday'.key_eq hB hv hday hget' hget (Option.some.inj henv).symm

theorem restores_of_clean (hB : Backends P) (hv : version < 2 ^ 64)
    (hs : Stocked P key me version snapshots held) (hapart : BlobsApart P key me version snapshots)
    (ht : t ∈ snapshots) (hday : DayBlob P key me version t blob shards)
    (hten : DATA_SHARDS ≤ (List.range TOTAL_SHARDS).countP
      (clean P me version held addrs (envelopes P version blob shards))) :
    Restores P key me version held addrs t := by
  intro answers hp replies hrep
  have h := replies_spec hB hv hs hp hrep
  refine ⟨_, fetchAndOpen_most hB hv hapart ht hday h (le_trans hten ?_)⟩
  rw [List.countP_eq_length_filter, List.countP_eq_length_filter,
    ← List.length_map ManifestBackupShard.shardIndex]
  apply List.Subperm.length_le
  apply List.subperm_of_subset (List.nodup_range.filter _)
  intro i hi
  obtain ⟨hi, hc⟩ := List.mem_filter.mp hi
  obtain ⟨⟨a, ha, hsome⟩, hall⟩ := clean_iff.mp hc
  have hwhole : ∀ a ∈ addrs, Decodes P me version held a i := by
    intro a ha b hb
    have hlt : i < shards.length := by
      rw [(encode_shards hB.restores hB.sizes hday.coded).1]
      exact List.mem_range.mp hi
    have henv := hall a ha b hb
    rw [envelopes_getElem? (List.getElem?_eq_getElem hlt)] at henv
    rw [← Option.some.inj henv]
    exact hday.decodeReply hB hv (List.getElem?_eq_getElem hlt)
  obtain ⟨s, hsl, rfl⟩ := h.covers i (List.mem_range.mp hi) hwhole a ha hsome
  have hkey := h.clean_key hB hv hday hsl hc
  exact List.mem_map_of_mem (List.mem_filter.mpr ⟨hsl, decide_eq_true hkey⟩)

/-- A peer that holds a shard of the index that is not the envelope given. -/
def stale (P : Prims K) (me : Text) (version : ℕ) (held : Holdings) (es : List Bytes)
    (x : ℕ × Text × Bool) : Bool :=
  x.2.2 && held x.2.1 (manifestBackupFragmentId P me version x.1) ≠ es[x.1]?

end

end

end P2pnas.Node.Restoring
