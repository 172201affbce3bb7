import P2pnas.Core.Mds
import P2pnas.Core.Sample
import P2pnas.Store.Restore

/-!
# One hostile shard among the genuine ones (`backup.rs:508-593`)

Eleven or more genuine shards with distinct indices outvote any other geometry, and with ten of
them left the leave-one-out loop ends with the blob. What a single shard can still do is come
first, vote with the others and carry another length: the slots then take its length.
-/

namespace P2pnas.Store.Hostile
open P2pnas.Lib.Frames P2pnas.Lib.Strings P2pnas.Lib.Tally P2pnas.Core P2pnas.Core.Base P2pnas.Core.Erasure
open P2pnas.Store.Session P2pnas.Store.Backup P2pnas.Store.Restore

section
variable {K : Type} {P : Prims K}

variable (P) in
/-- Nothing the erasure code makes of these shards has the blob's hash but the blob. -/
def Unconfused (blob : Bytes) (l : List ManifestBackupShard) : Prop :=
  ∀ present b, (∀ i c, slot present i = some c → ∃ s ∈ l, s.data = c) →
    reconstruct P present blob.length = .ok b → blobHash P b = blobHash P blob → b = blob

/-! ### The attempts -/

/-- An attempt ends, and what it finds has the hash. -/
theorem tryRebuild_cases (hz : RsSizes P) {present : List (Option Bytes)}
    (hlen : present.length = TOTAL_SHARDS) (n : ℕ) (hash : Bytes) :
    tryRebuild P present n hash = .ok none ∨ ∃ b, tryRebuild P present n hash = .ok (some b) ∧
      reconstruct P present n = .ok b ∧ blobHash P b = hash := by
  have hpanic := reconstruct_not_panic P hz hlen n
  rw [tryRebuild]
  cases hrec : reconstruct P present n with
  | ok b =>
    by_cases hh : blobHash P b = hash
    · exact .inr ⟨b, by simp [hh], rfl, hh⟩
    · exact .inl (by simp [hh])
  | error e =>
    cases e with
    | err e => exact .inl rfl
    | panic => exact absurd hrec hpanic

/-- Every attempt gives the blob or nothing, and one of them the blob: the loop gives it. -/
theorem rebuildWithout_ok {present : List (Option Bytes)} {n : ℕ} {hash blob : Bytes} {is : List ℕ}
    (hall : ∀ i ∈ is, tryRebuild P (present.set i none) n hash = .ok none ∨
      tryRebuild P (present.set i none) n hash = .ok (some blob))
    (hone : ∃ i ∈ is, (slot present i).isSome ∧
      tryRebuild P (present.set i none) n hash = .ok (some blob)) :
    rebuildWithout P present n hash is = .ok (some blob) := by
  induction is with
  | nil =>
    obtain ⟨i, hi, -⟩ := hone
    cases hi
  | cons j is ih =>
    have htail := fun hone' => ih (fun i hi => hall i (List.mem_cons_of_mem _ hi)) hone'
    have hrest : (slot present j).isSome = false ∨
        tryRebuild P (present.set j none) n hash = .ok none →
        ∃ i ∈ is, (slot present i).isSome ∧
          tryRebuild P (present.set i none) n hash = .ok (some blob) := by
      intro hj
      obtain ⟨i, hi, hs, ht⟩ := hone
      rcases List.mem_cons.mp hi with rfl | hi
      · rcases hj with hj | hj
        · rw [hj] at hs
          cases hs
        · rw [hj] at ht
          cases ht
      · exact ⟨i, hi, hs, ht⟩
    rw [rebuildWithout]
    split
    · next hnone =>
      refine htail (hrest (.inl ?_))
      rw [Option.isNone_iff_eq_none.mp hnone]
      rfl
    · rcases hall j (List.mem_cons_self ..) with hj | hj
      · rw [hj, ok_bind]
        exact htail (hrest (.inr hj))
      · rw [hj, ok_bind]
        rfl

/-! ### The vote -/

section
variable {blob : Bytes} {pre post : List ManifestBackupShard} {h : Option ManifestBackupShard}

theorem elect_blobKey (hgen : ∀ s ∈ pre ++ post, s.key = blobKey P blob)
    (hmany : DATA_SHARDS + 1 ≤ (pre ++ post).length) :
    ∃ n, elect (tally ((pre ++ h.toList ++ post).map (·.key))) = some (blobKey P blob, n) := by
  have hrep : (pre ++ post).map (·.key) = List.replicate (pre ++ post).length (blobKey P blob) := by
    rw [List.eq_replicate_iff]
    refine ⟨List.length_map .., ?_⟩
    intro k hk
    obtain ⟨s, hs, rfl⟩ := List.mem_map.mp hk
    exact hgen s hs
  have hcount : ∀ k, ((pre ++ h.toList ++ post).map (·.key)).countP (· = k) =
      ((pre ++ post).map (·.key)).countP (· = k) + (h.toList.map (·.key)).countP (· = k) := by
    intro k
    simp only [List.map_append, List.countP_append]
    omega
  have hone : ∀ k, (h.toList.map (·.key)).countP (· = k) ≤ 1 := by
    intro k
    refine le_trans List.countP_le_length ?_
    cases h <;> simp
  have hten : DATA_SHARDS = 10 := rfl
  apply elect_tally
  · cases hl : pre ++ post with
    | nil =>
      rw [hl, List.length_nil] at hmany
      omega
    | cons s rest =>
      have hs : s ∈ pre ++ post := by
        rw [hl]
        exact List.mem_cons_self ..
      refine List.mem_map.mpr ⟨s, ?_, hgen s hs⟩
      rcases List.mem_append.mp hs with hs | hs
      · exact List.mem_append_left _ (List.mem_append_left _ hs)
      · exact List.mem_append_right _ hs
  · intro k hk
    have hk' : ¬ blobKey P blob = k := fun e => hk e.symm
    have hvotes := hone k
    rw [hcount, hcount, hrep, List.countP_replicate, List.countP_replicate]
    simp only [hk', decide_false, decide_true, if_true, Bool.false_eq_true, if_false]
    omega

/-! ### The slots -/

/-- The first shard of the list votes with the genuine ones and has a length of its own. -/
def Blocks (P : Prims K) (blob : Bytes) (pre : List ManifestBackupShard)
    (h : Option ManifestBackupShard) : Prop :=
  pre = [] ∧ ∃ s ∈ h, s.key = blobKey P blob ∧ s.data.length ≠ 0 ∧
    s.data.length ≠ shardLen blob.length

theorem filled_of_not_blocks
    (hgen : ∀ s ∈ pre ++ post, Fits (blobKey P blob) (shardLen blob.length) s)
    (hno : ¬ Blocks P blob pre h) :
    Filled (blobKey P blob) (shardLen blob.length) (pre ++ h.toList ++ post)
      (fillSlots (blobKey P blob) (pre ++ h.toList ++ post)) := by
  have hpos := shardLen_pos blob.length
  have hpre : Filled (blobKey P blob) (shardLen blob.length) pre
      (pre.foldl (fillSlot (blobKey P blob)) .empty) :=
    (filled_nil (blobKey P blob) (shardLen blob.length)).append hpos
      fun s hs _ => (hgen s (List.mem_append_left _ hs)).2.2
  have hmid : Filled (blobKey P blob) (shardLen blob.length) (pre ++ h.toList)
      (h.toList.foldl (fillSlot (blobKey P blob)) (pre.foldl (fillSlot (blobKey P blob)) .empty)) := by
    cases h with
    | none => simpa using hpre
    | some x =>
      refine hpre.snoc hpos ?_
      intro hk _
      by_cases h0 : x.data.length = 0
      · exact .inl h0
      · by_cases hl : x.data.length = shardLen blob.length
        · exact .inr (.inl hl)
        · -- the shard is not the first: a genuine one has set the length
          cases pre with
          | nil => exact absurd ⟨rfl, x, rfl, hk, h0, hl⟩ hno
          | cons g rest =>
            exact .inr (.inr ⟨g, List.mem_cons_self .., hgen g (List.mem_cons_self ..)⟩)
  rw [fillSlots, List.foldl_append, List.foldl_append]
  exact hmid.append hpos fun s hs _ => (hgen s (List.mem_append_right _ hs)).2.2

/-- Behind a first shard of another length no genuine one gets a slot. -/
theorem fillSlots_blocked {x : ManifestBackupShard} (hx : x.key = blobKey P blob)
    (hi : x.shardIndex < TOTAL_SHARDS) (h0 : x.data.length ≠ 0)
    (hl : x.data.length ≠ shardLen blob.length)
    (hgen : ∀ s ∈ post, Fits (blobKey P blob) (shardLen blob.length) s) :
    (fillSlots (blobKey P blob) (x :: post)).kept ≤ 1 := by
  have hfirst : fillSlot (blobKey P blob) .empty x =
      ⟨Slots.empty.present.set x.shardIndex (some x.data), x.data.length, 1⟩ := by
    have hempty := slot_empty x.shardIndex
    simp only [fillSlot, hx, Slots.empty] at hempty ⊢
    simp [hempty, Nat.not_le.mpr hi]
  have hkeep : ∀ (xs : List ManifestBackupShard) (st : Slots), st.shardLen = x.data.length →
      (∀ s ∈ xs, Fits (blobKey P blob) (shardLen blob.length) s) →
      xs.foldl (fillSlot (blobKey P blob)) st = st := by
    intro xs
    induction xs with
    | nil => intro st _ _; rfl
    | cons y ys ih =>
      intro st hst hys
      obtain ⟨hk, hidx, hlen⟩ := hys y (List.mem_cons_self ..)
      have hne : ¬ y.data.length = x.data.length := by
        rw [hlen]
        exact fun e => hl e.symm
      have hstep : fillSlot (blobKey P blob) st y = st := by
        unfold fillSlot
        rw [if_neg (by rw [not_or, not_not]; exact ⟨Nat.not_le.mpr hidx, hk⟩)]
        simp only [hst, h0, if_false, ne_eq, hne, not_false_eq_true, true_or, if_true]
        rw [← hst]
      rw [List.foldl_cons, hstep]
      exact ih st hst fun s hs => hys s (List.mem_cons_of_mem _ hs)
  rw [fillSlots, List.foldl_cons, hfirst, hkeep post _ rfl hgen]

/-! ### The blob comes back -/

section
variable {shards : List Bytes} {st : Slots}

theorem slot_without {present : List (Option Bytes)} {i j : ℕ} {c : Bytes}
    (hc : slot (present.set i none) j = some c) : slot present j = some c ∧ j ≠ i := by
  rw [slot_set] at hc
  split at hc
  · cases hc
  · next hno =>
    refine ⟨hc, ?_⟩
    rintro rfl
    refine hno ⟨rfl, ?_⟩
    by_contra hge
    rw [slot, List.getElem?_eq_none (by omega)] at hc
    cases hc

/-- Slots that do not hold the hostile shard are genuine. -/
theorem held_of_filled {present : List (Option Bytes)} (hlen : present.length = TOTAL_SHARDS)
    (hgen : ∀ s ∈ pre ++ post, shards[s.shardIndex]? = some s.data)
    (hst : Filled (blobKey P blob) (shardLen blob.length) (pre ++ h.toList ++ post) st)
    (hsub : ∀ i c, slot present i = some c → slot st.present i = some c)
    (hno : ∀ x ∈ h, slot present x.shardIndex = none) : Held shards present := by
  refine ⟨hlen, fun i c hc => ?_⟩
  obtain ⟨s, hs, -, rfl, rfl⟩ := hst.source i c (hsub i c hc)
  rcases List.mem_append.mp hs with hs | hs
  · rcases List.mem_append.mp hs with hs | hs
    · exact hgen s (List.mem_append_left _ hs)
    · have hx := hno s (Option.mem_toList.mp hs)
      rw [hc] at hx
      cases hx
  · exact hgen s (List.mem_append_right _ hs)

/-- Of eleven taken slots ten are left without any one of them. -/
theorem taken_without (hslots : st.present.length = TOTAL_SHARDS) {indices : List ℕ}
    (hdistinct : indices.Nodup) (htaken : ∀ i ∈ indices, (slot st.present i).isSome)
    (hmany : DATA_SHARDS + 1 ≤ indices.length) (i : ℕ) :
    DATA_SHARDS ≤ (st.present.set i none).countP Option.isSome := by
  have hle : (indices.erase i).length ≤ (st.present.set i none).countP Option.isSome := by
    apply length_le_countP (by rw [List.length_set]; exact hslots) (hdistinct.erase _)
    intro j hj
    obtain ⟨hne, hj⟩ := (List.Nodup.mem_erase_iff hdistinct).mp hj
    rw [slot_set, if_neg fun e => hne e.1.symm]
    exact htaken j hj
  have herase := List.le_length_erase (a := i) (l := indices)
  omega

/-- Slots with eleven genuine shards, and possibly one that is not, give the blob. -/
theorem rebuildFrom_ok (hr : RsRestores P) (hz : RsSizes P) (henc : encode P blob = .ok shards)
    (hgen : ∀ s ∈ pre ++ post, Fits (blobKey P blob) (shardLen blob.length) s ∧
      shards[s.shardIndex]? = some s.data)
    (hdistinct : ((pre ++ post).map (·.shardIndex)).Nodup)
    (hmany : DATA_SHARDS + 1 ≤ (pre ++ post).length)
    (hbind : Unconfused P blob (pre ++ h.toList ++ post))
    (hst : Filled (blobKey P blob) (shardLen blob.length) (pre ++ h.toList ++ post) st) :
    DATA_SHARDS < st.kept ∧ rebuildFrom P st blob.length (blobHash P blob) = .ok blob := by
  have hmem : ∀ s ∈ pre ++ post, s ∈ pre ++ h.toList ++ post := by
    intro s hs
    rcases List.mem_append.mp hs with hs | hs
    · exact List.mem_append_left _ (List.mem_append_left _ hs)
    · exact List.mem_append_right _ hs
  have htaken : ∀ i ∈ (pre ++ post).map (·.shardIndex), (slot st.present i).isSome := by
    intro i hi
    obtain ⟨s, hs, rfl⟩ := List.mem_map.mp hi
    exact hst.taken s (hmem s hs) (hgen s hs).1
  have hkept : DATA_SHARDS < st.kept := by
    have hle := length_le_countP hst.slots hdistinct htaken
    rw [List.length_map] at hle
    rw [hst.kept]
    omega
  refine ⟨hkept, ?_⟩
  -- whatever an attempt finds is the blob
  have hblob : ∀ present b, present.length = TOTAL_SHARDS →
      (∀ i c, slot present i = some c → slot st.present i = some c) →
      reconstruct P present blob.length = .ok b → blobHash P b = blobHash P blob → b = blob := by
    intro present b _ hsub hrec hhash
    refine hbind present b ?_ hrec hhash
    intro i c hc
    obtain ⟨s, hs, -, -, hdata⟩ := hst.source i c (hsub i c hc)
    exact ⟨s, hs, hdata⟩
  unfold rebuildFrom
  rcases tryRebuild_cases hz hst.slots blob.length (blobHash P blob) with hnone | ⟨b, hb, hrec, hhash⟩
  · rw [hnone, ok_bind]
    -- the slots hold a shard that is not genuine: the hostile one
    have hbad : ∃ x ∈ h, (slot st.present x.shardIndex).isSome := by
      by_contra hno
      push Not at hno
      have hheld := held_of_filled hst.slots (fun s hs => (hgen s hs).2) hst (fun _ _ hc => hc)
        fun x hx => Option.not_isSome_iff_eq_none.mp (hno x hx)
      have hok := tryRebuild_held hr henc hheld (by rw [← hst.kept]; omega)
      rw [hok] at hnone
      cases hnone
    obtain ⟨x, hx, hxslot⟩ := hbad
    have hlen : ∀ i, (st.present.set i none).length = TOTAL_SHARDS := by
      intro i
      rw [List.length_set]
      exact hst.slots
    have hheld : Held shards (st.present.set x.shardIndex none) := by
      refine held_of_filled (hlen _) (fun s hs => (hgen s hs).2) hst (fun _ _ hc => (slot_without hc).1) ?_
      intro y hy
      cases hs : slot (st.present.set x.shardIndex none) y.shardIndex with
      | none => rfl
      | some c => exact absurd (by rw [Option.some.inj (hy.symm.trans hx)]) (slot_without hs).2
    have hten : DATA_SHARDS ≤ (st.present.set x.shardIndex none).countP Option.isSome :=
      taken_without hst.slots hdistinct htaken (by rw [List.length_map]; exact hmany) x.shardIndex
    have hretry : rebuildSpare P st blob.length (blobHash P blob) = .ok (some blob) := by
      rw [rebuildSpare, if_pos hkept]
      apply rebuildWithout_ok
      · intro i _
        rcases tryRebuild_cases hz (hlen i) blob.length (blobHash P blob) with hi | ⟨b, hi, hrec, hhash⟩
        · exact .inl hi
        · rw [hblob _ b (hlen i) (fun _ _ hc => (slot_without hc).1) hrec hhash] at hi
          exact .inr hi
      · refine ⟨x.shardIndex, ?_, hxslot, tryRebuild_held hr henc hheld hten⟩
        rw [List.mem_range]
        by_contra hge
        rw [slot, List.getElem?_eq_none (by omega)] at hxslot
        cases hxslot
    simp only [hretry, ok_bind, orFail_some]
  · rw [hb, ok_bind, hblob _ b hst.slots (fun _ _ hc => hc) hrec hhash]
    rfl

end

section
variable {version : UInt64} {envelopes : List Bytes}

theorem genuine_fits (hr : RsRestores P) (hz : RsSizes P) (hb : Blake3Len P)
    (henc : encodeManifestBackupShards P version.toNat blob = .ok envelopes)
    (hlen : shardLen blob.length < 2 ^ 32) : ∃ shards, encode P blob = .ok shards ∧
      ∀ s, Genuine envelopes s → Fits (blobKey P blob) (shardLen blob.length) s ∧
        shards[s.shardIndex]? = some s.data := by
  obtain ⟨shards, hshards, rfl⟩ := encodeManifestBackupShards_eq_ok henc
  exact ⟨shards, hshards, fun s hs => (hs.spec hr hz hb version.toNat_lt hlen hshards).2⟩

theorem reassemble_restored (hr : RsRestores P) (hz : RsSizes P) (hb : Blake3Len P)
    (henc : encodeManifestBackupShards P version.toNat blob = .ok envelopes)
    (hlen : shardLen blob.length < 2 ^ 32) (hgen : ∀ s ∈ pre ++ post, Genuine envelopes s)
    (hdistinct : ((pre ++ post).map (·.shardIndex)).Nodup)
    (hmany : DATA_SHARDS + 1 ≤ (pre ++ post).length)
    (hbind : Unconfused P blob (pre ++ h.toList ++ post)) (hno : ¬ Blocks P blob pre h) :
    reassembleManifestBackup P (pre ++ h.toList ++ post) = .ok blob := by
  obtain ⟨shards, hshards, hfits⟩ := genuine_fits hr hz hb henc hlen
  have hspec := fun s hs => hfits s (hgen s hs)
  have hlong : DATA_SHARDS ≤ (pre ++ h.toList ++ post).length := by
    simp only [List.length_append] at hmany ⊢
    omega
  obtain ⟨n, hn⟩ := elect_blobKey (h := h) (fun s hs => (hspec s hs).1.1) hmany
  have hst := filled_of_not_blocks (fun s hs => (hspec s hs).1) hno
  obtain ⟨hkept, hok⟩ := rebuildFrom_ok hr hz hshards hspec hdistinct hmany hbind hst
  have hmost : ¬ (fillSlots (blob.length, blobHash P blob) (pre ++ h.toList ++ post)).kept <
      DATA_SHARDS := Nat.not_lt.mpr (Nat.le_of_lt hkept)
  rw [reassemble_elected P hlong hn, if_neg hmost]
  exact hok

/-- A first shard of another length that votes with the genuine ones keeps them all out. -/
theorem reassemble_blocked (hr : RsRestores P) (hz : RsSizes P) (hb : Blake3Len P)
    (henc : encodeManifestBackupShards P version.toNat blob = .ok envelopes)
    (hlen : shardLen blob.length < 2 ^ 32) (hgen : ∀ s ∈ post, Genuine envelopes s)
    (hmany : DATA_SHARDS + 1 ≤ post.length) {x : ManifestBackupShard}
    (hkey : x.key = blobKey P blob) (hi : x.shardIndex < TOTAL_SHARDS) (h0 : x.data.length ≠ 0)
    (hl : x.data.length ≠ shardLen blob.length) :
    reassembleManifestBackup P (x :: post) =
      fail (backupError "not enough consistent backup shards to reconstruct") := by
  obtain ⟨shards, -, hfits⟩ := genuine_fits hr hz hb henc hlen
  have hspec := fun s hs => (hfits s (hgen s hs)).1
  obtain ⟨n, hn⟩ : ∃ n, elect (tally ((x :: post).map (·.key))) = some (blobKey P blob, n) :=
    elect_blobKey (h := some x) (fun s (hs : s ∈ [] ++ post) => (hspec s hs).1) hmany
  have hkept := fillSlots_blocked hkey hi h0 hl hspec
  have hfew : (fillSlots (blob.length, blobHash P blob) (x :: post)).kept < DATA_SHARDS :=
    lt_of_le_of_lt hkept (by decide)
  have hlong : DATA_SHARDS ≤ (x :: post).length := by
    rw [List.length_cons]
    omega
  exact (reassemble_elected P hlong hn).trans (if_pos hfew)

/-- Eleven genuine shards with distinct indices and at most one other, in any order, give the
blob back, unless the other comes first, votes with them and has a length of its own. -/
theorem reassemble_eq_blob_iff (hr : RsRestores P) (hz : RsSizes P) (hb : Blake3Len P)
    (henc : encodeManifestBackupShards P version.toNat blob = .ok envelopes)
    (hlen : shardLen blob.length < 2 ^ 32) (hgen : ∀ s ∈ pre ++ post, Genuine envelopes s)
    (hdistinct : ((pre ++ post).map (·.shardIndex)).Nodup)
    (hmany : DATA_SHARDS + 1 ≤ (pre ++ post).length) (hidx : ∀ s ∈ h, s.shardIndex < TOTAL_SHARDS)
    (hbind : Unconfused P blob (pre ++ h.toList ++ post)) :
    reassembleManifestBackup P (pre ++ h.toList ++ post) = .ok blob ↔ ¬ Blocks P blob pre h := by
  refine ⟨?_, reassemble_restored hr hz hb henc hlen hgen hdistinct hmany hbind⟩
  rintro hok ⟨rfl, x, hx, hkey, h0, hl⟩
  obtain rfl : h = some x := hx
  have hfail := reassemble_blocked hr hz hb henc hlen hgen hmany hkey (hidx x rfl) h0 hl
  cases hok.symm.trans hfail

end

end

end

/-! ### Two lists -/

/-- Primitives whose digest tells one blob from all others. -/
noncomputable def markPrims (blob : Bytes) : Prims Sample.Key :=
  Mds.withMds { Sample.sample [] with
    blake3 := fun b => List.replicate 32 (if b = blob then 1 else 0) }

theorem markPrims_restores (blob : Bytes) : RsRestores (markPrims blob) := Mds.withMds_restores _

theorem markPrims_sizes (blob : Bytes) : RsSizes (markPrims blob) := Mds.withMds_sizes _

theorem markPrims_len (blob : Bytes) : Blake3Len (markPrims blob) := fun _ => List.length_replicate ..

theorem markPrims_unconfused (blob : Bytes) (l : List ManifestBackupShard) :
    Unconfused (markPrims blob) blob l := by
  intro present b _ _ hhash
  by_contra hne
  simp [blobHash, markPrims, Mds.withMds, hne, BLOB_HASH_LEN] at hhash

/-- All fourteen shards of a blob, decoded. -/
theorem exists_genuine (blob : Bytes) (hne : blob.length ≠ 0) (hlen : shardLen blob.length < 2 ^ 32) :
    ∃ (envelopes : List Bytes) (gs : List ManifestBackupShard),
      encodeManifestBackupShards (markPrims blob) (0 : UInt64).toNat blob = .ok envelopes ∧
      (∀ s ∈ gs, Genuine envelopes s) ∧ gs.map (·.shardIndex) = List.range TOTAL_SHARDS := by
  obtain ⟨recovery, hrec, -, -⟩ := markPrims_restores blob (dataShards blob) _ (dataShards_length blob)
    (dataShards_mem_length blob) (shardLen_pos _) (shardLen_dvd _)
  have henc : encode (markPrims blob) blob = .ok (dataShards blob ++ recovery) := by
    rw [encode, hrec, orFail_some, ok_bind]
    rfl
  obtain ⟨h14, hsize⟩ := encode_shards (markPrims_restores blob) (markPrims_sizes blob) henc
  generalize dataShards blob ++ recovery = shards at henc h14 hsize
  refine ⟨_, shards.zipIdx.map fun x => ⟨0, x.2, blob.length, blobHash (markPrims blob) blob, x.1⟩,
    by rw [encodeManifestBackupShards, henc]; rfl, ?_, ?_⟩
  · intro s hs
    obtain ⟨⟨shard, i⟩, hx, rfl⟩ := List.mem_map.mp hs
    have hget : shards[i]? = some shard := List.mem_zipIdx_iff_getElem?.mp hx
    have hi : i < TOTAL_SHARDS := by
      rw [← h14]
      exact (List.getElem?_eq_some_iff.mp hget).1
    have hblob := le_mul_shardLen blob.length
    simp only [DATA_SHARDS] at hblob
    refine ⟨_, List.mem_map_of_mem hx, ?_⟩
    have h64 : (0 : UInt64).toNat < 2 ^ 64 := by norm_num
    have hblob64 : blob.length < 2 ^ 64 := by omega
    have hshard : shard.length < 2 ^ 32 := hsize shard (List.mem_of_getElem? hget) ▸ hlen
    rw [decode_envelope (markPrims blob) (markPrims_len blob) h64 hi hblob64 hshard, if_neg hne]
    rfl
  · rw [List.map_map, ← h14]
    rw [List.range_eq_range']
    exact List.zipIdx_map_snd 0 shards

/-- A shard of one byte that votes with those of the blob `[1]`. -/
noncomputable def stray : ManifestBackupShard := ⟨0, 3, 1, blobHash (markPrims [1]) [1], [7]⟩

theorem strayLast_restores : ∃ (envelopes : List Bytes) (gs : List ManifestBackupShard),
    encodeManifestBackupShards (markPrims [1]) (0 : UInt64).toNat [1] = .ok envelopes ∧
      gs.map (·.shardIndex) = List.range TOTAL_SHARDS ∧ (∀ s ∈ gs, Genuine envelopes s) ∧
      reassembleManifestBackup (markPrims [1]) (gs ++ [stray]) = .ok [1] := by
  obtain ⟨envelopes, gs, henc, hgen, hidx⟩ := exists_genuine [1] (by decide) (by decide)
  have h14 : gs.length = TOTAL_SHARDS := by
    have hl := congrArg List.length hidx
    rwa [List.length_map, List.length_range] at hl
  refine ⟨envelopes, gs, henc, hidx, hgen, ?_⟩
  have hiff : reassembleManifestBackup (markPrims [1]) (gs ++ (some stray).toList ++ []) = .ok [1] ↔
      ¬ Blocks (markPrims [1]) [1] gs (some stray) := reassemble_eq_blob_iff (markPrims_restores [1]) (markPrims_sizes [1]) (markPrims_len [1]) henc (by decide)
    (by simpa using hgen) (by simpa [hidx] using List.nodup_range) (by rw [List.append_nil, h14]; decide)
    (by rintro s ⟨⟩; decide) (markPrims_unconfused [1] _)
  have hrestored := hiff.mpr fun hblocks => by
    rw [hblocks.1] at h14
    cases h14
  rw [List.append_nil] at hrestored
  exact hrestored

/-- In front of all fourteen genuine shards the same shard blocks the restore. -/
theorem strayFirst_blocks : ∃ (envelopes : List Bytes) (gs : List ManifestBackupShard),
    encodeManifestBackupShards (markPrims [1]) (0 : UInt64).toNat [1] = .ok envelopes ∧
      gs.map (·.shardIndex) = List.range TOTAL_SHARDS ∧ (∀ s ∈ gs, Genuine envelopes s) ∧
      stray.shardIndex < TOTAL_SHARDS ∧ Unconfused (markPrims [1]) [1] (stray :: gs) ∧
      reassembleManifestBackup (markPrims [1]) (stray :: gs) ≠ .ok [1] := by
  obtain ⟨envelopes, gs, henc, hgen, hidx⟩ := exists_genuine [1] (by decide) (by decide)
  have h14 : gs.length = TOTAL_SHARDS := by
    have hl := congrArg List.length hidx
    rwa [List.length_map, List.length_range] at hl
  refine ⟨envelopes, gs, henc, hidx, hgen, by decide, markPrims_unconfused [1] _, ?_⟩
  have hfail := reassemble_blocked (x := stray) (markPrims_restores [1]) (markPrims_sizes [1])
    (markPrims_len [1]) henc (by decide) hgen (by rw [h14]; decide) rfl (by decide) (by decide)
    (by decide)
  rw [hfail]
  intro h
  cases h

end P2pnas.Store.Hostile
