import P2pnas.Lib.Requests
import P2pnas.Store.Envelopes

/-!
# What a restore asks for (`backup.rs:508-593`, `erasure.rs:98-150`)

The shards of a restore come from peers, and so does the length of the blob that they declare. The
functions of the restore are followed here with the sizes they ask the allocator for. All of them are
bounded by what was received, but one: where the ten data shards of the elected geometry are at hand,
the blob is put together in a vector of the declared length.

Left out are the texts of errors, which have a fixed size, and what the library asks for on its own.
-/

namespace P2pnas.Store.Allocation
open P2pnas.Lib.Frames P2pnas.Lib.Tally P2pnas.Lib.Requests P2pnas.Core.Base P2pnas.Core.Erasure
open P2pnas.Store.Session P2pnas.Store.Backup P2pnas.Store.Restore P2pnas.Store.Envelopes
open P2pnas.Store.Hostile

/-- A call that may ask for memory; a request that no allocation can meet is a panic. -/
abbrev Alloc (ε α : Type) := Traced (Stop ε) α

/-! ### The restore with its requests -/

section
variable {κ : Type} [DecidableEq κ] {ε : Type}

/-- The entries of the tally have 32 bytes each. -/
def voteTraced (t : List (κ × ℕ)) (k : κ) : Alloc ε (List (κ × ℕ)) :=
  if k ∈ t.map Prod.fst then pure (vote k t)
  else do
    push .panic 32 t.length
    return vote k t

def tallyTraced (t : List (κ × ℕ)) : List κ → Alloc ε (List (κ × ℕ))
  | [] => pure t
  | k :: ks => do
    let t ← voteTraced t k
    tallyTraced t ks

end

/-- The slots are fourteen optional vectors of 24 bytes. -/
def SLOTS_SIZE : ℕ := 24 * TOTAL_SHARDS

def fillSlotTraced (key : ℕ × Bytes) (st : Slots) (s : ManifestBackupShard) : Alloc StoreError Slots :=
  if TOTAL_SHARDS ≤ s.shardIndex ∨ s.key ≠ key then pure st
  else
    let len := if st.shardLen = 0 then s.data.length else st.shardLen
    if s.data.length ≠ len ∨ (slot st.present s.shardIndex).isSome then pure { st with shardLen := len }
    else do
      request .panic s.data.length
      return ⟨st.present.set s.shardIndex (some s.data), len, st.kept + 1⟩

def fillSlotsTraced (key : ℕ × Bytes) (st : Slots) : List ManifestBackupShard → Alloc StoreError Slots
  | [] => pure st
  | s :: ss => do
    let st ← fillSlotTraced key st s
    fillSlotsTraced key st ss

/-- `present.clone()`. -/
def cloneSlots : List (Option Bytes) → Alloc StoreError Unit
  | [] => pure ()
  | none :: rest => cloneSlots rest
  | some b :: rest => do
    request .panic b.length
    cloneSlots rest

section
variable {K : Type} (P : Prims K)

/-- `reconstruct` (`erasure.rs:98-150`). -/
def reconstructTraced (present : List (Option Bytes)) (cipherLen : ℕ) : Alloc CoreError Bytes :=
  if (present.take DATA_SHARDS).all Option.isSome then do
    request .panic cipherLen
    extendAll .panic 0 cipherLen ((present.take DATA_SHARDS).map fun s => (s.getD []).length)
    return ((present.take DATA_SHARDS).map fun s => s.getD []).flatten.take cipherLen
  else do
    -- pairs of an index and a reference
    pushes .panic 16 (heldFrom present 0 DATA_SHARDS).length
    pushes .panic 16 (heldFrom present DATA_SHARDS (present.length - DATA_SHARDS)).length
    let restored ← lift (orFail (.erasure "decode")
      (P.rsDecode (heldFrom present 0 DATA_SHARDS)
        (heldFrom present DATA_SHARDS (present.length - DATA_SHARDS))))
    let first ← lift (orFail (.erasure "no shards") (present.filterMap id).head?)
    request .panic (first.length * DATA_SHARDS)
    let out ← lift (copyShards present restored first.length (List.range DATA_SHARDS))
    return out.take cipherLen

def tryRebuildTraced (present : List (Option Bytes)) (blobLen : ℕ) (hash : Bytes) :
    Alloc StoreError (Option Bytes) :=
  let r := reconstructTraced P present blobLen
  ⟨match r.out with
    | .ok blob => .ok (if blobHash P blob = hash then some blob else none)
    | .error (.err _) => .ok none
    | .error .panic => .error .panic, r.requests⟩

def rebuildWithoutTraced (present : List (Option Bytes)) (blobLen : ℕ) (hash : Bytes) :
    List ℕ → Alloc StoreError (Option Bytes)
  | [] => pure none
  | i :: is =>
    if (slot present i).isNone then rebuildWithoutTraced present blobLen hash is
    else do
      request .panic SLOTS_SIZE
      cloneSlots present
      match ← tryRebuildTraced P (present.set i none) blobLen hash with
      | some blob => return some blob
      | none => rebuildWithoutTraced present blobLen hash is

def rebuildSpareTraced (st : Slots) (blobLen : ℕ) (hash : Bytes) : Alloc StoreError (Option Bytes) :=
  if DATA_SHARDS < st.kept then
    rebuildWithoutTraced P st.present blobLen hash (List.range st.present.length)
  else pure none

def rebuildFromTraced (st : Slots) (blobLen : ℕ) (hash : Bytes) : Alloc StoreError Bytes := do
  match ← tryRebuildTraced P st.present blobLen hash with
  | some blob => return blob
  | none =>
    let retry ← rebuildSpareTraced P st blobLen hash
    lift (orFail (backupError "manifest backup shards do not reconstruct a valid blob") retry)

/-- `reassemble_manifest_backup` (`backup.rs:521-579`). -/
def reassembleTraced (shards : List ManifestBackupShard) : Alloc StoreError Bytes :=
  if shards.length < DATA_SHARDS then
    lift (fail (backupError "not enough backup shards to reconstruct"))
  else do
    let votes ← tallyTraced [] (shards.map (·.key))
    let ((blobLen, hash), _) ← lift (orFail (backupError "no backup shards") (elect votes))
    request .panic SLOTS_SIZE
    let st ← fillSlotsTraced (blobLen, hash) .empty shards
    if st.kept < DATA_SHARDS then
      lift (fail (backupError "not enough consistent backup shards to reconstruct"))
    else rebuildFromTraced P st blobLen hash

end

/-! ### Small requests -/

section
variable {κ : Type} [DecidableEq κ] {ε : Type} {bound : ℕ}

theorem vote_length_le (k : κ) (t : List (κ × ℕ)) : (vote k t).length ≤ t.length + 1 := by
  have h := congrArg List.length (vote_keys k t)
  rw [List.length_map] at h
  rw [h]
  split
  · rw [List.length_map]
    exact Nat.le_succ _
  · rw [List.length_append, List.length_map, List.length_singleton]

theorem tallyTraced_stays (ks : List κ) {t : List (κ × ℕ)} {n : ℕ} (hn : t.length + ks.length ≤ n)
    (h : 32 * max (2 * n) 4 ≤ bound) (hl : 32 * max (2 * n) 4 ≤ LARGEST) :
    Stays (Stop.panic : Stop ε) bound (tallyTraced t ks) (.ok (ks.foldl (fun t k => vote k t) t)) := by
  induction ks generalizing t with
  | nil => exact Stays.pure t
  | cons k ks ih =>
    rw [List.length_cons] at hn
    have hvote : Stays (Stop.panic : Stop ε) bound (voteTraced t k) (.ok (vote k t)) := by
      unfold voteTraced
      split
      · exact Stays.pure _
      · have hle : 32 * max (2 * t.length) 4 ≤ 32 * max (2 * n) 4 := by omega
        exact Stays.seq (push_stays (hle.trans h) (hle.trans hl)) (Stays.pure _)
    have hlen := vote_length_le k t
    exact Stays.bind (g := fun t => .ok (ks.foldl (fun t k => vote k t) t)) hvote fun a ha => by
      cases ha
      exact ih (by omega)

theorem cloneSlots_stays {present : List (Option Bytes)}
    (h : ∀ b, some b ∈ present → b.length ≤ bound ∧ b.length ≤ LARGEST) :
    Stays Stop.panic bound (cloneSlots present) (.ok ()) := by
  induction present with
  | nil => exact Stays.pure ()
  | cons o rest ih =>
    have hrest := ih fun b hb => h b (List.mem_cons_of_mem _ hb)
    cases o with
    | none => exact hrest
    | some b =>
      obtain ⟨hb, hl⟩ := h b (List.mem_cons_self ..)
      exact Stays.seq (request_stays hb hl) hrest

theorem fillSlotsTraced_stays {key : ℕ × Bytes} (shards : List ManifestBackupShard) {st : Slots}
    (h : ∀ s ∈ shards, s.data.length ≤ bound ∧ s.data.length ≤ LARGEST) :
    Stays Stop.panic bound (fillSlotsTraced key st shards) (.ok (shards.foldl (fillSlot key) st)) := by
  induction shards generalizing st with
  | nil => exact Stays.pure st
  | cons s ss ih =>
    obtain ⟨hs, hl⟩ := h s (List.mem_cons_self ..)
    have hfill : Stays Stop.panic bound (fillSlotTraced key st s) (.ok (fillSlot key st s)) := by
      unfold fillSlotTraced fillSlot
      split
      · exact Stays.pure _
      · dsimp only
        generalize (if st.shardLen = 0 then s.data.length else st.shardLen) = len
        split
        · exact Stays.pure _
        · exact Stays.seq (request_stays hs hl) (Stays.pure _)
    exact Stays.bind (g := fun st => .ok (ss.foldl (fillSlot key) st)) hfill fun a ha => by
      cases ha
      exact ih fun x hx => h x (List.mem_cons_of_mem _ hx)

end

/-! ### The attempts -/

/-- Every data shard has its slot filled. -/
def Whole (present : List (Option Bytes)) : Prop := ∀ i < DATA_SHARDS, (slot present i).isSome

section
variable {K : Type} {P : Prims K} {L bound : ℕ}

theorem whole_iff {present : List (Option Bytes)} (hlen : present.length = TOTAL_SHARDS) :
    (present.take DATA_SHARDS).all Option.isSome = true ↔ Whole present := by
  have htake : present.take DATA_SHARDS = (List.range DATA_SHARDS).map (slot present) := by
    conv_lhs => rw [present_eq_map present, hlen]
    rfl
  rw [htake, List.all_map, List.all_eq_true]
  exact ⟨fun h i hi => h i (List.mem_range.mpr hi), fun h i hi => h i (List.mem_range.mp hi)⟩

/-- The slots hold shards of at most `L` bytes, and where they hold all data shards the declared length
can be asked for. -/
structure Holds (L bound : ℕ) (present : List (Option Bytes)) (n : ℕ) : Prop where
  slots : present.length = TOTAL_SHARDS
  small : ∀ b, some b ∈ present → b.length ≤ L
  declared : Whole present → n ≤ bound ∧ n ≤ LARGEST

theorem orFail_fine {ε α : Type} {e : ε} {o : Option α} : (orFail e o : Outcome ε α) ≠ .error .panic := by
  cases o with
  | none => nofun
  | some a => nofun

theorem heldFrom_length_le (present : List (Option Bytes)) (start n : ℕ) :
    (heldFrom present start n).length ≤ n := by
  have h := List.length_filterMap_le (fun i => (present[start + i]?.join).map fun b => (i, b)) (List.range n)
  rwa [List.length_range] at h

/-- Without one of the shards the slots hold no more. -/
theorem Holds.without {present : List (Option Bytes)} {n : ℕ} (h : Holds L bound present n) (i : ℕ) :
    Holds L bound (present.set i none) n := by
  refine ⟨by rw [List.length_set, h.slots], fun b hmem => ?_, fun hwhole => h.declared fun j hj => ?_⟩
  · rcases List.mem_or_eq_of_mem_set hmem with hmem | hmem
    · exact h.small b hmem
    · cases hmem
  · have hj' := hwhole j hj
    rw [slot_set] at hj'
    split at hj'
    · cases hj'
    · exact hj'

variable (hL : 460 ≤ L) (hb : 20 * L ≤ bound) (hl : 20 * L ≤ LARGEST)
include hL hb hl

theorem reconstructTraced_stays (hz : RsSizes P) {present : List (Option Bytes)} {n : ℕ}
    (h : Holds L bound present n) :
    Stays Stop.panic bound (reconstructTraced P present n) (reconstruct P present n) := by
  have hnp := reconstruct_not_panic P hz h.slots n
  by_cases hall : (present.take DATA_SHARDS).all Option.isSome = true
  · obtain ⟨hdecl, hdecl'⟩ := h.declared ((whole_iff h.slots).mp hall)
    rw [reconstructTraced, reconstruct, if_pos hall, if_pos hall]
    have hsum : ((present.take DATA_SHARDS).map fun s => (s.getD []).length).sum ≤ 10 * L := by
      have hle := List.sum_le_card_nsmul ((present.take DATA_SHARDS).map fun s => (s.getD []).length) L
        (fun x hx => by
          obtain ⟨o, ho, rfl⟩ := List.mem_map.mp hx
          cases o with
          | none => exact Nat.zero_le _
          | some b => exact h.small b (List.mem_of_mem_take ho))
      rw [List.length_map, List.length_take, h.slots, smul_eq_mul] at hle
      exact hle
    exact Stays.seq (request_stays hdecl hdecl')
      (Stays.seq (extendAll_stays (10 * L) (by omega) (by omega) _ (by omega)) (Stays.pure _))
  · rw [reconstruct, if_neg hall] at hnp ⊢
    rw [reconstructTraced, if_neg hall]
    have hsize : ∀ k, k ≤ TOTAL_SHARDS → 16 * max (2 * k) 4 ≤ 20 * L := by
      intro k hk
      have h14 : TOTAL_SHARDS = 14 := rfl
      omega
    have hdata := hsize _ ((heldFrom_length_le present 0 DATA_SHARDS).trans (by decide))
    have hrec := hsize _ ((heldFrom_length_le present DATA_SHARDS (present.length - DATA_SHARDS)).trans
      (by rw [h.slots]; decide))
    refine Stays.seq (pushes_stays (hdata.trans hb) (hdata.trans hl))
      (Stays.seq (pushes_stays (hrec.trans hb) (hrec.trans hl)) ?_)
    refine Stays.bind (Stays.lift orFail_fine) fun restored hrestored => ?_
    refine Stays.bind (Stays.lift orFail_fine) fun first hfirst => ?_
    have hfirstLen : first.length ≤ L := by
      have hmem := List.mem_of_mem_head? (orFail_eq_ok hfirst)
      obtain ⟨o, ho, hid⟩ := List.mem_filterMap.mp hmem
      exact h.small first (hid ▸ ho)
    have hten : first.length * DATA_SHARDS ≤ 20 * L := by
      simp only [DATA_SHARDS]
      omega
    refine Stays.seq (request_stays (hten.trans hb) (hten.trans hl)) ?_
    refine Stays.bind (Stays.lift fun hpanic => hnp ?_) fun out _ => Stays.pure _
    rw [hrestored, ok_bind, hfirst, ok_bind, hpanic]
    rfl

theorem tryRebuildTraced_stays (hz : RsSizes P) {present : List (Option Bytes)} {n : ℕ} {hash : Bytes}
    (h : Holds L bound present n) :
    Stays Stop.panic bound (tryRebuildTraced P present n hash) (tryRebuild P present n hash) := by
  obtain ⟨hout, hfine, hsmall⟩ := reconstructTraced_stays hL hb hl hz h
  refine ⟨?_, ?_, hsmall⟩
  · rw [tryRebuildTraced, tryRebuild]
    dsimp only
    rw [hout]
    rcases reconstruct P present n with (_ | e) | blob
    · rfl
    · rfl
    · rfl
  · rw [tryRebuild]
    split
    · intro h
      cases h
    · intro h
      cases h
    · next hpanic => exact absurd hpanic hfine

theorem rebuildWithoutTraced_stays (hz : RsSizes P) {present : List (Option Bytes)} {n : ℕ} {hash : Bytes}
    (h : Holds L bound present n) (is : List ℕ) : Stays Stop.panic bound
      (rebuildWithoutTraced P present n hash is) (rebuildWithout P present n hash is) := by
  induction is with
  | nil => exact Stays.pure none
  | cons i is ih =>
    rw [rebuildWithoutTraced, rebuildWithout]
    split
    · exact ih
    · have hslots : SLOTS_SIZE ≤ 20 * L := by
        have h336 : SLOTS_SIZE = 336 := rfl
        omega
      refine Stays.seq (request_stays (hslots.trans hb) (hslots.trans hl)) (Stays.seq ?_ ?_)
      · exact cloneSlots_stays fun b hmem => by
          have hle := h.small b hmem
          omega
      · refine Stays.bind (tryRebuildTraced_stays hL hb hl hz (h.without i)) fun o _ => ?_
        cases o with
        | none => exact ih
        | some blob => exact Stays.pure _

theorem rebuildFromTraced_stays (hz : RsSizes P) {st : Slots} {n : ℕ} {hash : Bytes}
    (h : Holds L bound st.present n) :
    Stays Stop.panic bound (rebuildFromTraced P st n hash) (rebuildFrom P st n hash) := by
  refine Stays.bind (tryRebuildTraced_stays hL hb hl hz h) fun o _ => ?_
  cases o with
  | some blob => exact Stays.pure _
  | none =>
    have hspare : Stays Stop.panic bound (rebuildSpareTraced P st n hash) (rebuildSpare P st n hash) := by
      unfold rebuildSpareTraced rebuildSpare
      split
      · exact rebuildWithoutTraced_stays hL hb hl hz h _
      · exact Stays.pure _
    exact Stays.bind hspare fun _ _ => Stays.lift orFail_fine

end

/-! ### What the slots hold, by the shards alone -/

section
variable {key : ℕ × Bytes}

/-- The length of the first shard of the geometry that is not empty. -/
def firstLen (key : ℕ × Bytes) (shards : List ManifestBackupShard) : ℕ :=
  (((shards.filter fun s => s.shardIndex < TOTAL_SHARDS ∧ s.key = key).map
    fun s => s.data.length).find? fun n => n ≠ 0).getD 0

/-- Some shard of the geometry has the index and the length that counts when its turn comes. -/
def Offers (key : ℕ × Bytes) (shards : List ManifestBackupShard) (i : ℕ) : Prop :=
  ∃ before s, before ++ [s] <+: shards ∧ s.key = key ∧ s.shardIndex = i ∧
    s.data.length = firstLen key (before ++ [s])

theorem firstLen_snoc (done : List ManifestBackupShard) (s : ManifestBackupShard) :
    firstLen key (done ++ [s]) = if s.shardIndex < TOTAL_SHARDS ∧ s.key = key then
      (if firstLen key done = 0 then s.data.length else firstLen key done) else firstLen key done := by
  unfold firstLen
  rw [List.filter_append, List.map_append, List.find?_append]
  by_cases hc : s.shardIndex < TOTAL_SHARDS ∧ s.key = key
  · have hone : ([s].filter fun s => s.shardIndex < TOTAL_SHARDS ∧ s.key = key) = [s] := by
      simp [hc]
    rw [if_pos hc, hone, List.map_cons, List.map_nil, List.find?_singleton]
    generalize hf : List.find? _ (List.map _ (List.filter _ done)) = found
    rcases found with _ | n
    · rw [Option.none_or, Option.getD_none, if_pos rfl]
      by_cases hz : s.data.length = 0
      · rw [if_neg (by simpa using hz), hz]
        rfl
      · rw [if_pos (by simpa using hz), Option.getD_some]
    · have hn : n ≠ 0 := by simpa using List.find?_some hf
      rw [Option.some_or, Option.getD_some, if_neg hn]
  · have hnone : ([s].filter fun s => s.shardIndex < TOTAL_SHARDS ∧ s.key = key) = [] := by
      rw [List.filter_eq_nil_iff]
      intro x hx
      rw [List.mem_singleton.mp hx]
      simpa using hc
    rw [if_neg hc, hnone, List.map_nil, List.find?_nil, Option.or_none]

theorem offers_snoc {done : List ManifestBackupShard} {s : ManifestBackupShard} {i : ℕ} :
    Offers key (done ++ [s]) i ↔ Offers key done i ∨
      s.key = key ∧ s.shardIndex = i ∧ s.data.length = firstLen key (done ++ [s]) := by
  constructor
  · rintro ⟨before, x, hfront, hkey, hidx, hlen⟩
    rcases List.prefix_concat_iff.mp hfront with heq | hfront
    · obtain ⟨rfl, hx⟩ := List.append_inj' heq rfl
      cases hx
      exact .inr ⟨hkey, hidx, hlen⟩
    · exact .inl ⟨before, x, hfront, hkey, hidx, hlen⟩
  · rintro (⟨before, x, hfront, hrest⟩ | ⟨hkey, hidx, hlen⟩)
    · exact ⟨before, x, hfront.trans (List.prefix_append ..), hrest⟩
    · exact ⟨done, s, List.prefix_refl _, hkey, hidx, hlen⟩

/-- The slots after the shards `done`. -/
structure Slotted (key : ℕ × Bytes) (done : List ManifestBackupShard) (st : Slots) : Prop where
  slots : st.present.length = TOTAL_SHARDS
  kept : st.kept = st.present.countP Option.isSome
  length : st.shardLen = firstLen key done
  filled : ∀ i < TOTAL_SHARDS, (slot st.present i).isSome ↔ Offers key done i
  source : ∀ b, some b ∈ st.present → ∃ s ∈ done, s.data = b

theorem Slotted.snoc {done : List ManifestBackupShard} {st : Slots} (h : Slotted key done st)
    (s : ManifestBackupShard) : Slotted key (done ++ [s]) (fillSlot key st s) := by
  have hsource : ∀ b, some b ∈ st.present → ∃ x ∈ done ++ [s], x.data = b := by
    intro b hb
    obtain ⟨x, hx, hdata⟩ := h.source b hb
    exact ⟨x, List.mem_append_left _ hx, hdata⟩
  have hfirst := @firstLen_snoc key done s
  unfold fillSlot
  split
  · next hout =>
    have hnot : ¬(s.shardIndex < TOTAL_SHARDS ∧ s.key = key) := fun hc =>
      hout.elim (fun hle => Nat.not_lt.mpr hle hc.1) fun hk => hk hc.2
    rw [if_neg hnot] at hfirst
    refine ⟨h.slots, h.kept, h.length.trans hfirst.symm, fun i hi => ?_, hsource⟩
    rw [h.filled i hi, offers_snoc]
    refine ⟨.inl, fun hor => hor.resolve_right ?_⟩
    rintro ⟨hkey, rfl, -⟩
    exact hnot ⟨hi, hkey⟩
  · next hin =>
    rw [not_or, not_not, Nat.not_le] at hin
    obtain ⟨hidx, hkey⟩ := hin
    rw [if_pos ⟨hidx, hkey⟩, ← h.length] at hfirst
    dsimp only
    rw [← hfirst]
    split
    · next hdrop =>
      refine ⟨h.slots, h.kept, rfl, fun i hi => ?_, hsource⟩
      rw [h.filled i hi, offers_snoc]
      refine ⟨.inl, fun hor => hor.elim id ?_⟩
      rintro ⟨-, rfl, hlen⟩
      rcases hdrop with hne | hsome
      · exact absurd hlen hne
      · exact (h.filled _ hi).mp hsome
    · next hkeep =>
      rw [not_or, not_not] at hkeep
      obtain ⟨hlen, hnone⟩ := hkeep
      have hslot : slot st.present s.shardIndex = none := by simpa using hnone
      have hlt : s.shardIndex < st.present.length := h.slots.symm ▸ hidx
      refine ⟨by rw [List.length_set, h.slots], ?_, rfl, fun i hi => ?_, fun b hb => ?_⟩
      · rw [countP_set_some hlt hslot, h.kept]
      · rw [slot_set, offers_snoc, ← h.filled i hi]
        by_cases hsi : s.shardIndex = i
        · rw [if_pos ⟨hsi, hlt⟩]
          exact ⟨fun _ => .inr ⟨hkey, hsi, hlen⟩, fun _ => rfl⟩
        · rw [if_neg fun hc => hsi hc.1]
          exact ⟨.inl, fun hor => hor.resolve_right fun hc => hsi hc.2.1⟩
      · rcases List.mem_or_eq_of_mem_set hb with hb | hb
        · exact hsource b hb
        · cases hb
          exact ⟨s, List.mem_append_right _ (List.mem_singleton.mpr rfl), rfl⟩

theorem fillSlots_slotted (shards : List ManifestBackupShard) : Slotted key shards (fillSlots key shards) := by
  induction shards using List.reverseRecOn with
  | nil =>
    refine ⟨List.length_replicate .., filled_nil key 0 |>.kept, rfl, fun i hi => ?_, fun b hb => ?_⟩
    · rw [fillSlots, List.foldl_nil, slot_empty]
      refine ⟨fun h => (by cases h), ?_⟩
      rintro ⟨before, s, hfront, -⟩
      have hnil := List.prefix_nil.mp hfront
      exact absurd hnil (by simp)
    · cases (List.mem_replicate.mp hb).2
  | append_singleton done s ih =>
    rw [fillSlots, List.foldl_append]
    exact ih.snoc s

end

/-! ### The whole call -/

/-- The bytes received. -/
def received (envelopes : List Bytes) : ℕ := (envelopes.map List.length).sum

/-- The shards decode from the envelopes. -/
def Decoded (envelopes : List Bytes) (shards : List ManifestBackupShard) : Prop :=
  List.Forall₂ (fun e s => decodeChecked e = .ok s) envelopes shards

section
variable {K : Type} {P : Prims K} {envelopes : List Bytes} {shards : List ManifestBackupShard}

theorem decode_length {bytes : Bytes} {s : ManifestBackupShard} (h : decodeChecked bytes = .ok s) :
    bytes.length = 46 + s.data.length := by
  rw [decodeChecked_eq, decodeManifestBackupShard] at h
  split at h
  · cases h
  next hlong =>
  split at h
  · cases h
  simp only at h
  split at h
  · cases h
  split at h
  · cases h
  split at h
  · cases h
  cases h
  have hhead : MS_HEADER = 46 := rfl
  rw [List.length_drop]
  omega

theorem Decoded.received (h : Decoded envelopes shards) :
    46 * shards.length ≤ received envelopes ∧ ∀ s ∈ shards, s.data.length ≤ received envelopes := by
  induction h with
  | nil => exact ⟨le_refl _, nofun⟩
  | @cons e s es ss he _ ih =>
    have hlen := decode_length he
    have hsum : Allocation.received (e :: es) = e.length + Allocation.received es := by
      rw [Allocation.received, List.map_cons, List.sum_cons, Allocation.received]
    rw [hsum, List.length_cons]
    refine ⟨by omega, fun x hx => ?_⟩
    rcases List.mem_cons.mp hx with rfl | hx
    · omega
    · have hle := ih.2 x hx
      omega

/-- The requests other than the one for the blob. -/
structure Roomy (shards : List ManifestBackupShard) (L bound : ℕ) : Prop where
  many : 46 * shards.length ≤ L
  small : ∀ s ∈ shards, s.data.length ≤ L
  bound : 20 * L ≤ bound
  largest : 20 * L ≤ LARGEST

variable {L bound : ℕ}

theorem Roomy.tally (h : Roomy shards L bound) (hlong : DATA_SHARDS ≤ shards.length) :
    Stays (Stop.panic : Stop StoreError) bound (tallyTraced [] (shards.map (·.key)))
      (.ok (tally (shards.map (·.key)))) := by
  have h10 : DATA_SHARDS = 10 := rfl
  obtain ⟨hmany, -, hb, hl⟩ := h
  have hcost : 32 * max (2 * shards.length) 4 ≤ 20 * L := by omega
  refine tallyTraced_stays (shards.map (·.key)) (t := []) (n := shards.length) ?_ (hcost.trans hb) (hcost.trans hl)
  rw [List.length_nil, List.length_map, Nat.zero_add]

theorem Roomy.slots (h : Roomy shards L bound) (hlong : DATA_SHARDS ≤ shards.length) :
    Stays (Stop.panic : Stop StoreError) bound (request .panic SLOTS_SIZE) (.ok ()) := by
  have h10 : DATA_SHARDS = 10 := rfl
  have h336 : SLOTS_SIZE = 336 := rfl
  obtain ⟨hmany, -, hb, hl⟩ := h
  exact request_stays (by omega) (by omega)

theorem Roomy.fill (h : Roomy shards L bound) (key : ℕ × Bytes) :
    Stays Stop.panic bound (fillSlotsTraced key .empty shards) (.ok (fillSlots key shards)) :=
  fillSlotsTraced_stays shards fun s hs => by
    have hle := h.small s hs
    have hb := h.bound
    have hl := h.largest
    omega

/-- The geometry has all its data shards. -/
def Complete (shards : List ManifestBackupShard) (key : ℕ × Bytes) : Prop :=
  ∀ i < DATA_SHARDS, Offers key shards i

theorem complete_iff (key : ℕ × Bytes) : Complete shards key ↔ Whole (fillSlots key shards).present := by
  have hst := @fillSlots_slotted key shards
  have hlt : ∀ i < DATA_SHARDS, i < TOTAL_SHARDS := fun i hi => Nat.lt_of_lt_of_le hi (by decide)
  exact ⟨fun h i hi => (hst.filled i (hlt i hi)).mpr (h i hi), fun h i hi => (hst.filled i (hlt i hi)).mp (h i hi)⟩

/-- Where the declared length can be asked for, the call does what it does without the requests. -/
theorem reassembleTraced_stays (hz : RsSizes P) (h : Roomy shards L bound)
    (hblob : ∀ key, Elected (shards.map (·.key)) key → Complete shards key → key.1 ≤ bound ∧ key.1 ≤ LARGEST) :
    Stays Stop.panic bound (reassembleTraced P shards) (reassembleManifestBackup P shards) := by
  unfold reassembleTraced reassembleManifestBackup
  split
  · exact Stays.lift (by nofun)
  · next hlong =>
    have h10 : DATA_SHARDS = 10 := rfl
    rw [Nat.not_lt] at hlong
    refine Stays.bind (g := fun votes => do
      let ((blobLen, hash), _) ← orFail (backupError "no backup shards") (elect votes)
      let st := fillSlots (blobLen, hash) shards
      if st.kept < DATA_SHARDS then
        fail (backupError "not enough consistent backup shards to reconstruct")
      else rebuildFrom P st blobLen hash) (h.tally hlong) fun votes hvotes => ?_
    cases hvotes
    refine Stays.bind (Stays.lift orFail_fine) fun elected helected => ?_
    obtain ⟨⟨blobLen, hash⟩, n⟩ := elected
    have hkey := hblob _ (elect_iff.mp ⟨n, orFail_eq_ok helected⟩)
    refine Stays.seq (h.slots hlong) ?_
    refine Stays.bind (g := fun st => if st.kept < DATA_SHARDS then
        fail (backupError "not enough consistent backup shards to reconstruct")
      else rebuildFrom P st blobLen hash) (h.fill (blobLen, hash)) fun st hst => ?_
    cases hst
    split
    · exact Stays.lift (by nofun)
    · have hslotted := @fillSlots_slotted (blobLen, hash) shards
      refine rebuildFromTraced_stays (L := L) (by have := h.many; omega) h.bound h.largest hz
        ⟨hslotted.slots, fun b hb => ?_, fun hwhole => hkey ((complete_iff _).mpr hwhole)⟩
      obtain ⟨s, hs, rfl⟩ := hslotted.source b hb
      exact h.small s hs

theorem Complete.many {key : ℕ × Bytes} (h : Complete shards key) : DATA_SHARDS ≤ shards.length := by
  have hsub : ∀ i ∈ List.range DATA_SHARDS, i ∈ shards.map (·.shardIndex) := by
    intro i hi
    obtain ⟨before, s, hfront, -, rfl, -⟩ := h i (List.mem_range.mp hi)
    exact List.mem_map_of_mem (hfront.subset (List.mem_append_right _ (List.mem_singleton.mpr rfl)))
  have hle := (List.subperm_of_subset List.nodup_range hsub).length_le
  rwa [List.length_range, List.length_map] at hle

theorem Complete.kept {key : ℕ × Bytes} (h : Complete shards key) :
    DATA_SHARDS ≤ (fillSlots key shards).kept := by
  have hst := @fillSlots_slotted key shards
  have hwhole := (complete_iff key).mp h
  have hsplit : List.range TOTAL_SHARDS =
      List.range DATA_SHARDS ++ (List.range PARITY_SHARDS).map (DATA_SHARDS + ·) := by decide
  have hten : (List.range DATA_SHARDS).countP (fun i => (slot (fillSlots key shards).present i).isSome) =
      DATA_SHARDS := by
    rw [List.countP_eq_length.mpr fun i hi => hwhole i (List.mem_range.mp hi), List.length_range]
  rw [hst.kept, present_eq_map (fillSlots key shards).present, hst.slots, List.countP_map, hsplit,
    List.countP_append]
  simp only [Function.comp_def]
  omega

/-- With all data shards of the elected geometry at hand, its length is asked for. -/
theorem Complete.asks (h : Roomy shards L bound) {key : ℕ × Bytes}
    (helected : Elected (shards.map (·.key)) key) (hc : Complete shards key) :
    key.1 ∈ (reassembleTraced P shards).requests ∧
      (LARGEST < key.1 → (reassembleTraced P shards).out = .error .panic) := by
  obtain ⟨blobLen, hash⟩ := key
  obtain ⟨n, helect⟩ := elect_iff.mpr helected
  have hlong := hc.many
  have hst := @fillSlots_slotted (blobLen, hash) shards
  have hall := (whole_iff hst.slots).mpr ((complete_iff _).mp hc)
  have hkept := Nat.not_lt.mpr hc.kept
  have htry : blobLen ∈ (tryRebuildTraced P (fillSlots (blobLen, hash) shards).present blobLen hash).requests ∧
      (LARGEST < blobLen → (tryRebuildTraced P (fillSlots (blobLen, hash) shards).present blobLen hash).out =
        .error .panic) := by
    rw [tryRebuildTraced]
    dsimp only
    rw [reconstructTraced, if_pos hall]
    refine ⟨mem_requests_bind (List.mem_singleton.mpr rfl), fun hlarge => ?_⟩
    have hpanic : (request (Stop.panic : Stop CoreError) blobLen).out = .error .panic :=
      if_neg (Nat.not_le.mpr hlarge)
    rw [out_bind_error hpanic]
  have hvotes := (h.tally hlong).out
  have hfill := (h.fill (blobLen, hash)).out
  have hslots := (h.slots hlong).out
  have hlift : (lift (orFail (backupError "no backup shards") (elect (tally (shards.map (·.key))))) :
      Alloc StoreError _).out = .ok ((blobLen, hash), n) := by
    rw [helect]
    rfl
  rw [reassembleTraced, if_neg (Nat.not_lt.mpr hlong)]
  constructor
  · refine mem_requests_then hvotes (mem_requests_then hlift (mem_requests_then hslots
      (mem_requests_then hfill ?_)))
    rw [if_neg hkept]
    exact mem_requests_bind htry.1
  · intro hlarge
    rw [out_bind hvotes, out_bind hlift, out_bind hslots, out_bind hfill, if_neg hkept]
    exact out_bind_error (htry.2 hlarge)

/-- A restore from shards that peers sent ends without a panic and asks for no more than a fixed
multiple of the bytes received, exactly where the elected geometry lacks one of its data shards or
declares a blob of no more than that. -/
theorem reassemble_bounded_iff (hz : RsSizes P) (hdec : Decoded envelopes shards)
    -- no process addresses as much
    (hmem : received envelopes < 2 ^ 58) {c : ℕ} (hc : 20 ≤ c) :
    ((reassembleTraced P shards).out ≠ .error .panic ∧
      ∀ n ∈ (reassembleTraced P shards).requests, n ≤ c * received envelopes) ↔
      ∀ key, Elected (shards.map (·.key)) key → Complete shards key →
        key.1 ≤ c * received envelopes ∧ key.1 ≤ LARGEST := by
  obtain ⟨hmany, hsmall⟩ := hdec.received
  have hlargest : LARGEST = 2 ^ 63 - 1 := rfl
  have hroomy : Roomy shards (received envelopes) (c * received envelopes) :=
    ⟨hmany, hsmall, Nat.mul_le_mul_right _ hc, by omega⟩
  constructor
  · rintro ⟨hfine, hasked⟩ key helected hcomplete
    obtain ⟨hmem', hpanic⟩ := Complete.asks (P := P) hroomy helected hcomplete
    refine ⟨hasked _ hmem', ?_⟩
    by_contra hlarge
    exact hfine (hpanic (Nat.not_le.mp hlarge))
  · intro hblob
    obtain ⟨hout, hfine, hasked⟩ := reassembleTraced_stays hz hroomy hblob
    exact ⟨hout ▸ hfine, hasked⟩

end

/-! ### A hostile peer -/

/-- The ten data shards of a blob of `n` bytes, by what they say; they are empty. -/
def hollow (n : ℕ) : List ManifestBackupShard :=
  (List.range DATA_SHARDS).map fun i => ⟨0, i, n, List.replicate 16 0, []⟩

theorem hollow_decoded (n : ℕ) (h : ∀ s ∈ hollow n, decodeChecked (header s) = .ok s) :
    Decoded ((hollow n).map header) (hollow n) := by
  rw [Decoded, List.forall₂_map_left_iff, List.forall₂_same]
  exact h

/-- Ten envelopes of 46 bytes each, from which the restore panics. -/
theorem hollow_panics : received ((hollow (2 ^ 64 - 1)).map header) = 460 ∧
    Decoded ((hollow (2 ^ 64 - 1)).map header) (hollow (2 ^ 64 - 1)) ∧ RsSizes (markPrims [1]) ∧
    (reassembleTraced (markPrims [1]) (hollow (2 ^ 64 - 1))).out = .error .panic := by
  have hroomy : Roomy (hollow (2 ^ 64 - 1)) 460 9200 :=
    ⟨by decide +kernel, by decide +kernel, by decide, by decide⟩
  have helected : Elected ((hollow (2 ^ 64 - 1)).map (·.key)) (2 ^ 64 - 1, List.replicate 16 0) := by
    decide +kernel
  have hwhole : Whole (fillSlots (2 ^ 64 - 1, List.replicate 16 0) (hollow (2 ^ 64 - 1))).present := by
    unfold Whole
    decide +kernel
  refine ⟨by decide +kernel, hollow_decoded _ (by decide +kernel), markPrims_sizes [1], ?_⟩
  exact (Complete.asks hroomy helected ((complete_iff _).mpr hwhole)).2 (by decide)

theorem hollow_bounded : received ((hollow 1).map header) = 460 ∧
    Decoded ((hollow 1).map header) (hollow 1) ∧
    (reassembleTraced (markPrims [1]) (hollow 1)).out ≠ .error .panic ∧
    ∀ n ∈ (reassembleTraced (markPrims [1]) (hollow 1)).requests, n ≤ 20 * received ((hollow 1).map header) := by
  have hsize : received ((hollow 1).map header) = 460 := by decide +kernel
  have hdec : Decoded ((hollow 1).map header) (hollow 1) := hollow_decoded 1 (by decide +kernel)
  refine ⟨hsize, hdec, (reassemble_bounded_iff (markPrims_sizes [1]) hdec (by rw [hsize]; decide)
    (le_refl 20)).mpr fun key helected _ => ?_⟩
  obtain ⟨s, hs, rfl⟩ := List.mem_map.mp helected.1
  obtain ⟨i, -, rfl⟩ := List.mem_map.mp hs
  rw [hsize]
  exact ⟨(by decide : 1 ≤ 20 * 460), (by decide : 1 ≤ LARGEST)⟩

end P2pnas.Store.Allocation
