import Mathlib.Tactic.NormNum
import P2pnas.Lib.Rounding
import P2pnas.Node.Health
import P2pnas.Node.Instance
import P2pnas.Node.Pinning
import P2pnas.Store.Edits

/-!
# What a host does with the shards of an owner that is away (`retention.rs`, `repair.rs:669-747`)

A sweep measures how long ago the owner was seen, and sheds its parity shards, later all of its
shards. Both thresholds are days of the instance, stretched by how reliable the owner has been and by
days the host grants on top.
-/

namespace P2pnas.Node.Reciprocity
open P2pnas.Lib.Frames P2pnas.Lib.Strings P2pnas.Lib.Runs P2pnas.Lib.Rounding P2pnas.Core.Erasure
open P2pnas.Core P2pnas.Core.Base P2pnas.Core.Pipeline P2pnas.Store.Session P2pnas.Store.Manifest P2pnas.Store.Reading
open P2pnas.Store.Written P2pnas.Store.Roundtrip P2pnas.Node.Download P2pnas.Node.Hosting P2pnas.Node.Queries P2pnas.Node.Instance
open P2pnas.Store.Service (LOCAL chunkRowFor)
open P2pnas.Store.Edits (getFile_some)
open P2pnas.Node.Peers (DOWN)
open P2pnas.Node.Pinning (ACTIVE THRESHOLD_DAYS_DEFAULT allowed)

/-- A second in nanoseconds; the clock counts these. -/
def SECOND : ℤ := 1000000000

/-- The columns of `p2pnas.peers` that probes, discovery and sweeps use. -/
structure KnownPeer where
  publicKey : Option Text
  lastSeen : Option ℤ
  reliabilityScore : ℚ
  rttMs : Option ℚ
  thresholdDays : ℤ
  consecutiveFailures : ℤ
  status : Text
  deriving DecidableEq, Repr

/-- A node with the shards it keeps for others. -/
structure Keeper where
  peers : Text → Option KnownPeer
  hosted : Text → Option HostedRow
  storedAt : Text → ℤ
  nodeLocal : Option (ℤ × ℤ)
  store : ChunkStore

def Keeper.host (k : Keeper) : Host :=
  ⟨fun p => (k.peers p).map KnownPeer.publicKey, k.hosted, k.nodeLocal, k.store⟩

def Keeper.withHost (k : Keeper) (h : Host) : Keeper :=
  { k with hosted := h.hosted, nodeLocal := h.nodeLocal, store := h.store }

@[simp] theorem Keeper.withHost_hosted (k : Keeper) (h : Host) : (k.withHost h).hosted = h.hosted := rfl
@[simp] theorem Keeper.withHost_store (k : Keeper) (h : Host) : (k.withHost h).store = h.store := rfl

def Keeper.setPeer (k : Keeper) (peer : Text) (r : Option KnownPeer) : Keeper :=
  { k with peers := fun p => if p = peer then r else k.peers p }

/-! ### What the node learns of a peer -/

def c0_3 : ℚ := binary64.div 3 10
def c0_7 : ℚ := binary64.div 7 10
def c0_8 : ℚ := binary64.div 8 10

/-- The update of a peer that answered after `rtt` milliseconds. -/
def KnownPeer.answered (r : KnownPeer) (rtt : ℚ) (now : ℤ) : KnownPeer :=
  { r with
    reliabilityScore := min 100 (binary64.add (binary64.mul r.reliabilityScore c0_8) 20)
    rttMs := match r.rttMs with
      | none => some rtt
      | some old => some (binary64.add (binary64.mul old c0_7) (binary64.mul rtt c0_3))
    consecutiveFailures := 0
    status := ACTIVE
    lastSeen := some now }

/-- The update of a peer that did not answer. -/
def KnownPeer.failed (r : KnownPeer) (threshold : ℤ) : KnownPeer :=
  let failures := r.consecutiveFailures + 1
  { r with
    reliabilityScore := max 0 (binary64.mul r.reliabilityScore c0_8)
    consecutiveFailures := failures
    status := if threshold ≤ failures then DOWN else r.status }

/-- `record_peer_health`, and whether the peer just went down. -/
def recordPeerHealth (threshold : ℤ) (peer : Text) (rtt : Option ℚ) (works : Bool) (now : ℤ)
    (k : Keeper) : Bool × Keeper :=
  match k.peers peer, works with
  | some r, true =>
    match rtt with
    | some ms => (false, k.setPeer peer (some (r.answered ms now)))
    | none =>
      let r' := r.failed threshold
      (r.status ≠ DOWN && r'.status = DOWN, k.setPeer peer (some r'))
  | _, _ => (false, k)

/-- The row of a peer that is new to the node. -/
def KnownPeer.new (publicKey : Option Text) (thresholdDays : ℤ) (status : Text) (now : ℤ) : KnownPeer where
  publicKey
  lastSeen := some now
  reliabilityScore := 100
  rttMs := none
  thresholdDays
  consecutiveFailures := 0
  status

/-- The write of `upsert_peer_guarded` and of `add_peer`: refused under another key than the pinned one. -/
def recordContact (peer : Text) (key : Option Text) (generosity : Option ℤ) (status : Text) (now : ℤ)
    (k : Keeper) : Keeper :=
  match k.peers peer with
  | none => k.setPeer peer (some (.new key (generosity.getD THRESHOLD_DAYS_DEFAULT) status now))
  | some r =>
    if allowed r.publicKey key then
      k.setPeer peer (some { r with
        publicKey := r.publicKey.or key
        lastSeen := some now
        thresholdDays := generosity.getD r.thresholdDays })
    else k

theorem recordPeerHealth_frame (threshold : ℤ) (peer : Text) (rtt : Option ℚ) (works : Bool) (now : ℤ) (k : Keeper) :
    (recordPeerHealth threshold peer rtt works now k).2.hosted = k.hosted ∧
      (recordPeerHealth threshold peer rtt works now k).2.store = k.store := by
  unfold recordPeerHealth
  split
  · split
    · exact ⟨rfl, rfl⟩
    · exact ⟨rfl, rfl⟩
  · exact ⟨rfl, rfl⟩

theorem recordContact_frame (peer : Text) (key : Option Text) (generosity : Option ℤ) (status : Text) (now : ℤ)
    (k : Keeper) : (recordContact peer key generosity status now k).hosted = k.hosted ∧
      (recordContact peer key generosity status now k).store = k.store := by
  unfold recordContact
  split
  · exact ⟨rfl, rfl⟩
  · split
    · exact ⟨rfl, rfl⟩
    · exact ⟨rfl, rfl⟩

/-! ### The sweep -/

/-- What a sweep meets at one owner. -/
structure SweepEnv where
  readsRow : Bool
  readsLatest : Bool
  fallbackNow : ℤ
  now : ℤ
  order : List Text
  lists : Bool
  files : Text → Event
  rows : Text → Event
  credit : Event

/-- `fallback_reference`: the latest `stored_at` of the owner's shards, or the clock. -/
def fallbackReference (e : SweepEnv) (k : Keeper) (owner : Text) : ℤ :=
  let stored := (e.order.filter fun g => (k.hosted g).any fun row => row.ownerPeerId = owner).map k.storedAt
  if e.readsLatest then stored.max?.getD e.fallbackNow else e.fallbackNow

/-- `(now - reference).num_seconds() as f64 / 86_400.0`; the seconds are cut off towards zero. -/
def absentDays (now reference : ℤ) : ℚ := binary64.div (binary64.ofInt ((now - reference).tdiv SECOND)) 86400

/-- `(0.5 + reliability / 100.0).clamp(0.5, 1.5)`. -/
def factorOf (reliability : ℚ) : ℚ := max (1 / 2) (min (3 / 2) (binary64.add (1 / 2) (binary64.div reliability 100)))

def thresholdAt (days : ℤ) (factor generosity : ℚ) : ℚ :=
  binary64.add (binary64.mul (binary64.ofInt days) factor) generosity

/-- What is due at an owner: nothing, its parity shards (`some true`) or all its shards. -/
def stageOf (c : InstanceConfig) (e : SweepEnv) (owner : Text) (k : Keeper) : Option Bool :=
  let row := if e.readsRow then k.peers owner else none
  let reference := (row.bind KnownPeer.lastSeen).getD (fallbackReference e k owner)
  let reliability := (row.map KnownPeer.reliabilityScore).getD 0
  let generosity := binary64.ofInt (max ((row.map KnownPeer.thresholdDays).getD 0) 0)
  let absent := absentDays e.now reference
  let factor := factorOf reliability
  if thresholdAt c.retentionEvictDays factor generosity ≤ absent then some false
  else if thresholdAt c.retentionReclaimDays factor generosity ≤ absent then some true
  else none

/-- One owner of `sweep`. -/
def sweepOwner (c : InstanceConfig) (e : SweepEnv) (owner : Text) (k : Keeper) : Keeper :=
  match stageOf c e owner k with
  | some parityOnly => k.withHost
      (reclaim owner parityOnly (if e.lists then e.order else []) e.files e.rows e.credit k.host)
  | none => k

/-- `sweep` over the owners the node hosts shards for. -/
def sweep (c : InstanceConfig) (owners : List Text) (env : Text → SweepEnv) (k : Keeper) : Keeper :=
  owners.foldl (fun k owner => sweepOwner c (env owner) owner k) k

/-! ### Runs of a host -/

inductive Action where
  | request (r : Request) (now : ℤ)
  | probed (threshold : ℤ) (peer : Text) (rtt : Option ℚ) (works : Bool) (now : ℤ)
  | contacted (peer : Text) (key : Option Text) (generosity : Option ℤ) (status : Text) (now : ℤ)
  | removed (peer : Text)
  | swept (settings : Console) (owners : List Text) (env : Text → SweepEnv)

/-- `stored_at` is set where a row is inserted and left by the upsert. -/
def Keeper.serve (k : Keeper) (r : Request) (now : ℤ) : Keeper :=
  let h := Hosting.step k.host r
  { k.withHost h with
    storedAt := fun g => if (k.hosted g).isNone && (h.hosted g).isSome then now else k.storedAt g }

def step (k : Keeper) : Action → Keeper
  | .request r now => k.serve r now
  | .probed threshold peer rtt works now => (recordPeerHealth threshold peer rtt works now k).2
  | .contacted peer key generosity status now => recordContact peer key generosity status now k
  | .removed peer => k.setPeer peer none
  | .swept settings owners env => sweep (fromSettings settings) owners env k

/-! ### The window of the thresholds -/

theorem binary64_dyadic {n : ℤ} (e : ℤ) (hn : |n| ≤ 2 ^ 53) (he : -1074 ≤ e) :
    binary64.Representable (n * 2 ^ e) := ⟨n, e, hn, he, rfl⟩

theorem binary64_int {n : ℤ} (hn : |n| ≤ 2 ^ 53) : binary64.Representable (n : ℚ) := by
  have h := binary64_dyadic 0 hn (by omega)
  rwa [zpow_zero, mul_one] at h

theorem ofInt_nonneg {n : ℤ} (hn : 0 ≤ n) : 0 ≤ binary64.ofInt n := by
  have hzero := binary64_int (n := 0) (by norm_num)
  rw [Int.cast_zero] at hzero
  exact le_round_of_representable hzero (by exact_mod_cast hn)

theorem factorOf_bounds (reliability : ℚ) : 1 / 2 ≤ factorOf reliability ∧ factorOf reliability ≤ 3 / 2 := by
  unfold factorOf
  exact ⟨le_max_left _ _, max_le (by norm_num) (min_le_left _ _)⟩

/-- No owner is held to less than half the days. -/
theorem le_thresholdAt {days : ℤ} {factor generosity : ℚ} (hdays : 1 ≤ days ∧ days ≤ 3650)
    (hfactor : 1 / 2 ≤ factor) (hgen : 0 ≤ generosity) : (days : ℚ) / 2 ≤ thresholdAt days factor generosity := by
  have hhalf : binary64.Representable ((days : ℚ) / 2) := by
    have h := binary64_dyadic (n := days) (-1) (by rw [abs_of_nonneg] <;> omega) (by omega)
    rwa [zpow_neg_one, ← div_eq_mul_inv] at h
  have hone : (1 : ℚ) ≤ days := by exact_mod_cast hdays.1
  have hint : binary64.ofInt days = days :=
    round_of_representable (binary64_int (by rw [abs_of_nonneg] <;> omega))
  have hmul : (days : ℚ) / 2 ≤ binary64.mul (binary64.ofInt days) factor := by
    rw [hint]
    refine le_round_of_representable hhalf ?_
    nlinarith
  exact le_round_of_representable hhalf (by linarith)

/-- An owner is not absent for half the days before they have passed. -/
theorem absentDays_lt {days : ℤ} {now reference : ℤ} (hdays : 1 ≤ days ∧ days ≤ 3650)
    (h : now - reference < days * 43200 * SECOND) : absentDays now reference < (days : ℚ) / 2 := by
  have hsecs : (now - reference).tdiv SECOND ≤ days * 43200 - 1 := by
    unfold SECOND at h ⊢
    generalize now - reference = passed at h ⊢
    rcases Int.le_total 0 passed with hpos | hneg
    · rw [Int.tdiv_eq_ediv_of_nonneg hpos]
      omega
    · have hneg' := Int.neg_tdiv (-passed) 1000000000
      have hpart := @Int.tdiv_eq_ediv_of_nonneg (-passed) 1000000000 (by omega)
      rw [neg_neg, hpart] at hneg'
      omega
  have hint : binary64.ofInt ((now - reference).tdiv SECOND) ≤ ((days * 43200 - 1 : ℤ) : ℚ) :=
    round_le_of_representable (binary64_int (by rw [abs_of_nonneg] <;> omega)) (by exact_mod_cast hsecs)
  -- the next number of the format below the half days that is easy to name
  have hbelow : binary64.Representable (((days * 65536 - 1 : ℤ) : ℚ) * 2 ^ (-17 : ℤ)) :=
    binary64_dyadic _ (by rw [abs_of_nonneg] <;> omega) (by omega)
  have hpow : (2 : ℚ) ^ (-17 : ℤ) = 1 / 131072 := by norm_num
  rw [hpow] at hbelow
  have hle : binary64.ofInt ((now - reference).tdiv SECOND) / 86400 ≤ ((days * 65536 - 1 : ℤ) : ℚ) * (1 / 131072) := by
    push_cast at hint ⊢
    linarith
  have hround := round_le_of_representable hbelow hle
  push_cast at hround
  have hlast : (days * 65536 - 1 : ℚ) * (1 / 131072) < days / 2 := by linarith
  exact hround.trans_lt hlast

/-- No owner is held to more than half the days again and what the host grants. -/
theorem thresholdAt_le {days granted : ℤ} {factor : ℚ} (hdays : 1 ≤ days ∧ days ≤ 3650)
    (hgranted : 0 ≤ granted ∧ granted < 2 ^ 31) (hfactor : factor ≤ 3 / 2) :
    thresholdAt days factor (binary64.ofInt granted) ≤ (days : ℚ) * (3 / 2) + granted := by
  have hrep : ∀ n : ℤ, 0 ≤ n → n < 2 ^ 33 → binary64.Representable ((n : ℚ) / 2) := by
    intro n hn hlt
    have h := binary64_dyadic (n := n) (-1) (by rw [abs_of_nonneg hn]; omega) (by omega)
    rwa [zpow_neg_one, ← div_eq_mul_inv] at h
  have hpos : (0 : ℚ) ≤ days := by exact_mod_cast (show 0 ≤ days by omega)
  have hint : binary64.ofInt days = days :=
    round_of_representable (binary64_int (by rw [abs_of_nonneg] <;> omega))
  have hgen : binary64.ofInt granted = granted :=
    round_of_representable (binary64_int (by rw [abs_of_nonneg] <;> omega))
  have hmul : binary64.mul (binary64.ofInt days) factor ≤ ((days * 3 : ℤ) : ℚ) / 2 := by
    rw [hint]
    refine round_le_of_representable (hrep _ (by omega) (by omega)) ?_
    push_cast
    nlinarith
  have hadd := round_le_of_representable (hrep (days * 3 + granted * 2) (by omega) (by omega))
    (x := binary64.mul (binary64.ofInt days) factor + binary64.ofInt granted)
    (by rw [hgen]; push_cast at hmul ⊢; linarith)
  push_cast at hadd
  exact hadd.trans (by linarith)

/-- Once as many half days have passed the owner is absent for them. -/
theorem le_absentDays {halves now reference : ℤ} (hhalves : 0 ≤ halves ∧ halves < 2 ^ 33)
    (h : halves * 43200 * SECOND ≤ now - reference) : (halves : ℚ) / 2 ≤ absentDays now reference := by
  have hsecs : halves * 43200 ≤ (now - reference).tdiv SECOND := by
    unfold SECOND at h ⊢
    generalize now - reference = passed at h ⊢
    rw [Int.tdiv_eq_ediv_of_nonneg (by omega)]
    omega
  have hint : ((halves * 43200 : ℤ) : ℚ) ≤ binary64.ofInt ((now - reference).tdiv SECOND) :=
    le_round_of_representable (binary64_int (by rw [abs_of_nonneg] <;> omega)) (by exact_mod_cast hsecs)
  have hhalf : binary64.Representable ((halves : ℚ) / 2) := by
    have h := binary64_dyadic (n := halves) (-1) (by rw [abs_of_nonneg] <;> omega) (by omega)
    rwa [zpow_neg_one, ← div_eq_mul_inv] at h
  refine le_round_of_representable hhalf ?_
  push_cast at hint
  linarith

/-! ### What a sweep takes -/

section
variable {k : Keeper} {owner frag : Text}

theorem mem_reclaimed {h : Host} {parityOnly : Bool} {order : List Text} {g : Text} :
    g ∈ reclaimed h owner parityOnly order ↔ g ∈ order ∧ ∃ row, h.hosted g = some row ∧
      row.ownerPeerId = owner ∧ (parityOnly = true → (DATA_SHARDS : ℤ) ≤ row.shardIndex) := by
  unfold reclaimed
  rw [List.mem_filter, Option.any_eq_true]
  cases parityOnly <;> simp

theorem reclaim_leaves (h : Host) (parityOnly : Bool) (order : List Text) (files rows : Text → Event)
    (credit : Event) (g : Text) :
    (reclaim owner parityOnly order files rows credit h).store g =
        (if g ∈ reclaimed h owner parityOnly order ∧ isValidFragmentId g = true ∧ files g = .works then none
          else h.store g) ∧
      (reclaim owner parityOnly order files rows credit h).hosted g =
        if g ∈ reclaimed h owner parityOnly order ∧ rows g = .works then none else h.hosted g := by
  have hrows := reclaimRows_removes files rows (reclaimed h owner parityOnly order) h g
  unfold reclaim
  dsimp only
  split
  · exact hrows
  · exact hrows

/-- A sweep changes nothing but that shards may be gone. -/
structure Leaves (k k' : Keeper) : Prop where
  peers : k'.peers = k.peers
  storedAt : k'.storedAt = k.storedAt
  hosted : ∀ g, k'.hosted g = k.hosted g ∨ k'.hosted g = none
  store : ∀ g, k'.store g = k.store g ∨ k'.store g = none

theorem Leaves.refl (k : Keeper) : Leaves k k := ⟨rfl, rfl, fun _ => .inl rfl, fun _ => .inl rfl⟩

theorem Leaves.trans {k₁ k₂ k₃ : Keeper} (h : Leaves k₁ k₂) (h' : Leaves k₂ k₃) : Leaves k₁ k₃ where
  peers := h'.peers.trans h.peers
  storedAt := h'.storedAt.trans h.storedAt
  hosted g := by
    rcases h'.hosted g with heq | hnone
    · rw [heq]
      exact h.hosted g
    · exact .inr hnone
  store g := by
    rcases h'.store g with heq | hnone
    · rw [heq]
      exact h.store g
    · exact .inr hnone

theorem sweepOwner_leaves (c : InstanceConfig) (e : SweepEnv) (owner : Text) (k : Keeper) :
    Leaves k (sweepOwner c e owner k) := by
  unfold sweepOwner
  split
  · next parityOnly _ =>
    generalize (if e.lists then e.order else []) = order
    have hleaves := @reclaim_leaves owner k.host parityOnly order e.files e.rows e.credit
    refine ⟨rfl, rfl, fun g => ?_, fun g => ?_⟩
    · rw [Keeper.withHost_hosted, (hleaves g).2]
      split
      · exact .inr rfl
      · exact .inl rfl
    · rw [Keeper.withHost_store, (hleaves g).1]
      split
      · exact .inr rfl
      · exact .inl rfl
  · exact .refl k

theorem sweep_leaves (c : InstanceConfig) (owners : List Text) (env : Text → SweepEnv) (k : Keeper) :
    Leaves k (sweep c owners env k) := by
  unfold sweep
  induction owners generalizing k with
  | nil => exact .refl k
  | cons o owners ih => exact (sweepOwner_leaves c (env o) o k).trans (ih _)

/-- The fragment has its row and its bytes. -/
def Sheltered (k : Keeper) (frag : Text) (row : HostedRow) (b : Bytes) : Prop :=
  k.hosted frag = some row ∧ k.store frag = some b

/-- The node has seen the peer at that time or later. -/
def SeenSince (k : Keeper) (peer : Text) (since : ℤ) : Prop :=
  ∃ r t, k.peers peer = some r ∧ r.lastSeen = some t ∧ since ≤ t

/-- The days after which the host may do without the shard. -/
def limitDays (c : InstanceConfig) (shardIndex : ℤ) : ℤ :=
  if (DATA_SHARDS : ℤ) ≤ shardIndex then c.retentionReclaimDays else c.retentionEvictDays

variable {row : HostedRow} {b : Bytes} {since : ℤ}

theorem Sheltered.reclaim {parityOnly : Bool} {order : List Text} {files rows : Text → Event}
    {credit : Event} (h : Sheltered k frag row b)
    (hspared : row.ownerPeerId = owner → parityOnly = true ∧ row.shardIndex < DATA_SHARDS) :
    Sheltered (k.withHost (reclaim owner parityOnly order files rows credit k.host)) frag row b := by
  have hout : frag ∉ reclaimed k.host owner parityOnly order := by
    rw [mem_reclaimed]
    rintro ⟨-, row', hrow', howner, hparity⟩
    obtain rfl : row = row' := Option.some.inj (h.1.symm.trans hrow')
    obtain ⟨honly, hdata⟩ := hspared howner
    have := hparity honly
    omega
  have hleaves := @reclaim_leaves owner k.host parityOnly order files rows credit frag
  rw [if_neg fun hin => hout hin.1, if_neg fun hin => hout hin.1] at hleaves
  exact ⟨hleaves.2.trans h.1, hleaves.1.trans h.2⟩

/-- A sweep that reads the owner's row leaves a shard alone as long as the owner has been seen within half
the days for it. -/
theorem Sheltered.sweepOwner {c : InstanceConfig} {e : SweepEnv} {swept : Text} (h : Sheltered k frag row b)
    (hc : c.Admissible) (hseen : SeenSince k row.ownerPeerId since)
    (hrecent : row.ownerPeerId = swept → e.readsRow = true ∧
      e.now - since < limitDays c row.shardIndex * 43200 * SECOND) :
    Sheltered (sweepOwner c e swept k) frag row b := by
  unfold Reciprocity.sweepOwner
  split
  · next parityOnly hstage =>
    refine h.reclaim fun howner => ?_
    subst howner
    obtain ⟨hreads, hwithin⟩ := hrecent rfl
    obtain ⟨r, t, hr, ht, hle⟩ := hseen
    have hordered := hc.evict
    have hgrace := hc.grace
    simp only [stageOf, hreads, if_true, hr, Option.bind_some, ht, Option.getD_some, Option.map_some] at hstage
    have hgen := ofInt_nonneg (le_max_right r.thresholdDays 0)
    have hfactor := (factorOf_bounds r.reliabilityScore).1
    have hevict := @le_thresholdAt c.retentionEvictDays _ _ (by omega) hfactor hgen
    have hreclaim := @le_thresholdAt c.retentionReclaimDays _ _ (by omega) hfactor hgen
    unfold limitDays at hwithin
    split at hwithin
    · -- a parity shard would go at either threshold
      have habsent := @absentDays_lt c.retentionReclaimDays e.now t (by omega) (by omega)
      have hle' : (c.retentionReclaimDays : ℚ) ≤ c.retentionEvictDays := by exact_mod_cast hordered.1
      rw [if_neg (by linarith), if_neg (by linarith)] at hstage
      cases hstage
    · next hdata =>
      have habsent := @absentDays_lt c.retentionEvictDays e.now t (by omega) (by omega)
      rw [if_neg (by linarith)] at hstage
      split at hstage
      · cases hstage
        exact ⟨rfl, by omega⟩
      · cases hstage
  · exact h

/-! ### Runs -/

def fragmentOf : Request → Text
  | .storeShard _ frag _ _ _ _ => frag
  | .deleteShard _ frag _ _ => frag

/-- A request about one fragment leaves the others. -/
theorem request_other (h : Host) (r : Request) {g : Text} (hg : g ≠ fragmentOf r) :
    (Hosting.step h r).store g = h.store g ∧ (Hosting.step h r).hosted g = h.hosted g := by
  cases r with
  | storeShard auth frag owner shardIndex data faults =>
    have hg : g ≠ frag := hg
    simp only [Hosting.step, serve, storeFrom, exec_authorizeOwner]
    split
    · rcases Refusals.store_cases faults h frag owner shardIndex data with ⟨-, heq⟩ | ⟨-, delta, heq⟩
      · rw [heq]
        exact ⟨rfl, rfl⟩
      · rw [heq]
        unfold Refusals.afterChecks
        split
        · exact ⟨rfl, rfl⟩
        · exact ⟨ChunkStore.set_other _ _ hg, rfl⟩
        · dsimp only
          split_ifs
          · exact ⟨ChunkStore.set_other _ _ hg, if_neg hg⟩
          · exact ⟨ChunkStore.set_other _ _ hg, if_neg hg⟩
          · exact ⟨ChunkStore.set_other _ _ hg, rfl⟩
    · exact ⟨rfl, rfl⟩
  | deleteShard auth frag owner faults =>
    have hg : g ≠ frag := hg
    simp only [Hosting.step, serve, deleteFrom, exec_authorizeOwner]
    split
    · have hremoves := delete_removes faults h frag owner g
      rw [if_neg fun hh => hg hh.2.1, if_neg fun hh => hg hh.2.1] at hremoves
      exact hremoves
    · exact ⟨rfl, rfl⟩

/-- What may happen at a host while an owner, seen there last at `since` or later, is away: no request
names the fragment, the owner is not removed from the peers, and a sweep that comes to the owner reads
its row, before half the days for the shard have passed. -/
def Spares (owner frag : Text) (shardIndex since : ℤ) : Action → Prop
  | .request r _ => frag ≠ fragmentOf r
  | .probed _ peer _ _ now | .contacted peer _ _ _ now => peer = owner → since ≤ now
  | .removed peer => owner ≠ peer
  | .swept settings owners env => owner ∈ owners → (env owner).readsRow = true ∧
      (env owner).now - since < limitDays (fromSettings settings) shardIndex * 43200 * SECOND

theorem SeenSince.setPeer {peer : Text} {r : KnownPeer} {t : ℤ} (h : SeenSince k owner since)
    (hr : peer = owner → r.lastSeen = some t ∧ since ≤ t) : SeenSince (k.setPeer peer (some r)) owner since := by
  by_cases heq : owner = peer
  · obtain ⟨ht, hle⟩ := hr heq.symm
    exact ⟨r, t, if_pos heq, ht, hle⟩
  · obtain ⟨r', t', hr', ht', hle'⟩ := h
    exact ⟨r', t', (if_neg heq).trans hr', ht', hle'⟩

theorem step_seenSince {shardIndex : ℤ} {a : Action} (h : SeenSince k owner since)
    (ha : Spares owner frag shardIndex since a) : SeenSince (step k a) owner since := by
  cases a with
  | request r now => exact h
  | probed threshold peer rtt works now =>
    simp only [step, recordPeerHealth]
    split
    · next r hr =>
      split
      · exact h.setPeer fun heq => ⟨rfl, ha heq⟩
      · obtain ⟨r', t, hr', ht, hle⟩ := h
        refine @SeenSince.setPeer k owner since peer _ t ⟨r', t, hr', ht, hle⟩ fun heq => ?_
        rw [heq, hr'] at hr
        cases hr
        exact ⟨ht, hle⟩
    · exact h
  | contacted peer key generosity status now =>
    simp only [step, recordContact]
    split
    · exact h.setPeer fun heq => ⟨rfl, ha heq⟩
    · split
      · exact h.setPeer fun heq => ⟨rfl, ha heq⟩
      · exact h
  | removed peer =>
    obtain ⟨r, t, hr, ht, hle⟩ := h
    exact ⟨r, t, (if_neg ha).trans hr, ht, hle⟩
  | swept settings owners env =>
    obtain ⟨r, t, hr, ht, hle⟩ := h
    exact ⟨r, t, by rw [step, (sweep_leaves ..).peers]; exact hr, ht, hle⟩

theorem Sheltered.sweep {c : InstanceConfig} {owners : List Text} {env : Text → SweepEnv}
    (h : Sheltered k frag row b) (hc : c.Admissible) (hseen : SeenSince k row.ownerPeerId since)
    (hrecent : row.ownerPeerId ∈ owners → (env row.ownerPeerId).readsRow = true ∧
      (env row.ownerPeerId).now - since < limitDays c row.shardIndex * 43200 * SECOND) :
    Sheltered (sweep c owners env k) frag row b := by
  unfold Reciprocity.sweep
  induction owners generalizing k with
  | nil => exact h
  | cons o owners ih =>
    refine ih (h.sweepOwner hc hseen ?_) ?_ fun hin => hrecent (List.mem_cons_of_mem _ hin)
    · rintro rfl
      exact hrecent (List.mem_cons_self ..)
    · obtain ⟨r, t, hr, ht, hle⟩ := hseen
      exact ⟨r, t, by rw [(sweepOwner_leaves ..).peers]; exact hr, ht, hle⟩

theorem step_sheltered {a : Action} (h : Sheltered k frag row b) (hseen : SeenSince k row.ownerPeerId since)
    (ha : Spares row.ownerPeerId frag row.shardIndex since a) : Sheltered (step k a) frag row b := by
  cases a with
  | request r now =>
    obtain ⟨hstore, hhosted⟩ := request_other k.host r ha
    exact ⟨hhosted.trans h.1, hstore.trans h.2⟩
  | probed threshold peer rtt works now =>
    obtain ⟨hhosted, hstore⟩ := recordPeerHealth_frame threshold peer rtt works now k
    exact ⟨(congrFun hhosted frag).trans h.1, (congrFun hstore frag).trans h.2⟩
  | contacted peer key generosity status now =>
    obtain ⟨hhosted, hstore⟩ := recordContact_frame peer key generosity status now k
    exact ⟨(congrFun hhosted frag).trans h.1, (congrFun hstore frag).trans h.2⟩
  | removed peer => exact h
  | swept settings owners env => exact h.sweep (fromSettings_admissible settings) hseen ha

/-- While its owner is away for less than half the days a host keeps a shard, whatever else it does. -/
theorem run_sheltered (h : Sheltered k frag row b) (hseen : SeenSince k row.ownerPeerId since)
    {actions : List Action} (ha : ∀ a ∈ actions, Spares row.ownerPeerId frag row.shardIndex since a) :
    Sheltered (run step k actions) frag row b := by
  have hboth := @run_invariant _ _ step (fun _ a => Spares row.ownerPeerId frag row.shardIndex since a)
    (fun k => Sheltered k frag row b ∧ SeenSince k row.ownerPeerId since)
    (fun _ _ h ha => ⟨step_sheltered h.1 h.2 ha, step_seenSince h.2 ha⟩) k ⟨h, hseen⟩ actions
    (allMeet_of_forall ha)
  exact hboth.1

/-- The bytes and the row of a fragment that no request names are as they were, or gone. -/
structure Fades (k k' : Keeper) (frag : Text) : Prop where
  store : k'.store frag = k.store frag ∨ k'.store frag = none
  hosted : k'.hosted frag = k.hosted frag ∨ k'.hosted frag = none

theorem Fades.trans {k₁ k₂ k₃ : Keeper} (h : Fades k₁ k₂ frag) (h' : Fades k₂ k₃ frag) : Fades k₁ k₃ frag where
  store := by
    rcases h'.store with heq | hnone
    · rw [heq]
      exact h.store
    · exact .inr hnone
  hosted := by
    rcases h'.hosted with heq | hnone
    · rw [heq]
      exact h.hosted
    · exact .inr hnone

theorem step_fades {a : Action} (ha : ∀ r now, a = .request r now → frag ≠ fragmentOf r) :
    Fades k (step k a) frag := by
  cases a with
  | request r now =>
    obtain ⟨hstore, hhosted⟩ := request_other k.host r (ha r now rfl)
    exact ⟨.inl hstore, .inl hhosted⟩
  | probed threshold peer rtt works now =>
    obtain ⟨hhosted, hstore⟩ := recordPeerHealth_frame threshold peer rtt works now k
    exact ⟨.inl (congrFun hstore frag), .inl (congrFun hhosted frag)⟩
  | contacted peer key generosity status now =>
    obtain ⟨hhosted, hstore⟩ := recordContact_frame peer key generosity status now k
    exact ⟨.inl (congrFun hstore frag), .inl (congrFun hhosted frag)⟩
  | removed peer => exact ⟨.inl rfl, .inl rfl⟩
  | swept settings owners env =>
    have hl := sweep_leaves (fromSettings settings) owners env k
    exact ⟨hl.store frag, hl.hosted frag⟩

theorem run_fades {actions : List Action} (ha : ∀ r now, .request r now ∈ actions → frag ≠ fragmentOf r) :
    Fades k (run step k actions) frag :=
  @run_invariant _ _ step (fun _ a => ∀ r now, a = .request r now → frag ≠ fragmentOf r)
    (fun k' => Fades k k' frag) (fun _ _ h hok => h.trans (step_fades hok)) k ⟨.inl rfl, .inl rfl⟩ actions
    (allMeet_of_forall fun _ hin r now heq => ha r now (heq ▸ hin))

end

/-! ### A download after an absence -/

/-- The node's own store and peer table, and its peers after what has happened at each. -/
def afterwards (pl : Health.Places) (keepers : Text → Keeper) (actions : Text → List Action) : Health.Places :=
  { pl with hosts := fun addr => (run step (keepers addr) (actions addr)).host }

theorem afterwards_start (pl : Health.Places) (keepers : Text → Keeper) (addr : Text) :
    ((afterwards pl keepers fun _ => []).hosts addr).store = (keepers addr).store := rfl

theorem afterwards_store (pl : Health.Places) (keepers : Text → Keeper) (actions : Text → List Action) :
    (afterwards pl keepers actions).store = pl.store := rfl

/-- The shard is at home, or was at a peer that has spared it since it saw `me`, that answers and that
the node does not hold for down. -/
inductive Entrusted (pl : Health.Places) (me : Text) (keepers : Text → Keeper) (actions : Text → List Action)
    (s : ShardRow) : Prop where
  | home (hlocal : s.location = LOCAL) (hheld : existsFile pl.store s.fragmentId = true)
  | away {addr : Text} {row : HostedRow} {b : Bytes} {since : ℤ} (haway : s.location ≠ LOCAL)
      (haddr : (Health.readPeers pl).lookup s.location = some addr) (hanswers : pl.answers addr = true)
      (howner : row.ownerPeerId = me)
      (hindex : row.shardIndex = s.shardIndex) (hkept : Sheltered (keepers addr) s.fragmentId row b)
      (hseen : SeenSince (keepers addr) me since)
      (hspared : ∀ a ∈ actions addr, Spares me s.fragmentId s.shardIndex since a)

section
variable {pl : Health.Places} {me : Text} {keepers : Text → Keeper} {actions : Text → List Action}
  {K : Type} {P : Prims K} {f : Text} {c : ProcessedChunk} {truth : ChunkStore} {L : Text → Option Text}

theorem Entrusted.delivered {s : ShardRow} (h : Entrusted pl me keepers actions s)
    (hvalid : isValidFragmentId s.fragmentId = true) :
    Health.delivered (afterwards pl keepers actions) s = true := by
  unfold Health.delivered Health.answerOf
  cases h with
  | home hlocal hheld =>
    rw [if_pos hlocal, ← Health.existsFile_eq]
    exact hheld
  | @away addr row b since haway haddr hanswers howner hindex hkept hseen hspared =>
    subst howner
    rw [← hindex] at hspared
    have hlater := run_sheltered hkept hseen hspared
    have haddr' : (Health.readPeers (afterwards pl keepers actions)).lookup s.location = some addr := haddr
    have hanswers' : (afterwards pl keepers actions).answers addr = true := hanswers
    have hrow : ((afterwards pl keepers actions).hosts addr).hosted s.fragmentId = some row := hlater.1
    have hbytes : ((afterwards pl keepers actions).hosts addr).store s.fragmentId = some b := hlater.2
    have hlisted : (((afterwards pl keepers actions).hosts addr).hosted s.fragmentId).isSome = true := by
      rw [hrow]
      rfl
    rw [if_neg haway, haddr', Option.bind_some, if_pos hanswers', Queries.get, if_pos hlisted, readFile,
      if_pos hvalid, hbytes]
    rfl

/-- What has happened at the peers spoils no copy, when no request named it. -/
theorem unspoilt_afterwards {rows : List ShardRow}
    (h : Health.Unspoilt (afterwards pl keepers fun _ => []) truth rows)
    (hreq : ∀ s ∈ rows, ∀ addr r now, .request r now ∈ actions addr → s.fragmentId ≠ fragmentOf r) :
    Health.Unspoilt (afterwards pl keepers actions) truth rows := by
  intro s hs b hb
  refine h s hs b ?_
  unfold Health.answerOf at hb ⊢
  split at hb
  · next hlocal =>
    rw [if_pos hlocal]
    exact hb
  · next haway =>
    rw [if_neg haway]
    obtain ⟨addr, haddr, hb⟩ := Option.bind_eq_some_iff.mp hb
    rw [Option.ite_none_right_eq_some] at hb
    obtain ⟨hans, hb⟩ := hb
    obtain ⟨hrow, hread⟩ := Health.get_some hb
    refine Option.bind_eq_some_iff.mpr ⟨addr, haddr, ?_⟩
    have hfades : Fades (keepers addr) (run step (keepers addr) (actions addr)) s.fragmentId :=
      run_fades (hreq s hs addr)
    have hlisted : ((keepers addr).hosted s.fragmentId).isSome = true := by
      rcases hfades.hosted with hsame | hgone
      · rw [← hsame]
        exact hrow
      · have hrow' : ((run step (keepers addr) (actions addr)).hosted s.fragmentId).isSome = true := hrow
        rw [hgone] at hrow'
        cases hrow'
    have hsame : (run step (keepers addr) (actions addr)).store s.fragmentId = (keepers addr).store s.fragmentId := by
      rcases hfades.store with hsame | hgone
      · exact hsame
      · exact absurd (hgone.symm.trans (Health.readFile_some hread)) (by simp)
    have hans' : (afterwards pl keepers fun _ => []).answers addr = true := hans
    have hlisted' : (((afterwards pl keepers fun _ => []).hosts addr).hosted s.fragmentId).isSome = true := hlisted
    rw [if_pos hans', Queries.get, if_pos hlisted']
    unfold readFile at hread ⊢
    split at hread
    · next hvalid =>
      rw [if_pos hvalid]
      exact hsame.symm.trans hread
    · cases hread

/-- The data shards of a chunk are ten. -/
theorem ten_of_data {p : ShardRow → Bool}
    (h : ∀ s ∈ (shardRows P f c).map (RepairPass.moveRow L), s.shardIndex < DATA_SHARDS → p s = true) :
    DATA_SHARDS ≤ ((shardRows P f c).map (RepairPass.moveRow L)).countP p := by
  have hten : ((shardRows P f c).map (RepairPass.moveRow L)).countP
      (fun s => s.shardIndex < (DATA_SHARDS : ℤ)) = DATA_SHARDS := by
    rw [List.countP_map, shardRows, List.countP_map]
    rfl
  refine hten.symm.le.trans (List.countP_mono_left fun s hs hdata => ?_)
  exact h s hs (of_decide_eq_true hdata)

/-- While the node is away a file that was stored keeps being downloadable: data shards that are at home or
at peers that have spared them since are enough, whatever has become of the parity, where no copy was
spoilt and no request has named a shard since. The node must not hold those peers for down. -/
theorem absent_owner_downloads (hP : Restores P) {key : K} {u : Text} {cfg : PipelineConfig} {data : Bytes}
    {chunks : List ProcessedChunk} (hproc : processV2 P data key (utf8 u) (utf8 f) cfg = .ok chunks) {db : Db}
    {moves : List (Text × Text)} (hst : Stored P db truth f chunks) {file : FileRow}
    {plan : List (ChunkRow × List ShardRow)}
    (hplan : (pullPlan u f).eval (Health.relocated db moves) pl.store = .ok (file, plan))
    (hscheme : file.keyScheme = Crypto.KeyScheme.V2.asI64) (hcount : file.chunkCount = chunks.length)
    (hun : ∀ p ∈ plan, Health.Unspoilt (afterwards pl keepers fun _ => []) truth p.2)
    (hreq : ∀ p ∈ plan, ∀ s ∈ p.2, ∀ addr r now, .request r now ∈ actions addr → s.fragmentId ≠ fragmentOf r)
    (hdata : ∀ p ∈ plan, ∀ s ∈ p.2, s.shardIndex < DATA_SHARDS → Entrusted pl me keepers actions s)
    {arr : ℕ → List (ShardRow × Option Bytes)} (harr : Health.Arrives (afterwards pl keepers actions) plan arr)
    {fetched : List ChunkFetch} (hf : Fetched P plan arr fetched) :
    fetchAndReassemble P key file fetched = .ok data := by
  obtain ⟨hrow, L, hmoved⟩ := Health.plan_relocated hst hplan
  obtain ⟨hfile, huser, -⟩ := getFile_some hrow
  have hmem : ∀ c ∈ chunks, (chunkRowFor f c, (shardRows P f c).map (RepairPass.moveRow L)) ∈ plan := by
    intro c hc
    rw [hmoved]
    exact List.mem_map_of_mem hc
  refine Health.download_moved hP hproc hst.held huser hfile hscheme hcount (fun c hc => ?_) (fun c hc => ?_)
    hmoved harr hf
  · exact unspoilt_afterwards (hun _ (hmem c hc)) (hreq _ (hmem c hc))
  · refine ten_of_data fun s hs hindex => (hdata _ (hmem c hc) s hs hindex).delivered ?_
    -- a row that was moved names the fragment it was written under
    obtain ⟨s', hs', rfl⟩ := List.mem_map.mp hs
    obtain ⟨i, hi, rfl⟩ := List.mem_map.mp hs'
    exact (hst.held c hc).valid i (List.mem_range.mp hi)

end

/-! ### The sample file with its owner away for eighty-nine days -/

def sampleHosted (frag : Text) : Option HostedRow :=
  ((Health.movedPlan.flatMap Prod.snd).find? fun s => s.fragmentId = frag ∧ s.location = ['b']).map fun s =>
    ⟨['m'], 4096, s.shardIndex⟩

def sampleKeeper : Keeper where
  peers := fun p => if p = ['m'] then some (.new none 7 ACTIVE 0) else none
  hosted := sampleHosted
  storedAt := fun _ => 0
  nodeLocal := some (1000000, 16384)
  store := Health.samplePlaces.store

def sampleSweep (now : ℤ) (order : List Text) : SweepEnv where
  readsRow := true
  readsLatest := true
  fallbackNow := now
  now
  order
  lists := true
  files := fun _ => .works
  rows := fun _ => .works
  credit := .works

def sampleOrder : List Text := (Health.movedPlan.flatMap Prod.snd).map ShardRow.fragmentId

/-- Two probes without an answer, and a sweep after eighty-nine days. -/
def sampleAbsence : List Action :=
  [.probed 5 ['m'] none true SECOND, .probed 5 ['m'] none true (2 * SECOND),
    .swept (fun _ => none) [['m']] fun _ => sampleSweep (89 * 86400 * SECOND) sampleOrder]

theorem movedPlan_entrusted : ∀ p ∈ Health.movedPlan, ∀ s ∈ p.2, s.shardIndex < DATA_SHARDS →
    existsFile Health.samplePlaces.store s.fragmentId = true ∧
      (s.location = LOCAL ∨ s.location = ['b'] ∧ sampleHosted s.fragmentId = some ⟨['m'], 4096, s.shardIndex⟩) := by
  decide +kernel

theorem sampleAbsence_spares {frag : Text} {shardIndex : ℤ} (hdata : shardIndex < DATA_SHARDS) :
    ∀ a ∈ sampleAbsence, Spares ['m'] frag shardIndex 0 a := by
  have hevict : (89 * 86400 * SECOND) - 0 <
      (fromSettings fun _ => none).retentionEvictDays * 43200 * SECOND := by decide +kernel
  simp only [sampleAbsence, List.forall_mem_cons, Spares]
  refine ⟨fun _ => by decide, fun _ => by decide, fun _ => ⟨rfl, ?_⟩, by simp⟩
  rw [limitDays, if_neg (by omega)]
  exact hevict

theorem sampleKeeper_hosted : sampleKeeper.hosted = sampleHosted := by rw [sampleKeeper]

theorem sampleKeeper_store : sampleKeeper.store = Health.samplePlaces.store := by rw [sampleKeeper]

theorem sampleKeeper_seen : SeenSince sampleKeeper ['m'] 0 := by
  refine ⟨.new none 7 ACTIVE 0, 0, ?_, rfl, le_refl _⟩
  rw [sampleKeeper]
  rfl

theorem sampleKeeper_unspoilt (rows : List ShardRow) :
    Health.Unspoilt (afterwards Health.samplePlaces (fun _ => sampleKeeper) fun _ => []) Health.samplePlaces.store
      rows := by
  have hsame := @Health.unspoilt_same (afterwards Health.samplePlaces (fun _ => sampleKeeper) fun _ => [])
    (fun addr => by rw [afterwards_start, afterwards_store, sampleKeeper_store]) rows
  rwa [afterwards_store] at hsame

theorem sampleAbsence_entrusted : ∀ p ∈ Health.movedPlan, ∀ s ∈ p.2, s.shardIndex < DATA_SHARDS →
    Entrusted Health.samplePlaces ['m'] (fun _ => sampleKeeper) (fun _ => sampleAbsence) s := by
  intro p hp s hs hdata
  obtain ⟨hheld, hlocal | ⟨hb, hrow⟩⟩ := movedPlan_entrusted p hp s hs hdata
  · exact .home hlocal hheld
  · have hthere := hheld
    rw [existsFile, Bool.and_eq_true] at hthere
    obtain ⟨b, hbytes⟩ := Option.isSome_iff_exists.mp hthere.2
    have hkept : Sheltered sampleKeeper s.fragmentId ⟨['m'], 4096, s.shardIndex⟩ b := by
      unfold Sheltered
      rw [sampleKeeper_hosted, sampleKeeper_store]
      exact ⟨hrow, hbytes⟩
    have haddr : (Health.readPeers Health.samplePlaces).lookup s.location = some ['x'] := by
      rw [hb]
      decide
    exact .away (by rw [hb]; decide) haddr rfl rfl rfl hkept sampleKeeper_seen (sampleAbsence_spares hdata)

/-- It downloads. -/
theorem absent_owner_downloads_sample : SeenSince sampleKeeper ['m'] 0 ∧ ∀ arr fetched,
    Health.Arrives (afterwards Health.samplePlaces (fun _ => sampleKeeper) fun _ => sampleAbsence) Health.movedPlan arr →
    Fetched (Sample.sample []) Health.movedPlan arr fetched →
    fetchAndReassemble (Sample.sample []) .node sampleFile fetched = .ok sampleData := by
  have hnone : ∀ r now, Action.request r now ∉ sampleAbsence := by simp [sampleAbsence]
  refine ⟨sampleKeeper_seen, fun arr fetched harr hf => ?_⟩
  exact absent_owner_downloads ⟨Sample.sample_aead [], Sample.sample_zstd [], Sample.sample_rs []⟩
    Health.sampleChunks_processed Health.sampleStored_stored Health.movedPlan_listed Health.sampleFile_scheme
    Health.sampleFile_count (fun p _ => sampleKeeper_unspoilt p.2)
    (fun _ _ _ _ _ r now hin => absurd hin (hnone r now)) sampleAbsence_entrusted harr hf

/-! ### An owner that is gone -/

section
variable {k : Keeper} {owner : Text} {since granted : ℤ}

/-- The node has seen nothing of the owner after that time, and grants it no more days than these. -/
structure Forsaken (k : Keeper) (owner : Text) (since granted : ℤ) : Prop where
  seen : ∀ r t, k.peers owner = some r → r.lastSeen = some t → t ≤ since
  days : ∀ r, k.peers owner = some r → r.thresholdDays ≤ granted
  stored : ∀ g row, k.hosted g = some row → row.ownerPeerId = owner → k.storedAt g ≤ since

/-- Nothing comes from the owner. -/
def Silent (owner : Text) : Action → Prop
  | .request r _ => r.owner ≠ owner
  | .probed _ peer rtt _ _ => peer = owner → rtt = none
  | .contacted peer _ _ _ _ => peer ≠ owner
  | .removed _ | .swept .. => True

/-- The half days after which an owner without any credit is let go, twice the days granted included. -/
def lastHalves (c : InstanceConfig) (granted : ℤ) : ℤ := 3 * c.retentionEvictDays + 2 * granted

/-- A row after a request was there before, or is the caller's. -/
theorem request_rows (h : Host) (r : Request) {g : Text} {row : HostedRow}
    (hrow : (Hosting.step h r).hosted g = some row) : h.hosted g = some row ∨ row.ownerPeerId = r.owner := by
  by_cases hg : g = fragmentOf r
  · cases r with
    | storeShard auth frag owner shardIndex data faults =>
      simp only [Hosting.step, serve, storeFrom, exec_authorizeOwner] at hrow
      split at hrow
      · rcases Refusals.store_cases faults h frag owner shardIndex data with ⟨-, heq⟩ | ⟨-, delta, heq⟩
        · rw [heq] at hrow
          exact .inl hrow
        · rw [heq] at hrow
          unfold Refusals.afterChecks at hrow
          have hset : ∀ row', (if g = frag then some row' else h.hosted g) = some row →
              h.hosted g = some row ∨ row = row' := by
            intro row' h'
            split at h'
            · exact .inr (Option.some.inj h').symm
            · exact .inl h'
          split at hrow
          · exact .inl hrow
          · exact .inl hrow
          · dsimp only at hrow
            split_ifs at hrow
            · exact (hset _ hrow).imp_right fun heq => by rw [heq]; rfl
            · exact (hset _ hrow).imp_right fun heq => by rw [heq]; rfl
            · exact .inl hrow
      · exact .inl hrow
    | deleteShard auth frag owner faults =>
      simp only [Hosting.step, serve, deleteFrom, exec_authorizeOwner] at hrow
      split at hrow
      · rw [(delete_removes faults h frag owner g).2] at hrow
        split at hrow
        · cases hrow
        · exact .inl hrow
      · exact .inl hrow
  · rw [(request_other h r hg).2] at hrow
    exact .inl hrow

theorem Forsaken.of_leaves {k' : Keeper} (h : Forsaken k owner since granted) (hl : Leaves k k') :
    Forsaken k' owner since granted where
  seen r t hr := h.seen r t (hl.peers ▸ hr)
  days r hr := h.days r (hl.peers ▸ hr)
  stored g row hrow howner := by
    rw [hl.storedAt]
    rcases hl.hosted g with heq | hnone
    · exact h.stored g row (heq ▸ hrow) howner
    · rw [hnone] at hrow
      cases hrow

/-- A change to another peer's row, or one to the owner's that leaves both columns. -/
theorem Forsaken.setPeer {peer : Text} {o : Option KnownPeer} (h : Forsaken k owner since granted)
    (ho : peer = owner → ∀ r', o = some r' → ∃ r, k.peers owner = some r ∧ r'.lastSeen = r.lastSeen ∧
      r'.thresholdDays = r.thresholdDays) : Forsaken (k.setPeer peer o) owner since granted := by
  have hback : ∀ r', (k.setPeer peer o).peers owner = some r' → ∃ r, k.peers owner = some r ∧
      r'.lastSeen = r.lastSeen ∧ r'.thresholdDays = r.thresholdDays := by
    intro r' hr'
    by_cases heq : owner = peer
    · exact ho heq.symm r' ((if_pos heq).symm.trans hr')
    · exact ⟨r', (if_neg heq).symm.trans hr', rfl, rfl⟩
  refine ⟨fun r' t hr' ht => ?_, fun r' hr' => ?_, h.stored⟩
  · obtain ⟨r, hr, hseen, -⟩ := hback r' hr'
    exact h.seen r t hr (hseen ▸ ht)
  · obtain ⟨r, hr, -, hdays⟩ := hback r' hr'
    exact hdays ▸ h.days r hr

theorem step_forsaken {a : Action} (h : Forsaken k owner since granted) (ha : Silent owner a) :
    Forsaken (step k a) owner since granted := by
  cases a with
  | request r now =>
    refine ⟨h.seen, h.days, fun g row hrow howner => ?_⟩
    have hbefore : k.hosted g = some row := by
      rcases request_rows k.host r hrow with hbefore | hcaller
      · exact hbefore
      · exact absurd (hcaller.symm.trans howner) ha
    have hold : (step k (.request r now)).storedAt g = k.storedAt g := by
      simp [step, Keeper.serve, hbefore]
    rw [hold]
    exact h.stored g row hbefore howner
  | probed threshold peer rtt works now =>
    simp only [step, recordPeerHealth]
    split
    · next r hr =>
      split
      · exact h.setPeer fun heq => absurd (ha heq) (by simp)
      · refine h.setPeer fun heq r' hr' => ⟨r, heq ▸ hr, ?_⟩
        cases hr'
        exact ⟨rfl, rfl⟩
    · exact h
  | contacted peer key generosity status now =>
    simp only [step, recordContact]
    split
    · exact h.setPeer fun heq => absurd heq ha
    · split
      · exact h.setPeer fun heq => absurd heq ha
      · exact h
  | removed peer => exact h.setPeer fun _ r' hr' => by cases hr'
  | swept settings owners env => exact h.of_leaves (sweep_leaves ..)

/-- What makes a sweep that comes to the owner late enough let go of it; whether the owner's row is read
plays no part. -/
structure Final (c : InstanceConfig) (e : SweepEnv) (owner : Text) (since granted : ℤ) (k : Keeper) : Prop where
  late : lastHalves c granted * 43200 * SECOND ≤ e.now - since
  latest : e.readsLatest = true
  lists : e.lists = true
  complete : ∀ g row, k.hosted g = some row → row.ownerPeerId = owner → g ∈ e.order

theorem Final.of_leaves {c : InstanceConfig} {e : SweepEnv} {k' : Keeper} (h : Final c e owner since granted k)
    (hl : Leaves k k') : Final c e owner since granted k' where
  late := h.late
  latest := h.latest
  lists := h.lists
  complete g row hrow howner := by
    rcases hl.hosted g with heq | hnone
    · exact h.complete g row (heq ▸ hrow) howner
    · rw [hnone] at hrow
      cases hrow

theorem fallbackReference_le {e : SweepEnv} (h : Forsaken k owner since granted) (hlatest : e.readsLatest = true)
    {g : Text} {row : HostedRow} (hrow : k.hosted g = some row) (howner : row.ownerPeerId = owner)
    (hin : g ∈ e.order) : fallbackReference e k owner ≤ since := by
  unfold fallbackReference
  rw [if_pos hlatest]
  generalize hstored : (e.order.filter fun g => (k.hosted g).any fun row => row.ownerPeerId = owner).map k.storedAt =
    stored
  have hmem : k.storedAt g ∈ stored := by
    rw [← hstored]
    exact List.mem_map_of_mem (List.mem_filter.mpr ⟨hin, by simp [hrow, howner]⟩)
  cases hmax : stored.max? with
  | none =>
    rw [List.max?_eq_none_iff.mp hmax] at hmem
    cases hmem
  | some t =>
    have ht := List.max?_mem hmax
    rw [← hstored] at ht
    obtain ⟨g', hg', rfl⟩ := List.mem_map.mp ht
    obtain ⟨row', hrow', howner'⟩ := (Option.any_eq_true _ _).mp (List.mem_filter.mp hg').2
    exact h.stored g' row' hrow' (of_decide_eq_true howner')

/-- While anything is hosted for it, a late sweep finds the owner due for everything. -/
theorem stageOf_final {c : InstanceConfig} {e : SweepEnv} (hc : c.Admissible)
    (hgranted : 0 ≤ granted ∧ granted < 2 ^ 31) (h : Forsaken k owner since granted)
    (hfinal : Final c e owner since granted k) {g : Text} {row : HostedRow} (hrow : k.hosted g = some row)
    (howner : row.ownerPeerId = owner) : stageOf c e owner k = some false := by
  have hevict := hc.evict
  have hgrace := hc.grace
  have hlate := hfinal.late
  have hfallback := fallbackReference_le h hfinal.latest hrow howner (hfinal.complete g row hrow howner)
  generalize hr : (if e.readsRow then k.peers owner else none) = r
  have hknown : ∀ r', r = some r' → k.peers owner = some r' := by
    intro r' h'
    rw [h'] at hr
    split at hr
    · exact hr
    · cases hr
  have hreference : (r.bind KnownPeer.lastSeen).getD (fallbackReference e k owner) ≤ since := by
    cases hseen : r.bind KnownPeer.lastSeen with
    | none => exact hfallback
    | some t =>
      obtain ⟨r', hr', ht⟩ := Option.bind_eq_some_iff.mp hseen
      exact h.seen r' t (hknown r' hr') ht
  have hdays : (r.map KnownPeer.thresholdDays).getD 0 ≤ granted := by
    cases r with
    | none => exact hgranted.1
    | some r' => exact h.days r' (hknown r' rfl)
  have hthreshold := @thresholdAt_le c.retentionEvictDays (max ((r.map KnownPeer.thresholdDays).getD 0) 0)
    (factorOf ((r.map KnownPeer.reliabilityScore).getD 0)) (by omega) (by omega) (factorOf_bounds _).2
  have habsent := @le_absentDays (lastHalves c granted) e.now
    ((r.bind KnownPeer.lastSeen).getD (fallbackReference e k owner)) (by unfold lastHalves; omega) (by omega)
  have hgrant : ((max ((r.map KnownPeer.thresholdDays).getD 0) 0 : ℤ) : ℚ) ≤ granted := by
    exact_mod_cast max_le hdays hgranted.1
  unfold lastHalves at habsent
  push_cast at habsent hthreshold hgrant
  unfold stageOf
  simp only [hr]
  refine if_pos (hthreshold.trans (le_trans ?_ habsent))
  linarith

theorem sweepOwner_final {c : InstanceConfig} {e : SweepEnv} (hc : c.Admissible)
    (hgranted : 0 ≤ granted ∧ granted < 2 ^ 31) (h : Forsaken k owner since granted)
    (hfinal : Final c e owner since granted k) {g : Text} {row : HostedRow} (hrow : k.hosted g = some row)
    (howner : row.ownerPeerId = owner) :
    (e.rows g = .works → (sweepOwner c e owner k).hosted g = none) ∧
      (e.files g = .works → isValidFragmentId g = true → (sweepOwner c e owner k).store g = none) := by
  have hin : g ∈ reclaimed k.host owner false e.order :=
    mem_reclaimed.mpr ⟨hfinal.complete g row hrow howner, row, hrow, howner, fun hno => by cases hno⟩
  have hleaves := @reclaim_leaves owner k.host false e.order e.files e.rows e.credit g
  unfold sweepOwner
  simp only [stageOf_final hc hgranted h hfinal hrow howner, hfinal.lists, if_true]
  refine ⟨fun hrows => ?_, fun hfiles hvalid => ?_⟩
  · rw [Keeper.withHost_hosted, hleaves.2, if_pos ⟨hin, hrows⟩]
  · rw [Keeper.withHost_store, hleaves.1, if_pos ⟨hin, hvalid, hfiles⟩]

/-- A sweep at another owner. -/
theorem sweepOwner_other {c : InstanceConfig} {e : SweepEnv} {swept g : Text} {row : HostedRow}
    (hrow : k.hosted g = some row) (hne : row.ownerPeerId ≠ swept) :
    (sweepOwner c e swept k).hosted g = some row := by
  unfold sweepOwner
  split
  · next parityOnly _ =>
    have hout : g ∉ reclaimed k.host swept parityOnly (if e.lists then e.order else []) := by
      rw [mem_reclaimed]
      rintro ⟨-, row', hrow', howner, -⟩
      obtain rfl : row = row' := Option.some.inj (hrow.symm.trans hrow')
      exact hne howner
    rw [Keeper.withHost_hosted, (reclaim_leaves ..).2, if_neg fun hin => hout hin.1]
    exact hrow
  · exact hrow

theorem sweep_final {c : InstanceConfig} {env : Text → SweepEnv} (hc : c.Admissible)
    (hgranted : 0 ≤ granted ∧ granted < 2 ^ 31) {owners : List Text} (hmem : owner ∈ owners)
    (h : Forsaken k owner since granted) (hfinal : Final c (env owner) owner since granted k) {g : Text}
    {row : HostedRow} (hrow : k.hosted g = some row) (howner : row.ownerPeerId = owner) :
    ((env owner).rows g = .works → (sweep c owners env k).hosted g = none) ∧
      ((env owner).files g = .works → isValidFragmentId g = true → (sweep c owners env k).store g = none) := by
  unfold sweep
  induction owners generalizing k with
  | nil => cases hmem
  | cons o owners ih =>
    have hl := sweepOwner_leaves c (env o) o k
    by_cases ho : o = owner
    · subst ho
      have hnow := sweepOwner_final hc hgranted h hfinal hrow howner
      have hrest := sweep_leaves c owners env (sweepOwner c (env o) o k)
      refine ⟨fun hrows => ?_, fun hfiles hvalid => ?_⟩
      · exact (hrest.hosted g).elim (fun heq => heq.trans (hnow.1 hrows)) id
      · exact (hrest.store g).elim (fun heq => heq.trans (hnow.2 hfiles hvalid)) id
    · have hin : owner ∈ owners := (List.mem_cons.mp hmem).resolve_left fun heq => ho heq.symm
      exact ih hin (h.of_leaves hl) (hfinal.of_leaves hl)
        (sweepOwner_other hrow fun heq => ho (heq.symm.trans howner))

/-- Nothing comes to be hosted for a silent owner. -/
theorem step_vacant {a : Action} (h : ∀ g row, k.hosted g = some row → row.ownerPeerId ≠ owner)
    (ha : Silent owner a) : ∀ g row, (step k a).hosted g = some row → row.ownerPeerId ≠ owner := by
  intro g row hrow
  cases a with
  | request r now =>
    rcases request_rows k.host r hrow with hbefore | hcaller
    · exact h g row hbefore
    · exact hcaller ▸ ha
  | probed threshold peer rtt works now =>
    rw [step, (recordPeerHealth_frame ..).1] at hrow
    exact h g row hrow
  | contacted peer key generosity status now =>
    rw [step, (recordContact_frame ..).1] at hrow
    exact h g row hrow
  | removed peer => exact h g row hrow
  | swept settings owners env =>
    rcases (sweep_leaves (fromSettings settings) owners env k).hosted g with heq | hnone
    · exact h g row (heq ▸ hrow)
    · rw [step, hnone] at hrow
      cases hrow

/-- An owner of which nothing comes is let go: after a sweep that comes to it once half its days again
have passed and what the node grants on top, and whose statements work, nothing is recorded for it to the
end of the run, and no bytes of what was recorded are left. -/
theorem gone_owner_evicted (h : Forsaken k owner since granted) (hgranted : 0 ≤ granted ∧ granted < 2 ^ 31)
    {before after : List Action} (hbefore : ∀ a ∈ before, Silent owner a) (hafter : ∀ a ∈ after, Silent owner a)
    {settings : Console} {owners : List Text} {env : Text → SweepEnv} (hmem : owner ∈ owners)
    (hfinal : Final (fromSettings settings) (env owner) owner since granted (run step k before))
    (hrows : ∀ g, (env owner).rows g = .works) (hfiles : ∀ g, (env owner).files g = .works) :
    (∀ g row, (run step k (before ++ .swept settings owners env :: after)).hosted g = some row →
      row.ownerPeerId ≠ owner) ∧
    ∀ g row, (run step k before).hosted g = some row → row.ownerPeerId = owner → isValidFragmentId g = true →
      (∀ r now, .request r now ∈ after → g ≠ fragmentOf r) →
      (run step k (before ++ .swept settings owners env :: after)).store g = none := by
  have hc := fromSettings_admissible settings
  have hforsaken : Forsaken (run step k before) owner since granted :=
    @run_invariant _ _ step (fun _ a => Silent owner a) (fun k => Forsaken k owner since granted)
      (fun _ _ h ha => step_forsaken h ha) k h before (allMeet_of_forall hbefore)
  have hrun : run step k (before ++ .swept settings owners env :: after) =
      run step (sweep (fromSettings settings) owners env (run step k before)) after := by
    simp only [run, List.foldl_append, List.foldl_cons]
    rfl
  rw [hrun]
  generalize run step k before = k₁ at hfinal hforsaken
  refine ⟨?_, fun g row hrow howner hvalid hreq => ?_⟩
  · refine @run_invariant _ _ step (fun _ a => Silent owner a)
      (fun k => ∀ g row, k.hosted g = some row → row.ownerPeerId ≠ owner) (fun _ _ h ha => step_vacant h ha)
      _ ?_ after (allMeet_of_forall hafter)
    intro g row hrow howner
    have hbefore : k₁.hosted g = some row := by
      rcases (sweep_leaves (fromSettings settings) owners env k₁).hosted g with heq | hnone
      · exact heq ▸ hrow
      · rw [hnone] at hrow
        cases hrow
    have hgone := (sweep_final hc hgranted hmem hforsaken hfinal hbefore howner).1 (hrows g)
    rw [hgone] at hrow
    cases hrow
  · have hgone := (sweep_final hc hgranted hmem hforsaken hfinal hrow howner).2 (hfiles g) hvalid
    rcases (@run_fades (sweep (fromSettings settings) owners env k₁) g after hreq).store with heq | hnone
    · exact heq.trans hgone
    · exact hnone

end


/-! ### The sample peer lets it go -/

/-- A sweep after two hundred and seventy-seven days. -/
def sampleRecall : Action :=
  .swept (fun _ => none) [['m']] fun _ => sampleSweep (277 * 86400 * SECOND) sampleOrder

theorem sampleHosted_listed {g : Text} {row : HostedRow} (h : sampleHosted g = some row) : g ∈ sampleOrder := by
  obtain ⟨s, hs, -⟩ := Option.map_eq_some_iff.mp h
  have hfrag := List.find?_some hs
  simp only [decide_eq_true_eq] at hfrag
  exact hfrag.1 ▸ List.mem_map_of_mem (List.mem_of_find?_eq_some hs)

theorem sampleKeeper_forsaken : Forsaken sampleKeeper ['m'] 0 7 := by
  have hpeers : ∀ r, sampleKeeper.peers ['m'] = some r → r = .new none 7 ACTIVE 0 := by
    intro r hr
    rw [sampleKeeper] at hr
    exact (Option.some.inj hr).symm
  refine ⟨fun r t hr ht => ?_, fun r hr => ?_, fun g row _ _ => by rw [sampleKeeper]⟩
  · rw [hpeers r hr] at ht
    exact (Option.some.inj ht).symm.le
  · rw [hpeers r hr]
    exact le_refl _

theorem sampleRecall_final : Final (fromSettings fun _ => none) (sampleSweep (277 * 86400 * SECOND) sampleOrder) ['m']
    0 7 (run step sampleKeeper [.probed 5 ['m'] none true SECOND]) where
  late := by decide +kernel
  latest := rfl
  lists := rfl
  complete g row hrow _ := by
    have hsame : (run step sampleKeeper [.probed 5 ['m'] none true SECOND]).hosted = sampleHosted :=
      (recordPeerHealth_frame ..).1.trans sampleKeeper_hosted
    rw [hsame] at hrow
    exact sampleHosted_listed hrow

/-- Neither rows nor bytes are left. -/
theorem gone_owner_evicted_sample :
    (∀ g row, (run step sampleKeeper ([.probed 5 ['m'] none true SECOND] ++ [sampleRecall])).hosted g = some row →
      row.ownerPeerId ≠ ['m']) ∧
    ∀ g row, (run step sampleKeeper [.probed 5 ['m'] none true SECOND]).hosted g = some row →
      row.ownerPeerId = ['m'] → isValidFragmentId g = true → (∀ r now, Action.request r now ∈ [] → g ≠ fragmentOf r) →
      (run step sampleKeeper ([.probed 5 ['m'] none true SECOND] ++ [sampleRecall])).store g = none :=
  gone_owner_evicted sampleKeeper_forsaken (by omega) (by simp [Silent]) (by simp) (List.mem_singleton_self _)
    sampleRecall_final (fun _ => rfl) fun _ => rfl

end P2pnas.Node.Reciprocity
