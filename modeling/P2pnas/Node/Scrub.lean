import Mathlib.Data.Nat.ModEq
import P2pnas.Lib.Frames
import P2pnas.Lib.Strings

/-!
# Which local shards a pass verifies (`repair.rs:165-205`)

The bucket of a pass is the slot of the wall clock it runs in, so a pass that runs late can fall
into the slot of the next one. A slot is skipped when its own pass comes too late and the pass
before it does not.
-/

namespace P2pnas.Node.Scrub
open P2pnas.Lib.Frames P2pnas.Lib.Strings

def SCRUB_CYCLE_SECS : ℕ := 7 * 24 * 60 * 60

/-- `fnv1a`. -/
def fnv1a (bytes : Bytes) : UInt64 :=
  bytes.foldl (fun h b => (h ^^^ b.toUInt64) * 0x1000000001b3) 0xcbf29ce484222325

structure ScrubPlan where
  bucket : ℕ
  buckets : ℕ
  deriving DecidableEq, Repr

/-- `ScrubPlan::new`. -/
def ScrubPlan.new (nowSecs intervalSecs : ℕ) : ScrubPlan :=
  let interval := max intervalSecs 1
  let buckets := max (SCRUB_CYCLE_SECS / interval) 1
  ⟨nowSecs / interval % buckets, buckets⟩

/-- `ScrubPlan::due`. -/
def ScrubPlan.due (plan : ScrubPlan) (fragmentId : Text) : Bool :=
  (fnv1a (utf8 fragmentId)).toNat % plan.buckets = plan.bucket

/-! ### Passes and their turns -/

section
variable (t₀ interval : ℕ) (delay : ℕ → ℕ) (fragmentId : Text)

/-- Whether pass `k`, due at `t₀ + k * interval` and delayed, verifies a fragment. -/
def verifies (k : ℕ) : Bool :=
  (ScrubPlan.new (t₀ + k * interval + delay k) interval).due fragmentId

/-- The delay carries pass `k` into the slot of the next pass. -/
def Late (k : ℕ) : Prop := interval ≤ t₀ % interval + delay k

/-- Pass `k` is late and the pass before it is not, so no pass runs in the slot. -/
def Skipped (k : ℕ) : Prop := Late t₀ interval delay k ∧ ¬ Late t₀ interval delay (k - 1)

/-- The passes of a cycle. -/
def cycle : ℕ := SCRUB_CYCLE_SECS / interval

/-- The first pass from `start` on whose turn it is to verify a fragment. -/
def turn (start : ℕ) : ℕ :=
  start + ((fnv1a (utf8 fragmentId)).toNat % cycle interval +
    (cycle interval - (t₀ / interval + start) % cycle interval)) % cycle interval

/-- Both turns of a fragment in the two cycles from `start` on are skipped. When the first turn is at
`start` itself, the pass before it is not one of them, and the last pass of the two cycles may come
late enough for the third turn. -/
def SkippedTwice (start : ℕ) : Prop :=
  if start < turn t₀ interval fragmentId start then
    Skipped t₀ interval delay (turn t₀ interval fragmentId start) ∧
      Skipped t₀ interval delay (turn t₀ interval fragmentId start + cycle interval)
  else
    Late t₀ interval delay start ∧ Skipped t₀ interval delay (start + cycle interval) ∧
      ¬ Late t₀ interval delay (start + 2 * cycle interval - 1)

instance (k : ℕ) : Decidable (Late t₀ interval delay k) := Nat.decLe _ _

instance (k : ℕ) : Decidable (Skipped t₀ interval delay k) := instDecidableAnd

instance (start : ℕ) : Decidable (SkippedTwice t₀ interval delay fragmentId start) := by
  unfold SkippedTwice
  infer_instance

end

section
variable {t₀ interval : ℕ} {delay : ℕ → ℕ} {fragmentId : Text}

/-- The slot a pass runs in. -/
theorem slot_eq (hi : 0 < interval) {k : ℕ} (hd : delay k < interval) :
    (t₀ + k * interval + delay k) / interval =
      t₀ / interval + k + if Late t₀ interval delay k then 1 else 0 := by
  have hsplit : t₀ + k * interval + delay k =
      (t₀ % interval + delay k) + interval * (t₀ / interval + k) := by
    have hdiv := Nat.mod_add_div t₀ interval
    rw [Nat.mul_add, Nat.mul_comm interval k]
    omega
  have hmod := Nat.mod_lt t₀ hi
  rw [hsplit, Nat.add_mul_div_left _ _ hi]
  by_cases hlate : Late t₀ interval delay k
  · rw [if_pos hlate]
    rw [Late] at hlate
    have hone : (t₀ % interval + delay k) / interval = 1 := by
      rw [Nat.div_eq_iff hi]
      omega
    omega
  · rw [if_neg hlate]
    rw [Late] at hlate
    rw [Nat.div_eq_of_lt (by omega)]
    omega

theorem verifies_iff (hi : 0 < interval) (hc : 0 < cycle interval) {k : ℕ} (hd : delay k < interval) :
    verifies t₀ interval delay fragmentId k = true ↔
      (fnv1a (utf8 fragmentId)).toNat % cycle interval =
        (t₀ / interval + k + if Late t₀ interval delay k then 1 else 0) % cycle interval := by
  rw [verifies, ScrubPlan.due, decide_eq_true_eq, ScrubPlan.new]
  dsimp only
  rw [Nat.max_eq_left hi, ← cycle, Nat.max_eq_left hc, slot_eq hi hd]

/-- It is the fragment's turn at `turn`, within the cycle from `start` on. -/
theorem turn_spec (hc : 0 < cycle interval) (start : ℕ) :
    start ≤ turn t₀ interval fragmentId start ∧
      turn t₀ interval fragmentId start < start + cycle interval ∧
      (t₀ / interval + turn t₀ interval fragmentId start) % cycle interval =
        (fnv1a (utf8 fragmentId)).toNat % cycle interval := by
  set c := cycle interval with hcdef
  set h := (fnv1a (utf8 fragmentId)).toNat % c with hh
  set a := t₀ / interval + start with ha
  have hlt : (h + (c - a % c)) % c < c := Nat.mod_lt _ hc
  have hturn : turn t₀ interval fragmentId start = start + (h + (c - a % c)) % c := rfl
  refine ⟨by omega, by omega, ?_⟩
  have hamod := Nat.mod_lt a hc
  have hsum : a + (h + (c - a % c)) = h + c * (a / c + 1) := by
    have hdiv := Nat.mod_add_div a c
    rw [Nat.mul_add, Nat.mul_one]
    omega
  calc (t₀ / interval + turn t₀ interval fragmentId start) % c
      = (a + (h + (c - a % c)) % c) % c := by rw [hturn, ← Nat.add_assoc]
    _ = (a + (h + (c - a % c))) % c := Nat.add_mod_mod _ _ _
    _ = (h + c * (a / c + 1)) % c := by rw [hsum]
    _ = h % c := Nat.add_mul_mod_self_left _ _ _
    _ = h := Nat.mod_mod _ _

/-- Two numbers of one residue, at most two cycles from the start. -/
theorem same_turn {c a j x : ℕ} (hj : j < c) (hx : x ≤ 2 * c) :
    (a + j) % c = (a + x) % c ↔ x = j ∨ x = j + c ∨ x = j + 2 * c := by
  constructor
  · intro h
    have hmod : j % c = x % c := Nat.ModEq.add_left_cancel' a h
    rw [Nat.mod_eq_of_lt hj] at hmod
    have hdiv := Nat.mod_add_div x c
    rw [← hmod] at hdiv
    have hq : x / c ≤ 2 := by
      rw [Nat.div_le_iff_le_mul_add_pred (by omega)]
      omega
    generalize x / c = q at hdiv hq
    obtain rfl | rfl | rfl : q = 0 ∨ q = 1 ∨ q = 2 := by omega
    · omega
    · omega
    · omega
  · rintro (rfl | rfl | rfl)
    · rfl
    · rw [← Nat.add_assoc, Nat.add_mod_right]
    · rw [← Nat.add_assoc, Nat.add_mul_mod_self_right]

/-- Within two cycles a pass verifies a fragment exactly when it runs in the slot of one of its
turns. -/
theorem verifies_turn (hi : 0 < interval) (hc : 0 < cycle interval) {start k : ℕ}
    (hd : delay k < interval) (hk : start ≤ k) (hk2 : k < start + 2 * cycle interval) :
    verifies t₀ interval delay fragmentId k = true ↔
      ∃ k', (k' = turn t₀ interval fragmentId start ∨
          k' = turn t₀ interval fragmentId start + cycle interval ∨
          k' = turn t₀ interval fragmentId start + 2 * cycle interval) ∧
        (k = k' ∧ ¬ Late t₀ interval delay k ∨ k + 1 = k' ∧ Late t₀ interval delay k) := by
  obtain ⟨hge, hlt, hturn⟩ := @turn_spec t₀ interval fragmentId hc start
  have hslot : ∀ l, l ≤ 1 → ((fnv1a (utf8 fragmentId)).toNat % cycle interval =
      (t₀ / interval + k + l) % cycle interval ↔
        k + l = turn t₀ interval fragmentId start ∨
        k + l = turn t₀ interval fragmentId start + cycle interval ∨
        k + l = turn t₀ interval fragmentId start + 2 * cycle interval) := by
    intro l hl
    have hsame := @same_turn (cycle interval) (t₀ / interval + start)
      (turn t₀ interval fragmentId start - start) (k + l - start) (by omega) (by omega)
    have hleft : t₀ / interval + start + (turn t₀ interval fragmentId start - start) =
        t₀ / interval + turn t₀ interval fragmentId start := by omega
    have hright : t₀ / interval + start + (k + l - start) = t₀ / interval + k + l := by omega
    rw [hleft, hright, hturn] at hsame
    rw [hsame]
    omega
  rw [verifies_iff hi hc hd]
  by_cases hlate : Late t₀ interval delay k
  · rw [if_pos hlate, hslot 1 le_rfl]
    simp [hlate]
  · rw [if_neg hlate, hslot 0 (Nat.zero_le 1)]
    simp [hlate]

/-- In two cycles of passes a fragment is verified exactly when its turns there are not skipped both
times. -/
theorem verified_of_notSkipped (hi : 0 < interval) (hc : 0 < cycle interval)
    (hd : ∀ k, delay k < interval) (start : ℕ) :
    (∃ k, start ≤ k ∧ k < start + 2 * cycle interval ∧ verifies t₀ interval delay fragmentId k = true) ↔
      ¬ SkippedTwice t₀ interval delay fragmentId start := by
  obtain ⟨hge, hlt, -⟩ := @turn_spec t₀ interval fragmentId hc start
  have hpass := fun k => @verifies_turn t₀ interval delay fragmentId hi hc start k (hd k)
  rw [SkippedTwice]
  generalize turn t₀ interval fragmentId start = T at hge hlt hpass ⊢
  constructor
  · rintro ⟨k, hk, hk2, hverifies⟩ hskip
    obtain ⟨k', hk', hrun⟩ := (hpass k hk hk2).mp hverifies
    split at hskip
    · obtain ⟨⟨hfirst, hbefore⟩, hsecond, hbefore2⟩ := hskip
      rcases hrun with ⟨rfl, hpunctual⟩ | ⟨hnext, hlate⟩
      · rcases hk' with rfl | rfl | rfl
        · exact hpunctual hfirst
        · exact hpunctual hsecond
        · omega
      · rcases hk' with rfl | rfl | rfl
        · exact hbefore (by rw [← hnext, Nat.add_sub_cancel]; exact hlate)
        · exact hbefore2 (by rw [← hnext, Nat.add_sub_cancel]; exact hlate)
        · omega
    · obtain ⟨hfirst, ⟨hsecond, hbefore2⟩, hlast⟩ := hskip
      obtain rfl : start = T := by omega
      rcases hrun with ⟨rfl, hpunctual⟩ | ⟨hnext, hlate⟩
      · rcases hk' with rfl | rfl | rfl
        · exact hpunctual hfirst
        · exact hpunctual hsecond
        · omega
      · rcases hk' with rfl | rfl | rfl
        · omega
        · exact hbefore2 (by rw [← hnext, Nat.add_sub_cancel]; exact hlate)
        · exact hlast (by rw [← hnext, Nat.add_sub_cancel]; exact hlate)
  · intro hskip
    by_contra hnone
    have hmiss : ∀ k, start ≤ k → k < start + 2 * cycle interval → ∀ k',
        (k' = T ∨ k' = T + cycle interval ∨ k' = T + 2 * cycle interval) →
        (k = k' → Late t₀ interval delay k) ∧ (k + 1 = k' → ¬ Late t₀ interval delay k) := by
      intro k hk hk2 k' hk'
      refine ⟨fun heq => ?_, fun heq hlate => ?_⟩
      · by_contra hpunctual
        exact hnone ⟨k, hk, hk2, (hpass k hk hk2).mpr ⟨k', hk', .inl ⟨heq, hpunctual⟩⟩⟩
      · exact hnone ⟨k, hk, hk2, (hpass k hk hk2).mpr ⟨k', hk', .inr ⟨heq, hlate⟩⟩⟩
    refine hskip ?_
    split
    · next hafter =>
      have hfirst := (hmiss T hge (by omega) T (.inl rfl)).1 rfl
      have hbefore := (hmiss (T - 1) (by omega) (by omega) T (.inl rfl)).2 (by omega)
      have hsecond := (hmiss (T + cycle interval) (by omega) (by omega) _ (.inr (.inl rfl))).1 rfl
      have hbefore2 := (hmiss (T + cycle interval - 1) (by omega) (by omega) (T + cycle interval)
        (.inr (.inl rfl))).2 (by omega)
      exact ⟨⟨hfirst, hbefore⟩, hsecond, hbefore2⟩
    · obtain rfl : start = T := by omega
      have hfirst := (hmiss start le_rfl (by omega) start (.inl rfl)).1 rfl
      have hsecond := (hmiss (start + cycle interval) (by omega) (by omega) _ (.inr (.inl rfl))).1 rfl
      have hbefore2 := (hmiss (start + cycle interval - 1) (by omega) (by omega)
        (start + cycle interval) (.inr (.inl rfl))).2 (by omega)
      have hlast := (hmiss (start + 2 * cycle interval - 1) (by omega) (by omega)
        (start + 2 * cycle interval) (.inr (.inr rfl))).2 (by omega)
      exact ⟨hfirst, ⟨hsecond, hbefore2⟩, hlast⟩

theorem cycle_pos (hday : interval ≤ 86400) (hmin : 60 ≤ interval) : 0 < cycle interval := by
  rw [cycle, SCRUB_CYCLE_SECS]
  exact Nat.div_pos (by omega) (by omega)

/-- For every interval, start and sequence of delays: every fragment is verified in any two cycles of
passes exactly as long as no fragment has its turns in two cycles skipped both times. -/
theorem scrub_covers_iff (t₀ interval : ℕ) (delay : ℕ → ℕ) (hmin : 60 ≤ interval)
    (hday : interval ≤ 86400) (hdelay : ∀ k, delay k < interval) (fragmentId : Text) (start : ℕ) :
    (∃ k, start ≤ k ∧ k < start + 2 * (SCRUB_CYCLE_SECS / interval) ∧
        (ScrubPlan.new (t₀ + k * interval + delay k) interval).due fragmentId = true) ↔
      ¬ SkippedTwice t₀ interval delay fragmentId start :=
  verified_of_notSkipped (by omega) (cycle_pos hday hmin) hdelay start

end

/-- Passes on time, at multiples of the interval. -/
theorem punctual_scrubbed : ∃ k, 0 ≤ k ∧ k < 0 + 2 * (SCRUB_CYCLE_SECS / 600) ∧
    (ScrubPlan.new (0 + k * 600 + 0) 600).due "frag-0000".toList = true :=
  (scrub_covers_iff 0 600 (fun _ => 0) (by decide) (by decide) (fun _ => by decide) "frag-0000".toList 0).mpr
    (by decide +kernel)

/-! The first pass in the last second of a slot, and the pass whose turn it is for a fragment one
second late in each cycle. -/

def tardy (k : ℕ) : ℕ := if k = 600 ∨ k = 1608 then 1 else 0

theorem tardy_unscrubbed : (∀ k, tardy k < 600) ∧
    ¬ ∃ k, 0 ≤ k ∧ k < 0 + 2 * (SCRUB_CYCLE_SECS / 600) ∧
      (ScrubPlan.new (599 + k * 600 + tardy k) 600).due "frag-0000".toList = true := by
  have htardy : ∀ k, tardy k < 600 := by
    intro k
    rw [tardy]
    split <;> decide
  refine ⟨htardy, fun hdue => ?_⟩
  have hskipped : SkippedTwice 599 600 tardy "frag-0000".toList 0 := by decide +kernel
  exact (verified_of_notSkipped (by decide) (cycle_pos (by decide) (by decide)) htardy 0).mp hdue hskipped

end P2pnas.Node.Scrub
