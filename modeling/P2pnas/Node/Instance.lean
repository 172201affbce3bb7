import P2pnas.Lib.Numerals
import P2pnas.Node.Placement

/-!
# What the administrator may set (`config/instance.rs`)

The console sends an object of values. An integer counts only inside its bounds, otherwise the
compiled default stays; the three thresholds of absence are put in order.
-/

namespace P2pnas.Node.Instance
open P2pnas.Lib.Strings P2pnas.Lib.Numerals P2pnas.Node.Placement

/-- `serde_json::Number`. -/
inductive Number where
  | posInt (n : ℕ)
  | negInt (n : ℤ)
  | float
  deriving DecidableEq, Repr

inductive Value where
  | number (n : Number)
  | string (s : Text)
  | other
  deriving DecidableEq, Repr

/-- `Value::get` on the object of settings. -/
abbrev Console := Text → Option Value

def I64_MAX : ℤ := 2 ^ 63 - 1

def Number.asI64 : Number → Option ℤ
  | .posInt n => if n ≤ I64_MAX then some n else none
  | .negInt n => some n
  | .float => none

/-- Digits to the end of the text. -/
def digits (s : Text) : Option ℕ :=
  (readNumber 10 none true (2 ^ 63 + 1) s).bind fun r => if r.2.isEmpty then some r.1 else none

/-- `str::parse::<i64>`. -/
def parseI64 (s : Text) : Option ℤ :=
  let n : Option ℤ := match s with
    | '-' :: ds => (digits ds).map fun n => -(n : ℤ)
    | '+' :: ds => (digits ds).map fun n => (n : ℤ)
    | ds => (digits ds).map fun n => (n : ℤ)
  n.filter fun n => n ≤ I64_MAX

/-- `int_in`. -/
def intIn (settings : Console) (key : String) (lo hi : ℤ) : Option ℤ :=
  let n := (settings key.toList).bind fun v => match v with
    | .number n => n.asI64
    | .string s => parseI64 (trim s)
    | .other => none
  n.filter fun n => lo ≤ n ∧ n ≤ hi

/-- `parse_country_list`. -/
def parseCountryList (raw : Text) : List Text :=
  (splitOn '\n' raw).foldl (fun out line =>
    let code := (trim line).map Char.toUpper
    if code.isEmpty || out.contains code then out else out ++ [code]) []

def GIB : ℤ := 1024 * 1024 * 1024

structure InstanceConfig where
  defaultQuotaBytes : ℤ := 0
  maxUploadBytes : ℤ := 2 * GIB
  repairIntervalSecs : ℤ := 600
  peerDownThreshold : ℤ := 5
  jurisdictionAllow : List Text := []
  retentionGraceDays : ℤ := 14
  retentionReclaimDays : ℤ := 45
  retentionEvictDays : ℤ := 180
  deriving DecidableEq, Repr

/-- `InstanceConfig::from_settings`. -/
def fromSettings (settings : Console) : InstanceConfig :=
  let d : InstanceConfig := {}
  let grace := (intIn settings "retention_grace_days" 1 3650).getD d.retentionGraceDays
  let reclaim := max ((intIn settings "retention_reclaim_days" 1 3650).getD d.retentionReclaimDays) grace
  let evict := max ((intIn settings "retention_evict_days" 1 3650).getD d.retentionEvictDays) reclaim
  { defaultQuotaBytes := (intIn settings "default_quota_bytes" 0 (1024 * GIB)).getD d.defaultQuotaBytes
    maxUploadBytes := (intIn settings "max_upload_bytes" (1024 * 1024) (2 * GIB)).getD d.maxUploadBytes
    repairIntervalSecs := (intIn settings "repair_interval_secs" 60 86400).getD d.repairIntervalSecs
    peerDownThreshold := (intIn settings "peer_down_threshold" 1 100).getD d.peerDownThreshold
    jurisdictionAllow := match settings "jurisdiction_allow".toList with
      | some (.string s) => parseCountryList s
      | _ => d.jurisdictionAllow
    retentionGraceDays := grace
    retentionReclaimDays := reclaim
    retentionEvictDays := evict }

/-- Every number lies in the bounds of its setting, and no threshold of absence comes before a lesser
one. -/
structure InstanceConfig.Admissible (c : InstanceConfig) : Prop where
  quota : 0 ≤ c.defaultQuotaBytes ∧ c.defaultQuotaBytes ≤ 1024 * GIB
  upload : 1024 * 1024 ≤ c.maxUploadBytes ∧ c.maxUploadBytes ≤ 2 * GIB
  interval : 60 ≤ c.repairIntervalSecs ∧ c.repairIntervalSecs ≤ 86400
  threshold : 1 ≤ c.peerDownThreshold ∧ c.peerDownThreshold ≤ 100
  grace : 1 ≤ c.retentionGraceDays ∧ c.retentionGraceDays ≤ c.retentionReclaimDays
  evict : c.retentionReclaimDays ≤ c.retentionEvictDays ∧ c.retentionEvictDays ≤ 3650

theorem intIn_bounds {settings : Console} {key : String} {lo hi d : ℤ} (hlo : lo ≤ d) (hhi : d ≤ hi) :
    lo ≤ (intIn settings key lo hi).getD d ∧ (intIn settings key lo hi).getD d ≤ hi := by
  cases h : intIn settings key lo hi with
  | none => exact ⟨hlo, hhi⟩
  | some n =>
    have hn := (Option.filter_eq_some_iff.mp h).2
    simpa using hn

theorem fromSettings_admissible (settings : Console) : (fromSettings settings).Admissible := by
  have hgrace := @intIn_bounds settings "retention_grace_days" 1 3650 14 (by omega) (by omega)
  have hreclaim := @intIn_bounds settings "retention_reclaim_days" 1 3650 45 (by omega) (by omega)
  have hevict := @intIn_bounds settings "retention_evict_days" 1 3650 180 (by omega) (by omega)
  exact {
    quota := intIn_bounds (by decide) (by decide)
    upload := intIn_bounds (by decide) (by decide)
    interval := intIn_bounds (by decide) (by decide)
    threshold := intIn_bounds (by decide) (by decide)
    grace := ⟨hgrace.1, le_max_right _ _⟩
    evict := ⟨le_max_right _ _, max_le hevict.2 (max_le hreclaim.2 hgrace.2)⟩ }

/-- The values a node starts with pass their own checks. -/
theorem default_admissible : InstanceConfig.Admissible {} := fromSettings_admissible fun _ => none

end P2pnas.Node.Instance
