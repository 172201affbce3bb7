import P2pnas.Lib.Interleave
import P2pnas.Lib.Tables

/-!
# Allocated quotas and the contribution (`admin.rs:167-258`, `quotas.rs:90-187`)

`set_quota` and `set_contribution` read, compare and write with separate statements; `ensure`
grants the default quota in one transaction that holds the `node_local` row (the single-writer
permit on SQLite). A call in progress is the statement it is about to run with the values it
has read; a statement that waits for the lock stays where it is. `sum_bigint` is a query of
the database crate and enters as the parameter `sumBigint`.
-/

namespace P2pnas.Node.Quota
open P2pnas.Lib.Runs P2pnas.Lib.Tables P2pnas.Lib.Interleave

inductive Backend where
  | postgres
  | mysql
  | sqlite
  deriving DecidableEq, Repr

/-- `node_local.contributed_bytes`, `user_quota` by user id, and whether a transaction of
`ensure` holds the `node_local` row. -/
structure Ledger where
  contributed : Int64
  quotas : List (ℕ × Int64)
  keys : (quotas.map Prod.fst).Nodup
  locked : Bool

/-- The sum of `quota_bytes` over all rows. -/
def Ledger.allocated (h : Ledger) : ℤ := sumOf (fun e => e.2.toInt) h.quotas

/-- The sum of `quota_bytes` over the rows of the other users. -/
def Ledger.others (h : Ledger) (user : ℕ) : ℤ :=
  sumOf (fun e => e.2.toInt) (remove Prod.fst user h.quotas)

def Ledger.upsertQuota (h : Ledger) (user : ℕ) (quota : Int64) : Ledger :=
  { h with
    quotas := upsert Prod.fst (user, quota) h.quotas
    keys := nodup_upsert Prod.fst h.keys (user, quota) }

/-- `INSERT … ON CONFLICT DO NOTHING`. -/
def Ledger.insertQuota (h : Ledger) (user : ℕ) (quota : Int64) : Ledger :=
  if user ∈ h.quotas.map Prod.fst then h else h.upsertQuota user quota

inductive Pc where
  | quotaContributed (user : ℕ) (quota : Int64)
  | quotaOthers (user : ℕ) (quota contributed : Int64)
  | quotaUpsert (user : ℕ) (quota contributed others : Int64)
  | contributionUsed (bytes : Int64)
  | contributionAllocated (bytes used : Int64)
  | contributionUpdate (bytes allocated : Int64)
  | ensureRead (user : ℕ) (default : Int64)
  | ensureLock (user : ℕ) (default : Int64)
  | ensureReread (user : ℕ) (default contributed : Int64)
  | ensureAllocated (user : ℕ) (default contributed : Int64) (snapshot : ℤ)
  | ensureCommit (user : ℕ) (granted allocated : Int64)
  deriving DecidableEq, Repr

/-- The call is inside the transaction of `ensure`, past the lock. -/
def inTransaction : Pc → Bool
  | .ensureReread .. | .ensureAllocated .. | .ensureCommit .. => true
  | _ => false

/-- What a statement meets: whether it fails, and the `used_bytes` of the node at that time. -/
structure Env where
  fails : Bool
  used : Int64

def Ledger.release (h : Ledger) : Ledger := { h with locked := false }

section
variable (backend : Backend) (sumBigint : ℤ → Option Int64)

/-- One statement that does not fail. -/
def statement (used : Int64) (h : Ledger) : Pc → Ledger × Option Pc
  | .quotaContributed user quota =>
    (h, if quota < 0 then none else some (.quotaOthers user quota h.contributed))
  | .quotaOthers user quota contributed =>
    (h, (sumBigint (h.others user)).bind fun others =>
      if contributed < others + quota then none
      else some (.quotaUpsert user quota contributed others))
  | .quotaUpsert user quota contributed others =>
    if backend = .sqlite ∧ h.locked = true then (h, some (.quotaUpsert user quota contributed others))
    else (h.upsertQuota user quota, none)
  | .contributionUsed bytes =>
    (h, if bytes < 0 then none else some (.contributionAllocated bytes used))
  | .contributionAllocated bytes used =>
    (h, (sumBigint h.allocated).bind fun allocated =>
      if bytes < used ∨ bytes < allocated then none else some (.contributionUpdate bytes allocated))
  | .contributionUpdate bytes allocated =>
    if h.locked then (h, some (.contributionUpdate bytes allocated))
    else ({ h with contributed := bytes }, none)
  | .ensureRead user default =>
    (h, if user ∈ h.quotas.map Prod.fst then none
      else if default ≤ 0 then none else some (.ensureLock user default))
  | .ensureLock user default =>
    if h.locked then (h, some (.ensureLock user default))
    else ({ h with locked := true }, some (.ensureReread user default h.contributed))
  | .ensureReread user default contributed =>
    if user ∈ h.quotas.map Prod.fst then (h.release, none)
    else (h, some (.ensureAllocated user default contributed h.allocated))
  | .ensureAllocated user default contributed snapshot =>
    -- MySQL answers from the snapshot the transaction's first plain SELECT took
    match sumBigint (if backend = .mysql then snapshot else h.allocated) with
    | none => (h.release, none)
    | some allocated =>
      if min default (max (contributed - allocated) 0) ≤ 0 then (h.release, none)
      else (h, some (.ensureCommit user (min default (max (contributed - allocated) 0)) allocated))
  | .ensureCommit user granted _ => ((h.insertQuota user granted).release, none)

/-- A call whose statement fails ends; a transaction is rolled back. -/
def advance (e : Env) (h : Ledger) (pc : Pc) : Ledger × Option Pc :=
  if e.fails then (if inTransaction pc then h.release else h, none)
  else statement backend sumBigint e.used h pc

end

inductive Req where
  | setQuota (user : ℕ) (quota : Int64)
  | setContribution (bytes : Int64)
  | ensure (user : ℕ) (default : Int64)
  deriving DecidableEq, Repr

def Req.pc : Req → Pc
  | .setQuota user quota => .quotaContributed user quota
  | .setContribution bytes => .contributionUsed bytes
  | .ensure user default => .ensureRead user default

abbrev Calls := Sys Ledger Pc

def step (backend : Backend) (sumBigint : ℤ → Option Int64) : Calls → Label Req Env → Calls :=
  P2pnas.Lib.Interleave.step (fun q h => (h, q.pc)) (advance backend sumBigint)

/-! ### What the writes do to the sum -/

section
variable {h : Ledger}

theorem others_eq (user : ℕ) : h.others user = h.allocated -
    ((lookup Prod.fst user h.quotas).map fun e => e.2.toInt).getD 0 :=
  sumOf_remove Prod.fst _ h.keys user

theorem allocated_upsertQuota (user : ℕ) (quota : Int64) :
    (h.upsertQuota user quota).allocated = h.others user + quota.toInt := by
  rw [others_eq]
  exact sumOf_upsert Prod.fst _ h.keys (user, quota)

theorem others_absent {user : ℕ} (hno : user ∉ h.quotas.map Prod.fst) :
    h.others user = h.allocated := by
  rw [others_eq, (lookup_eq_none Prod.fst).mpr hno]
  exact Int.sub_zero _

theorem allocated_nonneg (hq : ∀ e ∈ h.quotas, 0 ≤ e.2.toInt) : 0 ≤ h.allocated := by
  refine List.sum_nonneg fun x hx => ?_
  obtain ⟨e, he, rfl⟩ := List.mem_map.mp hx
  exact hq e he

theorem others_nonneg (hq : ∀ e ∈ h.quotas, 0 ≤ e.2.toInt) (user : ℕ) : 0 ≤ h.others user := by
  refine List.sum_nonneg fun x hx => ?_
  obtain ⟨e, he, rfl⟩ := List.mem_map.mp hx
  exact hq e (List.mem_filter.mp he).1

theorem others_le (hq : ∀ e ∈ h.quotas, 0 ≤ e.2.toInt) (user : ℕ) :
    h.others user ≤ h.allocated := by
  rw [others_eq]
  cases hl : lookup Prod.fst user h.quotas with
  | none => simp
  | some e =>
    have := hq e (List.mem_of_find?_eq_some hl)
    simp only [Option.map_some, Option.getD_some]
    omega

theorem allocated_insertQuota_le (user : ℕ) {granted : Int64} (hg : 0 ≤ granted.toInt) :
    (h.insertQuota user granted).allocated ≤ h.allocated + granted.toInt := by
  unfold Ledger.insertQuota
  split
  · omega
  · rename_i hno
    rw [allocated_upsertQuota, others_absent hno]

theorem insertQuota_nonneg (user : ℕ) {granted : Int64} (hq : ∀ e ∈ h.quotas, 0 ≤ e.2.toInt)
    (hg : 0 ≤ granted.toInt) : ∀ e ∈ (h.insertQuota user granted).quotas, 0 ≤ e.2.toInt := by
  intro e he
  unfold Ledger.insertQuota at he
  split at he
  · exact hq e he
  · rcases mem_upsert Prod.fst he with rfl | he
    · exact hg
    · exact hq e he

end

/-! ### The invariant -/

/-- A sum that fits 64 bits is read as it is. -/
def ReadsSums (sumBigint : ℤ → Option Int64) : Prop := ∀ x : Int64, sumBigint x.toInt = some x

theorem ReadsSums.exact {sumBigint : ℤ → Option Int64} (hb : ReadsSums sumBigint) {n : ℤ}
    (h₀ : 0 ≤ n) (h₁ : n < 2 ^ 63) {x : Int64} (hx : sumBigint n = some x) : x.toInt = n := by
  have hn : (Int64.ofInt n).toInt = n := Int64.toInt_ofInt_of_le (by omega) h₁
  have hread := hb (Int64.ofInt n)
  rw [hn, hx] at hread
  rw [Option.some.inj hread, hn]

/-- The values a call carries are as its checks left them; inside the transaction the
contribution is the one read. -/
def Carries (h : Ledger) : Pc → Prop
  | .quotaOthers _ quota _ => 0 ≤ quota.toInt
  | .quotaUpsert _ quota contributed others =>
    0 ≤ quota.toInt ∧ 0 ≤ others.toInt ∧ ¬ contributed < others + quota
  | .contributionUpdate bytes allocated => ¬ bytes < allocated
  | .ensureReread _ _ contributed => contributed = h.contributed
  | .ensureAllocated _ _ contributed snapshot =>
    contributed = h.contributed ∧ 0 ≤ snapshot ∧ snapshot < 2 ^ 63
  | .ensureCommit _ granted allocated =>
    0 ≤ granted.toInt ∧ allocated.toInt + granted.toInt ≤ h.contributed.toInt
  | _ => True

/-- The write finds what the call read: the quotas it summed have not grown, the contribution
has not shrunk, and the sum it compared fits 64 bits. -/
def Unraced (h : Ledger) : Pc → Prop
  | .quotaUpsert user quota contributed others =>
    h.others user ≤ others.toInt ∧ contributed.toInt ≤ h.contributed.toInt ∧
      others.toInt + quota.toInt < 2 ^ 63
  | .contributionUpdate _ allocated => h.allocated ≤ allocated.toInt
  | .ensureCommit _ _ allocated => h.allocated ≤ allocated.toInt
  | _ => True

instance (h : Ledger) : (pc : Pc) → Decidable (Unraced h pc)
  | .quotaUpsert user quota contributed others =>
    inferInstanceAs (Decidable (h.others user ≤ others.toInt ∧
      contributed.toInt ≤ h.contributed.toInt ∧ others.toInt + quota.toInt < 2 ^ 63))
  | .contributionUpdate _ allocated => inferInstanceAs (Decidable (h.allocated ≤ allocated.toInt))
  | .ensureCommit _ _ allocated => inferInstanceAs (Decidable (h.allocated ≤ allocated.toInt))
  | .quotaContributed .. | .quotaOthers .. | .contributionUsed .. | .contributionAllocated ..
  | .ensureRead .. | .ensureLock .. | .ensureReread .. | .ensureAllocated .. => .isTrue trivial

def MoveUnraced (s : Calls) : Label Req Env → Prop
  | .start _ => True
  | .move k _ => ∀ pc ∈ s.procs[k]?, Unraced s.shared pc

instance (s : Calls) : (a : Label Req Env) → Decidable (MoveUnraced s a)
  | .start _ => .isTrue trivial
  | .move k _ => inferInstanceAs (Decidable (∀ pc ∈ s.procs[k]?, Unraced s.shared pc))

def holding (pc : Pc) : ℤ := if inTransaction pc then 1 else 0

theorem holding_nonneg (pc : Pc) : 0 ≤ holding pc := by
  unfold holding
  split <;> decide

def Ledger.lockCount (h : Ledger) : ℤ := if h.locked then 1 else 0

/-- The quotas are backed by the contribution, and at most one transaction holds the lock. -/
structure Backed (s : Calls) : Prop where
  cap : s.shared.allocated ≤ s.shared.contributed.toInt
  quotas : ∀ e ∈ s.shared.quotas, 0 ≤ e.2.toInt
  lock : total holding s.procs = s.shared.lockCount
  carries : ∀ pc ∈ s.procs, Carries s.shared pc

/-- What the statements of one call leave: `h'` and where the call goes on. -/
structure Kept (h : Ledger) (pc : Pc) (r : Ledger × Option Pc) : Prop where
  cap : r.1.allocated ≤ r.1.contributed.toInt
  quotas : ∀ e ∈ r.1.quotas, 0 ≤ e.2.toInt
  contributed : h.locked = false ∨ r.1.contributed = h.contributed
  lock : r.1.lockCount = h.lockCount - holding pc + (r.2.map holding).getD 0
  carries : ∀ pc', r.2 = some pc' → Carries r.1 pc'

section
variable {backend : Backend} {sumBigint : ℤ → Option Int64} {h : Ledger}

theorem not_lt_toInt {x y : Int64} (hx : ¬ x < y) : y.toInt ≤ x.toInt := by
  rw [Int64.lt_iff_toInt_lt] at hx
  omega

/-- The grant fits what is left of the contribution. -/
theorem granted_fits {contributed allocated default : Int64} (hc : 0 ≤ contributed.toInt)
    (ha : 0 ≤ allocated.toInt)
    (hg : ¬ min default (max (contributed - allocated) 0) ≤ 0) :
    0 ≤ (min default (max (contributed - allocated) 0)).toInt ∧
      allocated.toInt + (min default (max (contributed - allocated) 0)).toInt ≤
        contributed.toInt := by
  have hsub : (contributed - allocated).toInt = contributed.toInt - allocated.toInt := by
    have h₁ := contributed.toInt_lt
    have h₂ := allocated.toInt_lt
    rw [Int64.toInt_sub, Int.bmod_eq_of_le (by omega) (by omega)]
  have hzero : (0 : Int64).toInt = 0 := rfl
  rw [Int64.le_iff_toInt_le, hzero] at hg
  have hmax : (max (contributed - allocated) 0).toInt = max (contributed.toInt - allocated.toInt) 0 := by
    change (if contributed - allocated ≤ 0 then (0 : Int64) else contributed - allocated).toInt = _
    simp only [Int64.le_iff_toInt_le, hsub, hzero]
    split <;> omega
  have hmin : (min default (max (contributed - allocated) 0)).toInt ≤
      max (contributed.toInt - allocated.toInt) 0 := by
    rw [← hmax]
    change (if default ≤ max (contributed - allocated) 0 then default
      else max (contributed - allocated) 0).toInt ≤ _
    simp only [Int64.le_iff_toInt_le]
    split <;> omega
  omega

/-- A statement that only reads. -/
theorem kept_read {pc : Pc} {next : Option Pc} (hcap : h.allocated ≤ h.contributed.toInt)
    (hq : ∀ e ∈ h.quotas, 0 ≤ e.2.toInt) (hl : holding pc = (next.map holding).getD 0)
    (hn : ∀ pc', next = some pc' → Carries h pc') : Kept h pc (h, next) :=
  ⟨hcap, hq, .inr rfl, by rw [hl]; simp, hn⟩

/-- A transaction that ends without a write. -/
theorem kept_release {pc : Pc} (hcap : h.allocated ≤ h.contributed.toInt)
    (hq : ∀ e ∈ h.quotas, 0 ≤ e.2.toInt) (hin : inTransaction pc = true) (hl : h.locked = true) :
    Kept h pc (h.release, none) := by
  refine ⟨hcap, hq, .inr rfl, ?_, fun _ hn => by cases hn⟩
  simp only [Ledger.lockCount, Ledger.release, holding, hin, hl]
  rfl

theorem lock_outside {h' : Ledger} {pc : Pc} (hl : h'.locked = h.locked) (hp : holding pc = 0) :
    h'.lockCount = h.lockCount - holding pc + 0 := by
  rw [Ledger.lockCount, Ledger.lockCount, hl, hp, Int.sub_zero, Int.add_zero]

theorem statement_kept (hb : ReadsSums sumBigint) {pc : Pc} (used : Int64) (hu : Unraced h pc)
    (hc : Carries h pc) (hcap : h.allocated ≤ h.contributed.toInt)
    (hq : ∀ e ∈ h.quotas, 0 ≤ e.2.toInt) (hl : inTransaction pc = true → h.locked = true) :
    Kept h pc (statement backend sumBigint used h pc) := by
  have hfit : h.allocated < 2 ^ 63 := lt_of_le_of_lt hcap h.contributed.toInt_lt
  have hpos : 0 ≤ h.allocated := allocated_nonneg hq
  cases pc with
  | quotaContributed user quota =>
    simp only [statement]
    split
    · exact kept_read hcap hq rfl fun _ hn => by cases hn
    · rename_i hneg
      exact kept_read hcap hq rfl fun _ hn => by cases hn; exact not_lt_toInt hneg
  | quotaOthers user quota contributed =>
    simp only [statement]
    cases hs : sumBigint (h.others user) with
    | none => exact kept_read hcap hq rfl fun _ hn => by cases hn
    | some others =>
      have hothers : others.toInt = h.others user :=
        hb.exact (others_nonneg hq user) (lt_of_le_of_lt (others_le hq user) hfit) hs
      simp only [Option.bind_some]
      split
      · exact kept_read hcap hq rfl fun _ hn => by cases hn
      · rename_i hroom
        refine kept_read hcap hq rfl fun _ hn => ?_
        cases hn
        exact ⟨hc, by rw [hothers]; exact others_nonneg hq user, hroom⟩
  | quotaUpsert user quota contributed others =>
    obtain ⟨hpos', hoth, hroom⟩ := hc
    obtain ⟨hle, hcon, hover⟩ := hu
    simp only [statement]
    split
    · exact kept_read hcap hq rfl fun _ hn => by cases hn; exact ⟨hpos', hoth, hroom⟩
    · refine ⟨?_, fun e he => ?_, .inr rfl, lock_outside rfl rfl, fun _ hn => by cases hn⟩
      · -- the comparison did not wrap, so it bounds the new sum
        have hsum := not_lt_toInt hroom
        rw [Int64.toInt_add, Int.bmod_eq_of_le (by omega) (by omega)] at hsum
        rw [allocated_upsertQuota]
        change _ ≤ h.contributed.toInt
        omega
      · rcases mem_upsert Prod.fst he with rfl | he
        · exact hpos'
        · exact hq e he
  | contributionUsed bytes =>
    simp only [statement]
    split
    · exact kept_read hcap hq rfl fun _ hn => by cases hn
    · exact kept_read hcap hq rfl fun _ hn => by cases hn; trivial
  | contributionAllocated bytes used' =>
    simp only [statement]
    cases hs : sumBigint h.allocated with
    | none => exact kept_read hcap hq rfl fun _ hn => by cases hn
    | some allocated =>
      simp only [Option.bind_some]
      split
      · exact kept_read hcap hq rfl fun _ hn => by cases hn
      · rename_i hroom
        exact kept_read hcap hq rfl fun _ hn => by cases hn; exact (not_or.mp hroom).2
  | contributionUpdate bytes allocated =>
    have hle : h.allocated ≤ allocated.toInt := hu
    have hroom := not_lt_toInt hc
    simp only [statement]
    split
    · exact kept_read hcap hq rfl fun _ hn => by cases hn; exact hc
    · rename_i hfree
      exact ⟨le_trans hle hroom, hq, .inl (Bool.not_eq_true _ ▸ hfree), lock_outside rfl rfl,
        fun _ hn => by cases hn⟩
  | ensureRead user default =>
    simp only [statement]
    split
    · exact kept_read hcap hq rfl fun _ hn => by cases hn
    · split
      · exact kept_read hcap hq rfl fun _ hn => by cases hn
      · exact kept_read hcap hq rfl fun _ hn => by cases hn; trivial
  | ensureLock user default =>
    simp only [statement]
    split
    · exact kept_read hcap hq rfl fun _ hn => by cases hn; trivial
    · rename_i hfree
      refine ⟨hcap, hq, .inr rfl, ?_, fun _ hn => by cases hn; rfl⟩
      simp only [Ledger.lockCount, hfree]
      rfl
  | ensureReread user default contributed =>
    simp only [statement]
    split
    · exact kept_release hcap hq rfl (hl rfl)
    · exact kept_read hcap hq rfl fun _ hn => by cases hn; exact ⟨hc, hpos, hfit⟩
  | ensureAllocated user default contributed snapshot =>
    obtain ⟨rfl, hsn, hsn'⟩ := hc
    simp only [statement]
    split
    · exact kept_release hcap hq rfl (hl rfl)
    · rename_i allocated hs
      split
      · exact kept_release hcap hq rfl (hl rfl)
      · rename_i hg
        refine kept_read hcap hq rfl fun _ hn => ?_
        cases hn
        refine granted_fits (le_trans hpos hcap) ?_ hg
        split at hs
        · rw [hb.exact hsn hsn' hs]; exact hsn
        · rw [hb.exact hpos hfit hs]; exact hpos
  | ensureCommit user granted allocated =>
    obtain ⟨hg, hroom⟩ := hc
    have hle : h.allocated ≤ allocated.toInt := hu
    have hsame : (h.insertQuota user granted).contributed = h.contributed := by
      unfold Ledger.insertQuota
      split <;> rfl
    refine ⟨?_, insertQuota_nonneg user hq hg, .inr hsame, ?_, fun _ hn => by cases hn⟩
    · have hins := allocated_insertQuota_le (h := h) user hg
      change (h.insertQuota user granted).allocated ≤ (h.insertQuota user granted).contributed.toInt
      rw [hsame]
      omega
    · have hlk : h.locked = true := hl rfl
      simp only [statement, Ledger.lockCount, Ledger.release, holding, hlk]
      rfl

variable (backend) in
theorem advance_kept (hb : ReadsSums sumBigint) {pc : Pc} (e : Env) (hu : Unraced h pc)
    (hc : Carries h pc) (hcap : h.allocated ≤ h.contributed.toInt)
    (hq : ∀ e ∈ h.quotas, 0 ≤ e.2.toInt) (hl : inTransaction pc = true → h.locked = true) :
    Kept h pc (advance backend sumBigint e h pc) := by
  unfold advance
  split
  · split
    · rename_i hin
      exact kept_release hcap hq hin (hl hin)
    · rename_i hout
      refine kept_read hcap hq ?_ fun _ hn => by cases hn
      simp [holding, hout]
  · exact statement_kept hb e.used hu hc hcap hq hl

/-- What another call carries survives: the contribution moves only while no transaction
holds it. -/
theorem carries_frame {h' : Ledger} {p : Pc} (hp : Carries h p)
    (hsame : inTransaction p = true → h'.contributed = h.contributed) : Carries h' p := by
  cases p with
  | ensureReread user default contributed => exact hp.trans (hsame rfl).symm
  | ensureAllocated user default contributed snapshot => exact ⟨hp.1.trans (hsame rfl).symm, hp.2⟩
  | ensureCommit user granted allocated =>
    refine ⟨hp.1, ?_⟩
    rw [hsame rfl]
    exact hp.2
  | quotaOthers user quota contributed => exact hp
  | quotaUpsert user quota contributed others => exact hp
  | contributionUpdate bytes allocated => exact hp
  | _ => trivial

end

theorem Backed.locked_of_mem {s : Calls} (hs : Backed s) {pc : Pc} (hm : pc ∈ s.procs)
    (hin : inTransaction pc = true) : s.shared.locked = true := by
  have hle := le_total (fun p _ => holding_nonneg p) hm
  rw [hs.lock, Ledger.lockCount, holding, if_pos hin] at hle
  by_contra hno
  rw [if_neg hno] at hle
  exact absurd hle (by decide)

theorem step_backed {backend : Backend} {sumBigint : ℤ → Option Int64} (hb : ReadsSums sumBigint)
    (s : Calls) (a : Label Req Env) (hs : Backed s) (ha : MoveUnraced s a) :
    Backed (step backend sumBigint s a) := by
  refine step_keeps _ _ ?_ ?_ s a hs ha
  · intro s q hs _
    refine ⟨hs.cap, hs.quotas, ?_, fun pc hpc => ?_⟩
    · rw [total_start, hs.lock]
      cases q <;> exact Int.add_zero _
    · rcases List.mem_append.mp hpc with hold | hnew
      · exact hs.carries pc hold
      · rw [List.mem_singleton.mp hnew]
        cases q <;> trivial
  · intro s k pc e hs hk hok
    have hmem : pc ∈ s.procs := List.mem_of_getElem? hk
    have hkept := advance_kept backend hb e (hok pc hk) (hs.carries pc hmem) hs.cap
      hs.quotas (hs.locked_of_mem hmem)
    refine ⟨hkept.cap, hkept.quotas, ?_, forall_put (fun p hp => ?_) hkept.carries⟩
    · rw [total_put holding hk, hs.lock]
      exact hkept.lock.symm
    · refine carries_frame (hs.carries p hp) fun hin => ?_
      rcases hkept.contributed with hfree | hsame
      · rw [hs.locked_of_mem hp hin] at hfree
        cases hfree
      · exact hsame

def Ledger.empty (contributed : Int64) : Ledger := ⟨contributed, [], List.nodup_nil, false⟩

/-- From an empty quota table, in every run whose writes find what their calls read and
compare sums that fit 64 bits, the allocated quotas never exceed the contribution. -/
theorem run_backed (backend : Backend) {sumBigint : ℤ → Option Int64} (hb : ReadsSums sumBigint)
    {contributed : Int64} (hc : 0 ≤ contributed.toInt) {as : List (Label Req Env)}
    (has : AllMeet (step backend sumBigint) MoveUnraced ⟨.empty contributed, []⟩ as) :
    (run (step backend sumBigint) ⟨.empty contributed, []⟩ as).shared.allocated ≤
      (run (step backend sumBigint) ⟨.empty contributed, []⟩ as).shared.contributed.toInt := by
  have hinit : Backed (⟨.empty contributed, []⟩ : Calls) :=
    ⟨hc, fun _ he => (List.not_mem_nil he).elim, rfl, fun _ hp => (List.not_mem_nil hp).elim⟩
  exact (run_invariant (step_backed hb) hinit has).cap

/-- `SUM` with a cast to 64 bits that refuses what does not fit. -/
def checkedSum (n : ℤ) : Option Int64 :=
  if -2 ^ 63 ≤ n ∧ n < 2 ^ 63 then some (Int64.ofInt n) else none

theorem checkedSum_reads : ReadsSums checkedSum := by
  intro x
  rw [checkedSum, if_pos ⟨x.le_toInt, x.toInt_lt⟩, Int64.ofInt_toInt]

def quiet : Env := ⟨false, 0⟩

/-- Two quotas are set while a first upload takes the default. -/
def threeGrants : List (Label Req Env) :=
  [.start (.setContribution 100), .move 0 quiet, .move 0 quiet, .move 0 quiet,
    .start (.setQuota 1 30), .start (.ensure 2 50), .move 0 quiet, .move 0 quiet, .move 0 quiet] ++
    List.replicate 5 (.move 0 quiet) ++ [.start (.setQuota 1 50)] ++ List.replicate 3 (.move 0 quiet)

theorem threeGrants_backed :
    (run (step .postgres checkedSum) ⟨.empty 0, []⟩ threeGrants).shared.allocated = 100 ∧
      (run (step .postgres checkedSum) ⟨.empty 0, []⟩ threeGrants).shared.allocated ≤
        (run (step .postgres checkedSum) ⟨.empty 0, []⟩ threeGrants).shared.contributed.toInt :=
  ⟨by decide +kernel, run_backed .postgres checkedSum_reads (by decide) (by decide +kernel)⟩

/-- One byte is contributed and allocated; then an administrator asks for the largest quota
and the sum wraps. -/
def largestQuota : List (Label Req Env) :=
  .start (.setQuota 1 1) :: List.replicate 3 (.move 0 quiet) ++
    .start (.setQuota 2 Int64.maxValue) :: List.replicate 3 (.move 0 quiet)

theorem largestQuota_exceeds :
    ¬ ∀ as : List (Label Req Env),
      (run (step .postgres checkedSum) ⟨.empty 1, []⟩ as).shared.allocated ≤
        (run (step .postgres checkedSum) ⟨.empty 1, []⟩ as).shared.contributed.toInt := by
  intro h
  have hover : (run (step .postgres checkedSum) ⟨.empty 1, []⟩ largestQuota).shared.allocated = 2 ^ 63 ∧
      (run (step .postgres checkedSum) ⟨.empty 1, []⟩ largestQuota).shared.contributed.toInt = 1 := by
    decide +kernel
  have hcap := h largestQuota
  rw [hover.1, hover.2] at hcap
  exact absurd hcap (by decide)

end P2pnas.Node.Quota
