import P2pnas.Node.Accounting
import P2pnas.Store.Readable

/-!
# What a failed upload costs (`handlers/files.rs:51-180`, `220-243`)

An upload is charged before its bytes are stored: every way out between the two has to hand the
charge back. The push is the service's own, with the faults it meets; a push that panics is a task
that does not complete. What follows a stored file besides the two counters, the distribution over
the peers, has a model of its own.
-/

namespace P2pnas.Node.Refunds
open P2pnas.Lib.Frames P2pnas.Lib.Strings P2pnas.Lib.Interleave P2pnas.Lib.Runs P2pnas.Core.Base
open P2pnas.Store.Manifest P2pnas.Store.Session P2pnas.Store.Service P2pnas.Store.Readable
open P2pnas.Node.Accounting

structure Request where
  user : Text
  path : Text
  body : Bytes
  deriving DecidableEq, Repr

def Request.size (r : Request) : ℤ := r.body.length

/-- `P2pError`, as far as an upload returns it. -/
inductive P2pError where
  | badRequest (message : Text)
  | db
  | store (e : StoreError)
  deriving DecidableEq, Repr

/-- The answer to an upload that was stored. -/
structure Uploaded where
  fileId : Text
  path : Text
  size : ℤ
  unchanged : Bool
  supersededFileId : Option Text
  deriving DecidableEq, Repr

/-- What the `SELECT used_bytes` after the charge gives. -/
inductive Reselect where
  | row | missing | fails
  deriving DecidableEq, Repr

/-- What the statements of an upload meet, the ceiling and the grant of the instance, and the
faults, the minted id and the clock of the push. -/
structure Env where
  maxUpload : ℤ
  granted : Option ℤ
  ensureFails : Bool
  chargeFails : Bool
  reselect : Reselect
  script : List Event
  mint : Text
  now : Time
  refundFails : Bool
  settleFails : Bool
  nodeFails : Bool

def tooLarge (size maxUpload : ℤ) : P2pError :=
  .badRequest s!"file too large: {size} > {maxUpload} bytes allowed per upload".toList

def quotaExceeded (used size quota : ℤ) : P2pError :=
  .badRequest (s!"quota exceeded: {used} + {size} > {quota} bytes ".toList ++
    "(empty your My Cloud trash and old versions, or ask an admin to raise your quota)".toList)

/-- What the task that pushes gives when it gives no file; `join_err` hides a panic. -/
def pushError : Stop StoreError → P2pError
  | .panic => .badRequest "internal task error".toList
  | .err e => .store e

/-- The quota row, the charge and its reselect. -/
def reserve (e : Env) (b : Books) (r : Request) : Except P2pError Unit × Books :=
  if e.ensureFails then (.error .db, b)
  else
    let b₁ := b.ensure r.user e.granted
    let row := (b₁.accounts r.user).getD (0, 0)
    if e.chargeFails then (.error .db, b₁)
    else match b₁.charge r.user r.size with
      | none => (.error (quotaExceeded row.2 r.size row.1), b₁)
      | some b₂ =>
        match e.reselect with
        | .fails => (.error .db, b₂)
        | .missing => (.error (quotaExceeded row.2 r.size row.1), b₂)
        | .row => (.ok (), b₂)

/-- `adjust_user_used(-size)`. -/
def refund (e : Env) (b : Books) (r : Request) : Books :=
  if e.refundFails then b else b.adjustUserUsed r.user (-r.size)

section
variable {K : Type} (P : Prims K) (key : K)

/-- The push, and the counters after it. -/
def store (e : Env) (b : Books) (r : Request) : Except P2pError Uploaded × Books :=
  let pushed := b.manifest e.script (push P key r.user (trim r.path) r.body e.mint e.now)
  match pushed.1 with
  | .error stop => (.error (pushError stop), refund e pushed.2 r)
  | .ok res =>
    if res.unchanged then (.ok ⟨res.fileId, r.path, res.size, true, none⟩, refund e pushed.2 r)
    else
      let settled :=
        if e.settleFails then pushed.2 else pushed.2.adjustUserUsed r.user (res.size - r.size)
      (.ok ⟨res.fileId, r.path, res.size, false, res.supersededFileId⟩,
        if e.nodeFails then settled else settled.addNode res.storedBytes)

def upload (e : Env) (b : Books) (r : Request) : Except P2pError Uploaded × Books :=
  if (trim r.path).isEmpty then
    (.error (.badRequest "query parameter `path` is required".toList), b)
  else if e.maxUpload < r.size then (.error (tooLarge r.size e.maxUpload), b)
  else
    match reserve e b r with
    | (.error err, b') => (.error err, b')
    | (.ok (), b') => store P key e b' r

end

/-! ### Accounts -/

/-- No account is below zero. -/
def Solvent (b : Books) : Prop := ∀ u, 0 ≤ b.usedOf u

section
variable {b : Books} {u : Text}

theorem Solvent.of_accounts {b' : Books} (h : Solvent b) (he : b'.accounts = b.accounts) :
    Solvent b' := by
  intro v
  have hv := h v
  rw [Books.usedOf] at hv ⊢
  rw [he]
  exact hv

theorem Solvent.manifest {α : Type} {script : List Event} {x : Svc α} {o : Outcome StoreError α}
    {b' : Books} (h : Solvent b) (hm : b.manifest script x = (o, b')) : Solvent b' := by
  cases hm
  exact h.of_accounts rfl

theorem Solvent.addUsed (h : Solvent b) (delta : ℤ) : Solvent (b.addUsed u delta) := by
  intro v
  have hv := h v
  rw [Books.usedOf, Books.addUsed]
  by_cases hvu : v = u
  · subst hvu
    simp only [Function.update_self]
    cases b.accounts v with
    | none => exact le_refl 0
    | some a => exact le_max_right _ _
  · simp only [Function.update_of_ne hvu]
    exact hv

theorem Solvent.adjustUserUsed (h : Solvent b) (delta : ℤ) : Solvent (b.adjustUserUsed u delta) := by
  rw [Books.adjustUserUsed]
  split
  · exact h
  · exact h.addUsed delta

theorem Solvent.ensure (h : Solvent b) (granted : Option ℤ) : Solvent (b.ensure u granted) := by
  intro v
  rw [ensure_usedOf]
  exact h v

/-- What a charge adds to the accounts. -/
theorem charge_usedOf {b' : Books} {size : ℤ} (h : b.charge u size = some b') (v : Text) :
    b'.usedOf v = b.usedOf v + if v = u then size else 0 := by
  obtain ⟨quota, used, ha, -, rfl⟩ := charge_some h
  by_cases hv : v = u
  · subst hv
    simp only [Books.usedOf, Function.update_self, ha, Option.map_some, Option.getD_some, if_true]
  · simp only [Books.usedOf, Function.update_of_ne hv, if_neg hv, add_zero]

theorem Solvent.charge {b' : Books} {size : ℤ} (h : Solvent b) (hsize : 0 ≤ size)
    (hc : b.charge u size = some b') : Solvent b' := by
  intro v
  have hv := h v
  rw [charge_usedOf hc]
  split <;> omega

end

/-- No statement of any call takes an account below zero. -/
theorem advance_solvent {K : Type} (P : Prims K) (key : K) {b : Books} (e : Accounting.Env)
    (h : Solvent b) (pc : Pc) : Solvent (advance P key e b pc).1 := by
  have hsize : ∀ r : Upload, 0 ≤ r.size := fun r => Int.natCast_nonneg _
  cases pc <;> simp only [advance]
  case uploadEnsure r =>
    split
    · exact h
    · exact h.ensure e.granted
  case uploadCharge r =>
    split
    · exact h
    · split
      · rename_i b' hc
        exact h.charge (hsize r) hc
      · exact h
  case uploadReselect => exact h
  case uploadRefund u size =>
    split
    · exact h
    · exact h.adjustUserUsed (-size)
  case uploadSettle u delta stored =>
    split
    · exact h
    · exact h.adjustUserUsed delta
  case creditUser u size stored =>
    split
    · exact h
    · exact h.addUsed (-size)
  case sweepCredit todo freed =>
    cases todo with
    | nil =>
      dsimp only
      split <;> exact h
    | cons x todo =>
      obtain ⟨u, size, stored⟩ := x
      dsimp only
      split
      · exact h
      · exact h.addUsed (-size)
  case packSettle delta =>
    split
    · exact h
    · exact h.of_accounts (by rw [Books.adjustNodeStored]; split <;> rfl)
  case shelf c => exact h.of_accounts rfl
  case creditNode | uploadNode => split <;> exact h
  -- a step on the manifest is none on the accounts
  all_goals
    (repeat' split) <;>
      · have hread := h.manifest ‹b.manifest _ _ = (_, _)›
        exact hread.of_accounts rfl

/-- Whatever the calls of a node meet, and however they interleave. -/
theorem run_solvent {K : Type} (P : Prims K) (key : K) {b : Books} (h : Solvent b)
    (as : List (Label Req Accounting.Env)) : Solvent (run (step P key) ⟨b, []⟩ as).shared := by
  have hstep : ∀ (s : Calls) a, Solvent s.shared → True → Solvent (step P key s a).shared :=
    @step_keeps _ _ _ _ _ _ (fun s : Calls => Solvent s.shared) (fun _ _ => True) (fun _ _ hs _ => hs)
      fun s _ pc e hs _ _ => advance_solvent P key e hs pc
  exact run_invariant (I := fun s : Calls => Solvent s.shared) hstep h (allMeet_of_forall fun _ _ => trivial)

/-! ### What an upload leaves -/

/-- The account has room for the body, granted first where it has no row. -/
def Fits (e : Env) (b : Books) (r : Request) : Prop :=
  ∃ quota used, (b.ensure r.user e.granted).accounts r.user = some (quota, used) ∧
    used + r.size ≤ quota

/-- The upload is charged for a body that is not empty, and the reselect of the row it charged gives
no value. -/
structure ChargedBlind (e : Env) (b : Books) (r : Request) : Prop where
  path : trim r.path ≠ []
  ceiling : r.size ≤ e.maxUpload
  ensured : e.ensureFails = false
  charged : e.chargeFails = false
  fits : Fits e b r
  body : r.body ≠ []
  blind : e.reselect ≠ .row

/-- An upload that returned an error left every account and the manifest as they were. -/
def CostsNothing (b : Books) (result : Except P2pError Uploaded × Books) : Prop :=
  ∀ err, result.1 = .error err → (∀ u, result.2.usedOf u = b.usedOf u) ∧ result.2.db = b.db

theorem charge_isSome_iff {e : Env} {b : Books} {r : Request} :
    ((b.ensure r.user e.granted).charge r.user r.size).isSome ↔ Fits e b r := by
  rw [Books.charge, Fits]
  cases (b.ensure r.user e.granted).accounts r.user with
  | none => simp
  | some row =>
    obtain ⟨quota, used⟩ := row
    by_cases hle : used + r.size ≤ quota
    · simp [hle]
    · simp only [if_neg hle, Option.isSome_none, Bool.false_eq_true, Option.some.injEq,
        Prod.mk.injEq, false_iff]
      rintro ⟨_, _, ⟨rfl, rfl⟩, hfits⟩
      exact hle hfits

/-- A reservation fails before the charge, or is charged and read or not. -/
theorem reserve_cases (e : Env) (b : Books) (r : Request) :
    (∃ err b', reserve e b r = (.error err, b') ∧ (∀ u, b'.usedOf u = b.usedOf u) ∧ b'.db = b.db ∧
      ¬ (e.ensureFails = false ∧ e.chargeFails = false ∧ Fits e b r)) ∨
    ∃ b', (∀ u, b'.usedOf u = b.usedOf u + if u = r.user then r.size else 0) ∧ b'.db = b.db ∧
      (b'.accounts r.user).isSome = true ∧
      (e.ensureFails = false ∧ e.chargeFails = false ∧ Fits e b r) ∧
      ((e.reselect = .row ∧ reserve e b r = (.ok (), b')) ∨
        (e.reselect ≠ .row ∧ ∃ err, reserve e b r = (.error err, b'))) := by
  have hensure : ∀ u, (b.ensure r.user e.granted).usedOf u = b.usedOf u := ensure_usedOf e.granted
  have hdb : (b.ensure r.user e.granted).db = b.db := (ensure_rest e.granted).1
  unfold reserve
  dsimp only
  cases hensured : e.ensureFails with
  | true => exact .inl ⟨_, _, rfl, fun _ => rfl, rfl, fun h => by cases h.1⟩
  | false =>
    cases hcharged : e.chargeFails with
    | true => exact .inl ⟨_, _, rfl, hensure, hdb, fun h => by cases h.2.1⟩
    | false =>
      have hfits := charge_isSome_iff (e := e) (b := b) (r := r)
      cases hc : (b.ensure r.user e.granted).charge r.user r.size with
      | none =>
        rw [hc] at hfits
        refine .inl ⟨_, _, rfl, hensure, hdb, fun h => ?_⟩
        cases hfits.mpr h.2.2
      | some b' =>
        rw [hc] at hfits
        have hused : ∀ u, b'.usedOf u = b.usedOf u + if u = r.user then r.size else 0 := by
          intro u
          rw [charge_usedOf hc, hensure]
        obtain ⟨quota, used, -, -, rfl⟩ := charge_some hc
        refine .inr ⟨_, hused, hdb, ?_, ⟨rfl, rfl, hfits.mp rfl⟩, ?_⟩
        · simp only [Function.update_self, Option.isSome_some]
        · cases e.reselect with
          | row => exact .inl ⟨rfl, rfl⟩
          | missing => exact .inr ⟨by decide, _, rfl⟩
          | fails => exact .inr ⟨by decide, _, rfl⟩

/-- A refund takes back what was charged, when the account has it. -/
theorem refund_usedOf {e : Env} {b : Books} {r : Request} (hrefund : e.refundFails = false)
    (hrow : (b.accounts r.user).isSome = true) (hcovered : r.size ≤ b.usedOf r.user) (u : Text) :
    (refund e b r).usedOf u = b.usedOf u - if u = r.user then r.size else 0 := by
  rw [refund, hrefund, if_neg Bool.false_ne_true, Books.adjustUserUsed]
  split
  · rename_i hzero
    have hsize : r.size = 0 := by omega
    rw [hsize, ite_self, sub_zero]
  · rw [usedOf_addUsed hrow (by omega)]
    split <;> omega

theorem refund_db (e : Env) (b : Books) (r : Request) : (refund e b r).db = b.db := by
  rw [refund]
  split
  · rfl
  · rw [Books.adjustUserUsed]
    split <;> rfl

section
variable {K : Type} {P : Prims K} {key : K}

/-- A push that fails after the charge gives the charge back. -/
theorem store_refunds {e : Env} {b : Books} {r : Request} {err : P2pError}
    (hrefund : e.refundFails = false) (hrow : (b.accounts r.user).isSome = true)
    (hcovered : r.size ≤ b.usedOf r.user) (h : (store P key e b r).1 = .error err) :
    (∀ u, (store P key e b r).2.usedOf u = b.usedOf u - if u = r.user then r.size else 0) ∧
      (store P key e b r).2.db = b.db := by
  cases hp : push P key r.user (trim r.path) r.body e.mint e.now ⟨b.db, b.store, e.script⟩ with
  | mk o w =>
    cases o with
    | ok res =>
      simp only [store, Books.manifest, hp] at h
      split at h <;> cases h
    | error stop =>
      simp only [store, Books.manifest, hp]
      refine ⟨fun u => ?_, ?_⟩
      · exact refund_usedOf (b := { b with db := w.db, store := w.store }) hrefund hrow hcovered u
      · rw [refund_db]
        exact push_error hp

/-- A failed upload leaves the account and the manifest as they were, exactly when it does not end
between a charge and the reselect. -/
theorem upload_costsNothing_iff (P : Prims K) (key : K) {b : Books} (hb : Solvent b) {e : Env}
    (hrefund : e.refundFails = false) (r : Request) :
    CostsNothing b (upload P key e b r) ↔ ¬ ChargedBlind e b r := by
  have hnothing : ∀ err : P2pError, CostsNothing b (.error err, b) := fun _ _ _ => ⟨fun _ => rfl, rfl⟩
  unfold upload
  by_cases hpath : (trim r.path).isEmpty = true
  · rw [if_pos hpath]
    refine iff_of_true (hnothing _) fun h => h.path ?_
    exact List.isEmpty_iff.mp hpath
  rw [if_neg hpath]
  by_cases hceiling : e.maxUpload < r.size
  · rw [if_pos hceiling]
    exact iff_of_true (hnothing _) fun h => absurd h.ceiling (by omega)
  rw [if_neg hceiling]
  rcases reserve_cases e b r with ⟨err, b', hres, hused, hdb, hnot⟩ |
      ⟨b', hused, hdb, hrow, hok, ⟨hread, hres⟩ | ⟨hblind, err, hres⟩⟩
  · rw [hres]
    exact iff_of_true (fun _ _ => ⟨hused, hdb⟩) fun h => hnot ⟨h.ensured, h.charged, h.fits⟩
  · rw [hres]
    refine iff_of_true (fun err herr => ?_) fun h => h.blind hread
    have hcovered : r.size ≤ b'.usedOf r.user := by
      have hpos := hb r.user
      rw [hused, if_pos rfl]
      omega
    obtain ⟨hback, hstored⟩ := @store_refunds K P key _ _ _ _ hrefund hrow hcovered herr
    refine ⟨fun u => ?_, hstored.trans hdb⟩
    have hu := hback u
    rw [hused] at hu
    dsimp only
    omega
  · rw [hres]
    constructor
    · intro hcosts hcharged
      have hsame := (hcosts err rfl).1 r.user
      dsimp only at hsame
      rw [hused, if_pos rfl] at hsame
      have hlen : (0 : ℤ) < r.size :=
        Int.natCast_pos.mpr (List.length_pos_iff.mpr hcharged.body)
      omega
    · intro hnot err' _
      have hempty : r.body = [] := by
        by_contra hbody
        refine hnot ⟨fun h => hpath ?_, by omega, hok.1, hok.2.1, hok.2.2, hbody, hblind⟩
        exact List.isEmpty_iff.mpr h
      refine ⟨fun u => ?_, hdb⟩
      have hsize : r.size = 0 := by rw [Request.size, hempty]; rfl
      rw [hused, hsize, ite_self, add_zero]

end

/-- An upload on an instance that takes ten bytes; `reselect` and `script` are what it meets. -/
def meets (reselect : Reselect) (script : List Event) : Env where
  maxUpload := 10
  granted := none
  ensureFails := false
  chargeFails := false
  reselect := reselect
  script := script
  mint := ['m']
  now := 0
  refundFails := false
  settleFails := false
  nodeFails := false

def oneByte : Request := ⟨['u'], ['p'], [1]⟩

theorem oneAccount_solvent : Solvent oneAccount := fun v => (oneAccount_empty.used v).ge

/-- The database does not answer when the push asks for the path. -/
theorem failedPush_refunded :
    (∃ err, (upload (Core.Sample.sample []) .node (meets .row [.fails none]) oneAccount oneByte).1 =
      .error err) ∧
    CostsNothing oneAccount
      (upload (Core.Sample.sample []) .node (meets .row [.fails none]) oneAccount oneByte) :=
  ⟨⟨.store .sqlite, by decide +kernel⟩,
    (upload_costsNothing_iff (Core.Sample.sample []) .node oneAccount_solvent rfl oneByte).mpr
      fun h => h.blind rfl⟩

/-- The database does not answer when the charged row is read again. -/
theorem unreadCharge_kept :
    let result := upload (Core.Sample.sample []) .node (meets .fails []) oneAccount oneByte
    result.1 = .error .db ∧ oneAccount.usedOf ['u'] = 0 ∧ result.2.usedOf ['u'] = 1 ∧
      ¬ CostsNothing oneAccount result := by
  have hused : (upload (Core.Sample.sample []) .node (meets .fails []) oneAccount oneByte).2.usedOf
      ['u'] = 1 := by decide +kernel
  refine ⟨by decide +kernel, by decide, hused, fun h => ?_⟩
  have hsame := (h .db (by decide +kernel)).1 ['u']
  rw [hused] at hsame
  cases hsame

end P2pnas.Node.Refunds
