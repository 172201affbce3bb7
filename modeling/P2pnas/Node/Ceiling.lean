import P2pnas.Node.Accounting

/-!
# The quota is a ceiling for uploads (`files.rs:60-243`)

Uploads of any users run next to each other, any statement may fail. What an account's rows
weigh and what its uploads in progress have reserved never exceeds `used_bytes`, and that
never exceeds the quota: the charge is one guarded `UPDATE`, and a refund that fails or is
clamped leaves the counter too high, never too low.
-/

namespace P2pnas.Node.Ceiling
open P2pnas.Lib.Frames P2pnas.Lib.Strings P2pnas.Lib.Runs P2pnas.Lib.Interleave P2pnas.Core.Base
open P2pnas.Core.Pipeline P2pnas.Store.Manifest P2pnas.Store.Session P2pnas.Store.Service
open P2pnas.Store.Sizes P2pnas.Store.Shifts P2pnas.Node.Accounting

/-- The sum of `size` over the rows of an account. -/
def accountSize (db : Db) (u : Text) : ℤ := usedBy (fun _ => false) u (entries db)

/-- Only uploads start. -/
def UploadOnly : Label Req Env → Prop
  | .start (.upload _) => True
  | .start _ => False
  | .move .. => True

instance : (a : Label Req Env) → Decidable (UploadOnly a)
  | .start (.upload _) | .move .. => .isTrue trivial
  | .start (.purge ..) | .start (.emptyTrash _) | .start (.purgeRetired ..)
  | .start (.packGroup ..) | .start (.compact ..) | .start (.shelf _) => .isFalse id

/-- The statements of an upload, with what it carries. -/
def Uploading : Pc → Prop
  | .uploadEnsure _ | .uploadCharge _ | .uploadReselect _ | .pushCheck _ | .pushTx .. => True
  | .uploadRefund _ size => 0 ≤ size
  | .uploadSettle _ delta _ => delta = 0
  | .uploadNode _ => True
  | _ => False

theorem uploading_debt {pc : Pc} (h : Uploading pc) (u : Text) : 0 ≤ userDebt u pc := by
  have hite : ∀ (v : Text) (n : ℤ), 0 ≤ n → 0 ≤ if u = v then n else 0 := by
    intro v n hn
    split
    · exact hn
    · exact le_refl 0
  cases pc with
  | uploadReselect r => exact hite _ _ (Int.natCast_nonneg _)
  | pushCheck r => exact hite _ _ (Int.natCast_nonneg _)
  | pushTx r chunks => exact hite _ _ (Int.natCast_nonneg _)
  | uploadRefund v size => exact hite _ _ h
  | uploadSettle v delta stored =>
    have hz : delta = 0 := h
    exact hite _ _ (by rw [hz]; decide)
  | uploadEnsure r => exact le_refl 0
  | uploadCharge r => exact le_refl 0
  | uploadNode stored => exact le_refl 0
  | _ => exact h.elim

/-- The account has its quota, and `slack` of what is used is spoken for by no row. -/
def Within (u : Text) (quota slack : ℤ) (b : Books) : Prop :=
  ∃ used, b.accounts u = some (quota, used) ∧ used ≤ quota ∧ accountSize b.db u + slack ≤ used

section
variable {u : Text} {quota slack : ℤ} {b : Books}

theorem Within.same (h : Within u quota slack b) (b' : Books) (ha : b'.accounts u = b.accounts u)
    (hdb : entries b'.db = entries b.db) {t : ℤ} (ht : t ≤ slack) : Within u quota t b' := by
  obtain ⟨used, hrow, hcap, hsum⟩ := h
  refine ⟨used, ha.trans hrow, hcap, ?_⟩
  simp only [accountSize, hdb] at hsum ⊢
  omega

theorem within_ensure (h : Within u quota slack b) (v : Text) (granted : Option ℤ) :
    Within u quota slack (b.ensure v granted) := by
  obtain ⟨used, hrow, _⟩ := id h
  obtain ⟨hdb, _⟩ := ensure_rest (b := b) (u := v) granted
  refine h.same _ ?_ (by rw [hdb]) (le_refl _)
  unfold Books.ensure
  split
  · rename_i hnone _
    have hv : u ≠ v := by
      rintro rfl
      rw [hrow] at hnone
      cases hnone
    exact Function.update_of_ne hv _ _
  · rfl

/-- The guarded charge keeps the ceiling and reserves the size. -/
theorem within_charge (h : Within u quota slack b) {b' : Books} {v : Text} {size : ℤ}
    (hc : b.charge v size = some b') :
    Within u quota (slack + if u = v then size else 0) b' := by
  obtain ⟨q, used, ha, hle, rfl⟩ := charge_some hc
  by_cases hv : u = v
  · subst hv
    obtain ⟨used', hrow, _, hsum⟩ := h
    rw [ha] at hrow
    obtain ⟨rfl, rfl⟩ := Prod.mk.inj (Option.some.inj hrow)
    refine ⟨used + size, Function.update_self .., hle, ?_⟩
    simp only [accountSize, if_true] at hsum ⊢
    omega
  · refine h.same { b with accounts := Function.update b.accounts v (some (q, used + size)) }
      (Function.update_of_ne hv _ _) rfl ?_
    rw [if_neg hv, add_zero]

/-- A refund, clamped or not. -/
theorem within_addUsed (hq : 0 ≤ quota) {v : Text} {size t : ℤ} (hsize : 0 ≤ size)
    (h : Within u quota t b) (ht : slack + (if u = v then size else 0) ≤ t) :
    Within u quota slack (b.addUsed v (-size)) := by
  by_cases hv : u = v
  · subst hv
    obtain ⟨used, hrow, hcap, hsum⟩ := h
    refine ⟨max (used + -size) 0, ?_, ?_, ?_⟩
    · simp only [Books.addUsed, Function.update_self, hrow, Option.map_some]
    · exact max_le (by omega) hq
    · rw [if_pos rfl] at ht
      have hdb : (b.addUsed u (-size)).db = b.db := rfl
      rw [hdb]
      exact le_trans (by omega) (le_max_left _ _)
  · refine h.same (b.addUsed v (-size)) ?_ rfl ?_
    · simp only [Books.addUsed, Function.update_of_ne hv]
    · rw [if_neg hv] at ht
      omega

end

section
variable {K : Type} (P : Prims K) (key : K) {u : Text} {quota rest : ℤ} {b : Books}

/-- The rows that a push writes take up what it reserved. -/
theorem within_pushTx {r : Upload} {chunks : List ProcessedChunk} {e : Env} {p : PushResult} {w' : World}
    (h : Within u quota (rest + userDebt u (.pushTx r chunks)) b)
    (htx : transaction (Store.Service.pushTx P r.user r.path r.mint r.data r.now chunks)
      ⟨b.db, b.store, e.script⟩ = (.ok p, w')) (containers : Text → Bool) :
    Within u quota rest { b with db := w'.db, store := w'.store, containers := containers } := by
  obtain ⟨hs, hsize, _⟩ := pushTx_shift (c := fun _ => false) htx
  obtain ⟨used, hrow, hcap, hsum⟩ := h
  refine ⟨used, hrow, hcap, ?_⟩
  have hused := hs.used u
  rw [Function.update_eq_self, hsize] at hused
  have hdebt : userDebt u (.pushTx r chunks) = if u = r.user then (r.data.length : ℤ) else 0 := rfl
  rw [hdebt] at hsum
  simp only [accountSize] at hsum hused ⊢
  omega

/-- One statement of an upload: the ceiling holds, the rest of the reservations untouched. -/
theorem advance_within (hq : 0 ≤ quota) {pc : Pc} (e : Env) (hpc : Uploading pc)
    (h : Within u quota (rest + userDebt u pc) b) :
    let r := advance P key e b pc
    Within u quota (rest + (r.2.map (userDebt u)).getD 0) r.1 ∧
      ∀ pc', r.2 = some pc' → Uploading pc' := by
  have hnn := uploading_debt hpc u
  cases pc with
  | uploadEnsure r =>
    simp only [advance]
    split
    · exact ⟨h, fun _ hn => by cases hn⟩
    · exact ⟨within_ensure h r.user e.granted, fun _ hn => by cases hn; trivial⟩
  | uploadCharge r =>
    simp only [advance]
    split
    · exact ⟨h, fun _ hn => by cases hn⟩
    · cases hc : b.charge r.user r.size with
      | none => exact ⟨h, fun _ hn => by cases hn⟩
      | some b' =>
        refine ⟨?_, fun _ hn => by cases hn; trivial⟩
        have hch := within_charge h hc
        simp only [userDebt, add_zero] at hch
        simpa only [Option.map_some, Option.getD_some, userDebt] using hch
  | uploadReselect r =>
    simp only [advance]
    split
    · -- the reservation is lost
      refine ⟨h.same _ rfl rfl ?_, fun _ hn => by cases hn⟩
      simp only [Option.map_none, Option.getD_none]
      omega
    · exact ⟨h, fun _ hn => by cases hn; trivial⟩
  | pushCheck r =>
    have hsize : 0 ≤ r.size := Int.natCast_nonneg _
    obtain ⟨hsame, _⟩ := manifest_query b e.script (getFileByPath · r.user r.path)
    simp only [advance]
    cases hm : b.manifest e.script (query (getFileByPath · r.user r.path)) with
    | mk o b' =>
      rw [hm] at hsame
      have hb' : b' = b := hsame
      subst hb'
      cases o with
      | error err => exact ⟨h, fun _ hn => by cases hn; exact hsize⟩
      | ok prev =>
        simp only
        split
        · exact ⟨h, fun _ hn => by cases hn; trivial⟩
        · exact ⟨h, fun _ hn => by cases hn; exact hsize⟩
  | pushTx r chunks =>
    simp only [advance, Books.manifest]
    cases htx : transaction (Store.Service.pushTx P r.user r.path r.mint r.data r.now chunks)
        ⟨b.db, b.store, e.script⟩ with
    | mk o w' =>
      cases o with
      | error err =>
        have hdb := transaction_error htx
        refine ⟨h.same { b with db := w'.db, store := w'.store } rfl ?_ (le_refl _), fun _ hn => ?_⟩
        · simp only [hdb]
        · cases hn
          exact Int.natCast_nonneg _
      | ok p =>
        have hwithin := within_pushTx P h htx (Function.update b.containers r.mint false)
        obtain ⟨-, hsize, -⟩ := pushTx_shift (c := fun _ => false) htx
        have hz : p.size - r.size = 0 := by
          rw [hsize]
          exact sub_self _
        refine ⟨?_, fun _ hn => by cases hn; exact hz⟩
        simpa only [userDebt, Option.map_some, Option.getD_some, hz, neg_zero, ite_self, add_zero]
          using hwithin
  | uploadRefund v size =>
    have hsize : 0 ≤ size := hpc
    have hle : rest ≤ rest + userDebt u (.uploadRefund v size) := by omega
    simp only [advance, Books.adjustUserUsed]
    refine ⟨?_, fun _ hn => by cases hn⟩
    simp only [Option.map_none, Option.getD_none, add_zero]
    split
    · exact h.same _ rfl rfl hle
    · split
      · exact h.same _ rfl rfl hle
      · exact within_addUsed hq hsize h (le_refl _)
  | uploadSettle v delta stored =>
    have hz : delta = 0 := hpc
    subst hz
    have hd : userDebt u (.uploadSettle v 0 stored) = 0 := by
      simp only [userDebt]
      split <;> rfl
    simp only [advance, Books.adjustUserUsed, if_true, ite_self, Option.map_some, Option.getD_some]
    rw [hd] at h
    exact ⟨h, fun _ hn => by cases hn; trivial⟩
  | uploadNode stored =>
    simp only [advance]
    refine ⟨?_, fun _ hn => by cases hn⟩
    split
    · exact h
    · exact h.same (b.addNode stored) rfl rfl (le_refl _)
  | _ => exact hpc.elim

end

/-- The account is within its ceiling with all its uploads in progress. -/
structure Capped (u : Text) (quota : ℤ) (s : Calls) : Prop where
  within : Within u quota (total (userDebt u) s.procs) s.shared
  procs : ∀ pc ∈ s.procs, Uploading pc

def StartsUpload (_ : Calls) (a : Label Req Env) : Prop := UploadOnly a

theorem step_capped {K : Type} (P : Prims K) (key : K) {u : Text} {quota : ℤ} (hq : 0 ≤ quota)
    (s : Calls) (a : Label Req Env) (hs : Capped u quota s) (ha : StartsUpload s a) :
    Capped u quota (step P key s a) := by
  refine step_keeps _ _ ?_ ?_ s a hs ha
  · intro s q hs hup
    cases q with
    | upload r =>
      refine ⟨?_, fun pc hpc => ?_⟩
      · rw [total_start]
        exact hs.within.same _ rfl rfl (le_of_eq (add_zero _))
      · rcases List.mem_append.mp hpc with hold | hnew
        · exact hs.procs pc hold
        · rw [List.mem_singleton.mp hnew]
          trivial
    | _ => exact hup.elim
  · intro s k pc e hs hk _
    have hmem : pc ∈ s.procs := List.mem_of_getElem? hk
    have hw : Within u quota (total (userDebt u) s.procs - userDebt u pc + userDebt u pc) s.shared :=
      hs.within.same _ rfl rfl (by omega)
    obtain ⟨hkept, hnext⟩ := advance_within P key hq e (hs.procs pc hmem) hw
    refine ⟨?_, forall_put hs.procs hnext⟩
    rw [total_put (userDebt u) hk]
    exact hkept

/-- For every account with a quota row, in every run of uploads with any faults, its rows weigh
at most `used_bytes`, and that is at most its quota. -/
theorem run_capped {K : Type} (P : Prims K) (key : K) {b : Books} {u : Text} {quota used : ℤ}
    (hrow : b.accounts u = some (quota, used)) (hq : 0 ≤ quota) (hcap : used ≤ quota)
    (hsum : accountSize b.db u ≤ used) {as : List (Label Req Env)} (has : ∀ a ∈ as, UploadOnly a) :
    let s := run (step P key) ⟨b, []⟩ as
    ∃ used', s.shared.accounts u = some (quota, used') ∧ accountSize s.shared.db u ≤ used' ∧
      used' ≤ quota := by
  have hinit : Capped u quota ⟨b, []⟩ :=
    ⟨⟨used, hrow, hcap, by rw [total_nil, add_zero]; exact hsum⟩,
      fun _ hp => (List.not_mem_nil hp).elim⟩
  have hmeet : AllMeet (step P key) StartsUpload ⟨b, []⟩ as := allMeet_of_forall has
  obtain ⟨⟨used', hrow', hcap', hsum'⟩, hprocs⟩ := run_invariant (step_capped P key hq) hinit hmeet
  refine ⟨used', hrow', ?_, hcap'⟩
  have hres := total_nonneg fun pc hm => uploading_debt (hprocs pc hm) u
  omega

/-- Room for one byte. -/
def oneByte : Books := { oneAccount with accounts := fun v => if v = ['u'] then some (1, 0) else none }

/-- Two uploads of one byte race; the second one finds the charge refused. -/
def racing : List (Label Req Env) :=
  [.start (.upload (uploadOf 'a' 1)), .start (.upload (uploadOf 'b' 2)), .move 0 calm, .move 1 calm,
    .move 0 calm, .move 1 calm] ++ List.replicate 5 (.move 0 calm)

theorem racing_capped :
    let s := run (step (Core.Sample.sample []) .node) ⟨oneByte, []⟩ racing
    accountSize s.shared.db ['u'] = 1 ∧ ∃ used', s.shared.accounts ['u'] = some (1, used') ∧
      accountSize s.shared.db ['u'] ≤ used' ∧ used' ≤ 1 :=
  ⟨by decide +kernel, run_capped (Core.Sample.sample []) .node (b := oneByte) rfl (by decide)
    (by decide) (by decide +kernel) (by decide +kernel)⟩

end P2pnas.Node.Ceiling
