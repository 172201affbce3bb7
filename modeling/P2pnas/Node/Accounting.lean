import P2pnas.Core.Sample
import P2pnas.Lib.Interleave
import P2pnas.Store.Shifts

/-!
# Quota and node accounting (`files.rs:60-243`, `987-1400`)

The counters live in the control-plane database, the rows in the manifest. A run charges,
changes the manifest in one transaction (or one autocommit `DELETE`) and settles with separate
`UPDATE`s, so runs interleave between these. A call in progress is the statement it is about
to run with the values it carries. What an upload, a purge, a sweep and the two packing
passes read and fetch in between does not touch the counters: the entries of a pack, the
minted ids and the clock are arguments of the call.
-/

namespace P2pnas.Node.Accounting
open P2pnas.Lib.Frames P2pnas.Lib.Strings P2pnas.Lib.Tables P2pnas.Lib.Runs P2pnas.Lib.Interleave
open P2pnas.Core.Base P2pnas.Core.Pipeline P2pnas.Store.Manifest P2pnas.Store.Session
open P2pnas.Store.Service P2pnas.Store.Packing P2pnas.Store.Shelves P2pnas.Store.Sizes
open P2pnas.Store.Shifts

/-- The manifest and shard store, `user_quota` as (quota, used), `node_local.used_bytes`, and
which file ids name containers. -/
structure Books where
  db : Db
  store : ChunkStore
  accounts : Text → Option (ℤ × ℤ)
  nodeUsed : ℤ
  containers : Text → Bool

def Books.usedOf (b : Books) (u : Text) : ℤ := ((b.accounts u).map Prod.snd).getD 0

/-- `used_bytes = GREATEST(used_bytes + delta, 0)`, when the account has a row. -/
def Books.addUsed (b : Books) (u : Text) (delta : ℤ) : Books :=
  let row := (b.accounts u).map fun a => (a.1, max (a.2 + delta) 0)
  { b with accounts := Function.update b.accounts u row }

/-- `adjust_user_used`. -/
def Books.adjustUserUsed (b : Books) (u : Text) (delta : ℤ) : Books :=
  if delta = 0 then b else b.addUsed u delta

def Books.addNode (b : Books) (delta : ℤ) : Books :=
  { b with nodeUsed := max (b.nodeUsed + delta) 0 }

/-- `adjust_node_stored`. -/
def Books.adjustNodeStored (b : Books) (delta : ℤ) : Books :=
  if delta = 0 then b else b.addNode delta

/-- The guarded `UPDATE` of an upload; no row matches without an account or over the quota. -/
def Books.charge (b : Books) (u : Text) (size : ℤ) : Option Books :=
  match b.accounts u with
  | some (quota, used) =>
    if used + size ≤ quota then
      some { b with accounts := Function.update b.accounts u (some (quota, used + size)) }
    else none
  | none => none

/-- `ensure`: an account without a row may be granted one. -/
def Books.ensure (b : Books) (u : Text) (granted : Option ℤ) : Books :=
  match b.accounts u, granted with
  | none, some quota => { b with accounts := Function.update b.accounts u (some (quota, 0)) }
  | _, _ => b

/-- A part of a service call on the manifest and the shard store. -/
def Books.manifest {α : Type} (b : Books) (script : List Event) (x : Svc α) :
    Outcome StoreError α × Books :=
  let r := x ⟨b.db, b.store, script⟩
  (r.1, { b with db := r.2.db, store := r.2.store })

structure Upload where
  user : Text
  path : Text
  data : Bytes
  mint : Text
  now : Time
  deriving DecidableEq, Repr

def Upload.size (r : Upload) : ℤ := r.data.length

/-- The calls that only move rows and paths. -/
inductive Shelf where
  | trash (u f : Text) (now : Time)
  | trashPath (u path : Text) (now : Time)
  | restore (u f : Text) (newPath : Option Text) (now : Time)
  | rename (u fromPath toPath : Text)
  | mkdir (u path : Text)
  deriving DecidableEq, Repr

def Shelf.call : Shelf → Svc Unit
  | .trash u f now => do
    let _ ← Store.Service.trash u f now
    return ()
  | .trashPath u path now => do
    let _ ← Store.Service.trashPath u path now
    return ()
  | .restore u f newPath now => do
    let _ ← Store.Service.restore u f newPath now
    return ()
  | .rename u fromPath toPath => Store.Service.rename u fromPath toPath
  | .mkdir u path => Store.Service.mkdir u path

inductive Pc where
  | uploadEnsure (r : Upload)
  | uploadCharge (r : Upload)
  | uploadReselect (r : Upload)
  | pushCheck (r : Upload)
  | pushTx (r : Upload) (chunks : List ProcessedChunk)
  | uploadRefund (u : Text) (size : ℤ)
  | uploadSettle (u : Text) (delta stored : ℤ)
  | uploadNode (stored : ℤ)
  | purgeGet (u f : Text)
  | purgeFrags (u f : Text) (size stored : ℤ)
  | purgeDelete (u f : Text) (size stored : ℤ) (frags : List RemoteShard)
  | creditUser (u : Text) (size stored : ℤ)
  | creditNode (stored : ℤ)
  | emptyTrash (u : Text)
  | sweep (policy : RetentionPolicy) (nowTrash nowVersion : Time)
  | sweepCredit (todo : List (Text × ℤ × ℤ)) (freed : ℤ)
  | packWrite (u : Text) (entries : List PackEntry) (packId : Text) (now : Time)
  | compactWrite (u oldPackId : Text) (survivors : List PackEntry) (newPackId : Text) (now : Time)
  | packSettle (delta : ℤ)
  | shelf (c : Shelf)

/-- What a statement meets: the faults of a manifest step, whether a control-plane statement
fails, and what `ensure` would grant. -/
structure Env where
  script : List Event
  fails : Bool
  granted : Option ℤ

section
variable {K : Type} (P : Prims K) (key : K)

/-- The chunks of an upload. -/
def encodeUpload (r : Upload) : Outcome StoreError (List ProcessedChunk) :=
  wrapErr .core (processV2 P r.data key (utf8 r.user) (utf8 r.mint) {})

/-- One step of a call; `none` when it was the last. -/
def advance (e : Env) (b : Books) : Pc → Books × Option Pc
  | .uploadEnsure r =>
    if e.fails then (b, none) else (b.ensure r.user e.granted, some (.uploadCharge r))
  | .uploadCharge r =>
    if e.fails then (b, none)
    else match b.charge r.user r.size with
      | some b' => (b', some (.uploadReselect r))
      | none => (b, none)
  | .uploadReselect r => (b, if e.fails then none else some (.pushCheck r))
  | .pushCheck r =>
    match b.manifest e.script (query (getFileByPath · r.user r.path)) with
    | (.error _, b') => (b', some (.uploadRefund r.user r.size))
    | (.ok prev, b') =>
      match prev.filter (sameContent P · r.data), encodeUpload P key r with
      | none, .ok chunks => (b', some (.pushTx r chunks))
      | _, _ => (b', some (.uploadRefund r.user r.size))
  | .pushTx r chunks =>
    match b.manifest e.script
        (transaction (Store.Service.pushTx P r.user r.path r.mint r.data r.now chunks)) with
    | (.error _, b') => (b', some (.uploadRefund r.user r.size))
    | (.ok p, b') =>
      ({ b' with containers := Function.update b'.containers r.mint false },
        some (.uploadSettle r.user (p.size - r.size) p.storedBytes))
  | .uploadRefund u size => (if e.fails then b else b.adjustUserUsed u (-size), none)
  | .uploadSettle u delta stored =>
    (if e.fails then b else b.adjustUserUsed u delta, some (.uploadNode stored))
  | .uploadNode stored => (if e.fails then b else b.addNode stored, none)
  | .purgeGet u f =>
    match b.manifest e.script (query (getFile · u f)) with
    | (.ok (some file), b') => (b', some (.purgeFrags u f file.size file.storedBytes))
    | (_, b') => (b', none)
  | .purgeFrags u f size stored =>
    match b.manifest e.script (query (fragsOf · u f)) with
    | (.ok frags, b') => (b', some (.purgeDelete u f size stored frags))
    | (.error _, b') => (b', none)
  | .purgeDelete u f size stored frags =>
    match b.manifest e.script (do
        stmt (fun db => some (deleteFile db u f))
        purgeLocalCollectRemote frags) with
    | (.ok _, b') => (b', some (.creditUser u size stored))
    | (.error _, b') => (b', none)
  | .creditUser u size stored =>
    if e.fails then (b, none) else (b.addUsed u (-size), some (.creditNode stored))
  | .creditNode stored => (if e.fails then b else b.addNode (-stored), none)
  | .emptyTrash u =>
    match b.manifest e.script (Store.Service.emptyTrash u) with
    | (.ok r, b') => (b', some (.creditUser u r.1.size r.1.storedBytes))
    | (.error _, b') => (b', none)
  | .sweep policy nowTrash nowVersion =>
    match b.manifest e.script (purgeRetired policy nowTrash nowVersion) with
    | (.ok r, b') => (b', some (.sweepCredit r.freed 0))
    | (.error _, b') => (b', none)
  | .sweepCredit ((u, size, stored) :: todo) freed =>
    (if e.fails then b else b.addUsed u (-size), some (.sweepCredit todo (freed + stored)))
  | .sweepCredit [] freed => (if 0 < freed ∧ e.fails = false then b.addNode (-freed) else b, none)
  | .packWrite u entries packId now =>
    match b.manifest e.script (packFiles P key u entries packId now) with
    | (.ok r, b') =>
      ({ b' with containers := Function.update b'.containers packId true },
        some (.packSettle (r.packStoredBytes - r.freedStoredBytes)))
    | (.error _, b') => (b', none)
  | .compactWrite u oldPackId survivors newPackId now =>
    match b.manifest e.script (compactPack P key u oldPackId survivors newPackId now) with
    | (.ok r, b') =>
      ({ b' with containers :=
          if r.packId.isSome then Function.update b'.containers newPackId true else b'.containers },
        some (.packSettle (r.packStoredBytes - r.freedStoredBytes)))
    | (.error _, b') => (b', none)
  | .packSettle delta => (if e.fails then b else b.adjustNodeStored delta, none)
  | .shelf c => ((b.manifest e.script c.call).2, none)

inductive Req where
  | upload (r : Upload)
  | purge (u f : Text)
  | emptyTrash (u : Text)
  | purgeRetired (policy : RetentionPolicy) (nowTrash nowVersion : Time)
  | packGroup (u : Text) (entries : List PackEntry) (packId : Text) (now : Time)
  | compact (u oldPackId : Text) (survivors : List PackEntry) (newPackId : Text) (now : Time)
  | shelf (c : Shelf)

def Req.pc : Req → Pc
  | .upload r => .uploadEnsure r
  | .purge u f => .purgeGet u f
  | .emptyTrash u => .emptyTrash u
  | .purgeRetired policy nowTrash nowVersion => .sweep policy nowTrash nowVersion
  | .packGroup u entries packId now => .packWrite u entries packId now
  | .compact u oldPackId survivors newPackId now =>
    .compactWrite u oldPackId survivors newPackId now
  | .shelf c => .shelf c

abbrev Calls := Sys Books Pc

def step : Calls → Label Req Env → Calls :=
  P2pnas.Lib.Interleave.step (fun q b => (b, q.pc)) (advance P key)

end

/-! ### What a call in progress owes -/

/-- What the call still has to take from the account `v`. -/
def userDebt (v : Text) : Pc → ℤ
  | .uploadReselect r | .pushCheck r | .pushTx r _ => if v = r.user then r.size else 0
  | .uploadRefund u size => if v = u then size else 0
  | .uploadSettle u delta _ => if v = u then -delta else 0
  | .creditUser u size _ => if v = u then size else 0
  | .sweepCredit todo _ => ((todo.filter fun x => x.1 = v).map fun x => x.2.1).sum
  | _ => 0

/-- What the call still has to take from the node's stored bytes. -/
def nodeDebt : Pc → ℤ
  | .uploadSettle _ _ stored | .uploadNode stored => -stored
  | .creditUser _ _ stored | .creditNode stored => stored
  | .sweepCredit todo freed => freed + (todo.map fun x => x.2.2).sum
  | .packSettle delta => -delta
  | _ => 0

/-- The accounts a call will update have a row, and what it carries is no negative size. -/
def Carries (accounts : Text → Option (ℤ × ℤ)) : Pc → Prop
  | .uploadReselect r | .pushCheck r | .pushTx r _ => (accounts r.user).isSome = true
  | .uploadRefund u size => (accounts u).isSome = true ∧ 0 ≤ size
  | .uploadSettle _ delta _ => delta = 0
  | .creditUser u size _ => 0 ≤ size ∧ (0 < size → (accounts u).isSome = true)
  | .sweepCredit todo freed =>
    (∀ x ∈ todo, (accounts x.1).isSome = true ∧ 0 ≤ x.2.1 ∧ 0 ≤ x.2.2) ∧ 0 ≤ freed
  | _ => True

theorem userDebt_nonneg {accounts : Text → Option (ℤ × ℤ)} {pc : Pc} (h : Carries accounts pc)
    (v : Text) : 0 ≤ userDebt v pc := by
  have hite : ∀ (u : Text) (n : ℤ), 0 ≤ n → 0 ≤ if v = u then n else 0 := by
    intro u n hn
    split
    · exact hn
    · exact le_refl 0
  cases pc with
  | uploadReselect r => exact hite _ _ (Int.natCast_nonneg _)
  | pushCheck r => exact hite _ _ (Int.natCast_nonneg _)
  | pushTx r chunks => exact hite _ _ (Int.natCast_nonneg _)
  | uploadRefund u size => exact hite _ _ h.2
  | uploadSettle u delta stored =>
    have hz : delta = 0 := h
    exact hite _ _ (by rw [hz]; decide)
  | creditUser u size stored => exact hite _ _ h.1
  | sweepCredit todo freed =>
    refine List.sum_nonneg fun n hn => ?_
    obtain ⟨x, hx, rfl⟩ := List.mem_map.mp hn
    exact (h.1 x (List.mem_filter.mp hx).1).2.1
  | _ => exact le_refl 0

theorem carries_grow {accounts accounts' : Text → Option (ℤ × ℤ)} {pc : Pc}
    (hg : ∀ v, (accounts v).isSome = true → (accounts' v).isSome = true) (h : Carries accounts pc) :
    Carries accounts' pc := by
  cases pc with
  | uploadReselect r => exact hg _ h
  | pushCheck r => exact hg _ h
  | pushTx r chunks => exact hg _ h
  | uploadRefund u size => exact ⟨hg _ h.1, h.2⟩
  | uploadSettle u delta stored => exact h
  | creditUser u size stored => exact ⟨h.1, fun hp => hg _ (h.2 hp)⟩
  | sweepCredit todo freed => exact ⟨fun x hx => ⟨hg _ (h.1 x hx).1, (h.1 x hx).2⟩, h.2⟩
  | _ => trivial

/-! ### The counters -/

section
variable {b : Books} {u : Text}

theorem usedOf_addUsed {delta : ℤ} (hrow : (b.accounts u).isSome = true)
    (hpos : 0 ≤ b.usedOf u + delta) (v : Text) :
    (b.addUsed u delta).usedOf v = b.usedOf v + if v = u then delta else 0 := by
  obtain ⟨a, ha⟩ := Option.isSome_iff_exists.mp hrow
  by_cases hv : v = u
  · subst hv
    simp only [Books.usedOf, ha, Option.map_some, Option.getD_some] at hpos
    simp only [Books.usedOf, Books.addUsed, Function.update_self, ha, Option.map_some,
      Option.getD_some, if_true, max_eq_left hpos]
  · simp only [Books.usedOf, Books.addUsed, Function.update_of_ne hv, if_neg hv, add_zero]

theorem addUsed_isSome {delta : ℤ} (v : Text) :
    ((b.addUsed u delta).accounts v).isSome = (b.accounts v).isSome := by
  by_cases hv : v = u
  · subst hv
    simp only [Books.addUsed, Function.update_self, Option.isSome_map]
  · simp only [Books.addUsed, Function.update_of_ne hv]

theorem charge_some {b' : Books} {size : ℤ} (h : b.charge u size = some b') :
    ∃ quota used, b.accounts u = some (quota, used) ∧ used + size ≤ quota ∧
      b' = { b with accounts := Function.update b.accounts u (some (quota, used + size)) } := by
  unfold Books.charge at h
  split at h
  · rename_i quota used ha
    split at h
    · rename_i hle
      exact ⟨quota, used, ha, hle, (Option.some.inj h).symm⟩
    · cases h
  · cases h

theorem ensure_usedOf (granted : Option ℤ) (v : Text) : (b.ensure u granted).usedOf v = b.usedOf v := by
  unfold Books.ensure
  split
  · rename_i ha
    by_cases hv : v = u
    · subst hv
      simp only [Books.usedOf, Function.update_self, ha]
      rfl
    · simp only [Books.usedOf, Function.update_of_ne hv]
  · rfl

theorem ensure_isSome (granted : Option ℤ) (v : Text) (h : (b.accounts v).isSome = true) :
    ((b.ensure u granted).accounts v).isSome = true := by
  unfold Books.ensure
  split
  · by_cases hv : v = u
    · subst hv
      simp only [Function.update_self, Option.isSome_some]
    · simp only [Function.update_of_ne hv]
      exact h
  · exact h

theorem ensure_rest (granted : Option ℤ) : (b.ensure u granted).db = b.db ∧
    (b.ensure u granted).containers = b.containers ∧
    (b.ensure u granted).nodeUsed = b.nodeUsed := by
  unfold Books.ensure
  split <;> exact ⟨rfl, rfl, rfl⟩

end

/-! ### One step -/

/-- The rows are sound and their owners have a quota row. -/
structure Owned (b : Books) : Prop where
  sound : Sound (entries b.db)
  owners : ∀ e ∈ entries b.db, (b.accounts e.userId).isSome = true

/-- What one step of a call keeps: the counters less the sums less what the call owes. -/
structure Kept (b : Books) (pc : Pc) (r : Books × Option Pc) : Prop where
  used : ∀ v, r.1.usedOf v - usedBy r.1.containers v (entries r.1.db) -
    (r.2.map (userDebt v)).getD 0 = b.usedOf v - usedBy b.containers v (entries b.db) - userDebt v pc
  node : r.1.nodeUsed - storedTotal (entries r.1.db) - (r.2.map nodeDebt).getD 0 =
    b.nodeUsed - storedTotal (entries b.db) - nodeDebt pc
  owned : Owned r.1
  grows : ∀ v, (b.accounts v).isSome = true → (r.1.accounts v).isSome = true
  carries : ∀ pc', r.2 = some pc' → Carries r.1.accounts pc'

section
variable {b b' : Books} {pc : Pc} {next : Option Pc}

/-- A step that moves no counter and no row. -/
theorem kept_idle (hb : Owned b) (hdb : entries b'.db = entries b.db) (ha : b'.accounts = b.accounts)
    (hn : b'.nodeUsed = b.nodeUsed) (hc : b'.containers = b.containers)
    (hu : ∀ v, (next.map (userDebt v)).getD 0 = userDebt v pc)
    (hd : (next.map nodeDebt).getD 0 = nodeDebt pc)
    (hcar : ∀ pc', next = some pc' → Carries b.accounts pc') : Kept b pc (b', next) := by
  refine ⟨fun v => ?_, ?_, ⟨?_, ?_⟩, fun v h => ?_, ?_⟩
  · simp only [Books.usedOf, hdb, ha, hc, hu]
  · simp only [hdb, hn, hd]
  · simp only [hdb]
    exact hb.sound
  · simp only [hdb, ha]
    exact hb.owners
  · simp only [ha]
    exact h
  · simp only [ha]
    exact hcar

/-- A committed change of rows. -/
theorem kept_shift (hb : Owned b) {size : Text → ℤ} {stored : ℤ}
    (hs : Shift b.containers b'.containers (entries b.db) (entries b'.db) size stored)
    (hown : ∀ e ∈ entries b'.db, (b.accounts e.userId).isSome = true)
    (ha : b'.accounts = b.accounts) (hn : b'.nodeUsed = b.nodeUsed)
    (hu : ∀ v, (next.map (userDebt v)).getD 0 = userDebt v pc - size v)
    (hd : (next.map nodeDebt).getD 0 = nodeDebt pc - stored)
    (hcar : ∀ pc', next = some pc' → Carries b.accounts pc') : Kept b pc (b', next) := by
  refine ⟨fun v => ?_, ?_, ⟨hs.sound hb.sound, ?_⟩, fun v h => ?_, ?_⟩
  · have h₁ := hs.used v
    have h₂ := hu v
    simp only [Books.usedOf, ha] at h₂ ⊢
    omega
  · have h₁ := hs.stored
    simp only [hn]
    omega
  · simp only [ha]
    exact hown
  · simp only [ha]
    exact h
  · simp only [ha]
    exact hcar

/-- Rows keep their owners. -/
theorem owners_kept (hb : Owned b) {es : List Entry} (h : Owners (entries b.db) es) :
    ∀ e ∈ es, (b.accounts e.userId).isSome = true := by
  intro e he
  obtain ⟨e₀, he₀, hu⟩ := h e he
  rw [← hu]
  exact hb.owners e₀ he₀

/-- The counter of an account moves. -/
theorem kept_used (hb : Owned b) {u : Text} {delta : ℤ} (hrow : (b.accounts u).isSome = true)
    (hpos : 0 ≤ b.usedOf u + delta)
    (hu : ∀ v, (next.map (userDebt v)).getD 0 = userDebt v pc + if v = u then delta else 0)
    (hd : (next.map nodeDebt).getD 0 = nodeDebt pc)
    (hcar : ∀ pc', next = some pc' → Carries b.accounts pc') :
    Kept b pc (b.addUsed u delta, next) := by
  have hgrow : ∀ v, (b.accounts v).isSome = true → ((b.addUsed u delta).accounts v).isSome = true :=
    fun v h => by rw [addUsed_isSome]; exact h
  refine ⟨fun v => ?_, ?_, ⟨hb.sound, fun e he => hgrow _ (hb.owners e he)⟩, hgrow,
    fun pc' h => carries_grow hgrow (hcar pc' h)⟩
  · have h₁ := usedOf_addUsed hrow hpos v
    have h₂ := hu v
    change _ - usedBy b.containers v (entries b.db) - _ = _
    simp only at h₁ h₂ ⊢
    omega
  · change b.nodeUsed - storedTotal (entries b.db) - _ = _
    rw [hd]

/-- The node's counter moves. -/
theorem kept_node (hb : Owned b) {delta : ℤ} (hpos : 0 ≤ b.nodeUsed + delta)
    (hu : ∀ v, (next.map (userDebt v)).getD 0 = userDebt v pc)
    (hd : (next.map nodeDebt).getD 0 = nodeDebt pc + delta)
    (hcar : ∀ pc', next = some pc' → Carries b.accounts pc') :
    Kept b pc (b.addNode delta, next) := by
  refine ⟨fun v => ?_, ?_, ⟨hb.sound, hb.owners⟩, fun _ h => h, hcar⟩
  · change b.usedOf v - usedBy b.containers v (entries b.db) - _ = _
    rw [hu v]
  · change max (b.nodeUsed + delta) 0 - storedTotal (entries b.db) - _ = _
    rw [max_eq_left hpos]
    simp only at hd ⊢
    omega

end

/-- The step finds what the call read, destroys containers only by compaction and drops no
counter below zero. -/
def Fair (b : Books) : Pc → Prop
  | .purgeDelete u f size stored _ => b.containers f = false ∧
      ∃ file ∈ getFile b.db u f, file.size = size ∧ file.storedBytes = stored
  | .emptyTrash u => ∀ row ∈ listTrashed b.db u, b.containers row.fileId = false
  | .sweep policy t v => ∀ x ∈ retiredCandidates b.db policy t v, b.containers x.2.1 = false
  | .compactWrite u old _ _ _ =>
    ∀ row ∈ getFile b.db u old, row.isPack = true → b.containers old = true
  | .uploadNode stored => 0 ≤ b.nodeUsed + stored
  | .creditNode stored => 0 ≤ b.nodeUsed - stored
  | .sweepCredit [] freed => 0 ≤ b.nodeUsed - freed
  | .packSettle delta => 0 ≤ b.nodeUsed + delta
  | _ => True

instance (b : Books) : (pc : Pc) → Decidable (Fair b pc)
  | .purgeDelete u f size stored _ => inferInstanceAs (Decidable (b.containers f = false ∧
      ∃ file ∈ getFile b.db u f, file.size = size ∧ file.storedBytes = stored))
  | .emptyTrash u =>
    inferInstanceAs (Decidable (∀ row ∈ listTrashed b.db u, b.containers row.fileId = false))
  | .sweep policy t v => inferInstanceAs (Decidable
      (∀ x ∈ retiredCandidates b.db policy t v, b.containers x.2.1 = false))
  | .compactWrite u old _ _ _ => inferInstanceAs (Decidable
      (∀ row ∈ getFile b.db u old, row.isPack = true → b.containers old = true))
  | .uploadNode stored => inferInstanceAs (Decidable (0 ≤ b.nodeUsed + stored))
  | .creditNode stored => inferInstanceAs (Decidable (0 ≤ b.nodeUsed - stored))
  | .sweepCredit [] freed => inferInstanceAs (Decidable (0 ≤ b.nodeUsed - freed))
  | .packSettle delta => inferInstanceAs (Decidable (0 ≤ b.nodeUsed + delta))
  | .sweepCredit (_ :: _) _ | .uploadEnsure _ | .uploadCharge _ | .uploadReselect _ | .pushCheck _
  | .pushTx .. | .uploadRefund .. | .uploadSettle .. | .purgeGet .. | .purgeFrags ..
  | .creditUser .. | .packWrite .. | .shelf _ => .isTrue trivial

theorem shelf_even (c : Shelf) : Moves Even c.call := by
  have hF := even_shelves.toFrame
  cases c with
  | trash u f now => exact moves_bind hF (moves_trash even_shelves u f now) fun _ => moves_pure hF ()
  | trashPath u path now =>
    exact moves_bind hF (moves_trashPath even_shelves u path now) fun _ => moves_pure hF ()
  | restore u f newPath now =>
    exact moves_bind hF (moves_restore even_shelves u f newPath now) fun _ => moves_pure hF ()
  | rename u fromPath toPath => exact moves_rename even_shelves u fromPath toPath
  | mkdir u path => exact moves_mkdir even_shelves u path

section
variable {K : Type} {P : Prims K} {key : K} {e : Env} {b : Books}

attribute [local simp] advance

theorem kept_ensure (hb : Owned b) (hf : e.fails = false) (r : Upload) :
    Kept b (.uploadEnsure r) (advance P key e b (.uploadEnsure r)) := by
  obtain ⟨hdb, hcon, hnode⟩ := ensure_rest (b := b) (u := r.user) e.granted
  have hgrow := fun v => ensure_isSome (b := b) (u := r.user) e.granted v
  simp only [advance, hf, Bool.false_eq_true, if_false]
  refine ⟨fun v => ?_, ?_, ⟨?_, ?_⟩, hgrow, fun pc' h => ?_⟩
  · simp only [ensure_usedOf, hdb, hcon, Option.map_some, Option.getD_some, userDebt]
  · simp only [hnode, hdb, Option.map_some, Option.getD_some, nodeDebt]
  · simp only [hdb]
    exact hb.sound
  · simp only [hdb]
    exact fun x hx => hgrow _ (hb.owners x hx)
  · cases h
    trivial

theorem kept_charge (hb : Owned b) (hf : e.fails = false) (r : Upload) :
    Kept b (.uploadCharge r) (advance P key e b (.uploadCharge r)) := by
  simp only [advance, hf, Bool.false_eq_true, if_false]
  cases hc : b.charge r.user r.size with
  | none => exact kept_idle hb rfl rfl rfl rfl (fun _ => rfl) rfl fun _ h => by cases h
  | some b' =>
    obtain ⟨quota, used, ha, _, rfl⟩ := charge_some hc
    have hgrow : ∀ v, (b.accounts v).isSome = true →
        (Function.update b.accounts r.user (some (quota, used + r.size)) v).isSome = true := by
      intro v h
      by_cases hv : v = r.user
      · rw [hv, Function.update_self]
        rfl
      · rw [Function.update_of_ne hv]
        exact h
    refine ⟨fun v => ?_, rfl, ⟨hb.sound, fun x hx => hgrow _ (hb.owners x hx)⟩, hgrow,
      fun pc' h => ?_⟩
    · simp only [Option.map_some, Option.getD_some, userDebt, Books.usedOf]
      by_cases hv : v = r.user
      · rw [hv, Function.update_self, ha, if_pos rfl]
        simp only [Option.map_some, Option.getD_some]
        omega
      · rw [Function.update_of_ne hv, if_neg hv]
    · cases h
      simp only [Carries, Function.update_self, Option.isSome_some]

/-- A `SELECT` moves nothing. -/
theorem manifest_query {α : Type} (b : Books) (script : List Event) (f : Db → α) :
    (b.manifest script (query f)).2 = b ∧
      ∀ a, (b.manifest script (query f)).1 = .ok a → a = f b.db := by
  simp only [Books.manifest, query, effect]
  split
  · exact ⟨rfl, fun a h => by cases h; rfl⟩
  · exact ⟨rfl, fun a h => by cases h; rfl⟩
  · exact ⟨rfl, fun a h => by cases h⟩

theorem kept_pushCheck (hb : Owned b) {r : Upload} (hcar : (b.accounts r.user).isSome = true) :
    Kept b (.pushCheck r) (advance P key e b (.pushCheck r)) := by
  have hsize : 0 ≤ r.size := Int.natCast_nonneg _
  obtain ⟨hsame, _⟩ := manifest_query b e.script (getFileByPath · r.user r.path)
  simp only [advance]
  cases hq : b.manifest e.script (query (getFileByPath · r.user r.path)) with
  | mk o b' =>
    rw [hq] at hsame
    have hb' : b' = b := hsame
    subst hb'
    cases o with
    | error err =>
      refine kept_idle hb rfl rfl rfl rfl (fun _ => rfl) rfl fun _ h => ?_
      cases h
      exact ⟨hcar, hsize⟩
    | ok prev =>
      simp only
      split
      · exact kept_idle hb rfl rfl rfl rfl (fun _ => rfl) rfl fun _ h => by cases h; exact hcar
      · refine kept_idle hb rfl rfl rfl rfl (fun _ => rfl) rfl fun _ h => ?_
        cases h
        exact ⟨hcar, hsize⟩

theorem kept_pushTx (hb : Owned b) {r : Upload} (chunks : List ProcessedChunk)
    (hcar : (b.accounts r.user).isSome = true) :
    Kept b (.pushTx r chunks) (advance P key e b (.pushTx r chunks)) := by
  simp only [advance, Books.manifest]
  cases htx : transaction (Store.Service.pushTx P r.user r.path r.mint r.data r.now chunks)
      ⟨b.db, b.store, e.script⟩ with
  | mk o w' =>
    cases o with
    | error err =>
      have hdb := transaction_error htx
      refine kept_idle hb (by simp only [hdb]) rfl rfl rfl (fun _ => rfl) rfl fun _ h => ?_
      cases h
      exact ⟨hcar, Int.natCast_nonneg _⟩
    | ok p =>
      obtain ⟨hs, hsize, hown⟩ := pushTx_shift (c := b.containers) htx
      have hz : p.size - r.size = 0 := by
        rw [hsize]
        exact sub_self _
      refine kept_shift hb hs (fun x hx => ?_) rfl rfl (fun v => ?_) ?_ fun _ h => ?_
      · rcases hown x hx with hu | ⟨x₀, hx₀, hu⟩
        · rw [hu]
          exact hcar
        · rw [← hu]
          exact hb.owners x₀ hx₀
      · simp only [Option.map_some, Option.getD_some, userDebt, hz]
        by_cases hv : v = r.user
        · simp only [hv, if_true]
          omega
        · simp only [hv, if_false]
          omega
      · simp only [Option.map_some, Option.getD_some, nodeDebt]
        omega
      · cases h
        exact hz

theorem kept_refund (hb : Owned b) (hf : e.fails = false) {u : Text} {size : ℤ}
    (hcar : (b.accounts u).isSome = true ∧ 0 ≤ size) (hdebt : size ≤ b.usedOf u) :
    Kept b (.uploadRefund u size) (advance P key e b (.uploadRefund u size)) := by
  simp only [advance, hf, Bool.false_eq_true, if_false, Books.adjustUserUsed]
  split
  · rename_i hz
    refine kept_idle hb rfl rfl rfl rfl (fun v => ?_) rfl fun _ h => by cases h
    simp only [Option.map_none, Option.getD_none, userDebt]
    split
    · omega
    · rfl
  · refine kept_used hb hcar.1 (by omega) (fun v => ?_) rfl fun _ h => by cases h
    simp only [Option.map_none, Option.getD_none, userDebt]
    split <;> omega

theorem kept_settle (hb : Owned b) (hf : e.fails = false) {u : Text} {delta stored : ℤ}
    (hcar : delta = 0) :
    Kept b (.uploadSettle u delta stored) (advance P key e b (.uploadSettle u delta stored)) := by
  subst hcar
  simp only [advance, hf, Bool.false_eq_true, if_false, Books.adjustUserUsed, if_true]
  refine kept_idle hb rfl rfl rfl rfl (fun v => ?_) rfl fun _ h => by cases h; trivial
  simp only [Option.map_some, Option.getD_some, userDebt]
  split <;> rfl

/-- The read, then the shards of the row. -/
theorem kept_purgeReads (hb : Owned b) (u f : Text) :
    Kept b (.purgeGet u f) (advance P key e b (.purgeGet u f)) ∧
      ∀ size stored, Kept b (.purgeFrags u f size stored)
        (advance P key e b (.purgeFrags u f size stored)) := by
  constructor
  · obtain ⟨hsame, _⟩ := manifest_query b e.script (getFile · u f)
    simp only [advance]
    cases hq : b.manifest e.script (query (getFile · u f)) with
    | mk o b' =>
      rw [hq] at hsame
      have hb' : b' = b := hsame
      subst hb'
      split
      · rename_i heq
        obtain ⟨_, rfl⟩ := Prod.mk.inj heq
        exact kept_idle hb rfl rfl rfl rfl (fun _ => rfl) rfl fun _ h => by cases h; trivial
      · rename_i heq
        obtain ⟨_, rfl⟩ := Prod.mk.inj heq
        exact kept_idle hb rfl rfl rfl rfl (fun _ => rfl) rfl fun _ h => by cases h
  · intro size stored
    obtain ⟨hsame, _⟩ := manifest_query b e.script (fragsOf · u f)
    simp only [advance]
    cases hq : b.manifest e.script (query (fragsOf · u f)) with
    | mk o b' =>
      rw [hq] at hsame
      have hb' : b' = b := hsame
      subst hb'
      cases o with
      | error err => exact kept_idle hb rfl rfl rfl rfl (fun _ => rfl) rfl fun _ h => by cases h
      | ok frags =>
        exact kept_idle hb rfl rfl rfl rfl (fun _ => rfl) rfl fun _ h => by cases h; trivial

/-- The autocommit `DELETE` and the local shards after it. -/
theorem purgeDelete_cases (u f : Text) (frags : List RemoteShard) (w : World) :
    (∃ err w', (do
      stmt (fun db => some (deleteFile db u f))
      purgeLocalCollectRemote frags : Svc (List RemoteShard)) w = (.error err, w') ∧
        w'.db = w.db) ∨
      ∃ r w', (do
        stmt (fun db => some (deleteFile db u f))
        purgeLocalCollectRemote frags : Svc (List RemoteShard)) w = (.ok r, w') ∧
          entries w'.db = dropEntry u f (entries w.db) := by
  rcases bind_cases (stmt fun db => some (deleteFile db u f)) (fun _ => purgeLocalCollectRemote frags)
    w with ⟨err, w₁, hx, hb⟩ | ⟨_, w₁, hx, hb⟩
  · refine .inl ⟨err, w₁, hb, ?_⟩
    simp only [stmt, effect] at hx
    split at hx
    · cases hx
    · cases hx
    · obtain ⟨_, rfl⟩ := Prod.mk.inj hx
      rfl
  · obtain ⟨w', hp, hdb, _⟩ := Store.Edits.purgeLocal_spec frags w₁
    refine .inr ⟨_, w', hb.trans hp, ?_⟩
    rw [hdb, ← Option.some.inj (stmt_ok hx).1, entries_deleteFile]

theorem kept_purgeDelete (hb : Owned b) {u f : Text} {size stored : ℤ} {frags : List RemoteShard}
    (hfair : Fair b (.purgeDelete u f size stored frags)) :
    Kept b (.purgeDelete u f size stored frags)
      (advance P key e b (.purgeDelete u f size stored frags)) := by
  obtain ⟨hcon, file, hget, rfl, rfl⟩ := hfair
  have hent := getFile_entry hget
  simp only [advance, Books.manifest]
  rcases purgeDelete_cases u f frags ⟨b.db, b.store, e.script⟩ with
    ⟨err, w', h, hdb⟩ | ⟨r, w', h, hes⟩
  · rw [h]
    exact kept_idle hb (by simp only [hdb]) rfl rfl rfl (fun _ => rfl) rfl fun _ h => by cases h
  · rw [h]
    have hs := shift_drop (entries_nodup b.db) hent hcon
    simp only at hes hs
    rw [← hes] at hs
    refine kept_shift hb hs ?_ rfl rfl (fun v => ?_) ?_ fun _ h => ?_
    · simp only [hes]
      exact owners_kept hb (owners_drop u f _)
    · simp only [Option.map_some, Option.getD_some, userDebt]
      split <;> omega
    · simp only [Option.map_some, Option.getD_some, nodeDebt]
      omega
    · cases h
      exact ⟨(hb.sound _ hent).1, fun _ => hb.owners _ hent⟩

theorem kept_creditUser (hb : Owned b) (hf : e.fails = false) {u : Text} {size stored : ℤ}
    (hcar : 0 ≤ size ∧ (0 < size → (b.accounts u).isSome = true)) (hdebt : size ≤ b.usedOf u) :
    Kept b (.creditUser u size stored) (advance P key e b (.creditUser u size stored)) := by
  simp only [advance, hf, Bool.false_eq_true, if_false]
  by_cases hrow : (b.accounts u).isSome = true
  · refine kept_used hb hrow (by omega) (fun v => ?_) rfl fun _ h => by cases h; trivial
    simp only [Option.map_some, Option.getD_some, userDebt]
    split <;> omega
  · -- an account without a row has nothing to get back
    have hz : size = 0 := by
      rcases lt_or_eq_of_le hcar.1 with hp | hp
      · exact absurd (hcar.2 hp) hrow
      · exact hp.symm
    have hnone : b.accounts u = none := Option.not_isSome_iff_eq_none.mp hrow
    have hsame : (b.addUsed u (-size)).accounts = b.accounts := by
      simp only [Books.addUsed, hnone, Option.map_none]
      rw [← hnone, Function.update_eq_self]
    refine kept_idle hb rfl hsame rfl rfl (fun v => ?_) rfl fun _ h => by cases h; trivial
    simp only [Option.map_some, Option.getD_some, userDebt, hz]
    split <;> rfl

theorem kept_emptyTrash (hb : Owned b) {u : Text} (hfair : Fair b (.emptyTrash u)) :
    Kept b (.emptyTrash u) (advance P key e b (.emptyTrash u)) := by
  simp only [advance, Books.manifest]
  rcases emptyTrash_cases (w := ⟨b.db, b.store, e.script⟩) hfair with
    ⟨err, w', h, hdb⟩ | ⟨r, w', h, hs, ho, hrows⟩
  · rw [h]
    exact kept_idle hb (by simp only [hdb]) rfl rfl rfl (fun _ => rfl) rfl fun _ h => by cases h
  · rw [h]
    refine kept_shift hb hs (owners_kept hb ho) rfl rfl (fun v => ?_) ?_ fun _ h => ?_
    · simp only [Option.map_some, Option.getD_some, userDebt]
      split <;> omega
    · simp only [Option.map_some, Option.getD_some, nodeDebt]
      omega
    · cases h
      obtain ⟨hpos, hsome⟩ := hrows hb.sound
      refine ⟨hpos, fun hp => ?_⟩
      obtain ⟨x, hx, hu⟩ := hsome hp
      rw [← hu]
      exact hb.owners x hx

theorem kept_sweep (hb : Owned b) {policy : RetentionPolicy} {t v : Time}
    (hfair : Fair b (.sweep policy t v)) :
    Kept b (.sweep policy t v) (advance P key e b (.sweep policy t v)) := by
  simp only [advance, Books.manifest]
  rcases purgeRetired_cases (w := ⟨b.db, b.store, e.script⟩) hfair hb.sound with
    ⟨err, w', h, hdb⟩ | ⟨r, w', h, hs, ho, hfreed⟩
  · rw [h]
    exact kept_idle hb (by simp only [hdb]) rfl rfl rfl (fun _ => rfl) rfl fun _ h => by cases h
  · rw [h]
    refine kept_shift hb hs (owners_kept hb ho) rfl rfl (fun v => ?_) ?_ fun _ h => ?_
    · simp only [Option.map_some, Option.getD_some, userDebt]
      omega
    · simp only [Option.map_some, Option.getD_some, nodeDebt]
      omega
    · cases h
      refine ⟨fun x hx => ?_, le_refl 0⟩
      obtain ⟨⟨y, hy, hu⟩, hnn⟩ := hfreed x hx
      refine ⟨?_, hnn⟩
      rw [← hu]
      exact hb.owners y hy

theorem kept_sweepCredit (hb : Owned b) (hf : e.fails = false) {todo : List (Text × ℤ × ℤ)} {freed : ℤ}
    (hfair : Fair b (.sweepCredit todo freed)) (hcar : Carries b.accounts (.sweepCredit todo freed))
    (hdebt : ∀ v, userDebt v (.sweepCredit todo freed) ≤ b.usedOf v) :
    Kept b (.sweepCredit todo freed) (advance P key e b (.sweepCredit todo freed)) := by
  cases todo with
  | nil =>
    have hpos : 0 ≤ b.nodeUsed - freed := hfair
    have hfreed : 0 ≤ freed := hcar.2
    simp only [advance, hf]
    split
    · refine kept_node hb (by omega) (fun _ => rfl) ?_ fun _ h => by cases h
      simp only [Option.map_none, Option.getD_none, nodeDebt, List.map_nil, List.sum_nil]
      omega
    · rename_i hno
      have hnone : ¬ 0 < freed := fun hp => hno ⟨hp, trivial⟩
      refine kept_idle hb rfl rfl rfl rfl (fun _ => rfl) ?_ fun _ h => by cases h
      simp only [Option.map_none, Option.getD_none, nodeDebt, List.map_nil, List.sum_nil]
      omega
  | cons x todo =>
    obtain ⟨u, size, stored⟩ := x
    obtain ⟨hrow, hsize, hstored⟩ := hcar.1 _ (List.mem_cons_self ..)
    have hrest : ∀ y ∈ todo, (b.accounts y.1).isSome = true ∧ 0 ≤ y.2.1 ∧ 0 ≤ y.2.2 :=
      fun y hy => hcar.1 y (List.mem_cons_of_mem _ hy)
    have hle : size ≤ b.usedOf u := by
      have h := hdebt u
      have hcar' : Carries b.accounts (.sweepCredit todo freed) := ⟨hrest, hcar.2⟩
      have hnn := userDebt_nonneg hcar' u
      simp only [userDebt, List.filter_cons, decide_true, if_true, List.map_cons,
        List.sum_cons] at h hnn
      omega
    simp only [advance, hf, Bool.false_eq_true, if_false]
    refine kept_used hb hrow (by omega) (fun v => ?_) ?_ fun _ h => ?_
    · simp only [Option.map_some, Option.getD_some, userDebt, List.filter_cons]
      by_cases hv : u = v
      · simp only [hv, decide_true, if_true, List.map_cons, List.sum_cons]
        omega
      · simp only [hv, Ne.symm hv, decide_false, Bool.false_eq_true, if_false]
        omega
    · simp only [Option.map_some, Option.getD_some, nodeDebt, List.map_cons, List.sum_cons]
      omega
    · cases h
      exact ⟨hrest, add_nonneg hcar.2 hstored⟩

theorem kept_packWrite (hb : Owned b) (u : Text) (es : List PackEntry) (m : Text) (now : Time) :
    Kept b (.packWrite u es m now) (advance P key e b (.packWrite u es m now)) := by
  simp only [advance, Books.manifest]
  rcases packFiles_cases P key b.containers u m es now ⟨b.db, b.store, e.script⟩ with
    ⟨err, w', h, hdb⟩ | ⟨r, w', h, hs, ho⟩
  · rw [h]
    exact kept_idle hb (by simp only [hdb]) rfl rfl rfl (fun _ => rfl) rfl fun _ h => by cases h
  · rw [h]
    refine kept_shift hb hs (owners_kept hb ho) rfl rfl (fun v => ?_) ?_ fun _ h => ?_
    · simp only [Option.map_some, Option.getD_some, userDebt]
      omega
    · simp only [Option.map_some, Option.getD_some, nodeDebt]
      omega
    · cases h
      trivial

theorem kept_compactWrite (hb : Owned b) {u old m : Text} {survivors : List PackEntry} {now : Time}
    (hfair : Fair b (.compactWrite u old survivors m now)) :
    Kept b (.compactWrite u old survivors m now)
      (advance P key e b (.compactWrite u old survivors m now)) := by
  simp only [advance, Books.manifest]
  rcases compactPack_cases (w := ⟨b.db, b.store, e.script⟩) P key m survivors now hfair
    hb.sound with
    ⟨err, w', h, hdb⟩ | ⟨r, w', h, hs, ho⟩
  · rw [h]
    exact kept_idle hb (by simp only [hdb]) rfl rfl rfl (fun _ => rfl) rfl fun _ h => by cases h
  · rw [h]
    refine kept_shift hb hs (owners_kept hb ho) rfl rfl (fun v => ?_) ?_ fun _ h => ?_
    · simp only [Option.map_some, Option.getD_some, userDebt]
      omega
    · simp only [Option.map_some, Option.getD_some, nodeDebt]
      omega
    · cases h
      trivial

theorem kept_packSettle (hb : Owned b) (hf : e.fails = false) {delta : ℤ}
    (hfair : Fair b (.packSettle delta)) :
    Kept b (.packSettle delta) (advance P key e b (.packSettle delta)) := by
  have hpos : 0 ≤ b.nodeUsed + delta := hfair
  simp only [advance, hf, Bool.false_eq_true, if_false, Books.adjustNodeStored]
  split
  · rename_i hz
    refine kept_idle hb rfl rfl rfl rfl (fun _ => rfl) ?_ fun _ h => by cases h
    simp only [Option.map_none, Option.getD_none, nodeDebt, hz, neg_zero]
  · refine kept_node hb hpos (fun _ => rfl) ?_ fun _ h => by cases h
    simp only [Option.map_none, Option.getD_none, nodeDebt]
    omega

variable (P key) in
theorem advance_kept {pc : Pc} (hb : Owned b) (hf : e.fails = false) (hfair : Fair b pc)
    (hcar : Carries b.accounts pc) (hdebt : ∀ v, userDebt v pc ≤ b.usedOf v) :
    Kept b pc (advance P key e b pc) := by
  cases pc with
  | uploadEnsure r => exact kept_ensure hb hf r
  | uploadCharge r => exact kept_charge hb hf r
  | uploadReselect r =>
    simp only [advance, hf, Bool.false_eq_true, if_false]
    exact kept_idle hb rfl rfl rfl rfl (fun _ => rfl) rfl fun _ h => by cases h; exact hcar
  | pushCheck r => exact kept_pushCheck hb hcar
  | pushTx r chunks => exact kept_pushTx hb chunks hcar
  | uploadRefund u size =>
    have h := hdebt u
    simp only [userDebt, if_true] at h
    exact kept_refund hb hf hcar h
  | uploadSettle u delta stored => exact kept_settle hb hf hcar
  | uploadNode stored =>
    simp only [advance, hf, Bool.false_eq_true, if_false]
    refine kept_node hb hfair (fun _ => rfl) ?_ fun _ h => by cases h
    simp only [Option.map_none, Option.getD_none, nodeDebt]
    omega
  | purgeGet u f => exact (kept_purgeReads hb u f).1
  | purgeFrags u f size stored => exact (kept_purgeReads hb u f).2 size stored
  | purgeDelete u f size stored frags => exact kept_purgeDelete hb hfair
  | creditUser u size stored =>
    have h := hdebt u
    simp only [userDebt, if_true] at h
    exact kept_creditUser hb hf hcar h
  | creditNode stored =>
    have hpos : 0 ≤ b.nodeUsed - stored := hfair
    simp only [advance, hf, Bool.false_eq_true, if_false]
    refine kept_node hb (by omega) (fun _ => rfl) ?_ fun _ h => by cases h
    simp only [Option.map_none, Option.getD_none, nodeDebt]
    omega
  | emptyTrash u => exact kept_emptyTrash hb hfair
  | sweep policy t v => exact kept_sweep hb hfair
  | sweepCredit todo freed => exact kept_sweepCredit hb hf hfair hcar hdebt
  | packWrite u es m now => exact kept_packWrite hb u es m now
  | compactWrite u old survivors m now => exact kept_compactWrite hb hfair
  | packSettle delta => exact kept_packSettle hb hf hfair
  | shelf c =>
    have heven := shelf_even c ⟨b.db, b.store, e.script⟩
    simp only [advance, Books.manifest]
    exact kept_idle hb heven rfl rfl rfl (fun _ => rfl) rfl fun _ h => by cases h

end

/-! ### Runs -/

/-- The control-plane statement of the step succeeds. -/
def Succeeds : Label Req Env → Prop
  | .start _ => True
  | .move _ e => e.fails = false

instance : (a : Label Req Env) → Decidable (Succeeds a)
  | .start _ => .isTrue trivial
  | .move _ e => inferInstanceAs (Decidable (e.fails = false))

def MoveFair (s : Calls) : Label Req Env → Prop
  | .start _ => True
  | .move k _ => ∀ pc ∈ s.procs[k]?, Fair s.shared pc

instance (s : Calls) : (a : Label Req Env) → Decidable (MoveFair s a)
  | .start _ => .isTrue trivial
  | .move k _ => inferInstanceAs (Decidable (∀ pc ∈ s.procs[k]?, Fair s.shared pc))

def Admissible (s : Calls) (a : Label Req Env) : Prop := MoveFair s a ∧ Succeeds a

/-- The counters are the sums plus what the calls in progress owe. -/
structure Tallied (s : Calls) : Prop where
  used : ∀ v, s.shared.usedOf v =
    usedBy s.shared.containers v (entries s.shared.db) + total (userDebt v) s.procs
  node : s.shared.nodeUsed = storedTotal (entries s.shared.db) + total nodeDebt s.procs
  owned : Owned s.shared
  carries : ∀ pc ∈ s.procs, Carries s.shared.accounts pc

theorem usedBy_nonneg {es : List Entry} (h : Sound es) (c : Text → Bool) (v : Text) :
    0 ≤ usedBy c v es := by
  refine List.sum_nonneg fun n hn => ?_
  obtain ⟨x, hx, rfl⟩ := List.mem_map.mp hn
  split
  · exact (h x hx).1
  · exact le_refl 0

/-- The counter of an account covers what any one call owes it. -/
theorem Tallied.covers {s : Calls} (hs : Tallied s) {pc : Pc} (hm : pc ∈ s.procs) (v : Text) :
    userDebt v pc ≤ s.shared.usedOf v := by
  have hle := le_total (fun p hp => userDebt_nonneg (hs.carries p hp) v) hm
  have hnn := usedBy_nonneg hs.owned.sound s.shared.containers v
  rw [hs.used v]
  omega

theorem step_tallied {K : Type} (P : Prims K) (key : K) (s : Calls) (a : Label Req Env)
    (hs : Tallied s) (ha : Admissible s a) : Tallied (step P key s a) := by
  refine step_keeps _ _ ?_ ?_ s a hs ha
  · intro s q hs _
    refine ⟨fun v => ?_, ?_, hs.owned, fun pc hpc => ?_⟩
    · rw [total_start, hs.used v]
      cases q <;> simp [Req.pc, userDebt]
    · rw [total_start, hs.node]
      cases q <;> simp [Req.pc, nodeDebt]
    · rcases List.mem_append.mp hpc with hold | hnew
      · exact hs.carries pc hold
      · rw [List.mem_singleton.mp hnew]
        cases q <;> trivial
  · intro s k pc e hs hk hok
    have hmem : pc ∈ s.procs := List.mem_of_getElem? hk
    have hkept := advance_kept P key hs.owned hok.2 (hok.1 pc hk) (hs.carries pc hmem)
      (hs.covers hmem)
    refine ⟨fun v => ?_, ?_, hkept.owned,
      forall_put (fun p hp => carries_grow hkept.grows (hs.carries p hp)) hkept.carries⟩
    · have h₁ := hkept.used v
      have h₂ := hs.used v
      simp only at h₁ ⊢
      rw [total_put (userDebt v) hk]
      omega
    · have h₁ := hkept.node
      have h₂ := hs.node
      simp only at h₁ ⊢
      rw [total_put nodeDebt hk]
      omega

/-- A node that stores nothing; quotas may have been allocated. -/
structure EmptyNode (b : Books) : Prop where
  db : b.db = Db.empty
  used : ∀ u, b.usedOf u = 0
  node : b.nodeUsed = 0

/-- From an empty node, in every run whose steps are fair and whose control-plane statements
succeed, the counters are exact whenever no call is in progress. -/
theorem run_tallied {K : Type} (P : Prims K) (key : K) {b : Books} (hb : EmptyNode b)
    {as : List (Label Req Env)} (hok : ∀ a ∈ as, Succeeds a)
    (has : AllMeet (step P key) MoveFair ⟨b, []⟩ as) :
    let s := run (step P key) ⟨b, []⟩ as
    s.procs = [] →
      (∀ u, s.shared.usedOf u = usedBy s.shared.containers u (entries s.shared.db)) ∧
        s.shared.nodeUsed = storedTotal (entries s.shared.db) := by
  have hempty : entries b.db = [] := by
    rw [hb.db]
    rfl
  have hinit : Tallied ⟨b, []⟩ := by
    refine ⟨fun v => ?_, ?_, ⟨?_, ?_⟩, fun _ hp => (List.not_mem_nil hp).elim⟩
    · change b.usedOf v = usedBy b.containers v (entries b.db) + 0
      rw [hb.used, hempty]
      rfl
    · change b.nodeUsed = storedTotal (entries b.db) + 0
      rw [hb.node, hempty]
      rfl
    · change Sound (entries b.db)
      rw [hempty]
      exact fun _ h => (List.not_mem_nil h).elim
    · change ∀ e ∈ entries b.db, _
      rw [hempty]
      exact fun _ h => (List.not_mem_nil h).elim
  have hboth : AllMeet (step P key) Admissible ⟨b, []⟩ as := has.and_forall hok
  have hfin := run_invariant (step_tallied P key) hinit hboth
  intro s hno
  have hprocs : (run (step P key) ⟨b, []⟩ as).procs = [] := hno
  refine ⟨fun u => ?_, ?_⟩
  · have h := hfin.used u
    rw [hprocs, total_nil, add_zero] at h
    exact h
  · have h := hfin.node
    rw [hprocs, total_nil, add_zero] at h
    exact h

/-- An empty node on which `u` may store a hundred bytes. -/
def oneAccount : Books where
  db := Db.empty
  store := fun _ => none
  accounts := fun v => if v = ['u'] then some (100, 0) else none
  nodeUsed := 0
  containers := fun _ => false

theorem oneAccount_empty : EmptyNode oneAccount := by
  refine ⟨rfl, fun v => ?_, rfl⟩
  simp only [Books.usedOf, oneAccount]
  split <;> rfl

def calm : Env := ⟨[], false, none⟩

def uploadOf (c : Char) (b : UInt8) : Upload := ⟨['u'], [c], [b], [c], 0⟩

/-- Two uploads are packed and one of them is purged. -/
def packedThenPurged : List (Label Req Env) :=
  .start (.upload (uploadOf 'a' 1)) :: List.replicate 7 (.move 0 calm) ++
    .start (.upload (uploadOf 'b' 2)) :: List.replicate 7 (.move 0 calm) ++
    .start (.packGroup ['u'] [⟨['a'], [1]⟩, ⟨['b'], [2]⟩] ['m'] 1) :: List.replicate 2 (.move 0 calm) ++
    .start (.purge ['u'] ['a']) :: List.replicate 5 (.move 0 calm)

theorem packedThenPurged_tallied :
    let s := run (step (Core.Sample.sample []) .node) ⟨oneAccount, []⟩ packedThenPurged
    s.shared.usedOf ['u'] = 1 ∧
      s.shared.usedOf ['u'] = usedBy s.shared.containers ['u'] (entries s.shared.db) ∧
      s.shared.nodeUsed = storedTotal (entries s.shared.db) := by
  have h := run_tallied (Core.Sample.sample []) .node oneAccount_empty
    (show ∀ a ∈ packedThenPurged, Succeeds a by decide +kernel) (by decide +kernel)
    (by decide +kernel)
  exact ⟨by decide +kernel, h.1 ['u'], h.2⟩

/-- Two purges of one file have both read its row before either deletes it. -/
def purgedTwice : List (Label Req Env) :=
  .start (.upload (uploadOf 'a' 1)) :: List.replicate 7 (.move 0 calm) ++
    .start (.upload (uploadOf 'b' 2)) :: List.replicate 7 (.move 0 calm) ++
    [.start (.purge ['u'] ['a']), .start (.purge ['u'] ['a']), .move 0 calm, .move 1 calm] ++
    List.replicate 8 (.move 0 calm)

theorem purgedTwice_credits_twice :
    let s := run (step (Core.Sample.sample []) .node) ⟨oneAccount, []⟩ purgedTwice
    (∀ a ∈ purgedTwice, Succeeds a) ∧ s.procs.length = 0 ∧ s.shared.usedOf ['u'] = 0 ∧
      usedBy s.shared.containers ['u'] (entries s.shared.db) = 1 := by
  decide +kernel

end P2pnas.Node.Accounting
