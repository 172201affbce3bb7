import P2pnas.Lib.Interleave
import P2pnas.Lib.Tables
import P2pnas.Node.Hosting

/-!
# Hosting calls next to each other (`p2p.rs:243-402`, `retention.rs:121-175`)

Connections are served in parallel and the retention sweep runs beside them, so the
statements of `store`, `delete` and `reclaim` interleave. A call in progress is the statement
it is about to run with the values it has read; every statement succeeds, a file operation on
an ill-formed fragment id excepted. The tables are keyed lists, so the hosted bytes can be
summed.
-/

namespace P2pnas.Node.HostCalls
open P2pnas.Lib.Frames P2pnas.Lib.Strings P2pnas.Lib.Runs P2pnas.Lib.Tables P2pnas.Lib.Interleave
open P2pnas.Core.Erasure P2pnas.Store.Session
open P2pnas.Node.Hosting (HostedRow MAX_HOSTED_SHARD)

/-- The peers known, `hosted_shards` with its primary key, the row of `node_local` and the
shard store. -/
structure HostState where
  known : Text → Bool
  rows : List (Text × HostedRow)
  keys : (rows.map Prod.fst).Nodup
  contributed : ℤ
  hosted : ℤ
  store : ChunkStore

def HostState.rowAt (h : HostState) (frag : Text) : Option HostedRow :=
  (lookup Prod.fst frag h.rows).map Prod.snd

/-- `hosted_size`: 0 without a row. -/
def HostState.sizeAt (h : HostState) (frag : Text) : ℤ :=
  ((lookup Prod.fst frag h.rows).map fun e => e.2.sizeBytes).getD 0

/-- The sum of `hosted_shards.size_bytes`. -/
def HostState.sum (h : HostState) : ℤ := sumOf (fun e => e.2.sizeBytes) h.rows

def HostState.upsertRow (h : HostState) (frag : Text) (row : HostedRow) : HostState :=
  { h with
    rows := upsert Prod.fst (frag, row) h.rows
    keys := nodup_upsert Prod.fst h.keys (frag, row) }

def HostState.deleteRow (h : HostState) (frag : Text) : HostState :=
  { h with
    rows := remove Prod.fst frag h.rows
    keys := nodup_remove Prod.fst h.keys frag }

/-- `hosted_bytes = GREATEST(hosted_bytes + delta, 0)`. -/
def HostState.addHosted (h : HostState) (delta : ℤ) : HostState :=
  { h with hosted := max (h.hosted + delta) 0 }

def HostState.setFile (h : HostState) (frag : Text) (content : Option Bytes) : HostState :=
  if isValidFragmentId frag then { h with store := h.store.set frag content } else h

/-- `GetShard` (`p2p.rs:326-340`). -/
def HostState.get (h : HostState) (frag : Text) : Option Bytes :=
  if (h.rowAt frag).isSome && isValidFragmentId frag then h.store frag else none

structure StoreReq where
  frag : Text
  owner : Text
  shardIndex : ℤ
  data : Bytes
  deriving DecidableEq, Repr

def StoreReq.cost (r : StoreReq) : ℤ := Hosting.shardDiskCost r.data.length

def StoreReq.row (r : StoreReq) : HostedRow := ⟨r.owner, r.cost, r.shardIndex⟩

/-- The call about to run its next statement, with what it has read. -/
inductive Pc where
  | storeKnown (r : StoreReq)
  | storeNode (r : StoreReq)
  | storeOld (r : StoreReq) (contributed hosted : ℤ)
  | storeWrite (r : StoreReq) (hosted old : ℤ)
  | storeRecord (r : StoreReq) (hosted old : ℤ)
  | storeCount (r : StoreReq) (old : ℤ)
  | deleteOwner (frag owner : Text)
  | deleteSize (frag : Text)
  | deleteBytes (frag : Text) (old : ℤ)
  | deleteRow (frag : Text) (old : ℤ)
  | deleteCount (old : ℤ)
  | reclaimRows (owner : Text) (parityOnly : Bool)
  | reclaimBytes (todo : List (Text × ℤ)) (freed : ℤ)
  | reclaimRow (frag : Text) (size : ℤ) (todo : List (Text × ℤ)) (freed : ℤ)
  deriving DecidableEq, Repr

/-- The rows `reclaim` lists; without an `ORDER BY` they come in the order `order` when that is
one of theirs. -/
def HostState.listed (h : HostState) (owner : Text) (parityOnly : Bool) (order : List (Text × ℤ)) :
    List (Text × ℤ) :=
  let found := (h.rows.filter fun e => e.2.ownerPeerId = owner &&
    (!parityOnly || (DATA_SHARDS : ℤ) ≤ e.2.shardIndex)).map fun e => (e.1, e.2.sizeBytes)
  if order.isPerm found then order else found

/-- One statement of a call; `none` when it was the last. -/
def advance (order : List (Text × ℤ)) (h : HostState) : Pc → HostState × Option Pc
  | .storeKnown r =>
    if MAX_HOSTED_SHARD < r.data.length then (h, none)
    else (h, if h.known r.owner then some (.storeNode r) else none)
  | .storeNode r => (h, some (.storeOld r h.contributed h.hosted))
  | .storeOld r contributed hosted =>
    (h, if contributed < hosted - h.sizeAt r.frag + r.cost then none
      else some (.storeWrite r hosted (h.sizeAt r.frag)))
  | .storeWrite r hosted old =>
    (h.setFile r.frag (some r.data),
      if isValidFragmentId r.frag then some (.storeRecord r hosted old) else none)
  | .storeRecord r _ old => (h.upsertRow r.frag r.row, some (.storeCount r old))
  | .storeCount r old => (h.addHosted (r.cost - old), none)
  | .deleteOwner frag owner =>
    (h, match h.rowAt frag with
      | some row => if row.ownerPeerId = owner then some (.deleteSize frag) else none
      | none => none)
  | .deleteSize frag => (h, some (.deleteBytes frag (h.sizeAt frag)))
  | .deleteBytes frag old => (h.setFile frag none, some (.deleteRow frag old))
  | .deleteRow frag old => (h.deleteRow frag, some (.deleteCount old))
  | .deleteCount old => (h.addHosted (-old), none)
  | .reclaimRows owner parityOnly => (h, some (.reclaimBytes (h.listed owner parityOnly order) 0))
  | .reclaimBytes ((frag, size) :: todo) freed =>
    (h.setFile frag none, some (.reclaimRow frag size todo freed))
  | .reclaimBytes [] freed => (if 0 < freed then h.addHosted (-freed) else h, none)
  | .reclaimRow frag size todo freed =>
    (h.deleteRow frag,
      some (.reclaimBytes todo (if (h.rowAt frag).isSome then freed + size else freed)))

inductive Req where
  | storeShard (r : StoreReq)
  | deleteShard (frag owner : Text)
  | reclaim (owner : Text) (parityOnly : Bool)
  deriving DecidableEq, Repr

def Req.pc : Req → Pc
  | .storeShard r => .storeKnown r
  | .deleteShard frag owner => .deleteOwner frag owner
  | .reclaim owner parityOnly => .reclaimRows owner parityOnly

abbrev Calls := Sys HostState Pc

def step : Calls → Label Req (List (Text × ℤ)) → Calls :=
  P2pnas.Lib.Interleave.step (fun q h => (h, q.pc)) advance

/-! ### What the statements do to the sum -/

section
variable (h : HostState)

theorem sum_upsertRow (frag : Text) (row : HostedRow) :
    (h.upsertRow frag row).sum = h.sum - h.sizeAt frag + row.sizeBytes :=
  sumOf_upsert Prod.fst _ h.keys (frag, row)

theorem sum_deleteRow (frag : Text) : (h.deleteRow frag).sum = h.sum - h.sizeAt frag :=
  sumOf_remove Prod.fst _ h.keys frag

theorem setFile_hosted (frag : Text) (c : Option Bytes) : (h.setFile frag c).hosted = h.hosted := by
  unfold HostState.setFile
  split <;> rfl

theorem setFile_contributed (frag : Text) (c : Option Bytes) :
    (h.setFile frag c).contributed = h.contributed := by
  unfold HostState.setFile
  split <;> rfl

theorem setFile_rows (frag : Text) (c : Option Bytes) : (h.setFile frag c).rows = h.rows := by
  unfold HostState.setFile
  split <;> rfl

end

/-! ### A call nobody else runs beside -/

/-- The node as a single call sees it. -/
def HostState.host (h : HostState) : Hosting.Host where
  peers := fun p => if h.known p then some none else none
  hosted := h.rowAt
  nodeLocal := some (h.contributed, h.hosted)
  store := h.store

/-- At most `n` statements of one call, run in one go. -/
def alone (order : List (Text × ℤ)) : ℕ → HostState → Option Pc → HostState
  | n + 1, h, some pc => alone order n (advance order h pc).1 (advance order h pc).2
  | _, h, _ => h

theorem rowAt_sizeAt (h : HostState) (frag : Text) :
    h.sizeAt frag = ((h.rowAt frag).map HostedRow.sizeBytes).getD 0 := by
  unfold HostState.sizeAt HostState.rowAt
  cases lookup Prod.fst frag h.rows with
  | none => rfl
  | some e => rfl

theorem rowAt_upsertRow (h : HostState) (frag : Text) (row : HostedRow) (g : Text) :
    (h.upsertRow frag row).rowAt g = if g = frag then some row else h.rowAt g := by
  unfold HostState.rowAt HostState.upsertRow
  rw [lookup_upsert Prod.fst]
  split
  · rfl
  · rfl

theorem rowAt_deleteRow (h : HostState) (frag g : Text) :
    (h.deleteRow frag).rowAt g = if g = frag then none else h.rowAt g := by
  unfold HostState.rowAt HostState.deleteRow
  rw [lookup_remove Prod.fst]
  split
  · rfl
  · rfl

theorem host_addHosted (h : HostState) (delta : ℤ) :
    (h.addHosted delta).host = h.host.addHosted delta := rfl

theorem host_upsertRow (h : HostState) (frag : Text) (row : HostedRow) :
    (h.upsertRow frag row).host = h.host.setRow frag (some row) := by
  have hrows : (h.upsertRow frag row).rowAt = fun g => if g = frag then some row else h.rowAt g :=
    funext (rowAt_upsertRow h frag row)
  unfold HostState.host
  rw [hrows]
  rfl

theorem host_deleteRow (h : HostState) (frag : Text) :
    (h.deleteRow frag).host = h.host.setRow frag none := by
  have hrows : (h.deleteRow frag).rowAt = fun g => if g = frag then none else h.rowAt g :=
    funext (rowAt_deleteRow h frag)
  unfold HostState.host
  rw [hrows]
  rfl

theorem host_writeFile (h : HostState) (frag : Text) (data : Bytes) :
    h.host.writeFile .works frag data = (isValidFragmentId frag, (h.setFile frag (some data)).host) := by
  unfold Hosting.Host.writeFile HostState.setFile
  cases isValidFragmentId frag with
  | true => rfl
  | false => rfl

theorem host_deleteFile (h : HostState) (frag : Text) :
    h.host.deleteFile .works frag = (h.setFile frag none).host := by
  unfold Hosting.Host.deleteFile HostState.setFile
  cases isValidFragmentId frag with
  | true => rfl
  | false => rfl

/-- The statements of a store, run in one go, are `store`. -/
theorem alone_store (h : HostState) (r : StoreReq) :
    (alone [] 6 h (some (.storeKnown r))).host =
      ((Hosting.store r.frag r.owner r.shardIndex r.data).exec Hosting.noFaults h.host).2 := by
  rw [Hosting.store]
  by_cases hbig : MAX_HOSTED_SHARD < r.data.length
  · simp only [alone, advance, if_pos hbig, Hosting.Call.exec]
  by_cases hknown : h.known r.owner = true
  · have hpeer : (h.host.peers r.owner).isSome = true := by simp [HostState.host, hknown]
    have hsize : ((some ((h.host.hosted r.frag).map HostedRow.sizeBytes)).join.getD 0) =
        h.sizeAt r.frag := (rowAt_sizeAt h r.frag).symm
    have hnode : h.host.nodeLocal.getD (0, 0) = (h.contributed, h.hosted) := rfl
    simp only [alone, advance, if_neg hbig, hknown, if_true, Hosting.Call.exec, Hosting.noFaults,
      hpeer, Option.getD_some, hsize, hnode]
    by_cases hroom : h.contributed < h.hosted - h.sizeAt r.frag + r.cost
    · have hroom' : h.contributed < h.hosted - h.sizeAt r.frag +
          (Hosting.shardDiskCost r.data.length : ℤ) := hroom
      simp only [if_pos hroom, if_pos hroom', alone, Hosting.Call.exec]
    · have hroom' : ¬ h.contributed < h.hosted - h.sizeAt r.frag +
          (Hosting.shardDiskCost r.data.length : ℤ) := hroom
      simp only [if_neg hroom, if_neg hroom', alone, advance, Hosting.Call.exec, Hosting.noFaults,
        host_writeFile]
      by_cases hv : isValidFragmentId r.frag = true
      · simp only [hv, if_true, alone, advance, Hosting.Call.exec, host_addHosted, host_upsertRow]
        rfl
      · simp only [hv, Bool.false_eq_true, if_false, alone, Hosting.Call.exec]
  · have hpeer : (h.host.peers r.owner).isSome = false := by simp [HostState.host, hknown]
    simp only [alone, advance, if_neg hbig, hknown, Hosting.Call.exec, Hosting.noFaults, hpeer,
      if_true, Option.getD_some, Bool.false_eq_true, if_false]

/-- The statements of a delete, run in one go, are `delete`. -/
theorem alone_delete (h : HostState) (frag owner : Text) :
    (alone [] 5 h (some (.deleteOwner frag owner))).host =
      ((Hosting.delete frag owner).exec Hosting.noFaults h.host).2 := by
  have hhost : h.host.hosted frag = h.rowAt frag := rfl
  rw [Hosting.delete]
  cases hrow : h.rowAt frag with
  | none =>
    simp only [alone, advance, hrow, Hosting.Call.exec, Hosting.noFaults, if_true, hhost,
      Option.map_none, Option.join_some]
  | some row =>
    by_cases ho : row.ownerPeerId = owner
    · have hsize : h.sizeAt frag = row.sizeBytes := by rw [rowAt_sizeAt, hrow]; rfl
      simp only [alone, advance, hrow, ho, if_true, Hosting.Call.exec, Hosting.noFaults, hhost,
        Option.map_some, Option.join_some, hsize, Option.getD_some, host_deleteFile,
        host_addHosted, host_deleteRow]
    · simp only [alone, advance, hrow, ho, if_false, Hosting.Call.exec, Hosting.noFaults, if_true,
        hhost, Option.map_some, Option.join_some]

/-- No statement changes `contributed_bytes`. -/
theorem advance_contributed (order : List (Text × ℤ)) (h : HostState) (pc : Pc) :
    (advance order h pc).1.contributed = h.contributed := by
  cases pc with
  | storeKnown r => simp only [advance]; split <;> rfl
  | storeWrite r hosted old => exact setFile_contributed h _ _
  | deleteBytes frag old => exact setFile_contributed h _ _
  | reclaimBytes todo freed =>
    cases todo with
    | nil => simp only [advance]; split <;> rfl
    | cons e todo => exact setFile_contributed h _ _
  | storeNode r => rfl
  | storeOld r contributed hosted => rfl
  | storeRecord r hosted old => rfl
  | storeCount r old => rfl
  | deleteOwner frag owner => rfl
  | deleteSize frag => rfl
  | deleteRow frag old => rfl
  | deleteCount old => rfl
  | reclaimRows owner parityOnly => rfl
  | reclaimRow frag size todo freed => rfl

/-! ### The counter and the cap -/

/-- What a call in progress still has to subtract from `hosted_bytes`. -/
def pending : Pc → ℤ
  | .storeCount r old => old - r.cost
  | .deleteCount old => old
  | .reclaimBytes _ freed => freed
  | .reclaimRow _ _ _ freed => freed
  | _ => 0

/-- The values a call carries are as its checks left them. -/
def Carries (contributed : ℤ) : Pc → Prop
  | .storeOld _ c _ => c = contributed
  | .storeWrite r hosted old => hosted - old + r.cost ≤ contributed
  | .storeRecord r hosted old => hosted - old + r.cost ≤ contributed
  | .reclaimBytes _ freed => 0 ≤ freed
  | .reclaimRow _ _ _ freed => 0 ≤ freed
  | _ => True

/-- The statement finds what the call read: a row change finds its row at the size read, a new
row finds no more hosted bytes than were read, and a counter update stays above zero. -/
def Unraced (h : HostState) : Pc → Prop
  | .storeRecord r hosted old => h.sizeAt r.frag = old ∧ h.sum ≤ hosted
  | .storeCount r old => 0 ≤ h.hosted + (r.cost - old)
  | .deleteRow frag old => h.sizeAt frag = old
  | .deleteCount old => 0 ≤ h.hosted - old
  | .reclaimRow frag size _ _ => (h.rowAt frag).isSome = true → h.sizeAt frag = size
  | .reclaimBytes [] freed => 0 ≤ h.hosted - freed
  | _ => True

instance (h : HostState) : (pc : Pc) → Decidable (Unraced h pc)
  | .storeRecord r hosted old => inferInstanceAs (Decidable (h.sizeAt r.frag = old ∧ h.sum ≤ hosted))
  | .storeCount r old => inferInstanceAs (Decidable (0 ≤ h.hosted + (r.cost - old)))
  | .deleteRow frag old => inferInstanceAs (Decidable (h.sizeAt frag = old))
  | .deleteCount old => inferInstanceAs (Decidable (0 ≤ h.hosted - old))
  | .reclaimRow frag size _ _ =>
    inferInstanceAs (Decidable ((h.rowAt frag).isSome = true → h.sizeAt frag = size))
  | .reclaimBytes [] freed => inferInstanceAs (Decidable (0 ≤ h.hosted - freed))
  | .reclaimBytes (_ :: _) _ | .storeKnown _ | .storeNode _ | .storeOld .. | .storeWrite ..
  | .deleteOwner .. | .deleteSize _ | .deleteBytes .. | .reclaimRows .. => .isTrue trivial

/-- The call that moves does not race. -/
def MoveUnraced (s : Calls) : Label Req (List (Text × ℤ)) → Prop
  | .start _ => True
  | .move k _ => ∀ pc, s.procs[k]? = some pc → Unraced s.shared pc

instance (s : Calls) : (a : Label Req (List (Text × ℤ))) → Decidable (MoveUnraced s a)
  | .start _ => .isTrue trivial
  | .move k _ =>
    match hk : s.procs[k]? with
    | none => .isTrue (fun pc h => by rw [hk] at h; cases h)
    | some pc =>
      if hu : Unraced s.shared pc then
        .isTrue (fun pc' h => by rw [hk] at h; cases h; exact hu)
      else .isFalse (fun h => hu (h pc hk))

/-- The counter is the sum of the rows plus what the calls owe; the rows fit the cap. -/
structure Balanced (s : Calls) : Prop where
  count : s.shared.hosted = s.shared.sum + total pending s.procs
  cap : s.shared.sum ≤ s.shared.contributed
  sizes : ∀ e ∈ s.shared.rows, 0 ≤ e.2.sizeBytes
  carries : ∀ pc ∈ s.procs, Carries s.shared.contributed pc

theorem cost_nonneg (r : StoreReq) : 0 ≤ r.cost := Int.natCast_nonneg _

theorem sizeAt_nonneg {h : HostState} (hs : ∀ e ∈ h.rows, 0 ≤ e.2.sizeBytes) (frag : Text) :
    0 ≤ h.sizeAt frag := by
  unfold HostState.sizeAt
  cases hl : lookup Prod.fst frag h.rows with
  | none => exact le_refl _
  | some e => exact hs e (List.mem_of_find?_eq_some hl)

/-- What a statement leaves: the counter less the sum and what the call owes, the cap, the sizes,
and what the call carries on. -/
structure Kept (h : HostState) (pc : Pc) (r : HostState × Option Pc) : Prop where
  count : r.1.hosted - r.1.sum - (r.2.map pending).getD 0 = h.hosted - h.sum - pending pc
  cap : r.1.sum ≤ h.contributed
  sizes : ∀ e ∈ r.1.rows, 0 ≤ e.2.sizeBytes
  carries : ∀ pc', r.2 = some pc' → Carries h.contributed pc'

section
variable {h : HostState} {pc : Pc}

/-- A statement that changes neither the rows nor the counter. -/
theorem kept_same {h' : HostState} {next : Option Pc} (hcap : h.sum ≤ h.contributed)
    (hsz : ∀ e ∈ h.rows, 0 ≤ e.2.sizeBytes) (hrows : h'.rows = h.rows) (hcount : h'.hosted = h.hosted)
    (howes : (next.map pending).getD 0 = pending pc)
    (hnext : ∀ pc', next = some pc' → Carries h.contributed pc') : Kept h pc (h', next) := by
  have hsum : h'.sum = h.sum := by rw [HostState.sum, hrows, HostState.sum]
  refine ⟨?_, by rw [hsum]; exact hcap, by rw [hrows]; exact hsz, hnext⟩
  rw [hcount, hsum, howes]

/-- The last statement of a call settles the counter. -/
theorem kept_count {delta : ℤ} (hcap : h.sum ≤ h.contributed) (hsz : ∀ e ∈ h.rows, 0 ≤ e.2.sizeBytes)
    (hpos : 0 ≤ h.hosted + delta) (howes : pending pc = -delta) : Kept h pc (h.addHosted delta, none) := by
  refine ⟨?_, hcap, hsz, fun _ h => by cases h⟩
  change max (h.hosted + delta) 0 - h.sum - 0 = _
  rw [max_eq_left hpos, howes]
  omega

/-- A row is gone, and the call owes what it counted. -/
theorem kept_removed {frag : Text} {next : Pc} (hcap : h.sum ≤ h.contributed)
    (hsz : ∀ e ∈ h.rows, 0 ≤ e.2.sizeBytes) (howes : pending next = pending pc + h.sizeAt frag)
    (hnext : Carries h.contributed next) : Kept h pc (h.deleteRow frag, some next) := by
  have hnn := sizeAt_nonneg hsz frag
  refine ⟨?_, ?_, fun e he => hsz e (List.mem_filter.mp he).1, fun _ h => by cases h; exact hnext⟩
  · change h.hosted - (h.deleteRow frag).sum - pending next = _
    rw [sum_deleteRow, howes]
    omega
  · change (h.deleteRow frag).sum ≤ _
    rw [sum_deleteRow]
    omega

/-- A row of the size the call read is in place of the old one, if there was one. -/
theorem kept_recorded {r : StoreReq} {hosted old : ℤ} (hsz : ∀ e ∈ h.rows, 0 ≤ e.2.sizeBytes)
    (hu : Unraced h (.storeRecord r hosted old)) (hc : Carries h.contributed (.storeRecord r hosted old)) :
    Kept h (.storeRecord r hosted old) (h.upsertRow r.frag r.row, some (.storeCount r old)) := by
  obtain ⟨hold, hle⟩ := hu
  have hroom : hosted - old + r.cost ≤ h.contributed := hc
  have hsum : (h.upsertRow r.frag r.row).sum = h.sum - old + r.cost := by
    rw [sum_upsertRow, hold]
    rfl
  refine ⟨?_, by rw [hsum]; omega, fun e he => ?_, fun _ h => by cases h; trivial⟩
  · change h.hosted - (h.upsertRow r.frag r.row).sum - (old - r.cost) = h.hosted - h.sum - 0
    rw [hsum]
    omega
  · rcases mem_upsert Prod.fst he with rfl | he
    · exact cost_nonneg r
    · exact hsz e he

/-- What a reclaim adds up is the size of the row that it removed. -/
theorem reclaimed_size {frag : Text} {size freed : ℤ}
    (hu : (h.rowAt frag).isSome = true → h.sizeAt frag = size) :
    (if (h.rowAt frag).isSome then freed + size else freed) = freed + h.sizeAt frag := by
  split
  · next hrow => rw [hu hrow]
  · next hrow =>
    rw [rowAt_sizeAt, Option.not_isSome_iff_eq_none.mp hrow]
    exact (Int.add_zero freed).symm

/-- One statement of one call. -/
theorem advance_kept (order : List (Text × ℤ)) (hu : Unraced h pc) (hc : Carries h.contributed pc)
    (hcap : h.sum ≤ h.contributed) (hsz : ∀ e ∈ h.rows, 0 ≤ e.2.sizeBytes) :
    Kept h pc (advance order h pc) := by
  cases pc with
  | storeKnown r =>
    simp only [advance]
    split
    · exact kept_same hcap hsz rfl rfl rfl fun _ h => by cases h
    · split
      · exact kept_same hcap hsz rfl rfl rfl fun _ h => by cases h; trivial
      · exact kept_same hcap hsz rfl rfl rfl fun _ h => by cases h
  | storeNode r => exact kept_same hcap hsz rfl rfl rfl fun _ h => by cases h; rfl
  | storeOld r contributed hosted =>
    simp only [advance]
    split
    · exact kept_same hcap hsz rfl rfl rfl fun _ h => by cases h
    · next hroom =>
      refine kept_same hcap hsz rfl rfl rfl fun _ h => ?_
      cases h
      have hc' : contributed = h.contributed := hc
      simp only [Carries]
      omega
  | storeWrite r hosted old =>
    simp only [advance]
    split
    · exact kept_same hcap hsz (setFile_rows ..) (setFile_hosted ..) rfl fun _ h => by cases h; exact hc
    · exact kept_same hcap hsz (setFile_rows ..) (setFile_hosted ..) rfl fun _ h => by cases h
  | storeRecord r hosted old => exact kept_recorded hsz hu hc
  | storeCount r old => exact kept_count hcap hsz hu (neg_sub r.cost old).symm
  | deleteOwner frag owner =>
    simp only [advance]
    split
    · split
      · exact kept_same hcap hsz rfl rfl rfl fun _ h => by cases h; trivial
      · exact kept_same hcap hsz rfl rfl rfl fun _ h => by cases h
    · exact kept_same hcap hsz rfl rfl rfl fun _ h => by cases h
  | deleteSize frag => exact kept_same hcap hsz rfl rfl rfl fun _ h => by cases h; trivial
  | deleteBytes frag old =>
    exact kept_same hcap hsz (setFile_rows ..) (setFile_hosted ..) rfl fun _ h => by cases h; trivial
  | deleteRow frag old =>
    have hold : h.sizeAt frag = old := hu
    exact kept_removed hcap hsz (by rw [hold]; exact (Int.zero_add old).symm) trivial
  | deleteCount old => exact kept_count hcap hsz hu (neg_neg old).symm
  | reclaimRows owner parityOnly =>
    exact kept_same hcap hsz rfl rfl rfl fun _ h => by cases h; exact le_refl _
  | reclaimBytes todo freed =>
    have hfreed : 0 ≤ freed := hc
    cases todo with
    | nil =>
      simp only [advance]
      split
      · exact kept_count hcap hsz hu (neg_neg freed).symm
      · next hno =>
        have hzero : 0 = freed := le_antisymm hfreed (not_lt.mp hno)
        exact kept_same hcap hsz rfl rfl hzero fun _ h => by cases h
    | cons e todo =>
      exact kept_same hcap hsz (setFile_rows ..) (setFile_hosted ..) rfl fun _ h => by cases h; exact hc
  | reclaimRow frag size todo freed =>
    have hfreed : 0 ≤ freed := hc
    have hsize : (if (h.rowAt frag).isSome then freed + size else freed) = freed + h.sizeAt frag :=
      reclaimed_size hu
    have hnn := sizeAt_nonneg hsz frag
    refine kept_removed hcap hsz hsize ?_
    change 0 ≤ if (h.rowAt frag).isSome then freed + size else freed
    rw [hsize]
    exact Int.add_nonneg hfreed hnn

end

theorem step_balanced (s : Calls) (a : Label Req (List (Text × ℤ))) (hs : Balanced s)
    (ha : MoveUnraced s a) : Balanced (step s a) := by
  refine step_keeps _ _ ?_ ?_ s a hs ha
  · intro s q hs _
    refine ⟨?_, hs.cap, hs.sizes, ?_⟩
    · rw [total_start, hs.count]
      cases q <;> simp [Req.pc, pending]
    · intro pc hpc
      rcases List.mem_append.mp hpc with hold | hnew
      · exact hs.carries pc hold
      · rw [List.mem_singleton.mp hnew]
        cases q <;> trivial
  · intro s k pc order hs hk hok
    have hmem : pc ∈ s.procs := List.mem_of_getElem? hk
    obtain ⟨hcount, hcap, hsz, hcar⟩ :=
      advance_kept order (hok pc hk) (hs.carries pc hmem) hs.cap hs.sizes
    have hcon := advance_contributed order s.shared pc
    refine ⟨?_, ?_, hsz, ?_⟩
    · change (advance order s.shared pc).1.hosted = (advance order s.shared pc).1.sum + _
      rw [total_put pending hk]
      have hold := hs.count
      omega
    · change (advance order s.shared pc).1.sum ≤ (advance order s.shared pc).1.contributed
      rw [hcon]
      exact hcap
    · change ∀ pc' ∈ _, Carries (advance order s.shared pc).1.contributed pc'
      rw [hcon]
      exact forall_put hs.carries hcar

/-- A node between calls whose counter is right and whose rows fit. -/
structure Settled (h : HostState) : Prop where
  count : h.hosted = h.sum
  cap : h.sum ≤ h.contributed
  sizes : ∀ e ∈ h.rows, 0 ≤ e.2.sizeBytes

/-- In every run whose calls find what they read, the hosted bytes stay under the cap, and
between calls the counter is their sum. -/
theorem run_balanced {h : HostState} (hh : Settled h) {as : List (Label Req (List (Text × ℤ)))}
    (has : AllMeet step MoveUnraced ⟨h, []⟩ as) :
    (run step ⟨h, []⟩ as).shared.sum ≤ (run step ⟨h, []⟩ as).shared.contributed ∧
      ((run step ⟨h, []⟩ as).procs = [] →
        (run step ⟨h, []⟩ as).shared.hosted = (run step ⟨h, []⟩ as).shared.sum) := by
  have hinit : Balanced (⟨h, []⟩ : Calls) :=
    ⟨by rw [total_nil]; exact hh.count.trans (Int.add_zero _).symm, hh.cap, hh.sizes,
      fun _ hm => by cases hm⟩
  have hfin := run_invariant step_balanced hinit has
  refine ⟨hfin.cap, fun hno => ?_⟩
  rw [hfin.count, hno, total_nil, Int.add_zero]

/-- A node that contributes one block, knows every peer and hosts nothing yet. -/
def oneBlock : HostState where
  known := fun _ => true
  rows := []
  keys := List.nodup_nil
  contributed := 4096
  hosted := 0
  store := fun _ => none

def shardOf (c : Char) (owner : Text) : StoreReq := ⟨List.replicate 32 c, owner, 0, [1]⟩

/-- A shard is stored, deleted by its owner, and another one takes its room. -/
def oneAfterAnother : List (Label Req (List (Text × ℤ))) :=
  .start (.storeShard (shardOf 'a' ['A'])) :: List.replicate 6 (.move 0 []) ++
    .start (.deleteShard (List.replicate 32 'a') ['A']) :: List.replicate 5 (.move 0 []) ++
    .start (.storeShard (shardOf 'b' ['B'])) :: List.replicate 6 (.move 0 [])

theorem oneAfterAnother_balanced :
    (run step ⟨oneBlock, []⟩ oneAfterAnother).shared.hosted = 4096 ∧
      (run step ⟨oneBlock, []⟩ oneAfterAnother).shared.sum ≤ 4096 ∧
      (run step ⟨oneBlock, []⟩ oneAfterAnother).shared.hosted =
        (run step ⟨oneBlock, []⟩ oneAfterAnother).shared.sum := by
  have hmeet : AllMeet step MoveUnraced ⟨oneBlock, []⟩ oneAfterAnother := by decide +kernel
  have h := run_balanced ⟨by decide, by decide, fun _ he => by cases he⟩ hmeet
  exact ⟨by decide +kernel, h.1, h.2 (by decide +kernel)⟩

/-- Two stores pass the cap test before either has recorded its shard. -/
def bothChecked : List (Label Req (List (Text × ℤ))) :=
  [.start (.storeShard (shardOf 'a' ['A'])), .start (.storeShard (shardOf 'b' ['B'])),
    .move 0 [], .move 1 [], .move 0 [], .move 1 [], .move 0 [], .move 1 []] ++
    List.replicate 6 (.move 0 [])

theorem bothChecked_exceeds_cap :
    ¬ ∀ as : List (Label Req (List (Text × ℤ))),
      (run step ⟨oneBlock, []⟩ as).shared.sum ≤ (run step ⟨oneBlock, []⟩ as).shared.contributed := by
  intro h
  have hover : (run step ⟨oneBlock, []⟩ bothChecked).shared.sum = 8192 ∧
      (run step ⟨oneBlock, []⟩ bothChecked).shared.contributed = 4096 := by decide +kernel
  have hcap := h bothChecked
  rw [hover.1, hover.2] at hcap
  exact absurd hcap (by decide)

end P2pnas.Node.HostCalls
