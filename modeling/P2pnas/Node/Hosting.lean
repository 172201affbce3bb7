import P2pnas.Lib.Runs
import P2pnas.Store.Session

/-!
# Hosting shards for other peers (`p2p.rs:108-402`)

`StoreShard` and `DeleteShard` as the listener hands them on: the caller must have proven that
it is the owner it names, then the shard store and the `hosted_shards` table are changed by
single statements. Shards hosted for others and the node's own shards are files of one
store. A call is a program of statements; which of them the environment lets fail is an
argument of its execution.
-/

namespace P2pnas.Node.Hosting
open P2pnas.Lib.Frames P2pnas.Lib.Strings P2pnas.Lib.Runs P2pnas.Core.Erasure P2pnas.Store.Session

def MAX_HOSTED_SHARD : ℕ := 8 * 1024 * 1024
def STORAGE_BLOCK_SIZE : ℕ := 4096

/-- `shard_disk_cost` (`erasure.rs:32-34`). -/
def shardDiskCost (len : ℕ) : ℕ := divCeil len STORAGE_BLOCK_SIZE * STORAGE_BLOCK_SIZE

/-- A row of `p2pnas.hosted_shards`; the fragment id is its key. -/
structure HostedRow where
  ownerPeerId : Text
  sizeBytes : ℤ
  shardIndex : ℤ
  deriving DecidableEq, Repr

/-- `AuthenticatedPeer`: what the connection handshake proved. -/
structure AuthenticatedPeer where
  peerId : Text
  publicKey : Text
  deriving DecidableEq, Repr

/-- The node: the pinned keys by peer id (`none`: unknown peer, `some none`: no key pinned),
the hosted rows by fragment id, `contributed_bytes` and `hosted_bytes`, and the shard store. -/
structure Host where
  peers : Text → Option (Option Text)
  hosted : Text → Option HostedRow
  nodeLocal : Option (ℤ × ℤ)
  store : ChunkStore

def Host.setRow (h : Host) (frag : Text) (row : Option HostedRow) : Host :=
  { h with hosted := fun g => if g = frag then row else h.hosted g }

/-- `hosted_bytes = GREATEST(hosted_bytes + delta, 0)`. -/
def Host.addHosted (h : Host) (delta : ℤ) : Host :=
  { h with nodeLocal := h.nodeLocal.map fun n => (n.1, max (n.2 + delta) 0) }

/-- The statements of the two calls; each runs at most once in a call. -/
inductive Stmt where
  | pinnedKey
  | knownPeer
  | nodeLocal
  | hostedSize
  | recordedOwner
  | writeFile
  | deleteFile
  | upsertRow
  | deleteRow
  | addHosted
  deriving DecidableEq, Repr

abbrev Faults := Stmt → Event

/-- A query answers `none` when the statement fails; a write answers whether it worked, and
where the code drops that answer there is none. -/
inductive Call (α : Type) where
  | done (a : α)
  | pinnedKey (peer : Text) (k : Option (Option (Option Text)) → Call α)
  | knownPeer (peer : Text) (k : Option Bool → Call α)
  | nodeLocal (k : Option (ℤ × ℤ) → Call α)
  | hostedSize (frag : Text) (k : Option (Option ℤ) → Call α)
  | recordedOwner (frag : Text) (k : Option (Option Text) → Call α)
  | writeFile (frag : Text) (data : Bytes) (k : Bool → Call α)
  | deleteFile (frag : Text) (k : Call α)
  | upsertRow (frag : Text) (row : HostedRow) (k : Bool → Call α)
  | deleteRow (frag : Text) (k : Call α)
  | addHosted (delta : ℤ) (k : Call α)

/-- `ChunkStore::write` and whether it worked. -/
def Host.writeFile (h : Host) (e : Event) (frag : Text) (data : Bytes) : Bool × Host :=
  if isValidFragmentId frag then
    match e with
    | .works => (true, { h with store := h.store.set frag (some data) })
    | .fails none => (false, h)
    | .fails (some n) => (false, { h with store := h.store.set frag (some (data.take n)) })
  else (false, h)

theorem Host.writeFile_ok {h : Host} {frag : Text} {e : Event} (data : Bytes)
    (hv : isValidFragmentId frag = true) (he : e = .works) :
    h.writeFile e frag data = (true, { h with store := h.store.set frag (some data) }) := by
  subst he
  exact if_pos hv

theorem Host.writeFile_failed {h : Host} {frag : Text} {e : Event} (data : Bytes)
    (hno : ¬ (isValidFragmentId frag = true ∧ e = .works)) : (h.writeFile e frag data).1 = false := by
  unfold Host.writeFile
  split
  · rename_i hv
    split
    · exact absurd ⟨hv, rfl⟩ hno
    · rfl
    · rfl
  · rfl

/-- `ChunkStore::delete`. -/
def Host.deleteFile (h : Host) (e : Event) (frag : Text) : Host :=
  if isValidFragmentId frag && e = .works then { h with store := h.store.set frag none } else h

/-- Execution on a node nobody else changes meanwhile. -/
def Call.exec {α : Type} (faults : Faults) : Call α → Host → α × Host
  | .done a, h => (a, h)
  | .pinnedKey peer k, h =>
    (k (if faults .pinnedKey = .works then some (h.peers peer) else none)).exec faults h
  | .knownPeer peer k, h =>
    (k (if faults .knownPeer = .works then some (h.peers peer).isSome else none)).exec faults h
  | .nodeLocal k, h => (k (if faults .nodeLocal = .works then h.nodeLocal else none)).exec faults h
  | .hostedSize frag k, h =>
    (k (if faults .hostedSize = .works then some ((h.hosted frag).map HostedRow.sizeBytes)
      else none)).exec faults h
  | .recordedOwner frag k, h =>
    (k (if faults .recordedOwner = .works then some ((h.hosted frag).map HostedRow.ownerPeerId)
      else none)).exec faults h
  | .writeFile frag data k, h =>
    let r := h.writeFile (faults .writeFile) frag data
    (k r.1).exec faults r.2
  | .deleteFile frag k, h => k.exec faults (h.deleteFile (faults .deleteFile) frag)
  | .upsertRow frag row k, h =>
    if faults .upsertRow = .works then (k true).exec faults (h.setRow frag (some row))
    else (k false).exec faults h
  | .deleteRow frag k, h =>
    k.exec faults (if faults .deleteRow = .works then h.setRow frag none else h)
  | .addHosted delta k, h =>
    k.exec faults (if faults .addHosted = .works then h.addHosted delta else h)

/-! ### The handler -/

/-- `authorize_owner` (`p2p.rs:134-196`). -/
def authorizeOwner (strict : Bool) (authenticated : Option AuthenticatedPeer) (owner : Text)
    (k : Bool → Call Bool) : Call Bool :=
  match authenticated with
  | none => k (!strict)
  | some caller =>
    if caller.peerId ≠ owner then k false
    else .pinnedKey owner fun pinned =>
      match pinned.join with
      | none => k false
      | some none => k (!strict)
      | some (some known) => k (known = caller.publicKey)

/-- `store` (`p2p.rs:243-324`). -/
def store (frag owner : Text) (shardIndex : ℤ) (data : Bytes) : Call Bool :=
  let diskCost : ℤ := shardDiskCost data.length
  if MAX_HOSTED_SHARD < data.length then .done false
  else .knownPeer owner fun known =>
    if known.getD false then
      .nodeLocal fun node =>
        let contributed := (node.getD (0, 0)).1
        let hosted := (node.getD (0, 0)).2
        .hostedSize frag fun size =>
          let old := size.join.getD 0
          if contributed < hosted - old + diskCost then .done false
          else .writeFile frag data fun written =>
            if written then
              .upsertRow frag ⟨owner, diskCost, shardIndex⟩ fun recorded =>
                if recorded then .addHosted (diskCost - old) (.done true) else .done false
            else .done false
    else .done false

/-- `delete` (`p2p.rs:352-402`). -/
def delete (frag owner : Text) : Call Bool :=
  .recordedOwner frag fun recorded =>
    match recorded.join with
    | none => .done true
    | some o =>
      if o = owner then
        .hostedSize frag fun size =>
          .deleteFile frag (.deleteRow frag (.addHosted (-(size.join.getD 0)) (.done true)))
      else .done false

def storeFrom (strict : Bool) (authenticated : Option AuthenticatedPeer) (frag owner : Text)
    (shardIndex : ℤ) (data : Bytes) : Call Bool :=
  authorizeOwner strict authenticated owner fun ok =>
    if ok then store frag owner shardIndex data else .done false

def deleteFrom (strict : Bool) (authenticated : Option AuthenticatedPeer) (frag owner : Text) :
    Call Bool :=
  authorizeOwner strict authenticated owner fun ok =>
    if ok then delete frag owner else .done false

/-- A request on a connection, with the faults it meets. -/
inductive Request where
  | storeShard (auth : Option AuthenticatedPeer) (frag owner : Text) (shardIndex : ℤ)
      (data : Bytes) (faults : Faults)
  | deleteShard (auth : Option AuthenticatedPeer) (frag owner : Text) (faults : Faults)

def Request.owner : Request → Text
  | .storeShard _ _ owner _ _ _ => owner
  | .deleteShard _ _ owner _ => owner

/-- The answer and the node after a request, under strict peer authentication. -/
def serve (h : Host) : Request → Bool × Host
  | .storeShard auth frag owner shardIndex data faults =>
    (storeFrom true auth frag owner shardIndex data).exec faults h
  | .deleteShard auth frag owner faults => (deleteFrom true auth frag owner).exec faults h

def step (h : Host) (r : Request) : Host := (serve h r).2

/-! ### Which requests are accepted, and what they change -/

/-- The caller proved the key pinned for the owner it names. -/
def authorized (faults : Faults) (h : Host) (auth : Option AuthenticatedPeer) (owner : Text) : Bool :=
  match auth with
  | none => false
  | some caller => caller.peerId = owner && faults .pinnedKey = .works &&
      h.peers owner = some (some caller.publicKey)

/-- The admission checks of `store`, and the two writes it cannot do without. -/
def admitted (faults : Faults) (h : Host) (frag owner : Text) (data : Bytes) : Bool :=
  let node := (if faults .nodeLocal = .works then h.nodeLocal else none).getD (0, 0)
  let old := if faults .hostedSize = .works then ((h.hosted frag).map HostedRow.sizeBytes).getD 0 else 0
  data.length ≤ MAX_HOSTED_SHARD && faults .knownPeer = .works && (h.peers owner).isSome &&
    node.2 - old + shardDiskCost data.length ≤ node.1 && isValidFragmentId frag &&
    faults .writeFile = .works && faults .upsertRow = .works

theorem exec_authorizeOwner (faults : Faults) (h : Host) (auth : Option AuthenticatedPeer)
    (owner : Text) (k : Bool → Call Bool) :
    (authorizeOwner true auth owner k).exec faults h =
      (k (authorized faults h auth owner)).exec faults h := by
  cases auth with
  | none => rfl
  | some caller =>
    rw [authorizeOwner, authorized]
    by_cases hp : caller.peerId = owner
    · rw [if_neg (not_not.mpr hp), Call.exec]
      by_cases hf : faults .pinnedKey = .works
      · simp only [hf, if_true, Option.join_some, hp, decide_true, Bool.and_self, Bool.true_and]
        cases hk : h.peers owner with
        | none => simp
        | some key =>
          cases key with
          | none => simp
          | some known => simp
      · simp only [hf, if_false, Option.join_none, decide_false, Bool.and_false, Bool.false_and]
    · rw [if_pos hp]
      simp only [hp, decide_false, Bool.false_and]

/-- `store` accepts what is admitted; an accepted shard is in the store under its id and
recorded for its owner, and the other fragments are as before. -/
theorem store_exec (faults : Faults) (h : Host) (frag owner : Text) (shardIndex : ℤ)
    (data : Bytes) :
    ((store frag owner shardIndex data).exec faults h).1 = admitted faults h frag owner data ∧
      (admitted faults h frag owner data = true →
        ((store frag owner shardIndex data).exec faults h).2.store =
          h.store.set frag (some data) ∧
        ∀ g, ((store frag owner shardIndex data).exec faults h).2.hosted g =
          if g = frag then some ⟨owner, shardDiskCost data.length, shardIndex⟩ else h.hosted g) := by
  have hrefuse : ∀ h' : Host, admitted faults h frag owner data = false →
      ((Call.done false).exec faults h').1 = admitted faults h frag owner data ∧
        (admitted faults h frag owner data = true →
          ((Call.done false).exec faults h').2.store = h.store.set frag (some data) ∧
          ∀ g, ((Call.done false).exec faults h').2.hosted g =
            if g = frag then some ⟨owner, shardDiskCost data.length, shardIndex⟩
            else h.hosted g) := by
    intro h' hno
    exact ⟨hno.symm, fun hyes => by rw [hno] at hyes; cases hyes⟩
  rw [store]
  by_cases hbig : MAX_HOSTED_SHARD < data.length
  · rw [if_pos hbig]
    exact hrefuse h (by simp [admitted, hbig])
  · rw [if_neg hbig, Call.exec]
    by_cases hknown : faults .knownPeer = .works ∧ (h.peers owner).isSome = true
    · simp only [hknown.1, hknown.2, if_true, Option.getD_some, Call.exec]
      set node := (if faults .nodeLocal = .works then h.nodeLocal else none).getD (0, 0) with hnode
      have hold : (if faults .hostedSize = .works then
          some ((h.hosted frag).map HostedRow.sizeBytes) else none).join.getD 0 =
          if faults .hostedSize = .works then ((h.hosted frag).map HostedRow.sizeBytes).getD 0
          else 0 := by split <;> rfl
      rw [hold]
      by_cases hroom : node.1 < node.2 - (if faults .hostedSize = .works then
          ((h.hosted frag).map HostedRow.sizeBytes).getD 0 else 0) + shardDiskCost data.length
      · rw [if_pos hroom]
        exact hrefuse h (by simp [admitted, ← hnode, hroom])
      · rw [if_neg hroom]
        by_cases hw : isValidFragmentId frag = true ∧ faults .writeFile = .works
        · simp only [Call.exec, Host.writeFile_ok data hw.1 hw.2, if_true]
          by_cases hup : faults .upsertRow = .works
          · have hyes : admitted faults h frag owner data = true := by
              simp [admitted, ← hnode, hknown, hw, hup, Nat.not_lt.mp hbig, Int.not_lt.mp hroom]
            rw [if_pos hup, hyes]
            refine ⟨rfl, fun _ => ?_⟩
            dsimp only
            split <;> exact ⟨rfl, fun _ => rfl⟩
          · rw [if_neg hup]
            exact hrefuse _ (by simp [admitted, hup])
        · simp only [Call.exec, Host.writeFile_failed data hw, Bool.false_eq_true, if_false]
          refine hrefuse _ ?_
          rw [not_and_or, Bool.not_eq_true] at hw
          rcases hw with hw | hw <;> simp [admitted, hw]
    · have hno : ((if faults .knownPeer = .works then some (h.peers owner).isSome else none).getD
          false) = false := by
        by_cases hf : faults .knownPeer = .works
        · simp only [hf, if_true, Option.getD_some]
          simpa [hf] using hknown
        · simp only [hf, if_false, Option.getD_none]
      rw [hno, if_neg (by decide)]
      refine hrefuse _ ?_
      by_cases hf : faults .knownPeer = .works
      · have hp : (h.peers owner).isSome = false := by simpa [hf] using hknown
        simp [admitted, hp]
      · simp [admitted, hf]

/-- `delete` touches only a fragment recorded for its caller. -/
theorem delete_exec (faults : Faults) (h : Host) (frag owner : Text) :
    let h' := ((delete frag owner).exec faults h).2
    (h'.store = h.store ∧ h'.hosted = h.hosted) ∨
      (∃ row, h.hosted frag = some row ∧ row.ownerPeerId = owner) ∧
        ∀ g, g ≠ frag → h'.store g = h.store g ∧ h'.hosted g = h.hosted g := by
  simp only [delete, Call.exec]
  by_cases hf : faults .recordedOwner = .works
  · cases hrow : h.hosted frag with
    | none =>
      left
      simp only [hf, if_true, Option.map_none, Option.join_some]
      exact ⟨rfl, rfl⟩
    | some row =>
      simp only [hf, if_true, Option.map_some, Option.join_some]
      by_cases ho : row.ownerPeerId = owner
      · right
        refine ⟨⟨row, rfl, ho⟩, fun g hg => ?_⟩
        simp only [if_pos ho, Call.exec, Host.deleteFile]
        constructor
        · split <;> split <;> split <;>
            simp only [Host.addHosted, Host.setRow, ChunkStore.set_other _ _ hg]
        · split <;> split <;> split <;> simp only [Host.addHosted, Host.setRow, if_neg hg]
      · left
        rw [if_neg ho]
        exact ⟨rfl, rfl⟩
  · left
    simp only [hf, if_false, Option.join_none]
    exact ⟨rfl, rfl⟩

/-! ### The frame of accepted requests over runs -/

/-- The fragment is recorded for the peer. -/
def HostedFor (h : Host) (frag peer : Text) : Prop :=
  ∃ row, h.hosted frag = some row ∧ row.ownerPeerId = peer

/-- Neither bytes nor a row. -/
def Absent (h : Host) (frag : Text) : Prop := h.store frag = none ∧ h.hosted frag = none

/-- An accepted request leaves the bytes and the row of every fragment alone that is on the
node and not hosted for the request's owner. -/
def Framed (h : Host) (r : Request) : Prop :=
  (serve h r).1 = true → ∀ g, ¬ HostedFor h g r.owner → ¬ Absent h g →
    (step h r).store g = h.store g ∧ (step h r).hosted g = h.hosted g

/-- A shard that is admitted from its proven owner is new to the node or already hosted for
that owner. -/
def Guarded (h : Host) : Request → Prop
  | .storeShard auth frag owner _ data faults =>
    authorized faults h auth owner = true → admitted faults h frag owner data = true →
      Absent h frag ∨ HostedFor h frag owner
  | .deleteShard .. => True

theorem framed_iff (h : Host) (r : Request) : Framed h r ↔ Guarded h r := by
  cases r with
  | storeShard auth frag owner shardIndex data faults =>
    simp only [Framed, Guarded, serve, step, Request.owner, storeFrom, exec_authorizeOwner]
    cases hauth : authorized faults h auth owner with
    | false => simp [Call.exec]
    | true =>
      obtain ⟨hacc, heff⟩ := store_exec faults h frag owner shardIndex data
      simp only [if_true, hacc, forall_const]
      constructor
      · intro hframe hadm
        obtain ⟨_, hrows⟩ := heff hadm
        by_contra hno
        rw [not_or] at hno
        have hrow := (hframe hadm frag hno.2 hno.1).2
        rw [hrows, if_pos rfl] at hrow
        exact hno.2 ⟨_, hrow.symm, rfl⟩
      · intro hguard hadm g hfor habs
        obtain ⟨hbytes, hrows⟩ := heff hadm
        have hg : g ≠ frag := by
          rintro rfl
          exact (hguard hadm).elim habs hfor
        rw [hbytes, hrows, ChunkStore.set_other _ _ hg, if_neg hg]
        exact ⟨rfl, rfl⟩
  | deleteShard auth frag owner faults =>
    simp only [Framed, Guarded, serve, step, Request.owner, deleteFrom, exec_authorizeOwner,
      iff_true]
    intro _ g hfor _
    cases hauth : authorized faults h auth owner with
    | false => exact ⟨rfl, rfl⟩
    | true =>
      simp only [if_true]
      rcases delete_exec faults h frag owner with ⟨hs, hr⟩ | ⟨hown, hother⟩
      · rw [hs, hr]
        exact ⟨rfl, rfl⟩
      · refine hother g ?_
        rintro rfl
        exact hfor hown

/-- In a run of requests by any peers every accepted one keeps to its frame exactly when every
admitted shard was new or already its owner's. -/
theorem run_framed_iff (h : Host) (requests : List Request) :
    AllMeet step Framed h requests ↔ AllMeet step Guarded h requests := by
  induction requests generalizing h with
  | nil => exact Iff.rfl
  | cons r rs ih => exact and_congr (framed_iff h r) (ih _)

/-! ### Taking over a hosted shard -/

def noFaults : Faults := fun _ => .works

def twoPeers : Host where
  peers := fun p => if p = ['A'] then some (some ['k', 'a']) else if p = ['B'] then
    some (some ['k', 'b']) else none
  hosted := fun _ => none
  nodeLocal := some (1000000, 0)
  store := fun _ => none

def fragF : Text := List.replicate 32 'f'

def storeAs (peer key : Text) (data : Bytes) : Request :=
  .storeShard (some ⟨peer, key⟩) fragF peer 0 data noFaults

/-- A stores a shard, B stores other bytes under the same id and then deletes them. -/
theorem takeover_breaks_frame :
    ¬ AllMeet step Framed twoPeers [storeAs ['A'] ['k', 'a'] [1], storeAs ['B'] ['k', 'b'] [2],
      .deleteShard (some ⟨['B'], ['k', 'b']⟩) fragF ['B'] noFaults] := by
  rintro ⟨_, hB, _⟩
  have hrow : (step twoPeers (storeAs ['A'] ['k', 'a'] [1])).hosted fragF =
      some ⟨['A'], 4096, 0⟩ := by decide +kernel
  have hbytes := (hB (by decide +kernel) fragF (by
    rintro ⟨row, hr, ho⟩
    rw [hrow] at hr
    cases hr
    exact absurd ho (by decide)) (by
    rintro ⟨_, hr⟩
    rw [hrow] at hr
    cases hr)).1
  exact absurd hbytes (by decide +kernel)

end P2pnas.Node.Hosting
