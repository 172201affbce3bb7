import P2pnas.Node.Hosting

/-!
# A refused `StoreShard` (`p2p.rs:243-324`, `chunkstore.rs:34-52`)

`store` refuses at five points. The first three leave the node alone; at the last two the file of
the fragment has already been overwritten, by a prefix of the new bytes or by all of them, and
nothing puts the old copy back. The rows and the counter are never touched by a refusal.
-/

namespace P2pnas.Node.Refusals
open P2pnas.Lib.Frames P2pnas.Lib.Strings P2pnas.Store.Session P2pnas.Node.Hosting

/-- The stored bytes, the rows and the counters are as before. -/
structure Unchanged (h h' : Host) : Prop where
  store : h'.store = h.store
  hosted : h'.hosted = h.hosted
  nodeLocal : h'.nodeLocal = h.nodeLocal

/-- The checks that come before the file is written. -/
def passes (faults : Faults) (h : Host) (frag owner : Text) (data : Bytes) : Bool :=
  let node := (if faults .nodeLocal = .works then h.nodeLocal else none).getD (0, 0)
  let old := if faults .hostedSize = .works then ((h.hosted frag).map HostedRow.sizeBytes).getD 0 else 0
  data.length ≤ MAX_HOSTED_SHARD && faults .knownPeer = .works && (h.peers owner).isSome &&
    node.2 - old + shardDiskCost data.length ≤ node.1 && isValidFragmentId frag

/-- A refusal past the checks finds the bytes there that it leaves. -/
def Spared (faults : Faults) (h : Host) (frag : Text) (data : Bytes) : Prop :=
  match faults .writeFile with
  | .fails none => True
  | .fails (some n) => h.store frag = some (data.take n)
  | .works => faults .upsertRow = .works ∨ h.store frag = some data

/-- The call past the checks. -/
def afterChecks (faults : Faults) (h : Host) (frag owner : Text) (shardIndex : ℤ) (data : Bytes)
    (delta : ℤ) : Bool × Host :=
  match faults .writeFile with
  | .fails none => (false, h)
  | .fails (some n) => (false, { h with store := h.store.set frag (some (data.take n)) })
  | .works =>
    let written := { h with store := h.store.set frag (some data) }
    if faults .upsertRow = .works then
      let recorded := written.setRow frag (some ⟨owner, shardDiskCost data.length, shardIndex⟩)
      (true, if faults .addHosted = .works then recorded.addHosted delta else recorded)
    else (false, written)

/-- Where the checks fail nothing happens; past them the write and the row decide. -/
theorem store_cases (faults : Faults) (h : Host) (frag owner : Text) (shardIndex : ℤ) (data : Bytes) :
    passes faults h frag owner data = false ∧
        (store frag owner shardIndex data).exec faults h = (false, h) ∨
      passes faults h frag owner data = true ∧ ∃ delta,
        (store frag owner shardIndex data).exec faults h =
          afterChecks faults h frag owner shardIndex data delta := by
  rw [store]
  by_cases hbig : MAX_HOSTED_SHARD < data.length
  · rw [if_pos hbig]
    exact .inl ⟨by simp [passes, hbig], rfl⟩
  rw [if_neg hbig, Call.exec]
  by_cases hknown : faults .knownPeer = .works ∧ (h.peers owner).isSome = true
  · simp only [hknown.1, hknown.2, if_true, Option.getD_some, Call.exec]
    set node := (if faults .nodeLocal = .works then h.nodeLocal else none).getD (0, 0) with hnode
    have hold : (if faults .hostedSize = .works then
        some ((h.hosted frag).map HostedRow.sizeBytes) else none).join.getD 0 =
        if faults .hostedSize = .works then ((h.hosted frag).map HostedRow.sizeBytes).getD 0
        else 0 := by
      split
      · rfl
      · rfl
    rw [hold]
    set old := if faults .hostedSize = .works then ((h.hosted frag).map HostedRow.sizeBytes).getD 0
      else 0 with hold'
    by_cases hroom : node.1 < node.2 - old + shardDiskCost data.length
    · rw [if_pos hroom]
      exact .inl ⟨by simp [passes, ← hnode, ← hold', hroom], rfl⟩
    · rw [if_neg hroom]
      cases hv : isValidFragmentId frag with
      | false =>
        refine .inl ⟨by simp [passes, hv], ?_⟩
        simp [Call.exec, Host.writeFile, hv]
      | true =>
        refine .inr ⟨by simp [passes, ← hnode, ← hold', hknown, hv, Nat.not_lt.mp hbig,
          Int.not_lt.mp hroom], shardDiskCost data.length - old, ?_⟩
        simp only [Call.exec, Host.writeFile, hv, if_true, afterChecks]
        cases hw : faults .writeFile with
        | fails written =>
          cases written with
          | none => rfl
          | some n => rfl
        | works =>
          simp only [if_true]
          by_cases hup : faults .upsertRow = .works
          · simp only [hup, if_true, Call.exec]
          · simp only [hup, if_false, Call.exec]
            rfl
  · have hno : ((if faults .knownPeer = .works then some (h.peers owner).isSome else none).getD
        false) = false := by
      by_cases hf : faults .knownPeer = .works
      · simp only [hf, if_true, Option.getD_some]
        simpa [hf] using hknown
      · simp only [hf, if_false, Option.getD_none]
    rw [hno, if_neg Bool.false_ne_true]
    refine .inl ⟨?_, rfl⟩
    by_cases hf : faults .knownPeer = .works
    · have hp : (h.peers owner).isSome = false := by simpa [hf] using hknown
      simp [passes, hp]
    · simp [passes, hf]

theorem set_eq_iff (st : ChunkStore) (frag : Text) (c : Option Bytes) :
    st.set frag c = st ↔ st frag = c := by
  constructor
  · intro heq
    rw [← heq, ChunkStore.set_same]
  · intro hc
    funext g
    by_cases hg : g = frag
    · rw [hg, ChunkStore.set_same, hc]
    · exact st.set_other c hg

/-- A refused `StoreShard` changes nothing exactly when it is refused by a check, by a write that
left nothing, or with the very bytes that it leaves already there. -/
theorem store_refused_iff (faults : Faults) (h : Host) (frag owner : Text) (shardIndex : ℤ)
    (data : Bytes) :
    (((store frag owner shardIndex data).exec faults h).1 = false →
        Unchanged h ((store frag owner shardIndex data).exec faults h).2) ↔
      (passes faults h frag owner data = true → Spared faults h frag data) := by
  rcases store_cases faults h frag owner shardIndex data with ⟨hno, heq⟩ | ⟨hyes, delta, heq⟩
  · rw [heq, hno]
    exact ⟨fun _ hp => absurd hp Bool.false_ne_true, fun _ _ => ⟨rfl, rfl, rfl⟩⟩
  · rw [heq, hyes]
    simp only [forall_const]
    unfold afterChecks Spared
    cases hw : faults .writeFile with
    | fails written =>
      cases written with
      | none => exact ⟨fun _ => trivial, fun _ _ => ⟨rfl, rfl, rfl⟩⟩
      | some n =>
        constructor
        · intro hun
          exact (set_eq_iff _ _ _).mp (hun rfl).store
        · intro hsame _
          exact ⟨(set_eq_iff _ _ _).mpr hsame, rfl, rfl⟩
    | works =>
      dsimp only
      by_cases hup : faults .upsertRow = .works
      · rw [if_pos hup]
        exact ⟨fun _ => .inl hup, fun _ hno => by cases hno⟩
      · rw [if_neg hup]
        constructor
        · intro hun
          exact .inr ((set_eq_iff _ _ _).mp (hun rfl).store)
        · intro hspared _
          exact ⟨(set_eq_iff _ _ _).mpr (hspared.resolve_left hup), rfl, rfl⟩

/-- A hosts a shard here; the record of its next store fails, and the hosted copy is gone. -/
theorem unrecorded_overwrites :
    let hosting := step twoPeers (storeAs ['A'] ['k', 'a'] [1])
    let faults : Faults := fun s => if s = .upsertRow then .fails none else .works
    ((store fragF ['A'] 0 [2]).exec faults hosting).1 = false ∧
      ¬ Unchanged hosting ((store fragF ['A'] 0 [2]).exec faults hosting).2 := by
  refine ⟨by decide +kernel, fun hun => ?_⟩
  have hbytes := congrFun hun.store fragF
  exact absurd hbytes (by decide +kernel)

end P2pnas.Node.Refusals
