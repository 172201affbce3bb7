import P2pnas.Node.HostCalls

/-!
# Acknowledged shards (`p2p.rs:243-402`, `retention.rs:121-175`)

A peer that got the acknowledgement of a `StoreShard` relies on the shard until a
`DeleteShard` of it, or a reclaim pass over its owner, starts. The node is watched together
with the acknowledgements still relied on. A delete or a reclaim that started earlier can
still be between two statements when the shard is stored again.
-/

namespace P2pnas.Node.HeldShards
open P2pnas.Lib.Frames P2pnas.Lib.Strings P2pnas.Lib.Runs P2pnas.Lib.Tables P2pnas.Lib.Interleave
open P2pnas.Store.Session P2pnas.Node.HostCalls

/-- The node and the acknowledgements relied on. -/
structure Watched where
  host : HostState
  acked : List StoreReq

/-- The acknowledgements a request ends when it starts. -/
def ended : Req → StoreReq → Bool
  | .storeShard _, _ => false
  | .deleteShard frag _, r => r.frag = frag
  | .reclaim owner _, r => r.owner = owner

def enter (q : Req) (w : Watched) : Watched × Pc :=
  ({ w with acked := w.acked.filter fun r => !ended q r }, q.pc)

/-- What the call answers `true` to with this statement. -/
def acknowledges : Pc → List StoreReq
  | .storeCount r _ => [r]
  | _ => []

def watch (order : List (Text × ℤ)) (w : Watched) (pc : Pc) : Watched × Option Pc :=
  (⟨(advance order w.host pc).1, w.acked ++ acknowledges pc⟩, (advance order w.host pc).2)

abbrev Watch := Sys Watched Pc

def step : Watch → Label Req (List (Text × ℤ)) → Watch :=
  P2pnas.Lib.Interleave.step enter watch

/-- All stores of a fragment come from one owner with the same data. -/
def Consistent (content : Text → Text × Bytes) : Label Req (List (Text × ℤ)) → Prop
  | .start (.storeShard r) => (r.owner, r.data) = content r.frag
  | _ => True

instance (content : Text → Text × Bytes) :
    (a : Label Req (List (Text × ℤ))) → Decidable (Consistent content a)
  | .start (.storeShard r) => inferInstanceAs (Decidable ((r.owner, r.data) = content r.frag))
  | .start (.deleteShard ..) | .start (.reclaim ..) | .move .. => .isTrue trivial

/-! ### A removal that comes late -/

/-- The fragment whose file the statement removes. -/
def removesFile : Pc → Option Text
  | .deleteBytes frag _ => some frag
  | .reclaimBytes ((frag, _) :: _) _ => some frag
  | _ => none

/-- The fragment whose row the statement removes. -/
def removesRow : Pc → Option Text
  | .deleteRow frag _ => some frag
  | .reclaimRow frag _ _ _ => some frag
  | _ => none

/-- The fragment whose file the store in progress has written. -/
def hasWritten : Pc → Option Text
  | .storeRecord r _ _ => some r.frag
  | .storeCount r _ => some r.frag
  | _ => none

/-- The fragment whose row the store in progress has written. -/
def hasRecorded : Pc → Option Text
  | .storeCount r _ => some r.frag
  | _ => none

/-- The statement removes neither a file nor a row that an acknowledged store, or one past
that point, has put there. -/
def Timely (w : Watched) (procs : List Pc) (pc : Pc) : Prop :=
  (∀ frag ∈ removesFile pc,
    (∀ r ∈ w.acked, r.frag ≠ frag) ∧ ∀ p ∈ procs, hasWritten p ≠ some frag) ∧
  ∀ frag ∈ removesRow pc,
    (∀ r ∈ w.acked, r.frag ≠ frag) ∧ ∀ p ∈ procs, hasRecorded p ≠ some frag

instance (w : Watched) (procs : List Pc) (pc : Pc) : Decidable (Timely w procs pc) :=
  inferInstanceAs (Decidable (_ ∧ _))

/-- The call that moves does not come late. -/
def MoveTimely (s : Watch) : Label Req (List (Text × ℤ)) → Prop
  | .start _ => True
  | .move k _ => ∀ pc ∈ s.procs[k]?, Timely s.shared s.procs pc

instance (s : Watch) : (a : Label Req (List (Text × ℤ))) → Decidable (MoveTimely s a)
  | .start _ => .isTrue trivial
  | .move k _ => inferInstanceAs (Decidable (∀ pc ∈ s.procs[k]?, Timely s.shared s.procs pc))

/-! ### What is held -/

/-- The bytes of the shard are in the store. -/
def HasFile (h : HostState) (r : StoreReq) : Prop :=
  isValidFragmentId r.frag = true ∧ h.store r.frag = some r.data

/-- `hosted_shards` has a row for the fragment. -/
def HasRow (h : HostState) (r : StoreReq) : Prop := (h.rowAt r.frag).isSome = true

section
variable (content : Text → Text × Bytes)

def FromOwner (r : StoreReq) : Prop := (r.owner, r.data) = content r.frag

/-- A store in progress still finds what it has put there. -/
def Backed (h : HostState) : Pc → Prop
  | .storeKnown r | .storeNode r | .storeOld r _ _ | .storeWrite r _ _ => FromOwner content r
  | .storeRecord r _ _ => FromOwner content r ∧ HasFile h r
  | .storeCount r _ => FromOwner content r ∧ HasFile h r ∧ HasRow h r
  | _ => True

/-- Whatever is acknowledged and relied on is held. -/
structure Held (s : Watch) : Prop where
  acked : ∀ r ∈ s.shared.acked, FromOwner content r ∧ HasFile s.shared.host r ∧ HasRow s.shared.host r
  backed : ∀ pc ∈ s.procs, Backed content s.shared.host pc

variable {content}

theorem hasFile_setFile {h : HostState} {r : StoreReq} {frag : Text} {c : Option Bytes}
    (hf : HasFile h r) (hne : r.frag = frag → c = some r.data) : HasFile (h.setFile frag c) r := by
  refine ⟨hf.1, ?_⟩
  unfold HostState.setFile
  split
  · by_cases he : r.frag = frag
    · change h.store.set frag c r.frag = _
      rw [← he, ChunkStore.set_same]
      exact hne he
    · exact (h.store.set_other c he).trans hf.2
  · exact hf.2

/-- A file stays, unless the statement removes it. -/
theorem advance_hasFile {h : HostState} {pc : Pc} {r : StoreReq} (order : List (Text × ℤ))
    (hb : Backed content h pc) (hr : FromOwner content r) (hf : HasFile h r)
    (hkeep : removesFile pc ≠ some r.frag) : HasFile (advance order h pc).1 r := by
  cases pc with
  | storeKnown q => simp only [advance]; split <;> exact hf
  | storeWrite q hosted old =>
    refine hasFile_setFile hf fun he => ?_
    have hq : (q.owner, q.data) = (r.owner, r.data) := hb.trans (by rw [← he]; exact hr.symm)
    rw [(Prod.mk.inj hq).2]
  | deleteBytes frag old =>
    exact hasFile_setFile hf fun he => absurd (by rw [he]; rfl) hkeep
  | reclaimBytes todo freed =>
    cases todo with
    | nil => simp only [advance]; split <;> exact hf
    | cons e todo => exact hasFile_setFile hf fun he => absurd (by rw [he]; rfl) hkeep
  | storeNode q => exact hf
  | storeOld q contributed hosted => exact hf
  | storeRecord q hosted old => exact hf
  | storeCount q old => exact hf
  | deleteOwner frag owner => exact hf
  | deleteSize frag => exact hf
  | deleteRow frag old => exact hf
  | deleteCount old => exact hf
  | reclaimRows owner parityOnly => exact hf
  | reclaimRow frag size todo freed => exact hf

theorem hasRow_of_rows {h h' : HostState} {r : StoreReq} (he : h'.rows = h.rows) (hr : HasRow h r) :
    HasRow h' r := by
  unfold HasRow HostState.rowAt at *
  rw [he]
  exact hr

/-- A row stays, unless the statement removes it. -/
theorem advance_hasRow {h : HostState} {pc : Pc} {r : StoreReq} (order : List (Text × ℤ))
    (hr : HasRow h r) (hkeep : removesRow pc ≠ some r.frag) : HasRow (advance order h pc).1 r := by
  have hgone : ∀ frag, r.frag ≠ frag → HasRow (h.deleteRow frag) r := by
    intro frag hne
    unfold HasRow
    rw [rowAt_deleteRow, if_neg hne]
    exact hr
  cases pc with
  | storeKnown q => simp only [advance]; split <;> exact hr
  | storeWrite q hosted old => exact hasRow_of_rows (setFile_rows h _ _) hr
  | deleteBytes frag old => exact hasRow_of_rows (setFile_rows h _ _) hr
  | reclaimBytes todo freed =>
    cases todo with
    | nil => simp only [advance]; split <;> exact hr
    | cons e todo => exact hasRow_of_rows (setFile_rows h _ _) hr
  | storeRecord q hosted old =>
    change ((h.upsertRow q.frag q.row).rowAt r.frag).isSome = true
    rw [rowAt_upsertRow]
    split
    · rfl
    · exact hr
  | deleteRow frag old => exact hgone frag fun he => hkeep (by rw [he]; rfl)
  | reclaimRow frag size todo freed => exact hgone frag fun he => hkeep (by rw [he]; rfl)
  | storeNode q => exact hr
  | storeOld q contributed hosted => exact hr
  | storeCount q old => exact hr
  | deleteOwner frag owner => exact hr
  | deleteSize frag => exact hr
  | deleteCount old => exact hr
  | reclaimRows owner parityOnly => exact hr

/-- The calls beside the one that moves stay backed. -/
theorem advance_backed {h : HostState} {pc p : Pc} (order : List (Text × ℤ))
    (hb : Backed content h pc) (hp : Backed content h p)
    (hfile : ∀ frag ∈ removesFile pc, hasWritten p ≠ some frag)
    (hrow : ∀ frag ∈ removesRow pc, hasRecorded p ≠ some frag) :
    Backed content (advance order h pc).1 p := by
  cases p with
  | storeRecord r hosted old =>
    exact ⟨hp.1, advance_hasFile order hb hp.1 hp.2 fun he => hfile _ he rfl⟩
  | storeCount r old =>
    exact ⟨hp.1, advance_hasFile order hb hp.1 hp.2.1 fun he => hfile _ he rfl,
      advance_hasRow order hp.2.2 fun he => hrow _ he rfl⟩
  | storeKnown r => exact hp
  | storeNode r => exact hp
  | storeOld r contributed hosted => exact hp
  | storeWrite r hosted old => exact hp
  | _ => trivial

/-- The call that moves is backed after its statement. -/
theorem advance_next {h : HostState} {pc : Pc} (order : List (Text × ℤ))
    (hb : Backed content h pc) :
    ∀ pc', (advance order h pc).2 = some pc' → Backed content (advance order h pc).1 pc' := by
  intro pc' hnext
  cases pc with
  | storeKnown r =>
    simp only [advance] at hnext ⊢
    split at hnext
    · cases hnext
    · split at hnext
      · cases hnext; exact hb
      · cases hnext
  | storeNode r => cases hnext; exact hb
  | storeOld r contributed hosted =>
    simp only [advance] at hnext
    split at hnext
    · cases hnext
    · cases hnext; exact hb
  | storeWrite r hosted old =>
    simp only [advance] at hnext ⊢
    split at hnext
    · rename_i hv
      cases hnext
      refine ⟨hb, hv, ?_⟩
      unfold HostState.setFile
      rw [if_pos hv]
      exact ChunkStore.set_same _ _ _
    · cases hnext
  | storeRecord r hosted old =>
    cases hnext
    refine ⟨hb.1, hb.2, ?_⟩
    change ((h.upsertRow r.frag r.row).rowAt r.frag).isSome = true
    rw [rowAt_upsertRow, if_pos rfl]
    rfl
  | storeCount r old => cases hnext
  | deleteOwner frag owner =>
    simp only [advance] at hnext
    split at hnext
    · split at hnext
      · cases hnext; trivial
      · cases hnext
    · cases hnext
  | deleteSize frag => cases hnext; trivial
  | deleteBytes frag old => cases hnext; trivial
  | deleteRow frag old => cases hnext; trivial
  | deleteCount old => cases hnext
  | reclaimRows owner parityOnly => cases hnext; trivial
  | reclaimBytes todo freed =>
    cases todo with
    | nil => cases hnext
    | cons e todo => cases hnext; trivial
  | reclaimRow frag size todo freed => cases hnext; trivial

variable (content) in
/-- The call that moves does not come late, and a store that starts is consistent. -/
def Admissible (s : Watch) (a : Label Req (List (Text × ℤ))) : Prop :=
  MoveTimely s a ∧ Consistent content a

theorem step_held (s : Watch) (a : Label Req (List (Text × ℤ))) (hs : Held content s)
    (ha : Admissible content s a) : Held content (step s a) := by
  refine step_keeps _ _ ?_ ?_ s a hs ha
  · intro s q hs hok
    refine ⟨fun r hr => hs.acked r (List.mem_filter.mp hr).1, fun pc hpc => ?_⟩
    rcases List.mem_append.mp hpc with hold | hnew
    · exact hs.backed pc hold
    · rw [List.mem_singleton.mp hnew]
      cases q with
      | storeShard r => exact hok.2
      | deleteShard frag owner => trivial
      | reclaim owner parityOnly => trivial
  · intro s k pc order hs hk hok
    have hb := hs.backed pc (List.mem_of_getElem? hk)
    obtain ⟨hfile, hrow⟩ := hok.1 pc hk
    refine ⟨fun r hr => ?_, forall_put (fun p hp => ?_) (advance_next order hb)⟩
    · rcases List.mem_append.mp hr with hold | hnew
      · obtain ⟨hfrom, hf, hr'⟩ := hs.acked r hold
        exact ⟨hfrom, advance_hasFile order hb hfrom hf fun he => (hfile _ he).1 r hold rfl,
          advance_hasRow order hr' fun he => (hrow _ he).1 r hold rfl⟩
      · cases pc with
        | storeCount q old =>
          rw [List.mem_singleton.mp hnew]
          exact hb
        | _ => cases hnew
    · exact advance_backed order hb (hs.backed p hp) (fun f hf => (hfile f hf).2 p hp)
        fun f hf => (hrow f hf).2 p hp

end

/-- In every run where no delete and no reclaim comes late, an acknowledged shard that is
relied on has its row and its bytes once no call is in progress, and `GetShard` returns
them. -/
theorem run_held (h : HostState) (content : Text → Text × Bytes)
    {as : List (Label Req (List (Text × ℤ)))} (hcon : ∀ a ∈ as, Consistent content a)
    (has : AllMeet step MoveTimely ⟨⟨h, []⟩, []⟩ as) :
    let s := run step ⟨⟨h, []⟩, []⟩ as
    s.procs = [] → ∀ r ∈ s.shared.acked, (s.shared.host.rowAt r.frag).isSome = true ∧
      s.shared.host.store r.frag = some r.data ∧ s.shared.host.get r.frag = some r.data := by
  have hboth : AllMeet step (Admissible content) ⟨⟨h, []⟩, []⟩ as :=
    has.and_forall hcon
  have hinit : Held content (⟨⟨h, []⟩, []⟩ : Watch) :=
    ⟨fun _ hr => (List.not_mem_nil hr).elim, fun _ hp => (List.not_mem_nil hp).elim⟩
  intro s _ r hr
  obtain ⟨_, hfile, hrow⟩ := (run_invariant step_held hinit hboth).acked r hr
  have hrow' : (s.shared.host.rowAt r.frag).isSome = true := hrow
  refine ⟨hrow', hfile.2, ?_⟩
  rw [HostState.get, hrow', hfile.1, Bool.and_self, if_pos rfl]
  exact hfile.2

/-- A shard is stored, deleted, and stored and acknowledged again. -/
def storedAgain : List (Label Req (List (Text × ℤ))) :=
  .start (.storeShard (shardOf 'a' ['A'])) :: List.replicate 6 (.move 0 []) ++
    .start (.deleteShard (List.replicate 32 'a') ['A']) :: List.replicate 5 (.move 0 []) ++
    .start (.storeShard (shardOf 'a' ['A'])) :: List.replicate 6 (.move 0 [])

theorem storedAgain_held :
    (run step ⟨⟨oneBlock, []⟩, []⟩ storedAgain).shared.acked = [shardOf 'a' ['A']] ∧
      (run step ⟨⟨oneBlock, []⟩, []⟩ storedAgain).shared.host.get (List.replicate 32 'a') =
        some [1] := by
  have hacked : (run step ⟨⟨oneBlock, []⟩, []⟩ storedAgain).shared.acked =
      [shardOf 'a' ['A']] := by decide +kernel
  have hcon : ∀ a ∈ storedAgain, Consistent (fun _ => (['A'], [1])) a := by decide +kernel
  refine ⟨hacked, (run_held oneBlock (fun _ => (['A'], [1])) hcon (by decide +kernel)
    (by decide +kernel) (shardOf 'a' ['A']) ?_).2.2⟩
  rw [hacked]
  exact List.mem_singleton.mpr rfl

/-- A delete has found its row when the shard is stored again; the new shard is acknowledged,
then the delete removes it. -/
def deletedLate : List (Label Req (List (Text × ℤ))) :=
  .start (.storeShard (shardOf 'a' ['A'])) :: List.replicate 6 (.move 0 []) ++
    .start (.deleteShard (List.replicate 32 'a') ['A']) :: List.replicate 2 (.move 0 []) ++
    .start (.storeShard (shardOf 'a' ['A'])) :: List.replicate 6 (.move 1 []) ++
    List.replicate 3 (.move 0 [])

theorem deletedLate_loses_shard :
    let s := run step ⟨⟨oneBlock, []⟩, []⟩ deletedLate
    (∀ a ∈ deletedLate, Consistent (fun _ => (['A'], [1])) a) ∧ s.procs = [] ∧ s.shared.acked = [shardOf 'a' ['A']] ∧
      (s.shared.host.rowAt (List.replicate 32 'a')).isSome = false ∧
      s.shared.host.get (List.replicate 32 'a') = none := by
  decide +kernel

end P2pnas.Node.HeldShards
