import P2pnas.Core.Sample
import P2pnas.Node.Refusals
import P2pnas.Store.Operations
import P2pnas.Store.Shelves

/-!
# The three shard queries (`server.rs:42-58`, `p2p.rs:326-350`, `retention.rs:121-175`)

`get` asks `hosted_shards` before it reads the file, `has` and `audit` look at the file alone,
and the node keeps shards of its own in the same store. The three agree exactly in the states in
which every stored file has a hosted row. Which operations lead out of them is said for one
operation at a time: above all each shard that the node writes for itself does.
-/

namespace P2pnas.Node.Queries
open P2pnas.Lib.Frames P2pnas.Lib.Strings P2pnas.Lib.Runs P2pnas.Core.Base P2pnas.Core.Erasure
open P2pnas.Store.Manifest P2pnas.Store.Session P2pnas.Store.Service P2pnas.Store.Shelves
open P2pnas.Store.Operations P2pnas.Node.Hosting P2pnas.Node.Refusals P2pnas.Core.Sample

variable {K : Type} (P : Prims K) (key : K)

/-- `ChunkStore::read`, on a file system that works. -/
def readFile (st : ChunkStore) (frag : Text) : Option Bytes :=
  if isValidFragmentId frag then st frag else none

/-- `ChunkStore::exists`. -/
def existsFile (st : ChunkStore) (frag : Text) : Bool := isValidFragmentId frag && (st frag).isSome

/-- `content_hash` (`protocol.rs:311-314`). -/
def contentHash (bytes : Bytes) : Text := hexEncode ((P.blake3 bytes).take 16)

/-! ### The queries of the handler -/

def get (h : Host) (frag : Text) : Option Bytes :=
  if (h.hosted frag).isSome then readFile h.store frag else none

def has (h : Host) (frag : Text) : Bool := existsFile h.store frag

def audit (h : Host) (frag : Text) : Text :=
  match readFile h.store frag with
  | some b => shardHash P b
  | none => []

/-- `has` and `audit` as the defaults of the trait derive them from `get`. -/
structure Agree (h : Host) : Prop where
  has : ∀ frag, has h frag = (get h frag).isSome
  audit : ∀ frag, audit P h frag = ((get h frag).map (contentHash P)).getD []

/-- Every stored file has a hosted row. -/
def Listed (h : Host) : Prop :=
  ∀ frag, isValidFragmentId frag = true → (h.store frag).isSome = true → (h.hosted frag).isSome = true

variable {P} in
theorem agree_iff (h : Host) : Agree P h ↔ Listed h := by
  constructor
  · intro hagree frag hv hs
    have hhas := hagree.has frag
    rw [has, existsFile, hv, hs, get] at hhas
    by_contra hno
    rw [if_neg hno] at hhas
    cases hhas
  · intro hl
    have hget : ∀ frag, get h frag = readFile h.store frag := by
      intro frag
      rw [get]
      split
      · rfl
      · next hno =>
        unfold readFile
        split
        · next hv =>
          cases hs : h.store frag with
          | none => rfl
          | some b => exact absurd (hl frag hv (by rw [hs]; rfl)) hno
        · rfl
    refine ⟨fun frag => ?_, fun frag => ?_⟩
    · rw [hget, has, existsFile, readFile]
      cases isValidFragmentId frag with
      | true => rfl
      | false => rfl
    · rw [hget, audit]
      cases readFile h.store frag with
      | some b => rfl
      | none => rfl

/-! ### The operations -/

/-- The node: what hosting sees, with the shard store, and the manifest of its own files. -/
structure NodeState where
  host : Host
  db : Db

/-- One row of a reclaim pass: the file, then the row. -/
def reclaimRow (files rows : Text → Event) (h : Host) (frag : Text) : Host :=
  let h := h.deleteFile (files frag) frag
  if rows frag = .works then h.setRow frag none else h

/-- The fragments `reclaim` lists, of those in `order`. -/
def reclaimed (h : Host) (owner : Text) (parityOnly : Bool) (order : List Text) : List Text :=
  order.filter fun g => (h.hosted g).any fun row =>
    row.ownerPeerId = owner && (!parityOnly || (DATA_SHARDS : ℤ) ≤ row.shardIndex)

/-- `reclaim` (`retention.rs:121-175`); the engine returns the rows in the order `order`. -/
def reclaim (owner : Text) (parityOnly : Bool) (order : List Text) (files rows : Text → Event)
    (credit : Event) (h : Host) : Host :=
  let listed := reclaimed h owner parityOnly order
  let freed := ((listed.filter fun g => rows g = .works).map fun g =>
    ((h.hosted g).map HostedRow.sizeBytes).getD 0).sum
  let h' := listed.foldl (reclaimRow files rows) h
  if 0 < freed ∧ credit = .works then h'.addHosted (-freed) else h'

/-- One operation with the faults it meets. `peers` and `node_local` may change in between. -/
inductive Operation where
  | store (frag owner : Text) (shardIndex : ℤ) (data : Bytes) (faults : Faults)
  | delete (frag owner : Text) (faults : Faults)
  | reclaim (owner : Text) (parityOnly : Bool) (order : List Text) (files rows : Text → Event)
      (credit : Event)
  | own (op : Op) (script : List Event)
  | distribute (frag location : Text) (script : List Event) (removes : Event)
  | environment (peers : Text → Option (Option Text)) (nodeLocal : Option (ℤ × ℤ))

/-- The world that the node's own calls run in. -/
def NodeState.world (n : NodeState) (script : List Event) : World := ⟨n.db, n.host.store, script⟩

/-- A shard acknowledged by a peer is recorded there and its local file deleted
(`files.rs:424-430`). -/
def step (n : NodeState) : Operation → NodeState
  | .store frag owner shardIndex data faults =>
    { n with host := ((store frag owner shardIndex data).exec faults n.host).2 }
  | .delete frag owner faults => { n with host := ((delete frag owner).exec faults n.host).2 }
  | .reclaim owner parityOnly order files rows credit =>
    { n with host := reclaim owner parityOnly order files rows credit n.host }
  | .own op script =>
    let w := op.leaves P key (n.world script)
    ⟨{ n.host with store := w.store }, w.db⟩
  | .distribute frag location script removes =>
    ⟨n.host.deleteFile removes frag, (setLocation frag location (n.world script)).2.db⟩
  | .environment peers nodeLocal => { n with host := { n.host with peers, nodeLocal } }

/-- The own calls that write shards into the local store. -/
def writesShards : Op → Bool
  | .push .. | .packFiles .. | .compactPack .. | .repackSmallFiles .. => true
  | _ => false

/-- `delete` goes ahead: the row names the caller. -/
def accepts (faults : Faults) (h : Host) (frag owner : Text) : Bool :=
  faults .recordedOwner = .works && (h.hosted frag).any fun row => row.ownerPeerId = owner

/-- The operation leaves no file without a hosted row: a store of a new fragment is recorded or
has left no file, a removed row took its file along, and the node writes no shard of its own
that hosted_shards does not list. -/
def Keeps (n : NodeState) : Operation → Prop
  | .store frag owner _ data faults => passes faults n.host frag owner data = true →
      (n.host.hosted frag).isSome = true ∨ faults .writeFile = .fails none ∨
        faults .writeFile = .works ∧ faults .upsertRow = .works
  | .delete frag owner faults => accepts faults n.host frag owner = true →
      faults .deleteRow = .works → isValidFragmentId frag = true →
        faults .deleteFile = .works ∨ n.host.store frag = none
  | .reclaim owner parityOnly order files rows _ => ∀ g ∈ reclaimed n.host owner parityOnly order,
      rows g = .works → isValidFragmentId g = true → files g = .works ∨ n.host.store g = none
  | .own op script => writesShards op = true → ∀ g, isValidFragmentId g = true →
      ((op.leaves P key (n.world script)).store g).isSome = true →
        (n.host.store g).isSome = true ∨ (n.host.hosted g).isSome = true
  | .distribute .. | .environment .. => True

/-! ### Removals -/

section
variable {P key}

/-- Files are removed at some fragments and rows at others. -/
theorem removed_iff {h h' : Host} (files rows : Text → Prop) [DecidablePred files] [DecidablePred rows]
    (hl : Listed h) (hstore : ∀ g, h'.store g = if files g then none else h.store g)
    (hhosted : ∀ g, h'.hosted g = if rows g then none else h.hosted g) :
    Listed h' ↔ ∀ g, rows g → isValidFragmentId g = true → files g ∨ h.store g = none := by
  constructor
  · intro hl' g hr hv
    by_contra hno
    rw [not_or] at hno
    have hin := hl' g hv
    rw [hstore, hhosted, if_neg hno.1, if_pos hr] at hin
    exact Bool.false_ne_true (hin (Option.isSome_iff_ne_none.mpr hno.2))
  · intro hrows g hv hs
    rw [hstore] at hs
    split at hs
    · cases hs
    · next hf =>
      rw [hhosted]
      split
      · next hr =>
        have hnone := (hrows g hr hv).resolve_left hf
        rw [hnone] at hs
        cases hs
      · exact hl g hv hs

theorem deleteFile_store (h : Host) (e : Event) (frag g : Text) :
    (h.deleteFile e frag).store g =
      if g = frag ∧ isValidFragmentId frag = true ∧ e = .works then none else h.store g := by
  unfold Host.deleteFile
  by_cases hok : isValidFragmentId frag = true ∧ e = .works
  · rw [if_pos (by simpa using hok)]
    by_cases hg : g = frag
    · rw [if_pos ⟨hg, hok⟩, hg]
      exact ChunkStore.set_same ..
    · rw [if_neg fun hh => hg hh.1]
      exact ChunkStore.set_other _ _ hg
  · rw [if_neg (by simpa using hok), if_neg fun hh => hok hh.2]

theorem deleteFile_hosted (h : Host) (e : Event) (frag : Text) :
    (h.deleteFile e frag).hosted = h.hosted := by
  unfold Host.deleteFile
  split
  · rfl
  · rfl

/-- What `delete` leaves. -/
theorem delete_removes (faults : Faults) (h : Host) (frag owner : Text) (g : Text) :
    ((delete frag owner).exec faults h).2.store g =
        (if accepts faults h frag owner = true ∧ g = frag ∧ isValidFragmentId frag = true ∧
          faults .deleteFile = .works then none else h.store g) ∧
      ((delete frag owner).exec faults h).2.hosted g =
        if accepts faults h frag owner = true ∧ g = frag ∧ faults .deleteRow = .works then none
        else h.hosted g := by
  have hcredit : ∀ (h' : Host) (d : ℤ) (e : Event),
      (if e = .works then h'.addHosted d else h').store = h'.store ∧
        (if e = .works then h'.addHosted d else h').hosted = h'.hosted := by
    intro h' d e
    split
    · exact ⟨rfl, rfl⟩
    · exact ⟨rfl, rfl⟩
  cases ha : accepts faults h frag owner with
  | false =>
    have hsame : ((delete frag owner).exec faults h).2 = h := by
      unfold accepts at ha
      simp only [delete, Call.exec]
      by_cases hf : faults .recordedOwner = .works
      · rw [hf] at ha
        simp only [hf, if_true]
        cases hrow : h.hosted frag with
        | none => rfl
        | some row =>
          rw [hrow] at ha
          have hne : ¬ row.ownerPeerId = owner := by simpa using ha
          simp only [Option.map_some, Option.join_some, if_neg hne, Call.exec]
      · simp only [hf, if_false, Option.join_none, Call.exec]
    rw [hsame, if_neg fun hh => Bool.false_ne_true hh.1, if_neg fun hh => Bool.false_ne_true hh.1]
    exact ⟨rfl, rfl⟩
  | true =>
    unfold accepts at ha
    rw [Bool.and_eq_true] at ha
    have hf : faults .recordedOwner = .works := of_decide_eq_true ha.1
    obtain ⟨row, hrow, how⟩ := Option.any_eq_true _ _ |>.mp ha.2
    have hexec : ∃ d, ((delete frag owner).exec faults h).2 =
        let h₁ := h.deleteFile (faults .deleteFile) frag
        let h₂ := if faults .deleteRow = .works then h₁.setRow frag none else h₁
        if faults .addHosted = .works then h₂.addHosted d else h₂ := by
      refine ⟨-((if faults .hostedSize = .works then some ((h.hosted frag).map HostedRow.sizeBytes)
        else none).join.getD 0), ?_⟩
      simp only [delete, Call.exec, hf, if_true]
      rw [hrow]
      simp only [Option.map_some, Option.join_some, if_pos (of_decide_eq_true how), Call.exec]
      rw [hrow]
      rfl
    obtain ⟨d, hexec⟩ := hexec
    rw [hexec]
    dsimp only
    rw [(hcredit _ d _).1, (hcredit _ d _).2]
    by_cases hrow' : faults .deleteRow = .works
    · rw [if_pos hrow']
      refine ⟨?_, ?_⟩
      · rw [Host.setRow]
        simp only [deleteFile_store, true_and]
      · simp only [Host.setRow, deleteFile_hosted, true_and, hrow', and_true]
    · rw [if_neg hrow', deleteFile_store, deleteFile_hosted]
      refine ⟨?_, ?_⟩
      · simp only [true_and]
      · rw [if_neg fun hh => hrow' hh.2.2]

/-- What a reclaim pass leaves. -/
theorem reclaimRows_removes (files rows : Text → Event) (listed : List Text) (h : Host)
    (g : Text) :
    (listed.foldl (reclaimRow files rows) h).store g =
        (if g ∈ listed ∧ isValidFragmentId g = true ∧ files g = .works then none else h.store g) ∧
      (listed.foldl (reclaimRow files rows) h).hosted g =
        if g ∈ listed ∧ rows g = .works then none else h.hosted g := by
  have hrow : ∀ (h : Host) (f : Text), (reclaimRow files rows h f).store g =
        (if g = f ∧ isValidFragmentId f = true ∧ files f = .works then none else h.store g) ∧
      (reclaimRow files rows h f).hosted g =
        if g = f ∧ rows f = .works then none else h.hosted g := by
    intro h f
    unfold reclaimRow
    dsimp only
    by_cases hr : rows f = .works
    · rw [if_pos hr]
      refine ⟨deleteFile_store h (files f) f g, ?_⟩
      simp only [Host.setRow, deleteFile_hosted, hr, and_true]
    · rw [if_neg hr, deleteFile_hosted]
      refine ⟨deleteFile_store h (files f) f g, ?_⟩
      rw [if_neg fun hh => hr hh.2]
  induction listed generalizing h with
  | nil => simp
  | cons f listed ih =>
    rw [List.foldl_cons, (ih _).1, (ih _).2, (hrow h f).1, (hrow h f).2]
    refine ⟨?_, ?_⟩
    · by_cases hg : g = f
      · subst hg
        by_cases hok : isValidFragmentId g = true ∧ files g = .works
        · simp [hok]
        · have hno : ∀ p : Prop, ¬ (p ∧ isValidFragmentId g = true ∧ files g = .works) := fun _ hh =>
            hok hh.2
          rw [if_neg (hno _), if_neg (hno _), if_neg (hno _)]
      · simp [hg]
    · by_cases hg : g = f
      · subst hg
        by_cases hok : rows g = .works
        · simp [hok]
        · simp [hok]
      · simp [hg]

/-! ### Own calls that write no shard -/

/-- No file comes in. -/
def AddsNone (w w' : World) : Prop := ∀ g, (w'.store g).isSome = true → (w.store g).isSome = true

theorem addsNone_frame : Frame AddsNone where
  refl _ _ _ h := h
  trans _ _ _ h h' g hg := h g (h' g hg)

theorem addsNone_shelves : RowMoves AddsNone where
  toFrame := addsNone_frame
  back _ _ h := h
  retire _ _ _ _ _ _ _ _ h := h
  restore _ _ _ _ _ _ _ h := h
  repath _ _ _ _ _ _ _ h := h
  folders _ _ _ _ _ _ h := h

theorem addsNone_stmt (f : Db → Option Db) : Moves AddsNone (stmt f) :=
  moves_stmt addsNone_frame fun _ _ _ _ h => h

theorem addsNone_purgeFileRow (u f : Text) : Moves AddsNone (purgeFileRow u f) :=
  moves_bind addsNone_frame (moves_query addsNone_frame _) fun _ =>
    moves_bind addsNone_frame (addsNone_stmt _) fun _ => moves_pure addsNone_frame _

theorem addsNone_storeDelete (frag : Text) : Moves AddsNone (storeDelete frag) := by
  intro w g hg
  unfold storeDelete at hg
  split at hg
  · split at hg
    · exact hg
    · change (w.store.set frag none g).isSome = true at hg
      by_cases hgf : g = frag
      · rw [hgf, ChunkStore.set_same] at hg
        cases hg
      · rwa [ChunkStore.set_other _ _ hgf] at hg
  · exact hg

theorem addsNone_purgeLocal (frags : List RemoteShard) :
    Moves AddsNone (purgeLocalCollectRemote frags) :=
  moves_bind addsNone_frame (moves_collect addsNone_frame fun s _ => addsNone_storeDelete s.1) fun _ =>
    moves_pure addsNone_frame _

theorem addsNone_purgeFile (u f : Text) : Moves AddsNone (purgeFile u f) :=
  moves_bind addsNone_frame (moves_query addsNone_frame _) fun _ =>
    moves_bind addsNone_frame (moves_outcome addsNone_frame _) fun _ =>
    moves_bind addsNone_frame (addsNone_purgeFileRow u f) fun frags =>
    moves_bind addsNone_frame (addsNone_purgeLocal frags) fun _ => moves_pure addsNone_frame _

theorem addsNone_emptyTrash (u : Text) : Moves AddsNone (emptyTrash u) := by
  have htx : Moves AddsNone (emptyTrashTx u) :=
    moves_bind addsNone_frame (moves_query addsNone_frame _) fun _ =>
      moves_bind addsNone_frame (moves_collect addsNone_frame fun r _ => addsNone_purgeFileRow u r.fileId)
        fun _ => moves_pure addsNone_frame _
  exact moves_bind addsNone_frame (moves_transaction addsNone_frame (fun _ _ h => h) htx) fun r =>
    moves_bind addsNone_frame (addsNone_purgeLocal r.2) fun _ => moves_pure addsNone_frame _

theorem addsNone_purgeRetired (policy : RetentionPolicy) (t v : Time) :
    Moves AddsNone (purgeRetired policy t v) := by
  have hF := addsNone_frame
  have htx : Moves AddsNone (purgeRetiredTx policy t v) :=
    moves_bind hF (moves_query hF _) fun _ => moves_bind hF (moves_query hF _) fun _ =>
      moves_bind hF (moves_query hF _) fun _ => moves_bind hF (moves_query hF _) fun _ =>
      moves_bind hF (moves_collect hF fun c _ => addsNone_purgeFileRow c.1 c.2.1) fun _ => moves_pure hF _
  exact moves_bind hF (moves_transaction hF (fun _ _ h => h) htx) fun r =>
    moves_bind hF (addsNone_purgeLocal r.2) fun _ => moves_pure hF _

variable (P key) in
theorem op_addsNone {op : Op} (h : writesShards op = false) (w : World) :
    AddsNone w (op.leaves P key w) := by
  cases op with
  | push => cases h
  | packFiles => cases h
  | compactPack => cases h
  | repackSmallFiles => cases h
  | trash u f now => exact moves_trash addsNone_shelves u f now w
  | trashPath u path now => exact moves_trashPath addsNone_shelves u path now w
  | restore u f newPath now => exact moves_restore addsNone_shelves u f newPath now w
  | rename u fromPath toPath => exact moves_rename addsNone_shelves u fromPath toPath w
  | mkdir u path => exact moves_mkdir addsNone_shelves u path w
  | purgeFile u f => exact addsNone_purgeFile u f w
  | emptyTrash u => exact addsNone_emptyTrash u w
  | purgeRetired policy t v => exact addsNone_purgeRetired policy t v w
  | setLocation frag location => exact addsNone_stmt _ w

/-! ### One operation, and runs of them -/

theorem store_listed_iff (faults : Faults) {h : Host} (frag owner : Text) (shardIndex : ℤ) (data : Bytes)
    (hl : Listed h) : Listed ((store frag owner shardIndex data).exec faults h).2 ↔
      (passes faults h frag owner data = true → (h.hosted frag).isSome = true ∨
        faults .writeFile = .fails none ∨ faults .writeFile = .works ∧ faults .upsertRow = .works) := by
  have hvalid : passes faults h frag owner data = true → isValidFragmentId frag = true := by
    intro hp
    unfold passes at hp
    exact (Bool.and_eq_true _ _ ▸ hp).2
  -- a file put there without a row needs the row that is already there
  have hset : isValidFragmentId frag = true → ∀ b : Bytes,
      (Listed { h with store := h.store.set frag (some b) } ↔ (h.hosted frag).isSome = true) := by
    intro hv b
    constructor
    · intro hl'
      apply hl' frag hv
      change (h.store.set frag (some b) frag).isSome = true
      rw [ChunkStore.set_same]
      rfl
    · intro hrow g hgv hs
      by_cases hg : g = frag
      · rw [hg]
        exact hrow
      · change (h.store.set frag (some b) g).isSome = true at hs
        rw [ChunkStore.set_other _ _ hg] at hs
        exact hl g hgv hs
  rcases store_cases faults h frag owner shardIndex data with ⟨hno, heq⟩ | ⟨hyes, delta, heq⟩
  · rw [heq, hno]
    exact ⟨fun _ hp => absurd hp Bool.false_ne_true, fun _ => hl⟩
  · rw [heq, hyes]
    simp only [forall_const]
    unfold afterChecks
    cases hw : faults .writeFile with
    | fails written =>
      cases written with
      | none => exact ⟨fun _ => .inr (.inl rfl), fun _ => hl⟩
      | some n =>
        rw [hset (hvalid hyes)]
        simp
    | works =>
      by_cases hup : faults .upsertRow = .works
      · refine ⟨fun _ => .inr (.inr ⟨rfl, hup⟩), fun _ => ?_⟩
        have hrecorded : Listed (({ h with store := h.store.set frag (some data) } : Host).setRow frag
            (some ⟨owner, Hosting.shardDiskCost data.length, shardIndex⟩)) := by
          intro g hgv hs
          change (if g = frag then some _ else h.hosted g).isSome = true
          by_cases hg : g = frag
          · rw [if_pos hg]
            rfl
          · change (h.store.set frag (some data) g).isSome = true at hs
            rw [ChunkStore.set_other _ _ hg] at hs
            rw [if_neg hg]
            exact hl g hgv hs
        dsimp only
        rw [if_pos hup]
        dsimp only
        split
        · exact hrecorded
        · exact hrecorded
      · dsimp only
        rw [if_neg hup, hset (hvalid hyes)]
        simp [hup]

theorem step_listed_iff (n : NodeState) (o : Operation) (hl : Listed n.host) :
    Listed (step P key n o).host ↔ Keeps P key n o := by
  cases o with
  | store frag owner shardIndex data faults => exact store_listed_iff faults frag owner shardIndex data hl
  | delete frag owner faults =>
    refine (removed_iff _ _ hl (fun g => (delete_removes faults n.host frag owner g).1)
      fun g => (delete_removes faults n.host frag owner g).2).trans ?_
    constructor
    · intro h ha hr hv
      exact (h frag ⟨ha, rfl, hr⟩ hv).imp_left fun hf => hf.2.2.2
    · rintro h g ⟨ha, rfl, hr⟩ hv
      exact (h ha hr hv).imp_left fun hf => ⟨ha, rfl, hv, hf⟩
  | reclaim owner parityOnly order files rows credit =>
    have hremoved := reclaimRows_removes files rows (reclaimed n.host owner parityOnly order) n.host
    have hhost : (step P key n (.reclaim owner parityOnly order files rows credit)).host.store =
          ((reclaimed n.host owner parityOnly order).foldl (reclaimRow files rows) n.host).store ∧
        (step P key n (.reclaim owner parityOnly order files rows credit)).host.hosted =
          ((reclaimed n.host owner parityOnly order).foldl (reclaimRow files rows) n.host).hosted := by
      unfold step reclaim
      dsimp only
      split
      · exact ⟨rfl, rfl⟩
      · exact ⟨rfl, rfl⟩
    refine (removed_iff _ _ hl (fun g => by rw [hhost.1]; exact (hremoved g).1)
      fun g => by rw [hhost.2]; exact (hremoved g).2).trans ?_
    constructor
    · intro h g hg hr hv
      exact (h g ⟨hg, hr⟩ hv).imp_left fun hf => hf.2.2
    · rintro h g ⟨hg, hr⟩ hv
      exact (h g hg hr hv).imp_left fun hf => ⟨hg, hv, hf⟩
  | own op script =>
    cases hw : writesShards op with
    | false =>
      refine ⟨fun _ hyes => ?_, fun _ g hv hs => ?_⟩
      · rw [hw] at hyes
        cases hyes
      · exact hl g hv (op_addsNone P key hw (n.world script) g hs)
    | true =>
      constructor
      · intro hl' _ g hv hs
        exact .inr (hl' g hv hs)
      · intro h g hv hs
        rcases h hw g hv hs with hold | hrow
        · exact hl g hv hold
        · exact hrow
  | distribute frag location script removes =>
    refine ⟨fun _ => trivial, fun _ g hv hs => ?_⟩
    change ((n.host.deleteFile removes frag).hosted g).isSome = true
    change ((n.host.deleteFile removes frag).store g).isSome = true at hs
    rw [deleteFile_hosted]
    rw [deleteFile_store] at hs
    split at hs
    · cases hs
    · exact hl g hv hs
  | environment peers nodeLocal => exact ⟨fun _ => trivial, fun _ => hl⟩

end

/-- The queries agree in every state of a run exactly when they agree in the first and every
operation keeps files and rows together. -/
theorem run_agree_iff (n : NodeState) (os : List Operation) :
    (∀ before, before <+: os → Agree P (run (step P key) n before).host) ↔
      Agree P n.host ∧ AllMeet (step P key) (Keeps P key) n os := by
  simp only [agree_iff]
  exact run_prefix_iff (@step_listed_iff _ P key) n os

/-- A node with nothing on it. -/
def fresh : NodeState := ⟨twoPeers, Db.empty⟩

/-- An upload of three bytes. -/
def upload : Operation := .own (.push ['u'] ['p'] [1, 2, 3] ['f'] 0) []

/-- After an upload the node says it has a shard that it does not serve. -/
theorem ownPush_disagrees : ¬ ∀ before, before <+: [upload] →
    Agree (sample []) (run (step (sample []) .node) fresh before).host := by
  intro h
  have hhas := (h [upload] (List.prefix_refl _)).has (fragmentId (sample []) (chunkId ['f'] 0) 0)
  exact absurd hhas (by decide +kernel)

end P2pnas.Node.Queries
