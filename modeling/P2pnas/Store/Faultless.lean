import P2pnas.Store.Packing

/-!
# Calls that come through

A call that returned a value under some script met no fault that mattered: on a node where
everything works it returns the same value and leaves the same manifest and bytes. This holds
of every statement, of shard writes and of transactions; it does not hold of shard deletion,
which goes on after a failure.
-/

namespace P2pnas.Store.Faultless
open P2pnas.Lib.Frames P2pnas.Lib.Strings P2pnas.Core P2pnas.Core.Base P2pnas.Core.Pipeline
open P2pnas.Store.Manifest P2pnas.Store.Session P2pnas.Store.Service P2pnas.Store.Packing

/-- The same world with nothing left to go wrong. -/
def faultless (w : World) : World := { w with script := [] }

/-- A call that returns a value returns it, and leaves the same world, where nothing fails. -/
def Steady {α : Type} (x : Svc α) : Prop :=
  ∀ w a w', x w = (.ok a, w') → x (faultless w) = (.ok a, faultless w')

section
variable {α β : Type}

theorem steady_outcome (o : Outcome StoreError α) : Steady (ofOutcome o) := by
  intro w a w' h
  obtain ⟨rfl, rfl⟩ := ofOutcome_ok h
  rfl

theorem steady_pure (a : α) : Steady (pure a : Svc α) := steady_outcome (.ok a)

theorem steady_bind {x : Svc α} {f : α → Svc β} (hx : Steady x) (hf : ∀ a, Steady (f a)) :
    Steady (x >>= f) := by
  intro w b w' h
  obtain ⟨a, w₁, h₁, h₂⟩ := bind_ok h
  rw [bind_apply, hx w a w₁ h₁]
  exact hf a w₁ b w' h₂

theorem steady_collect {f : α → Svc β} {as : List α} (hf : ∀ a ∈ as, Steady (f a)) :
    Steady (collect f as) := by
  induction as with
  | nil => exact steady_pure []
  | cons a as ih =>
    have hrest := ih fun b hb => hf b (List.mem_cons_of_mem _ hb)
    exact steady_bind (hf a (List.mem_cons_self ..)) fun b =>
      steady_bind hrest fun bs => steady_pure (b :: bs)

/-- An effect that does not read the script. -/
theorem steady_effect {e : StoreError} {spoil : Option ℕ → World → World} {act : Svc α}
    (hact : ∀ w s a w', act w = (.ok a, w') →
      act { w with script := s } = (.ok a, { w' with script := s })) :
    Steady (effect e spoil act) := by
  intro w a w' h
  obtain ⟨s, hs⟩ := effect_ok h
  exact hact { w with script := s } [] a w' hs

theorem steady_query (f : Db → α) : Steady (query f) := by
  apply steady_effect
  intro w s a w' h
  cases h
  rfl

theorem steady_stmt (f : Db → Option Db) : Steady (stmt f) := by
  apply steady_effect
  intro w s a w' h
  cases hf : f w.db with
  | none =>
    rw [hf] at h
    cases h
  | some db =>
    rw [hf] at h
    cases h
    rfl

theorem steady_storeWrite (frag : Text) (data : Bytes) : Steady (storeWrite frag data) := by
  unfold storeWrite
  split
  · apply steady_effect
    intro w s a w' h
    cases h
    rfl
  · exact steady_outcome _

theorem steady_transaction {body : Svc α} (h : Steady body) : Steady (transaction body) := by
  intro w a w' htx
  unfold transaction at htx ⊢
  cases hb : body w with
  | mk o w₁ =>
    rw [hb] at htx
    cases o with
    | error e => cases htx
    | ok b =>
      obtain ⟨s, hs⟩ := effect_ok htx
      cases hs
      rw [h w _ w₁ hb]
      rfl

end

/-! ### The bodies of the transactions -/

theorem steady_supersedeOpt (u : Text) (row : Option FileRow) (now : Time) :
    Steady (supersedeOpt u row now) := by
  cases row with
  | none => exact steady_pure ()
  | some r => exact steady_stmt (supersedeFile · u r.fileId now)

theorem steady_insertFolderSvc (u path : Text) : Steady (insertFolderSvc u path) :=
  steady_bind (steady_collect fun _ _ => steady_stmt _) fun _ => steady_pure ()

theorem steady_requireFolder (u path : Text) (files : List (Text × Text)) :
    Steady (requireFolder u path files) := by
  unfold requireFolder
  split
  · refine steady_bind (steady_query _) fun there => ?_
    split
    · exact steady_pure ()
    · exact steady_outcome _
  · exact steady_pure ()

theorem steady_trashPath (u path : Text) (now : Time) : Steady (trashPath u path now) := by
  refine steady_transaction (steady_bind (steady_query _) fun file => ?_)
  cases file with
  | some file => exact steady_bind (steady_stmt _) fun _ => steady_pure _
  | none =>
    exact steady_bind (steady_query _) fun files =>
      steady_bind (steady_requireFolder u _ files) fun _ =>
      steady_bind (steady_collect fun f _ => steady_bind (steady_query _) fun _ =>
        steady_bind (steady_stmt _) fun _ => steady_pure _) fun _ =>
      steady_bind (steady_stmt _) fun _ => steady_pure _

theorem steady_restoreTx (u f : Text) (newPath : Option Text) (now : Time) :
    Steady (restoreTx u f newPath now) := by
  refine steady_bind (steady_query _) fun row => steady_bind (steady_outcome _) fun file => ?_
  split
  · exact steady_outcome _
  · simp only
    split
    · exact steady_outcome _
    · exact steady_bind (steady_query _) fun _ => steady_bind (steady_supersedeOpt u _ now) fun _ =>
        steady_bind (steady_insertFolderSvc u _) fun _ => steady_stmt _

theorem steady_suffixOf (fromPath path : Text) : Steady (suffixOf fromPath path) := by
  unfold suffixOf
  split
  · exact steady_pure _
  · exact steady_outcome _

theorem steady_rename (u fromPath toPath : Text) : Steady (rename u fromPath toPath) := by
  unfold rename
  simp only
  split
  · exact steady_outcome _
  · refine steady_transaction (steady_bind (steady_insertFolderSvc u _) fun _ =>
      steady_bind (steady_query _) fun file => ?_)
    cases file with
    | some file => exact steady_stmt _
    | none =>
      refine steady_bind (steady_query _) fun files => steady_bind (steady_query _) fun folders => ?_
      split
      · exact steady_outcome _
      · exact steady_bind (steady_collect fun f _ => steady_bind (steady_suffixOf _ _) fun _ =>
          steady_stmt _) fun _ => steady_bind (steady_collect fun q _ =>
          steady_bind (steady_suffixOf _ _) fun _ => steady_stmt _) fun _ =>
          steady_insertFolderSvc u _

theorem steady_purgeFileRow (u f : Text) : Steady (purgeFileRow u f) :=
  steady_bind (steady_query _) fun _ => steady_bind (steady_stmt _) fun _ => steady_pure _

theorem steady_emptyTrashTx (u : Text) : Steady (emptyTrashTx u) :=
  steady_bind (steady_query _) fun _ =>
    steady_bind (steady_collect fun r _ => steady_purgeFileRow u r.fileId) fun _ => steady_pure _

theorem steady_purgeRetiredTx (policy : RetentionPolicy) (nowTrash nowVersion : Time) :
    Steady (purgeRetiredTx policy nowTrash nowVersion) :=
  steady_bind (steady_query _) fun _ => steady_bind (steady_query _) fun _ =>
    steady_bind (steady_query _) fun _ => steady_bind (steady_query _) fun _ =>
    steady_bind (steady_collect fun c _ => steady_purgeFileRow c.1 c.2.1) fun _ => steady_pure _

variable {K : Type} (P : Prims K) (key : K)

theorem steady_writeChunkRows (fileId : Text) (chunks : List ProcessedChunk) :
    Steady (writeChunkRows P fileId chunks) :=
  steady_bind (steady_collect fun _ _ => steady_bind (steady_stmt _) fun _ =>
    steady_bind (steady_collect fun _ _ => steady_bind (steady_outcome _) fun _ =>
      steady_bind (steady_storeWrite _ _) fun _ => steady_stmt _) fun _ => steady_pure ()) fun _ =>
    steady_pure ()

theorem steady_pushTx (u path mint : Text) (data : Bytes) (now : Time)
    (chunks : List ProcessedChunk) : Steady (pushTx P u path mint data now chunks) :=
  steady_bind (steady_query _) fun prev => steady_bind (steady_supersedeOpt u prev now) fun _ =>
    steady_bind (steady_stmt _) fun _ =>
    steady_bind (steady_writeChunkRows P mint chunks) fun _ => steady_pure _

theorem steady_insertPackRow (u packId : Text) (plain : Bytes) (now : Time) :
    Steady (insertPackRow P key u packId plain now) :=
  steady_bind (steady_outcome _) fun chunks => steady_bind (steady_stmt _) fun _ =>
    steady_bind (steady_writeChunkRows P packId chunks) fun _ => steady_pure _

theorem steady_packMember (u packId : Text) (er : PackEntry × ℕ × ℕ) :
    Steady (packMember u packId er) := by
  refine steady_bind (steady_query _) fun row => steady_bind (steady_outcome _) fun row => ?_
  split
  · exact steady_outcome _
  · exact steady_bind (steady_query _) fun _ => steady_bind (steady_stmt _) fun _ =>
      steady_bind (steady_stmt _) fun _ => steady_pure _

theorem steady_packFilesTx (u packId : Text) (entries : List PackEntry) (plain : Bytes)
    (ranges : List (ℕ × ℕ)) (now : Time) :
    Steady (packFilesTx P key u packId entries plain ranges now) :=
  steady_bind (steady_collect fun er _ => steady_packMember u packId er) fun _ =>
    steady_bind (steady_insertPackRow P key u packId plain now) fun _ => steady_pure _

theorem steady_moveMember (u oldPackId newPackId : Text) (er : PackEntry × ℕ × ℕ) :
    Steady (moveMember u oldPackId newPackId er) := by
  refine steady_bind (steady_query _) fun row => steady_bind (steady_outcome _) fun row => ?_
  split
  · exact steady_outcome _
  · exact steady_stmt _

theorem steady_compactPackTx (u oldPackId : Text) (survivors : List PackEntry) (newPackId : Text)
    (now : Time) : Steady (compactPackTx P key u oldPackId survivors newPackId now) := by
  refine steady_bind (steady_query _) fun row => steady_bind (steady_outcome _) fun old => ?_
  split
  · refine steady_bind (steady_query _) fun members => steady_bind (steady_outcome _) fun _ => ?_
    split
    · exact steady_bind (steady_purgeFileRow u oldPackId) fun _ => steady_pure _
    · exact steady_bind (steady_outcome _) fun built =>
        steady_bind (steady_collect fun er _ => steady_moveMember u oldPackId newPackId er) fun _ =>
        steady_bind (steady_insertPackRow P key u newPackId built.1 now) fun _ =>
        steady_bind (steady_purgeFileRow u oldPackId) fun _ => steady_pure _
  · exact steady_outcome _

end P2pnas.Store.Faultless
