import P2pnas.Store.Service

/-!
# Rows on their shelves (`service.rs:275-371`, `619-657`)

The trash, restore and rename move rows between live, trashed and superseded, and move paths.
A relation that each such statement respects, and that survives a rollback, is respected by
the calls, however they end.
-/

namespace P2pnas.Store.Shelves
open P2pnas.Lib.Frames P2pnas.Lib.Strings P2pnas.Core.Base P2pnas.Store.Manifest
open P2pnas.Store.Session P2pnas.Store.Service

/-- `R` holds across every statement that moves a row or a path. -/
structure RowMoves (R : World → World → Prop) : Prop extends Frame R where
  back : ∀ w w', R w w' → R w { w' with db := w.db }
  retire : ∀ w db u f c at', retireRow w.db u f c at' = some db → R w { w with db := db }
  restore : ∀ w db u f path, restoreFile w.db u f path = some db → R w { w with db := db }
  repath : ∀ w db u f path, updateFilePath w.db u f path = some db → R w { w with db := db }
  folders : ∀ w db, db.files = w.db.files → db.chunks = w.db.chunks → db.shards = w.db.shards →
    R w { w with db := db }

section
variable {R : World → World → Prop} (hR : RowMoves R)
include hR

theorem moves_retire (u f : Text) (c : Retire) (at' : Time) :
    Moves R (stmt (retireRow · u f c at')) :=
  moves_stmt hR.toFrame fun w db h => hR.retire w db u f c at' h

theorem moves_folders {f : Db → Option Db} (hf : ∀ db db', f db = some db' →
    db'.files = db.files ∧ db'.chunks = db.chunks ∧ db'.shards = db.shards) : Moves R (stmt f) :=
  moves_stmt hR.toFrame fun w db h =>
    hR.folders w db (hf _ _ h).1 (hf _ _ h).2.1 (hf _ _ h).2.2

theorem moves_supersedeOpt (u : Text) (row : Option FileRow) (now : Time) :
    Moves R (supersedeOpt u row now) := by
  cases row with
  | none => exact moves_pure hR.toFrame ()
  | some r => exact moves_retire hR u r.fileId .supersededAt now

theorem moves_insertFolderSvc (u path : Text) : Moves R (insertFolderSvc u path) := by
  have hF := hR.toFrame
  refine moves_bind hF (moves_collect hF fun row _ => moves_folders hR ?_) fun _ => moves_pure hF ()
  intro db db' h
  cases h
  unfold insertFolderRow
  split
  · exact ⟨rfl, rfl, rfl⟩
  · exact ⟨rfl, rfl, rfl⟩

theorem moves_trash (u f : Text) (now : Time) : Moves R (trash u f now) := by
  have hF := hR.toFrame
  refine moves_bind hF (moves_query hF _) fun row => moves_bind hF (moves_outcome hF _) fun file => ?_
  split
  · exact moves_pure hF _
  · split
    · exact moves_outcome hF _
    · exact moves_bind hF (moves_retire hR u f .deletedAt now) fun _ =>
        moves_bind hF (moves_query hF _) fun _ => moves_outcome hF _

theorem moves_trashUnder (u : Text) (now : Time) (f : Text × Text) :
    Moves R (trashUnder u now f) := by
  have hF := hR.toFrame
  exact moves_bind hF (moves_query hF _) fun _ =>
    moves_bind hF (moves_retire hR u f.1 .deletedAt now) fun _ => moves_pure hF _

theorem moves_requireFolder (u path : Text) (files : List (Text × Text)) :
    Moves R (requireFolder u path files) := by
  have hF := hR.toFrame
  unfold requireFolder
  split
  · refine moves_bind hF (moves_query hF _) fun there => ?_
    split
    · exact moves_pure hF ()
    · exact moves_outcome hF _
  · exact moves_pure hF ()

theorem moves_trashPath (u path : Text) (now : Time) : Moves R (trashPath u path now) := by
  have hF := hR.toFrame
  refine moves_transaction hF hR.back (moves_bind hF (moves_query hF _) fun file => ?_)
  cases file with
  | some file =>
    exact moves_bind hF (moves_retire hR u file.fileId .deletedAt now) fun _ => moves_pure hF _
  | none =>
    refine moves_bind hF (moves_query hF _) fun files =>
      moves_bind hF (moves_requireFolder hR u _ files) fun _ =>
      moves_bind hF (moves_collect hF fun f _ => moves_trashUnder hR u now f) fun _ =>
      moves_bind hF (moves_folders hR ?_) fun _ => moves_pure hF _
    intro db db' h
    cases h
    exact ⟨rfl, rfl, rfl⟩

theorem moves_restoreTx (u f : Text) (newPath : Option Text) (now : Time) :
    Moves R (restoreTx u f newPath now) := by
  have hF := hR.toFrame
  refine moves_bind hF (moves_query hF _) fun row => moves_bind hF (moves_outcome hF _) fun file => ?_
  split
  · exact moves_outcome hF _
  · simp only
    split
    · exact moves_outcome hF _
    · exact moves_bind hF (moves_query hF _) fun _ =>
        moves_bind hF (moves_supersedeOpt hR u _ now) fun _ =>
        moves_bind hF (moves_insertFolderSvc hR u _) fun _ =>
        moves_stmt hF fun w db h => hR.restore w db u f _ h

theorem moves_restore (u f : Text) (newPath : Option Text) (now : Time) :
    Moves R (restore u f newPath now) := by
  have hF := hR.toFrame
  exact moves_bind hF (moves_transaction hF hR.back (moves_restoreTx hR u f newPath now)) fun _ =>
    moves_bind hF (moves_query hF _) fun _ => moves_outcome hF _

theorem moves_mkdir (u path : Text) : Moves R (mkdir u path) := moves_insertFolderSvc hR u _

theorem moves_suffixOf (fromPath path : Text) : Moves R (suffixOf fromPath path) := by
  unfold suffixOf
  split
  · exact moves_pure hR.toFrame _
  · exact moves_outcome hR.toFrame _

theorem moves_rename (u fromPath toPath : Text) : Moves R (rename u fromPath toPath) := by
  have hF := hR.toFrame
  unfold rename
  simp only
  split
  · exact moves_outcome hF _
  · refine moves_transaction hF hR.back (moves_bind hF (moves_insertFolderSvc hR u _) fun _ =>
      moves_bind hF (moves_query hF _) fun file => ?_)
    cases file with
    | some file => exact moves_stmt hF fun w db h => hR.repath w db u file.fileId _ h
    | none =>
      refine moves_bind hF (moves_query hF _) fun files => moves_bind hF (moves_query hF _) fun folders => ?_
      split
      · exact moves_outcome hF _
      · refine moves_bind hF (moves_collect hF fun f _ => ?_) fun _ =>
          moves_bind hF (moves_collect hF fun q _ => ?_) fun _ => moves_insertFolderSvc hR u _
        · exact moves_bind hF (moves_suffixOf hR _ _) fun _ =>
            moves_stmt hF fun w db h => hR.repath w db u f.1 _ h
        · refine moves_bind hF (moves_suffixOf hR _ _) fun _ => moves_folders hR ?_
          intro db db' h
          have htab := updateFolderPath_some h
          exact ⟨by rw [htab], by rw [htab], by rw [htab]⟩

end

end P2pnas.Store.Shelves
