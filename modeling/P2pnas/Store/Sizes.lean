import Mathlib.Algebra.Order.BigOperators.Group.List
import P2pnas.Store.Edits

/-!
# What the transactions do to the accounted sizes

Quota and node accounting look at a row's owner, its size and its stored bytes. The entries
of the manifest are these columns, row by row; each transaction that commits adds entries,
drops entries or empties the stored bytes of an entry, and everything else leaves them alone.
-/

namespace P2pnas.Store.Sizes
open P2pnas.Lib.Frames P2pnas.Lib.Strings P2pnas.Lib.Tables P2pnas.Core.Base P2pnas.Core.Erasure
open P2pnas.Core.Pipeline P2pnas.Store.Manifest P2pnas.Store.Session P2pnas.Store.Service
open P2pnas.Store.Packing P2pnas.Store.Shelves

/-- The columns of a row that accounting reads, and whether the row is a pack member. -/
structure Entry where
  fileId : Text
  userId : Text
  size : ℤ
  stored : ℤ
  packed : Bool
  deriving DecidableEq, Repr

def entryOf (r : FileRec) : Entry := ⟨r.fileId, r.userId, r.size, r.storedBytes, r.packId.isSome⟩

def entries (db : Db) : List Entry := db.files.map entryOf

def Entry.key (e : Entry) : Text × Text := (e.userId, e.fileId)

/-- The entries without the row `f` of `u`. -/
def dropEntry (u f : Text) (es : List Entry) : List Entry := remove Entry.key (u, f) es

/-- A member stores nothing of its own. -/
def Entry.hollow (e : Entry) : Entry := { e with stored := 0, packed := true }

/-- The row `f` of `u` becomes a member. -/
def hollowEntry (u f : Text) (es : List Entry) : List Entry :=
  update (fun e => e.key = (u, f)) Entry.hollow es

theorem isRow_entry (u f : Text) (r : FileRec) : isRow u f r = decide ((entryOf r).key = (u, f)) := by
  simp [isRow, Entry.key, entryOf]

theorem entries_nodup (db : Db) : ((entries db).map Entry.fileId).Nodup := by
  have h : (entries db).map Entry.fileId = db.files.map FileRec.fileId := by
    rw [entries, List.map_map]
    rfl
  rw [h]
  exact db.constraints.fileIds

/-- Looking a row up by id finds its entry. -/
theorem getFile_entry {db : Db} {u f : Text} {row : FileRow} (h : getFile db u f = some row) :
    (⟨f, u, row.size, row.storedBytes, row.packId.isSome⟩ : Entry) ∈ entries db := by
  obtain ⟨r, hr, rfl⟩ := Option.map_eq_some_iff.mp h
  have hsel := List.find?_some hr
  rw [isRow, Bool.and_eq_true, decide_eq_true_eq, decide_eq_true_eq] at hsel
  obtain ⟨rfl, rfl⟩ := hsel
  exact List.mem_map.mpr ⟨r, List.mem_of_find?_eq_some hr, rfl⟩

/-! ### Statements -/

section
variable {db db' : Db}

theorem entries_of_files (h : db'.files = db.files) : entries db' = entries db := by
  rw [entries, h, entries]

theorem entries_updateFiles {sel : FileRec → Bool} {set : FileRec → FileRec}
    {hid : ∀ r, (set r).fileId = r.fileId} (h : updateFiles db sel set hid = some db')
    (hset : ∀ r, entryOf (set r) = entryOf r) : entries db' = entries db := by
  have hf : db'.files = update sel set db.files := by rw [updateFiles_some h]
  rw [entries, hf, update_map _ _ _ hset, entries]

theorem entries_insertFile {row : FileRow} (h : insertFile db row = some db') :
    entries db' = entries db ++ [entryOf row.toRec] ∧
      row.fileId ∉ (entries db).map Entry.fileId := by
  obtain ⟨hnew, htab⟩ := insertFile_some h
  have hf : db'.files = db.files ++ [row.toRec] := by rw [htab]
  constructor
  · rw [entries, hf, List.map_append, entries]
    rfl
  · rw [entries, List.map_map]
    exact hnew

theorem entries_deleteFile (u f : Text) : entries (deleteFile db u f) = dropEntry u f (entries db) := by
  have hf : (deleteFile db u f).files = db.files.filter fun r => !isRow u f r := rfl
  rw [entries, hf, dropEntry, entries, remove, List.filter_map]
  congr 1
  apply List.filter_congr
  intro r _
  simp only [Function.comp_apply, isRow_entry, ne_eq, decide_not]

theorem entries_assignToPack {u f packId : Text} {offset len : ℤ}
    (h : assignToPack db u f packId offset len = some db') :
    entries db' = hollowEntry u f (entries db) := by
  have hf := updateFiles_some h
  rw [entries, hf, hollowEntry, update, update, entries, List.map_map, List.map_map]
  apply List.map_congr_left
  intro r _
  simp only [Function.comp_apply, ← isRow_entry]
  split <;> rfl

end

/-! ### Calls -/

/-- The entries are the same. -/
def Even (w w' : World) : Prop := entries w'.db = entries w.db

theorem even_shelves : RowMoves Even where
  refl _ _ := rfl
  trans _ _ _ h h' := h'.trans h
  back _ _ _ := rfl
  retire _ _ _ _ c _ h := entries_updateFiles h fun _ => by cases c <;> rfl
  restore _ _ _ _ _ h := entries_updateFiles h fun _ => rfl
  repath _ _ _ _ _ h := entries_updateFiles h fun _ => rfl
  folders _ _ hf _ _ := entries_of_files hf

section
variable {K : Type} {P : Prims K} {key : K} {w w' : World}

theorem even_writeChunkRows (m : Text) (chunks : List ProcessedChunk) :
    Moves Even (writeChunkRows P m chunks) := by
  have hF := even_shelves.toFrame
  refine moves_bind hF (moves_collect hF fun c _ => ?_) fun _ => moves_pure hF ()
  refine moves_bind hF (moves_stmt hF fun w db h => ?_) fun _ =>
    moves_bind hF (moves_collect hF fun i _ => ?_) fun _ => moves_pure hF ()
  · exact entries_of_files (by rw [(insertChunk_some h).2])
  · refine moves_bind hF (moves_outcome hF _) fun bytes =>
      moves_bind hF (moves_storeWrite hF fun _ _ => rfl) fun _ => moves_stmt hF fun w db h => ?_
    exact entries_of_files (by rw [(insertShard_some h).2])

theorem storedBytesOf_nonneg (chunks : List ProcessedChunk) : 0 ≤ storedBytesOf chunks := by
  refine List.sum_nonneg fun x hx => ?_
  obtain ⟨c, _, rfl⟩ := List.mem_map.mp hx
  exact Int.natCast_nonneg _

theorem pushTx_entries {u path m : Text} {data : Bytes} {now : Time} {chunks : List ProcessedChunk}
    {r : PushResult} (h : pushTx P u path m data now chunks w = (.ok r, w')) :
    entries w'.db = entries w.db ++ [⟨m, u, data.length, storedBytesOf chunks, false⟩] ∧
      m ∉ (entries w.db).map Entry.fileId ∧ r.size = data.length ∧
      r.storedBytes = storedBytesOf chunks := by
  rw [pushTx] at h
  obtain ⟨prev, w₁, hq, h₁⟩ := bind_ok h
  obtain ⟨_, w₂, hs, h₂⟩ := bind_ok h₁
  obtain ⟨_, w₃, hins, h₃⟩ := bind_ok h₂
  obtain ⟨_, w₄, hwr, h₄⟩ := bind_ok h₃
  obtain ⟨rfl, rfl⟩ := pure_ok h₄
  have e₁ : entries w₁.db = entries w.db := by rw [(query_ok hq).2.1]
  have e₂ : Even w₁ w₂ := by
    have := moves_supersedeOpt even_shelves u prev now w₁
    rwa [hs] at this
  obtain ⟨e₃, hnew⟩ := entries_insertFile (stmt_ok hins).1
  have e₄ : Even w₃ w' := by
    have := even_writeChunkRows (P := P) m chunks w₃
    rwa [hwr] at this
  have hbase : entries w₂.db = entries w.db := e₂.trans e₁
  rw [hbase] at e₃ hnew
  exact ⟨e₄.trans e₃, hnew, rfl, rfl⟩

theorem purgeFileRow_entries {u f : Text} {frags : List RemoteShard}
    (h : purgeFileRow u f w = (.ok frags, w')) :
    entries w'.db = dropEntry u f (entries w.db) := by
  obtain ⟨_, w₁, hq, h₁⟩ := bind_ok h
  obtain ⟨_, w₂, hs, h₂⟩ := bind_ok h₁
  obtain ⟨_, rfl⟩ := pure_ok h₂
  have hdel := (stmt_ok hs).1
  rw [← Option.some.inj hdel, entries_deleteFile, (query_ok hq).2.1]

theorem insertPackRow_entries {u m : Text} {plain : Bytes} {now : Time} {stored : ℤ}
    (h : insertPackRow P key u m plain now w = (.ok stored, w')) :
    entries w'.db = entries w.db ++ [⟨m, u, plain.length, stored, false⟩] ∧
      m ∉ (entries w.db).map Entry.fileId ∧ 0 ≤ stored := by
  rw [insertPackRow] at h
  obtain ⟨chunks, w₁, hout, h₁⟩ := bind_ok h
  obtain ⟨_, hw₁⟩ := ofOutcome_ok hout
  subst hw₁
  obtain ⟨_, w₂, hins, h₂⟩ := bind_ok h₁
  obtain ⟨_, w₃, hwr, h₃⟩ := bind_ok h₂
  obtain ⟨hst, hw₃⟩ := pure_ok h₃
  subst hw₃ hst
  obtain ⟨e₁, hnew⟩ := entries_insertFile (stmt_ok hins).1
  have e₂ : Even w₂ w' := by
    have := even_writeChunkRows (P := P) m chunks w₂
    rwa [hwr] at this
  exact ⟨e₂.trans e₁, hnew, storedBytesOf_nonneg chunks⟩

theorem packMember_entries {u m : Text} {er : PackEntry × ℕ × ℕ} {r : ℤ × List RemoteShard}
    (h : packMember u m er w = (.ok r, w')) :
    (∃ size, (⟨er.1.fileId, u, size, r.1, false⟩ : Entry) ∈ entries w.db) ∧
      entries w'.db = hollowEntry u er.1.fileId (entries w.db) := by
  obtain ⟨_, w₁, hq, h₁⟩ := bind_ok h
  obtain ⟨row, w₂, ho, h₂⟩ := bind_ok h₁
  obtain ⟨rfl, hdb₁, _⟩ := query_ok hq
  obtain ⟨hrow, rfl⟩ := orThrow_ok ho
  split at h₂
  · cases h₂
  · rename_i hok
    obtain ⟨_, w₃, hfr, h₃⟩ := bind_ok h₂
    obtain ⟨_, w₄, hdel, h₄⟩ := bind_ok h₃
    obtain ⟨_, w₅, hasg, h₅⟩ := bind_ok h₄
    obtain ⟨rfl, rfl⟩ := pure_ok h₅
    rw [Bool.or_eq_true, not_or, Bool.not_eq_true] at hok
    have hent := getFile_entry hrow
    rw [hok.1] at hent
    have e₄ : entries w₄.db = entries w.db := by
      have hd := Option.some.inj (stmt_ok hdel).1
      have hfiles : w₄.db.files = w₃.db.files := by rw [← hd]; rfl
      rw [entries_of_files hfiles, (query_ok hfr).2.1, hdb₁]
    refine ⟨⟨row.size, hent⟩, ?_⟩
    rw [entries_assignToPack (stmt_ok hasg).1, e₄]

theorem moveMember_entries {u old new : Text} {er : PackEntry × ℕ × ℕ}
    (h : moveMember u old new er w = (.ok (), w')) :
    (∃ size stored, (⟨er.1.fileId, u, size, stored, true⟩ : Entry) ∈ entries w.db) ∧
      entries w'.db = hollowEntry u er.1.fileId (entries w.db) := by
  obtain ⟨_, w₁, hq, h₁⟩ := bind_ok h
  obtain ⟨row, w₂, ho, h₂⟩ := bind_ok h₁
  obtain ⟨rfl, hdb₁, _⟩ := query_ok hq
  obtain ⟨hrow, rfl⟩ := orThrow_ok ho
  split at h₂
  · cases h₂
  · rename_i hok
    rw [Bool.or_eq_true, not_or, decide_eq_true_eq, not_not] at hok
    have hent := getFile_entry hrow
    rw [hok.1] at hent
    refine ⟨⟨row.size, row.storedBytes, hent⟩, ?_⟩
    rw [entries_assignToPack (stmt_ok h₂).1, hdb₁]

end

/-! ### Sums over the entries -/

/-- What the account `u` is charged for: its rows that are no containers. -/
def usedBy (containers : Text → Bool) (u : Text) (es : List Entry) : ℤ :=
  sumOf (fun e => if e.userId = u && !containers e.fileId then e.size else 0) es

def storedTotal (es : List Entry) : ℤ := sumOf Entry.stored es

section
variable {es : List Entry} {u f : Text} {e : Entry}

theorem keys_nodup (hn : (es.map Entry.fileId).Nodup) : (es.map Entry.key).Nodup := by
  refine List.Nodup.of_map Prod.snd ?_
  rw [List.map_map]
  exact hn

theorem lookup_entry (hn : (es.map Entry.fileId).Nodup) (he : e ∈ es) :
    lookup Entry.key e.key es = some e :=
  find?_eq_some (keys_nodup hn) he (decide_eq_true rfl) fun _ h => of_decide_eq_true h

theorem sumOf_drop (g : Entry → ℤ) (hn : (es.map Entry.fileId).Nodup) (he : e ∈ es) :
    sumOf g (dropEntry e.userId e.fileId es) = sumOf g es - g e := by
  have h := sumOf_remove Entry.key g (keys_nodup hn) e.key
  rw [lookup_entry hn he] at h
  exact h

theorem sumOf_hollow (g : Entry → ℤ) (hn : (es.map Entry.fileId).Nodup) (he : e ∈ es) :
    sumOf g (hollowEntry e.userId e.fileId es) = sumOf g es + (g e.hollow - g e) := by
  have h := sumOf_update Entry.key g Entry.hollow (keys_nodup hn) e.key
  rw [lookup_entry hn he] at h
  exact h

/-- Packing charges nobody. -/
theorem usedBy_hollow (containers : Text → Bool) (v : Text) (hn : (es.map Entry.fileId).Nodup)
    (he : e ∈ es) : usedBy containers v (hollowEntry e.userId e.fileId es) = usedBy containers v es :=
  (sumOf_hollow _ hn he).trans ((congrArg _ (sub_self _)).trans (add_zero _))

theorem sumOf_concat (g : Entry → ℤ) (es : List Entry) (e : Entry) :
    sumOf g (es ++ [e]) = sumOf g es + g e := by
  simp [sumOf]

/-- Which ids name containers does not matter for ids that are not there. -/
theorem usedBy_congr {c c' : Text → Bool} (h : ∀ e ∈ es, c' e.fileId = c e.fileId) (v : Text) :
    usedBy c' v es = usedBy c v es := by
  unfold usedBy sumOf
  congr 1
  apply List.map_congr_left
  intro e he
  rw [h e he]

end

end P2pnas.Store.Sizes
