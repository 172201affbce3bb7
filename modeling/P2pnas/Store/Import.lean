import P2pnas.Lib.Steps
import P2pnas.Store.Bundle

/-!
# Restoring onto a node (`backup.rs:169-246`, `635-649`; `manifest.rs:279-349`, `452-458`)

The guard opens the manifest, migrating it, and counts its files; what fails there counts as no
file. The manifest is then replaced through a temporary file, and the identity is removed, created
and written. Every file operation and statement is a step of its own.
-/

namespace P2pnas.Store.Import
open P2pnas.Lib.Frames P2pnas.Lib.Strings P2pnas.Lib.Steps P2pnas.Core P2pnas.Core.Base
open P2pnas.Store.Manifest P2pnas.Store.Bundle
open P2pnas.Store.Session (StoreError)

structure Column where
  table : Text
  name : Text
  deriving DecidableEq, Repr

def shardsColumn (name : String) : Column := ⟨"shards".toList, name.toList⟩
def filesColumn (name : String) : Column := ⟨"files".toList, name.toList⟩

/-- The columns that `connect` adds where they are missing, in its order. -/
def ADDED_COLUMNS : List Column := [
  shardsColumn "location", shardsColumn "hash", filesColumn "retired_path", filesColumn "deleted_at",
  filesColumn "superseded_at", filesColumn "lineage", filesColumn "key_scheme",
  filesColumn "content_hash", filesColumn "pack_id", filesColumn "pack_offset", filesColumn "pack_len"]

/-- A manifest under the node's key: what of the schema it has, and its rows, in which a column that
is missing reads as its default. -/
structure ManifestDb where
  tables : Bool
  columns : List Column
  retiredIndexes : Bool
  db : Db

/-- The empty file that opening creates. -/
def ManifestDb.blank : ManifestDb := ⟨false, [], false, Db.empty⟩

/-- `SCHEMA`. -/
def ManifestDb.createTables (m : ManifestDb) : ManifestDb :=
  if m.tables then m else { m with tables := true, columns := ADDED_COLUMNS }

def ManifestDb.addColumn (m : ManifestDb) (c : Column) : ManifestDb :=
  { m with columns := m.columns ++ [c] }

/-- `SCHEMA_RETIRED_INDEXES`. -/
def ManifestDb.createIndexes (m : ManifestDb) : ManifestDb := { m with retiredIndexes := true }

/-- `manifest.db`: a database that the node wrote, or bytes that were put in its place. -/
inductive ManifestFile where
  | absent
  | database (m : ManifestDb)
  | bytes (b : Bytes)

/-- The steps of a restore. -/
inductive Step where
  | createParent
  | openDb
  | key
  | schema
  | tableInfo (c : Column)
  | alter (c : Column)
  | indexes
  | prepare
  | rows
  | createDataDir
  | writeTemp
  | rename
  | createIdentityDir
  | removeIdentity
  | createIdentity
  | writeIdentity
  deriving DecidableEq, Repr

/-- The files of the node that a restore touches. -/
structure Disk where
  manifest : ManifestFile
  temp : Option Bytes
  identity : Option Bytes

abbrev Restore (α : Type) := Proc Disk StoreError α

section
-- what SQLCipher reads from bytes under the node's key
variable (load : Bytes → Option ManifestDb)

def ManifestFile.holds : ManifestFile → Option ManifestDb
  | .absent => some ManifestDb.blank
  | .database m => some m
  | .bytes b => load b

variable (faults : Step → Fate)

/-- A statement of the guard, which changes nothing by itself. -/
def statement (s : Step) : Restore Unit := attempt faults s .sqlite id fun _ d => d

/-- A directory is created with its parents. -/
def createDirAll (s : Step) : Restore Unit := attempt faults s .io id fun _ d => d

def store (m : ManifestDb) : Restore Unit := modify fun d => { d with manifest := .database m }

/-! ### The guard -/

/-- `Connection::open`. -/
def openDb : Restore Unit :=
  attempt faults .openDb .sqlite
    (fun d => match d.manifest with
      | .absent => { d with manifest := .database ManifestDb.blank }
      | _ => d)
    fun _ d => d

/-- The schema batch is the first statement that reads the file. -/
def schema : Restore ManifestDb := do
  statement faults .schema
  let m ← readOr .sqlite fun d => d.manifest.holds load
  if m.tables then return m
  else
    store m.createTables
    return m.createTables

def addColumnIfMissing (m : ManifestDb) (c : Column) : Restore ManifestDb := do
  statement faults (.tableInfo c)
  if m.columns.contains c then return m
  else
    statement faults (.alter c)
    store (m.addColumn c)
    return m.addColumn c

def addColumns (m : ManifestDb) : List Column → Restore ManifestDb
  | [] => pure m
  | c :: cs => do
    let m' ← addColumnIfMissing faults m c
    addColumns m' cs

def indexes (m : ManifestDb) : Restore ManifestDb := do
  statement faults .indexes
  if m.retiredIndexes then return m
  else
    store m.createIndexes
    return m.createIndexes

/-- `Manifest::connect`. -/
def connect : Restore ManifestDb := do
  createDirAll faults .createParent
  openDb faults
  statement faults .key
  let m ← schema load faults
  let m ← addColumns faults m ADDED_COLUMNS
  indexes faults m

/-- `list_all_files`. -/
def listAllFiles (m : ManifestDb) : Restore (List FileRec) := do
  statement faults .prepare
  statement faults .rows
  return m.db.files

/-- `ensure_fresh_node`: every error counts as no file. -/
def ensureFreshNode : Restore Unit := fun d =>
  match (connect load faults >>= listAllFiles faults) d with
  | (.ok files, d') =>
    if files.length > 0 then
      (.err (bundleError "this node already holds data; restore is only for a fresh node"), d')
    else (.ok (), d')
  | (.err _, d') => (.ok (), d')
  | (.stopped, d') => (.stopped, d')

/-! ### Writing the two files -/

/-- `write_atomic` on `manifest.db`. -/
def writeAtomic (bytes : Bytes) : Restore Unit := do
  attempt faults .writeTemp .io (fun d => { d with temp := some bytes })
    fun k d => match k with
      | some n => { d with temp := some (bytes.take n) }
      | none => d
  attempt faults .rename .io (fun d => { d with manifest := .bytes bytes, temp := none }) fun _ d => d

def installManifest (bytes : Bytes) : Restore Unit := do
  createDirAll faults .createDataDir
  writeAtomic faults bytes

/-- `let _ = std::fs::remove_file(path)`. -/
def removeIdentity : Restore Unit := fun d =>
  match faults .removeIdentity with
  | .works => (.ok (), { d with identity := none })
  | .fails _ => (.ok (), d)
  | .stops _ => (.stopped, d)

/-- On Unix the file must not be there; elsewhere it is truncated. -/
def createIdentity (unix : Bool) : Restore Unit := fun d =>
  if unix && d.identity.isSome && faults .createIdentity = .works then (.err .io, d)
  else attempt faults .createIdentity .io (fun d => { d with identity := some [] }) (fun _ d => d) d

def writeIdentity (unix : Bool) (bytes : Bytes) : Restore Unit := do
  removeIdentity faults
  createIdentity faults unix
  attempt faults .writeIdentity .io (fun d => { d with identity := some bytes })
    fun k d => match k with
      | some n => { d with identity := some (bytes.take n) }
      | none => d

def installIdentity (unix : Bool) (bytes : Bytes) : Restore Unit := do
  createDirAll faults .createIdentityDir
  writeIdentity faults unix bytes

/-- `restore_manifest_db`. -/
def restoreManifestDb (snapshot : Bytes) : Restore Unit := do
  ensureFreshNode load faults
  installManifest faults snapshot

/-- A step that only computes. -/
def ofOutcome {α : Type} (o : Outcome StoreError α) : Restore α := fun d =>
  match o with
  | .ok a => (.ok a, d)
  | .error (.err e) => (.err e, d)
  | .error .panic => (.stopped, d)

variable {K : Type} (P : Prims K) (argon2 : Bytes → Bytes → Option K)

/-- `import`. -/
def importBundle (unix : Bool) (passphrase : Text) (blob : Bytes) : Restore Unit := do
  ensureFreshNode load faults
  let (identity, manifestBytes) ← ofOutcome (contents P argon2 blob passphrase)
  installManifest faults manifestBytes
  installIdentity faults unix identity

end

/-! ### When the guard lets a restore pass -/

section
variable (load : Bytes → Option ManifestDb) (faults : Step → Fate)

def columnSteps (m : ManifestDb) : List Column → List Step
  | [] => []
  | c :: cs =>
    if m.columns.contains c then .tableInfo c :: columnSteps m cs
    else .tableInfo c :: .alter c :: columnSteps (m.addColumn c) cs

/-- The steps of the guard on a manifest. -/
def guardSteps (f : ManifestFile) : List Step :=
  [.createParent, .openDb, .key, .schema] ++
    match f.holds load with
    | none => []
    | some m => columnSteps m.createTables ADDED_COLUMNS ++ [.indexes, .prepare, .rows]

/-- A step returns an error, and none before it ends the process. -/
def GuardErrs (f : ManifestFile) : Prop := ∃ k, trouble faults (guardSteps load f) = .fails k

instance (f : ManifestFile) : Decidable (GuardErrs load faults f) :=
  match h : trouble faults (guardSteps load f) with
  | .works => .isFalse fun ⟨_, hk⟩ => by rw [h] at hk; cases hk
  | .fails k => .isTrue ⟨k, h⟩
  | .stops _ => .isFalse fun ⟨_, hk⟩ => by rw [h] at hk; cases hk

/-- The manifest is no database under the node's key, or one without files. -/
def Fresh (f : ManifestFile) : Prop := ∀ m, f.holds load = some m → m.db.files = []

/-- The guard errs, or it works and finds nothing. -/
def GuardPasses (f : ManifestFile) : Prop :=
  GuardErrs load faults f ∨ trouble faults (guardSteps load f) = .works ∧ Fresh load f

/-- The manifest is the one before, perhaps with its schema brought up to date. -/
def Kept (f f' : ManifestFile) : Prop :=
  f' = f ∨ ∃ m m', f.holds load = some m ∧ f' = .database m' ∧ m'.db = m.db

structure Untouched (d d' : Disk) : Prop where
  manifest : Kept load d.manifest d'.manifest
  identity : d'.identity = d.identity

/-- `m` has the rows of the manifest of `d`. -/
def RowsOf (d : Disk) (m : ManifestDb) : Prop :=
  ∃ m₀, d.manifest.holds load = some m₀ ∧ m.db = m₀.db

end

section
variable {load : Bytes → Option ManifestDb} {faults : Step → Fate}

theorem createTables_db (m : ManifestDb) : m.createTables.db = m.db := by
  unfold ManifestDb.createTables
  split
  · rfl
  · rfl

theorem Untouched.refl (d : Disk) : Untouched load d d := ⟨.inl rfl, rfl⟩

theorem Untouched.rows {d s : Disk} {m : ManifestDb} (h : Untouched load d s)
    (hm : s.manifest.holds load = some m) : RowsOf load d m := by
  rcases h.manifest with heq | ⟨m₀, m', hm₀, heq, hdb⟩
  · exact ⟨m, by rw [← heq, hm], rfl⟩
  · rw [heq] at hm
    cases hm
    exact ⟨m₀, hm₀, hdb⟩

theorem Untouched.store {d s : Disk} {m : ManifestDb} (h : Untouched load d s) (hm : RowsOf load d m) :
    Untouched load d { s with manifest := .database m } := by
  obtain ⟨m₀, hm₀, hdb⟩ := hm
  exact ⟨.inr ⟨m₀, m, hm₀, rfl, hdb⟩, h.identity⟩

/-! #### What it leaves -/

theorem statement_keeps (d : Disk) (s : Step) :
    Keeps (Untouched load d) (fun _ => True) (statement faults s) :=
  Keeps.attempt (fun _ h => h) fun _ _ h => h

theorem store_keeps {d : Disk} {m : ManifestDb} (hm : RowsOf load d m) :
    Keeps (Untouched load d) (fun _ => True) (store m) :=
  Keeps.modify fun _ h => h.store hm

theorem openDb_keeps (d : Disk) : Keeps (Untouched load d) (fun _ => True) (openDb faults) := by
  refine Keeps.attempt (fun s h => ?_) fun _ _ h => h
  cases hf : s.manifest with
  | absent => exact h.store (h.rows (by rw [hf]; rfl))
  | database m => exact h
  | bytes b => exact h

theorem schema_keeps (d : Disk) :
    Keeps (Untouched load d) (RowsOf load d) (schema load faults) := by
  refine (statement_keeps d _).bind fun _ _ => ?_
  have hread : Keeps (Untouched load d) (RowsOf load d)
      (readOr StoreError.sqlite fun s : Disk => s.manifest.holds load) :=
    Keeps.readOr _ fun _ _ h hm => h.rows hm
  refine hread.bind fun m hm => ?_
  obtain ⟨m₀, hm₀, hdb⟩ := hm
  split
  · exact Keeps.pure ⟨m₀, hm₀, hdb⟩
  · have hrows : RowsOf load d m.createTables := ⟨m₀, hm₀, (createTables_db m).trans hdb⟩
    exact (store_keeps hrows).bind fun _ _ => Keeps.pure hrows

theorem addColumnIfMissing_keeps {d : Disk} {m : ManifestDb} (hm : RowsOf load d m) (c : Column) :
    Keeps (Untouched load d) (RowsOf load d) (addColumnIfMissing faults m c) := by
  refine (statement_keeps d _).bind fun _ _ => ?_
  split
  · exact Keeps.pure hm
  · have hrows : RowsOf load d (m.addColumn c) := hm
    refine (statement_keeps d _).bind fun _ _ => ?_
    exact (store_keeps hrows).bind fun _ _ => Keeps.pure hrows

theorem addColumns_keeps {d : Disk} {m : ManifestDb} (hm : RowsOf load d m) (cs : List Column) :
    Keeps (Untouched load d) (RowsOf load d) (addColumns faults m cs) := by
  induction cs generalizing m with
  | nil => exact Keeps.pure hm
  | cons c cs ih => exact (addColumnIfMissing_keeps hm c).bind fun m' hm' => ih hm'

theorem indexes_keeps {d : Disk} {m : ManifestDb} (hm : RowsOf load d m) :
    Keeps (Untouched load d) (RowsOf load d) (indexes faults m) := by
  refine (statement_keeps d _).bind fun _ _ => ?_
  split
  · exact Keeps.pure hm
  · have hrows : RowsOf load d m.createIndexes := hm
    exact (store_keeps hrows).bind fun _ _ => Keeps.pure hrows

/-- Opening the manifest leaves its rows. -/
theorem connect_keeps (d : Disk) : Keeps (Untouched load d) (RowsOf load d) (connect load faults) := by
  have hparent : Keeps (Untouched load d) (fun _ => True) (createDirAll faults .createParent) :=
    Keeps.attempt (fun _ h => h) fun _ _ h => h
  refine hparent.bind fun _ _ => ?_
  refine (openDb_keeps d).bind fun _ _ => ?_
  refine (statement_keeps d _).bind fun _ _ => ?_
  refine (schema_keeps d).bind fun m hm => ?_
  exact (addColumns_keeps hm _).bind fun m' hm' => indexes_keeps hm'

theorem ensureFreshNode_untouched (d : Disk) : Untouched load d (ensureFreshNode load faults d).2 := by
  have hlist : ∀ m : ManifestDb, Keeps (Untouched load d) (fun _ => True) (listAllFiles faults m) :=
    fun m => (statement_keeps d _).bind fun _ _ =>
      (statement_keeps d _).bind fun _ _ => Keeps.pure trivial
  have hguard := (((@connect_keeps load faults d).bind fun m _ => hlist m) d (Untouched.refl d)).1
  unfold ensureFreshNode
  rcases hr : (connect load faults >>= listAllFiles faults) d with ⟨files | e | _, d'⟩
  · rw [hr] at hguard
    dsimp only
    split
    · exact hguard
    · exact hguard
  · rw [hr] at hguard
    exact hguard
  · rw [hr] at hguard
    exact hguard

/-! #### How it ends -/

theorem statement_makes (s : Step) (d : Disk) :
    Makes faults [s] (statement faults s) d (Returns fun _ d' => d' = d) :=
  Makes.attempt s _ _ _

theorem addColumns_makes (m : ManifestDb) (cs : List Column) (d : Disk) :
    Makes faults (columnSteps m cs) (addColumns faults m cs) d
      (Returns fun m' _ => m'.db = m.db) := by
  induction cs generalizing m d with
  | nil => exact (Makes.pure m).mono fun _ _ ⟨a, ha, hm, _⟩ => ⟨a, ha, by rw [hm]⟩
  | cons c cs ih =>
    rw [columnSteps]
    split
    · next hc =>
      have hadd : Makes faults ([.tableInfo c] ++ []) (addColumnIfMissing faults m c) d
          (Returns fun m' _ => m' = m) := by
        refine (statement_makes _ d).bind fun _ d₁ _ => ?_
        rw [if_pos hc]
        exact (Makes.pure m).mono fun _ _ ⟨a, ha, hm, _⟩ => ⟨a, ha, hm⟩
      exact hadd.bind fun m' d₁ hm' => hm' ▸ ih m d₁
    · next hc =>
      have hadd : Makes faults ([.tableInfo c] ++ ([.alter c] ++ ([] ++ []))) (addColumnIfMissing faults m c)
          d (Returns fun m' _ => m' = m.addColumn c) := by
        refine (statement_makes _ d).bind fun _ d₁ _ => ?_
        rw [if_neg hc]
        refine (statement_makes _ d₁).bind fun _ d₂ _ => ?_
        refine (Makes.modify _).bind fun _ d₃ _ => ?_
        exact (Makes.pure _).mono fun _ _ ⟨a, ha, hm, _⟩ => ⟨a, ha, hm⟩
      refine hadd.bind fun m' d₁ hm' => ?_
      rw [hm']
      exact ih (m.addColumn c) d₁

theorem indexes_makes (m : ManifestDb) (d : Disk) :
    Makes faults [.indexes] (indexes faults m) d (Returns fun m' _ => m'.db = m.db) := by
  have h : Makes faults ([.indexes] ++ []) (indexes faults m) d (Returns fun m' _ => m'.db = m.db) := by
    refine (statement_makes _ d).bind fun _ d₁ _ => ?_
    split
    · exact (Makes.pure m).mono fun _ _ ⟨a, ha, hm, _⟩ => ⟨a, ha, by rw [hm]⟩
    · have hstore : Makes faults ([] ++ []) (do store m.createIndexes; return m.createIndexes) d₁
          (Returns fun m' _ => m'.db = m.db) :=
        (Makes.modify _).bind fun _ _ _ =>
          (Makes.pure _).mono fun _ _ ⟨a, ha, hm, _⟩ => ⟨a, ha, by rw [hm]; rfl⟩
      exact hstore
  exact h

theorem openDb_makes (d : Disk) :
    Makes faults [.openDb] (openDb faults) d
      (Returns fun _ d' => d'.manifest.holds load = d.manifest.holds load) := by
  refine (Makes.attempt _ _ _ _).mono fun _ d' ⟨a, ha, hd⟩ => ⟨a, ha, ?_⟩
  rw [hd]
  cases hf : d.manifest with
  | absent => rfl
  | database m => dsimp only; rw [hf]
  | bytes b => dsimp only; rw [hf]

theorem schema_makes {m : ManifestDb} {d : Disk} (h : d.manifest.holds load = some m) :
    Makes faults ([.schema] ++ ([] ++ [])) (schema load faults) d
      (Returns fun m' _ => m' = m.createTables) := by
  refine (statement_makes _ d).bind fun _ d₁ h₁ => ?_
  refine (Makes.readOr _ (h₁ ▸ h)).bind fun m₁ d₂ ⟨hm, _⟩ => ?_
  rw [hm]
  split
  · next ht =>
    refine (Makes.pure m).mono fun _ _ ⟨a, ha, hm, _⟩ => ⟨a, ha, ?_⟩
    rw [hm, ManifestDb.createTables, if_pos ht]
  · have hstore : Makes faults ([] ++ []) (do store m.createTables; return m.createTables) d₂
        (Returns fun m' _ => m' = m.createTables) :=
      (Makes.modify _).bind fun _ _ _ =>
        (Makes.pure _).mono fun _ _ ⟨a, ha, hm, _⟩ => ⟨a, ha, hm⟩
    exact hstore

theorem schema_errs {d : Disk} (h : d.manifest.holds load = none) :
    Makes faults ([.schema] ++ []) (schema load faults) d Errs := by
  refine (statement_makes _ d).bind fun _ d₁ h₁ => Makes.bind_errs ?_ _
  refine ⟨.sqlite, ?_⟩
  rw [h₁]
  simp only [readOr, h]

/-- The steps of `connect` up to the first that reads the file. -/
theorem connect_makes {steps : List Step} {Q : End StoreError ManifestDb → Disk → Prop} (d : Disk)
    (hrest : ∀ d', d'.manifest.holds load = d.manifest.holds load →
      Makes faults steps
        (do
          let m ← schema load faults
          let m ← addColumns faults m ADDED_COLUMNS
          indexes faults m) d' Q) :
    Makes faults ([.createParent] ++ ([.openDb] ++ ([.key] ++ steps))) (connect load faults) d Q := by
  have hparent : Makes faults [.createParent] (createDirAll faults .createParent) d
      (Returns fun _ d' => d' = d) := Makes.attempt ..
  refine hparent.bind fun _ d₁ h₁ => ?_
  refine (@openDb_makes load faults d₁).bind fun _ d₂ h₂ => ?_
  refine (statement_makes _ d₂).bind fun _ d₃ h₃ => hrest d₃ ?_
  rw [h₃, h₂, h₁]

theorem listAllFiles_makes (m : ManifestDb) (d : Disk) :
    Makes faults ([.prepare] ++ ([.rows] ++ [])) (listAllFiles faults m) d
      (Returns fun files _ => files = m.db.files) := by
  refine (statement_makes _ d).bind fun _ d₁ _ => ?_
  refine (statement_makes _ d₁).bind fun _ d₂ _ => ?_
  exact (Makes.pure _).mono fun _ _ ⟨a, ha, hm, _⟩ => ⟨a, ha, hm⟩

theorem guard_makes {m : ManifestDb} {d : Disk} (h : d.manifest.holds load = some m) :
    Makes faults (guardSteps load d.manifest) (connect load faults >>= listAllFiles faults) d
      (Returns fun files _ => files = m.db.files) := by
  have hrest : ∀ d', d'.manifest.holds load = d.manifest.holds load →
      Makes faults (([.schema] ++ ([] ++ [])) ++ (columnSteps m.createTables ADDED_COLUMNS ++ [.indexes]))
        (do
          let m ← schema load faults
          let m ← addColumns faults m ADDED_COLUMNS
          indexes faults m) d' (Returns fun m' _ => m'.db = m.db) := by
    intro d' hd
    refine (schema_makes (hd.trans h)).bind fun m₁ d₁ hm₁ => ?_
    rw [hm₁]
    refine (addColumns_makes _ ADDED_COLUMNS d₁).bind fun m₂ d₂ hm₂ => ?_
    refine (indexes_makes m₂ d₂).mono fun _ _ ⟨m₃, ha, hm₃⟩ => ⟨m₃, ha, ?_⟩
    exact (hm₃.trans hm₂).trans (createTables_db m)
  have hsteps : guardSteps load d.manifest = ([.createParent] ++ ([.openDb] ++ ([.key] ++
      (([.schema] ++ ([] ++ [])) ++ (columnSteps m.createTables ADDED_COLUMNS ++ [.indexes]))))) ++
      ([.prepare] ++ ([.rows] ++ [])) := by
    simp only [guardSteps, h, List.append_assoc, List.append_nil, List.nil_append, List.cons_append]
  rw [hsteps]
  refine (connect_makes d hrest).bind fun m' d' hm' => ?_
  exact (listAllFiles_makes m' d').mono fun _ _ ⟨files, ha, hf⟩ => ⟨files, ha, hf.trans (congrArg (·.files) hm')⟩

theorem guard_errs {d : Disk} (h : d.manifest.holds load = none) :
    Makes faults (guardSteps load d.manifest) (connect load faults >>= listAllFiles faults) d Errs := by
  have hconnect := @connect_makes load faults _ Errs d fun d' hd =>
    Makes.bind_errs (schema_errs (hd.trans h)) _
  have hsteps : guardSteps load d.manifest =
      [.createParent] ++ ([.openDb] ++ ([.key] ++ ([.schema] ++ []))) := by
    simp only [guardSteps, h, List.append_nil, List.cons_append, List.nil_append]
  rw [hsteps]
  exact hconnect.bind_errs _

/-- The restore goes on exactly when the guard passes. -/
theorem ensureFreshNode_passes (d : Disk) :
    (ensureFreshNode load faults d).1 = .ok () ↔ GuardPasses load faults d.manifest := by
  unfold GuardPasses GuardErrs
  cases hf : d.manifest.holds load with
  | none =>
    have hm := @guard_errs load faults d hf
    unfold Makes at hm
    unfold ensureFreshNode
    rcases hr : (connect load faults >>= listAllFiles faults) d with ⟨r, d'⟩
    rw [hr] at hm
    have hfresh : Fresh load d.manifest := fun m hm => by rw [hf] at hm; cases hm
    cases ht : trouble faults (guardSteps load d.manifest) with
    | works =>
      rw [ht] at hm
      obtain ⟨e, rfl⟩ := hm
      exact ⟨fun _ => .inr ⟨rfl, hfresh⟩, fun _ => rfl⟩
    | fails k =>
      rw [ht] at hm
      obtain ⟨e, rfl⟩ := hm
      exact ⟨fun _ => .inl ⟨k, rfl⟩, fun _ => rfl⟩
    | stops k =>
      rw [ht] at hm
      cases hm
      exact ⟨nofun, fun hp => by rcases hp with ⟨_, hk⟩ | ⟨hk, _⟩ <;> cases hk⟩
  | some m =>
    have hm := @guard_makes load faults m d hf
    unfold Makes at hm
    unfold ensureFreshNode
    rcases hr : (connect load faults >>= listAllFiles faults) d with ⟨r, d'⟩
    rw [hr] at hm
    cases ht : trouble faults (guardSteps load d.manifest) with
    | works =>
      rw [ht] at hm
      obtain ⟨files, rfl, rfl⟩ := hm
      dsimp only
      split
      · next hpos =>
        refine ⟨nofun, fun hp => ?_⟩
        rcases hp with ⟨_, hk⟩ | ⟨-, hfresh⟩
        · cases hk
        · rw [hfresh m hf] at hpos
          cases hpos
      · next hpos =>
        refine ⟨fun _ => .inr ⟨rfl, fun m' hm' => ?_⟩, fun _ => rfl⟩
        rw [hf] at hm'
        cases hm'
        exact List.eq_nil_of_length_eq_zero (Nat.eq_zero_of_not_pos hpos)
    | fails k =>
      rw [ht] at hm
      obtain ⟨e, rfl⟩ := hm
      exact ⟨fun _ => .inl ⟨k, rfl⟩, fun _ => rfl⟩
    | stops k =>
      rw [ht] at hm
      cases hm
      exact ⟨nofun, fun hp => by rcases hp with ⟨_, hk⟩ | ⟨hk, _⟩ <;> cases hk⟩

end

/-! ### What is written -/

def installSteps : List Step := [.createDataDir, .writeTemp, .rename]

section
variable (faults : Step → Fate)

/-- The steps up to the rename of the new manifest work. -/
def Installs : Prop := ∀ s ∈ installSteps, faults s = .works

instance : Decidable (Installs faults) := inferInstanceAs (Decidable (∀ s ∈ installSteps, _))

/-- The old identity is removed. -/
def Removed : Prop := faults .createIdentityDir = .works ∧ faults .removeIdentity = .works

/-- The new identity is created, empty. -/
def Created (unix : Bool) (old : Option Bytes) : Prop :=
  faults .createIdentityDir = .works ∧ faults .createIdentity = .works ∧
    (faults .removeIdentity = .works ∨
      (∃ k, faults .removeIdentity = .fails k) ∧ (unix = false ∨ old = none))

/-- The new identity is there in full. -/
def Whole (unix : Bool) (old : Option Bytes) (new : Bytes) : Prop :=
  Created faults unix old ∧ ∀ k, (faults .writeIdentity).Broke k → new.length ≤ k.getD 0

/-- Only so many bytes of it. -/
def CutAt (unix : Bool) (old : Option Bytes) (n : ℕ) : Prop :=
  Created faults unix old ∧ ∃ k, (faults .writeIdentity).Broke k ∧ k.getD 0 = n

/-- `identity.key` is as it was. -/
def IdentityStays (unix : Bool) (old : Option Bytes) : Prop :=
  ¬ Created faults unix old ∧ (¬ Removed faults ∨ old = none)

end

section
variable {faults : Step → Fate}

theorem createDirAll_cases (s : Step) (d : Disk) :
    (faults s = .works ∧ createDirAll faults s d = (.ok (), d)) ∨
      faults s ≠ .works ∧ (createDirAll faults s d).2 = d ∧
        ∀ a, (createDirAll faults s d).1 ≠ .ok a := by
  rcases attempt_cases s StoreError.io id (fun _ d => d) d with h | ⟨k, hbroke, h⟩
  · exact .inl h
  · exact .inr ⟨hbroke.not_works, h⟩

theorem installManifest_works (bytes : Bytes) (d : Disk) (h : Installs faults) :
    installManifest faults bytes d = (.ok (), { d with manifest := .bytes bytes, temp := none }) := by
  obtain ⟨hdir, htemp, hrename⟩ :
      faults .createDataDir = .works ∧ faults .writeTemp = .works ∧ faults .rename = .works :=
    ⟨h _ (by decide), h _ (by decide), h _ (by decide)⟩
  simp only [installManifest, createDirAll, writeAtomic, bind_apply, attempt, hdir, htemp, hrename, id_eq]

/-- Before the rename the two files stay. -/
theorem installManifest_breaks (bytes : Bytes) (d : Disk) (h : ¬ Installs faults) :
    (∀ a, (installManifest faults bytes d).1 ≠ .ok a) ∧
      (installManifest faults bytes d).2.manifest = d.manifest ∧
      (installManifest faults bytes d).2.identity = d.identity := by
  unfold installManifest
  rcases createDirAll_cases .createDataDir d with ⟨hdir, hrun⟩ | ⟨-, hst, hno⟩
  · rw [bind_of_ok _ hrun]
    unfold writeAtomic
    rcases attempt_cases Step.writeTemp StoreError.io (fun d : Disk => { d with temp := some bytes })
      (fun k d => match k with
        | some n => { d with temp := some (bytes.take n) }
        | none => d) d with ⟨htemp, hrun⟩ | ⟨k, -, hst, hno⟩
    · rw [bind_of_ok _ hrun]
      rcases attempt_cases Step.rename StoreError.io
        (fun d : Disk => { d with manifest := .bytes bytes, temp := none }) (fun _ d => d)
        { d with temp := some bytes } with ⟨hrename, -⟩ | ⟨k, -, hst, hno⟩
      · refine absurd ?_ h
        unfold Installs installSteps
        rw [List.forall_mem_cons, List.forall_mem_cons, List.forall_mem_singleton]
        exact ⟨hdir, htemp, hrename⟩
      · exact ⟨hno, by rw [hst], by rw [hst]⟩
    · obtain ⟨hsame, hno⟩ := bind_of_not_ok _ hno
      refine ⟨hno, ?_⟩
      rw [hsame, hst]
      cases k with
      | none => exact ⟨rfl, rfl⟩
      | some n => exact ⟨rfl, rfl⟩
  · obtain ⟨hsame, hno⟩ := bind_of_not_ok _ hno
    exact ⟨hno, by rw [hsame, hst], by rw [hsame, hst]⟩

theorem createIdentity_cases (unix : Bool) (d : Disk) :
    ((faults .createIdentity = .works ∧ (unix = false ∨ d.identity = none)) ∧
        createIdentity faults unix d = (.ok (), { d with identity := some [] })) ∨
      ¬ (faults .createIdentity = .works ∧ (unix = false ∨ d.identity = none)) ∧
        (createIdentity faults unix d).2 = d ∧ ∀ a, (createIdentity faults unix d).1 ≠ .ok a := by
  unfold createIdentity
  split
  · next hthere =>
    rw [Bool.and_eq_true, Bool.and_eq_true] at hthere
    obtain ⟨⟨hunix, hsome⟩, -⟩ := hthere
    refine .inr ⟨fun h => ?_, rfl, fun _ => nofun⟩
    rcases h.2 with hf | hnone
    · rw [hunix] at hf
      cases hf
    · rw [hnone] at hsome
      cases hsome
  · next hfree =>
    rcases attempt_cases Step.createIdentity StoreError.io
      (fun d : Disk => { d with identity := some [] }) (fun _ d => d) d with
      ⟨hworks, hrun⟩ | ⟨k, hbroke, hst, hno⟩
    · refine .inl ⟨⟨hworks, ?_⟩, hrun⟩
      rw [hworks, decide_eq_true rfl, Bool.and_true] at hfree
      cases hu : unix with
      | false => exact .inl rfl
      | true =>
        rw [hu, Bool.true_and] at hfree
        exact .inr (Option.not_isSome_iff_eq_none.mp hfree)
    · exact .inr ⟨fun h => hbroke.not_works h.1, hst, hno⟩

/-- From the removal on. -/
theorem createAndWrite_spec (unix : Bool) (new : Bytes) (d d' : Disk)
    (hrun : d' = ((createIdentity faults unix >>= fun _ =>
      attempt faults .writeIdentity StoreError.io (fun d : Disk => { d with identity := some new })
        fun k d => match k with
          | some n => { d with identity := some (new.take n) }
          | none => d) d).2) :
    d'.manifest = d.manifest ∧
      ((faults .createIdentity = .works ∧ (unix = false ∨ d.identity = none)) ∧
          (faults .writeIdentity = .works ∧ d'.identity = some new ∨
            ∃ k, (faults .writeIdentity).Broke k ∧ d'.identity = some (new.take (k.getD 0))) ∨
        ¬ (faults .createIdentity = .works ∧ (unix = false ∨ d.identity = none)) ∧
          d'.identity = d.identity) := by
  rcases createIdentity_cases unix d with ⟨hcreated, hc⟩ | ⟨hnot, hst, hno⟩
  · rw [bind_of_ok _ hc] at hrun
    rcases attempt_cases Step.writeIdentity StoreError.io
      (fun d : Disk => { d with identity := some new })
      (fun k d => match k with
        | some n => { d with identity := some (new.take n) }
        | none => d) { d with identity := some [] } with ⟨hworks, hw⟩ | ⟨k, hbroke, hst, -⟩
    · rw [hw] at hrun
      rw [hrun]
      exact ⟨rfl, .inl ⟨hcreated, .inl ⟨hworks, rfl⟩⟩⟩
    · rw [hst] at hrun
      rw [hrun]
      cases k with
      | none => exact ⟨rfl, .inl ⟨hcreated, .inr ⟨none, hbroke, rfl⟩⟩⟩
      | some n => exact ⟨rfl, .inl ⟨hcreated, .inr ⟨some n, hbroke, rfl⟩⟩⟩
  · obtain ⟨hsame, -⟩ := bind_of_not_ok _ hno
    rw [hsame, hst] at hrun
    rw [hrun]
    exact ⟨rfl, .inr ⟨hnot, rfl⟩⟩

/-- What the steps after the rename leave of `identity.key`. -/
theorem installIdentity_spec (unix : Bool) (new : Bytes) (d : Disk) :
    (installIdentity faults unix new d).2.manifest = d.manifest ∧
      (Created faults unix d.identity ∧
          (faults .writeIdentity = .works ∧
              (installIdentity faults unix new d).2.identity = some new ∨
            ∃ k, (faults .writeIdentity).Broke k ∧
              (installIdentity faults unix new d).2.identity = some (new.take (k.getD 0))) ∨
        ¬ Created faults unix d.identity ∧
          (Removed faults ∧ (installIdentity faults unix new d).2.identity = none ∨
            ¬ Removed faults ∧ (installIdentity faults unix new d).2.identity = d.identity)) := by
  unfold installIdentity Created Removed
  rcases createDirAll_cases .createIdentityDir d with ⟨hdir, hrun⟩ | ⟨hdir, hst, hno⟩
  · rw [bind_of_ok _ hrun]
    unfold writeIdentity
    cases hremove : faults .removeIdentity with
    | works =>
      have hr : removeIdentity faults d = (.ok (), { d with identity := none }) := by
        simp only [removeIdentity, hremove]
      rw [bind_of_ok _ hr]
      obtain ⟨hm, ⟨⟨hc, -⟩, hid⟩ | ⟨hnot, hid⟩⟩ := createAndWrite_spec unix new _ _ rfl
      · exact ⟨hm, .inl ⟨⟨hdir, hc, .inl rfl⟩, hid⟩⟩
      · exact ⟨hm, .inr ⟨fun h => hnot ⟨h.2.1, .inr rfl⟩, .inl ⟨⟨hdir, rfl⟩, hid⟩⟩⟩
    | fails k =>
      have hr : removeIdentity faults d = (.ok (), d) := by
        simp only [removeIdentity, hremove]
      rw [bind_of_ok _ hr]
      obtain ⟨hm, ⟨⟨hc, hfree⟩, hid⟩ | ⟨hnot, hid⟩⟩ := createAndWrite_spec unix new _ _ rfl
      · exact ⟨hm, .inl ⟨⟨hdir, hc, .inr ⟨⟨k, rfl⟩, hfree⟩⟩, hid⟩⟩
      · refine ⟨hm, .inr ⟨fun h => ?_, .inr ⟨fun h => (nomatch h.2), hid⟩⟩⟩
        rcases h.2.2 with hw | ⟨-, hfree⟩
        · cases hw
        · exact hnot ⟨h.2.1, hfree⟩
    | stops k =>
      have hr : removeIdentity faults d = (.stopped, d) := by
        simp only [removeIdentity, hremove]
      have hno : ∀ a, (removeIdentity faults d).1 ≠ .ok a := by
        rw [hr]
        exact fun _ => nofun
      obtain ⟨hsame, -⟩ := bind_of_not_ok _ hno
      rw [hsame, hr]
      refine ⟨rfl, .inr ⟨fun h => ?_, .inr ⟨fun h => (nomatch h.2), rfl⟩⟩⟩
      rcases h.2.2 with hw | ⟨⟨_, hf⟩, -⟩
      · cases hw
      · cases hf
  · obtain ⟨hsame, -⟩ := bind_of_not_ok _ hno
    rw [hsame, hst]
    exact ⟨rfl, .inr ⟨fun h => hdir h.1, .inr ⟨fun h => hdir h.1, rfl⟩⟩⟩

end

/-! ### Whole restores -/

section
variable {K : Type} {P : Prims K} {argon2 : Bytes → Bytes → Option K}
variable {load : Bytes → Option ManifestDb} {faults : Step → Fate}

theorem guard_cases (d : Disk) :
    (GuardPasses load faults d.manifest ∧
        ∃ d', ensureFreshNode load faults d = (.ok (), d') ∧ Untouched load d d') ∨
      ¬ GuardPasses load faults d.manifest ∧ Untouched load d (ensureFreshNode load faults d).2 ∧
        ∀ a, (ensureFreshNode load faults d).1 ≠ .ok a := by
  have hleft := @ensureFreshNode_untouched load faults d
  have hpasses := @ensureFreshNode_passes load faults d
  by_cases hp : GuardPasses load faults d.manifest
  · exact .inl ⟨hp, _, Prod.ext (hpasses.mpr hp) rfl, hleft⟩
  · exact .inr ⟨hp, hleft, fun a ha => hp (hpasses.mp ha)⟩

/-- The manifest is not replaced unless the guard passes, a bundle opens and the rename is done. -/
theorem importBundle_untouched {unix : Bool} {passphrase : Text} {blob : Bytes} {d : Disk}
    (h : ¬ (GuardPasses load faults d.manifest ∧ Installs faults ∧
      ∃ c, contents P argon2 blob passphrase = .ok c)) :
    Untouched load d (importBundle load faults P argon2 unix passphrase blob d).2 := by
  unfold importBundle
  rcases guard_cases d with ⟨hp, d₁, hrun, hleft⟩ | ⟨-, hleft, hno⟩
  · rw [bind_of_ok _ hrun]
    cases hc : contents P argon2 blob passphrase with
    | error e =>
      cases e with
      | err e => exact hleft
      | panic => exact hleft
    | ok c =>
      have hok : (ofOutcome (.ok c) : Restore _) d₁ = (.ok c, d₁) := rfl
      rw [bind_of_ok _ hok]
      have hbreaks := installManifest_breaks c.2 d₁ fun hi => h ⟨hp, hi, c, hc⟩
      obtain ⟨hno, hm, hid⟩ := hbreaks
      have hsame := (bind_of_not_ok (fun _ => installIdentity faults unix c.1) hno).1
      change Untouched load d ((installManifest faults c.2 >>= fun _ =>
        installIdentity faults unix c.1) d₁).2
      rw [hsame]
      exact ⟨hm ▸ hleft.manifest, hid.trans hleft.identity⟩
  · rw [(bind_of_not_ok _ hno).1]
    exact hleft

/-- Where it is, the steps on the identity follow. -/
theorem importBundle_installs {unix : Bool} {passphrase : Text} {blob i mb : Bytes} {d : Disk}
    (hp : GuardPasses load faults d.manifest) (hi : Installs faults)
    (hc : contents P argon2 blob passphrase = .ok (i, mb)) :
    ∃ d₁ : Disk, d₁.manifest = .bytes mb ∧ d₁.identity = d.identity ∧
      (importBundle load faults P argon2 unix passphrase blob d).2 =
        (installIdentity faults unix i d₁).2 := by
  unfold importBundle
  rcases guard_cases d with ⟨-, d₁, hrun, hleft⟩ | ⟨hno, -⟩
  · have hok : (ofOutcome (.ok (i, mb)) : Restore _) d₁ = (.ok (i, mb), d₁) := rfl
    rw [bind_of_ok _ hrun, hc, bind_of_ok _ hok]
    dsimp only
    rw [bind_of_ok _ (installManifest_works mb d₁ hi)]
    exact ⟨{ d₁ with manifest := .bytes mb, temp := none }, rfl, hleft.identity, rfl⟩
  · exact absurd hp hno

theorem kept_bytes {f : ManifestFile} {b : Bytes} : Kept load f (.bytes b) ↔ f = .bytes b := by
  constructor
  · rintro (h | ⟨_, _, _, h, _⟩)
    · exact h.symm
    · cases h
  · rintro rfl
    exact .inl rfl

theorem passes_populated {f : ManifestFile} {m : ManifestDb} (hm : f.holds load = some m)
    (hrows : m.db.files ≠ []) : GuardPasses load faults f ↔ GuardErrs load faults f := by
  constructor
  · rintro (h | ⟨-, hfresh⟩)
    · exact h
    · exact absurd (hfresh m hm) hrows
  · exact .inl

/-- A manifest with files stays unless the guard errs and the rest comes as far as the rename: for
both ways of restoring. -/
theorem restores_spare_iff (unix : Bool) (passphrase : Text) (blob snapshot : Bytes) (d : Disk)
    (m : ManifestDb) (hm : d.manifest.holds load = some m) (hrows : m.db.files ≠ []) :
    (Kept load d.manifest (importBundle load faults P argon2 unix passphrase blob d).2.manifest ↔
      ¬ (GuardErrs load faults d.manifest ∧ Installs faults ∧
        ∃ c, contents P argon2 blob passphrase = .ok c ∧ d.manifest ≠ .bytes c.2)) ∧
    (Kept load d.manifest (restoreManifestDb load faults snapshot d).2.manifest ↔
      ¬ (GuardErrs load faults d.manifest ∧ Installs faults ∧ d.manifest ≠ .bytes snapshot)) := by
  rw [← @passes_populated load faults _ _ hm hrows]
  refine ⟨?_, ?_⟩
  · by_cases h : GuardPasses load faults d.manifest ∧ Installs faults ∧
      ∃ c, contents P argon2 blob passphrase = .ok c
    · obtain ⟨hp, hi, ⟨i, mb⟩, hc⟩ := h
      obtain ⟨d₁, hd₁, -, hrun⟩ := @importBundle_installs K P argon2 load faults unix passphrase blob i mb d hp hi hc
      rw [hrun, (installIdentity_spec unix i d₁).1, hd₁, kept_bytes]
      constructor
      · rintro heq ⟨-, -, c, hc', hne⟩
        rw [hc] at hc'
        cases hc'
        exact hne heq
      · intro hnot
        by_contra hne
        exact hnot ⟨hp, hi, (i, mb), hc, hne⟩
    · refine ⟨fun _ ⟨hp, hi, c, hc, _⟩ => h ⟨hp, hi, c, hc⟩, fun _ => ?_⟩
      exact (importBundle_untouched h).manifest
  · unfold restoreManifestDb
    rcases @guard_cases load faults d with ⟨hp, d₁, hrun, hleft⟩ | ⟨hno, hleft, hnok⟩
    · rw [bind_of_ok _ hrun]
      by_cases hi : Installs faults
      · rw [installManifest_works snapshot d₁ hi, kept_bytes]
        exact ⟨fun heq hh => hh.2.2 heq, fun hnot => by_contra fun hne => hnot ⟨hp, hi, hne⟩⟩
      · rw [(installManifest_breaks snapshot d₁ hi).2.1]
        exact ⟨fun _ hh => hi hh.2.1, fun _ => hleft.manifest⟩
    · rw [(bind_of_not_ok _ hnok).1]
      exact ⟨fun _ hh => hno hh.1, fun _ => hleft.manifest⟩

/-- The pair is the one before, or the restored one. -/
def AllOrNothing (load : Bytes → Option ManifestDb) (d : Disk) (i mb : Bytes) (d' : Disk) : Prop :=
  Untouched load d d' ∨ d'.manifest = .bytes mb ∧ d'.identity = some i

/-- An import that is broken off leaves one of the two pairs exactly where it did not reach the
rename, or the identity was written in full, or what is there of it happens to be one of the two. -/
theorem import_allOrNothing_iff (unix : Bool) (passphrase : Text) (blob i mb : Bytes) (d : Disk)
    (hc : contents P argon2 blob passphrase = .ok (i, mb)) :
    AllOrNothing load d i mb (importBundle load faults P argon2 unix passphrase blob d).2 ↔
      ¬ (GuardPasses load faults d.manifest ∧ Installs faults) ∨
      Whole faults unix d.identity i ∨
      IdentityStays faults unix d.identity ∧ (d.identity = some i ∨ d.manifest = .bytes mb) ∨
      ∃ n, CutAt faults unix d.identity n ∧ d.manifest = .bytes mb ∧ d.identity = some (i.take n) := by
  by_cases h : GuardPasses load faults d.manifest ∧ Installs faults
  · obtain ⟨hp, hi⟩ := h
    obtain ⟨d₁, hd₁, hid₁, hrun⟩ := @importBundle_installs K P argon2 load faults unix passphrase blob i mb d hp hi hc
    obtain ⟨hm, hid⟩ := @installIdentity_spec faults unix i d₁
    rw [← hrun] at hm hid
    rw [hid₁] at hid
    set d' := (importBundle load faults P argon2 unix passphrase blob d).2
    have hall : AllOrNothing load d i mb d' ↔
        (d.manifest = .bytes mb ∧ d'.identity = d.identity) ∨ d'.identity = some i := by
      constructor
      · rintro (⟨hk, hs⟩ | ⟨-, hs⟩)
        · rw [hm, hd₁, kept_bytes] at hk
          exact .inl ⟨hk, hs⟩
        · exact .inr hs
      · rintro (⟨hk, hs⟩ | hs)
        · refine .inl ⟨?_, hs⟩
          rw [hm, hd₁, kept_bytes]
          exact hk
        · exact .inr ⟨hm.trans hd₁, hs⟩
    rw [hall]
    have hreached : ¬ ¬ (GuardPasses load faults d.manifest ∧ Installs faults) := not_not.mpr ⟨hp, hi⟩
    rcases hid with ⟨hcreated, ⟨hworks, hid⟩ | ⟨k, hbroke, hid⟩⟩ | ⟨hnot, ⟨hremoved, hid⟩ | ⟨hkept, hid⟩⟩
    · -- all of it was written
      refine ⟨fun _ => .inr (.inl ⟨hcreated, fun k hk => absurd hworks hk.not_works⟩), fun _ => .inr hid⟩
    · -- only a part
      rw [hid]
      constructor
      · rintro (⟨hk, hs⟩ | hs)
        · exact .inr (.inr (.inr ⟨k.getD 0, ⟨hcreated, k, hbroke, rfl⟩, hk, hs.symm⟩))
        · refine .inr (.inl ⟨hcreated, fun k' hk' => ?_⟩)
          rw [← hbroke.unique hk']
          exact (List.take_eq_self_iff _).mp (Option.some.inj hs)
      · rintro (h | ⟨-, hw⟩ | ⟨⟨hno, -⟩, -⟩ | ⟨n, ⟨-, k', hk', rfl⟩, hk, hs⟩)
        · exact absurd h hreached
        · exact .inr (congrArg some (List.take_of_length_le (hw k hbroke)))
        · exact absurd hcreated hno
        · rw [hbroke.unique hk']
          exact .inl ⟨hk, hs.symm⟩
    · -- the old one is gone and there is no new one
      rw [hid]
      constructor
      · rintro (⟨hk, hs⟩ | hs)
        · exact .inr (.inr (.inl ⟨⟨hnot, .inr hs.symm⟩, .inr hk⟩))
        · cases hs
      · rintro (h | ⟨hc, -⟩ | ⟨⟨-, hno | hold⟩, hpair⟩ | ⟨n, ⟨hc, -⟩, -⟩)
        · exact absurd h hreached
        · exact absurd hc hnot
        · exact absurd hremoved hno
        · rcases hpair with hpair | hpair
          · rw [hold] at hpair
            cases hpair
          · exact .inl ⟨hpair, hold.symm⟩
        · exact absurd hc hnot
    · -- the old one is still there
      rw [hid]
      constructor
      · rintro (⟨hk, -⟩ | hs)
        · exact .inr (.inr (.inl ⟨⟨hnot, .inl hkept⟩, .inr hk⟩))
        · exact .inr (.inr (.inl ⟨⟨hnot, .inl hkept⟩, .inl hs⟩))
      · rintro (h | ⟨hc, -⟩ | ⟨-, hs | hk⟩ | ⟨n, ⟨hc, -⟩, -⟩)
        · exact absurd h hreached
        · exact absurd hc hnot
        · exact .inr hs
        · exact .inl ⟨hk, rfl⟩
        · exact absurd hc hnot
  · refine ⟨fun _ => .inl h, fun _ => .inl (importBundle_untouched ?_)⟩
    exact fun hh => h ⟨hh.1, hh.2.1⟩

end

/-! ### Restores on a node with one file -/

def notes : FileRec where
  fileId := "f1".toList
  userId := "alice".toList
  path := "notes.txt".toList
  size := 5
  storedBytes := 5
  chunkCount := 1
  createdAt := 0
  retiredPath := none
  deletedAt := none
  supersededAt := none
  lineage := none
  keyScheme := 2
  contentHash := none
  packId := none
  packOffset := none
  packLen := none

def noteManifest : ManifestDb where
  tables := true
  columns := ADDED_COLUMNS
  retiredIndexes := true
  db := {
    files := [notes]
    chunks := []
    shards := []
    folders := []
    constraints := by constructor <;> simp }

/-- A node under another key cannot read what it is given. -/
def unreadable (_ : Bytes) : Option ManifestDb := none

def oldIdentity : Bytes := List.replicate 32 1
def newIdentity : Bytes := List.replicate 32 2
def noteNode : Disk := ⟨.database noteManifest, none, some oldIdentity⟩
def freshNode : Disk := ⟨.absent, none, some oldIdentity⟩

def smooth (_ : Step) : Fate := .works

/-- Every step works but one. -/
def allBut (step : Step) (fate : Fate) (s : Step) : Fate := if s = step then fate else .works

def argon2Sample (passphrase salt : Bytes) : Option Sample.Key :=
  some (.derived salt .node passphrase)

def passphrase : Text := "correct horse battery".toList

/-- An exported bundle with a manifest of three bytes. -/
def bundle : Bytes :=
  MAGIC ++ [VERSION] ++ List.replicate 16 9 ++ encodePlaintext newIdentity [7, 8, 9] ++
    List.replicate 16 0

theorem notes_spared :
    Kept unreadable noteNode.manifest (importBundle unreadable smooth (Sample.sample []) argon2Sample true
      passphrase bundle noteNode).2.manifest ∧
    Kept unreadable noteNode.manifest
      (restoreManifestDb unreadable smooth [7, 8, 9] noteNode).2.manifest := by
  have hguard : ¬ GuardErrs unreadable smooth noteNode.manifest := by decide +kernel
  obtain ⟨himport, hrestore⟩ := @restores_spare_iff _ (Sample.sample []) argon2Sample unreadable smooth true
    passphrase bundle [7, 8, 9] noteNode noteManifest rfl (List.cons_ne_nil _ _)
  exact ⟨himport.mpr fun h => hguard h.1, hrestore.mpr fun h => hguard h.1⟩

/-- The manifest is locked while the guard opens it: both restores replace it. -/
theorem lockedNotes_clobbered :
    ¬ (∀ (faults : Step → Fate) (d : Disk) (m : ManifestDb), d.manifest.holds unreadable = some m →
      m.db.files ≠ [] →
      Kept unreadable d.manifest (importBundle unreadable faults (Sample.sample []) argon2Sample true
        passphrase bundle d).2.manifest) ∧
    ¬ ∀ (faults : Step → Fate) (d : Disk) (m : ManifestDb), d.manifest.holds unreadable = some m →
      m.db.files ≠ [] →
      Kept unreadable d.manifest (restoreManifestDb unreadable faults [7, 8, 9] d).2.manifest := by
  have himport : (importBundle unreadable (allBut .schema (.fails none)) (Sample.sample []) argon2Sample
      true passphrase bundle noteNode).2.manifest = .bytes [7, 8, 9] := by rfl
  have hrestore : (restoreManifestDb unreadable (allBut .schema (.fails none)) [7, 8, 9]
      noteNode).2.manifest = .bytes [7, 8, 9] := by rfl
  refine ⟨fun hall => ?_, fun hall => ?_⟩
  · have h := hall (allBut .schema (.fails none)) noteNode noteManifest rfl (List.cons_ne_nil _ _)
    rw [himport, kept_bytes] at h
    cases h
  · have h := hall (allBut .schema (.fails none)) noteNode noteManifest rfl (List.cons_ne_nil _ _)
    rw [hrestore, kept_bytes] at h
    cases h

/-- The process ends before the rename: nothing is restored. -/
theorem unrenamed_nothing :
    AllOrNothing unreadable freshNode newIdentity [7, 8, 9]
      (importBundle unreadable (allBut .rename (.stops none)) (Sample.sample []) argon2Sample true
        passphrase bundle freshNode).2 :=
  (import_allOrNothing_iff true passphrase bundle newIdentity [7, 8, 9] freshNode
    (by decide +kernel)).mpr (.inl fun h => absurd h.2 (by decide +kernel))

/-- The process ends between the removal of the old identity and the creation of the new one. -/
theorem removed_halfway :
    (importBundle unreadable (allBut .createIdentity (.stops none)) (Sample.sample []) argon2Sample true
      passphrase bundle freshNode).2.identity = none ∧
    ¬ ∀ (faults : Step → Fate) (d : Disk), AllOrNothing unreadable d newIdentity [7, 8, 9]
      (importBundle unreadable faults (Sample.sample []) argon2Sample true passphrase bundle d).2 := by
  have hgone : (importBundle unreadable (allBut .createIdentity (.stops none)) (Sample.sample [])
      argon2Sample true passphrase bundle freshNode).2.identity = none := by rfl
  refine ⟨hgone, fun hall => ?_⟩
  rcases hall (allBut .createIdentity (.stops none)) freshNode with h | ⟨-, h⟩
  · exact absurd (hgone.symm.trans h.identity) (Option.some_ne_none _).symm
  · rw [hgone] at h
    cases h

end P2pnas.Store.Import
