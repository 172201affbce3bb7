import P2pnas.Lib.FileTree
import P2pnas.Lib.Paths
import P2pnas.Store.Session

/-!
# The shard store on files

`ChunkStore` (`chunkstore.rs`) keeps every shard in a file of its own, fanned out by the first two
characters of the fragment id. Its calls are system calls on a directory tree, a write being two of
them: the fan-out directory and the file. The sessions see the store as a map from fragment ids to
bytes; here that map is read off the tree, and the calls on the tree are the calls on the map.
-/

namespace P2pnas.Store.ShardFiles
open P2pnas.Lib.Frames P2pnas.Lib.Strings P2pnas.Lib.Paths P2pnas.Lib.FileTree P2pnas.Core.Base
  P2pnas.Store.Manifest P2pnas.Store.Session

/-! ### Paths -/

/-- `Path::join`: an absolute path replaces the base. -/
def join (base comp : Text) : Text :=
  if comp.head? = some '/' then comp
  else if base = [] ∨ base.getLast? = some '/' then base ++ comp
  else base ++ '/' :: comp

def walk (names : List Text) (name : Text) : List Text :=
  if name = [] ∨ name = ['.'] then names
  else if name = ['.', '.'] then names.dropLast
  else names ++ [name]

/-- Where the system arrives on an absolute path, no name being a symbolic link. -/
def resolve (path : Text) : List Text := (splitOn '/' path).foldl walk []

/-- `ChunkStore::path` (`chunkstore.rs:38-45`). -/
def path (root fragmentId : Text) : Outcome StoreError Text :=
  if isValidFragmentId fragmentId then .ok (join (join root (fragmentId.take 2)) fragmentId)
  else fail .invalidFragmentId

/-! ### System calls -/

structure Disk where
  tree : Tree Text Bytes
  script : List Event

def Fs (α : Type) := Disk → Outcome StoreError α × Disk

/-- One system call under the script; `spoil` is what a failure leaves of the tree. -/
def io {α : Type} (spoil : Option ℕ → Tree Text Bytes → Tree Text Bytes)
    (act : Tree Text Bytes → Except Refusal α × Tree Text Bytes) (d : Disk) : Except Refusal α × Disk :=
  match d.script with
  | [] => ((act d.tree).1, ⟨(act d.tree).2, []⟩)
  | .works :: rest => ((act d.tree).1, ⟨(act d.tree).2, rest⟩)
  | .fails k :: rest => (.error .other, ⟨spoil k d.tree, rest⟩)

/-- `std::fs::create_dir_all`; stopped half-way it leaves the upper directories. -/
def createDirAll (dir : List Text) : Disk → Except Refusal Unit × Disk :=
  io (fun k t => (makeDirs t [] (dir.take (k.getD 0))).2) fun t =>
    (if (makeDirs t [] dir).1 then .ok () else .error .other, (makeDirs t [] dir).2)

/-- `std::fs::write`; stopped after the truncation it leaves a part of the bytes. -/
def fsWrite (file : List Text) (data : Bytes) : Disk → Except Refusal Unit × Disk :=
  io (fun k t => match k with
      | none => t
      | some n => (writeFile t file (data.take n)).getD t) fun t =>
    match writeFile t file data with
    | some t' => (.ok (), t')
    | none => (.error .other, t)

/-- `std::fs::read`. -/
def fsRead (file : List Text) : Disk → Except Refusal Bytes × Disk :=
  io (fun _ t => t) fun t => (readFile t file, t)

/-- `std::fs::remove_file`. -/
def fsRemove (file : List Text) : Disk → Except Refusal Unit × Disk :=
  io (fun _ t => t) fun t =>
    match removeFile t file with
    | .ok t' => (.ok (), t')
    | .error e => (.error e, t)

/-- `Path::exists`: a path that cannot be looked at does not exist. -/
def fsExists (file : List Text) (d : Disk) : Bool × Disk :=
  match io (fun _ t => t) (fun t => (.ok (t file).isSome, t)) d with
  | (.ok there, d') => (there, d')
  | (.error _, d') => (false, d')

/-! ### `ChunkStore` -/

/-- `ChunkStore::write` (`chunkstore.rs:47-54`); the parent of the file is its fan-out directory. -/
def write (root fragmentId : Text) (data : Bytes) : Fs Unit := fun d =>
  match path root fragmentId with
  | .error e => (.error e, d)
  | .ok p =>
    match createDirAll (resolve p).dropLast d with
    | (.error _, d') => (fail .io, d')
    | (.ok (), d') =>
      match fsWrite (resolve p) data d' with
      | (.error _, d'') => (fail .io, d'')
      | (.ok (), d'') => (.ok (), d'')

/-- `ChunkStore::read` (`chunkstore.rs:56-64`). -/
def read (root fragmentId : Text) : Fs Bytes := fun d =>
  match path root fragmentId with
  | .error e => (.error e, d)
  | .ok p =>
    match fsRead (resolve p) d with
    | (.ok content, d') => (.ok content, d')
    | (.error .notFound, d') => (fail .notFound, d')
    | (.error .other, d') => (fail .io, d')

/-- `ChunkStore::delete` (`chunkstore.rs:66-72`). -/
def delete (root fragmentId : Text) : Fs Unit := fun d =>
  match path root fragmentId with
  | .error e => (.error e, d)
  | .ok p =>
    match fsRemove (resolve p) d with
    | (.ok (), d') => (.ok (), d')
    | (.error .notFound, d') => (.ok (), d')
    | (.error .other, d') => (fail .io, d')

/-- `ChunkStore::exists` (`chunkstore.rs:74-81`). -/
def existsShard (root fragmentId : Text) : Fs Bool := fun d =>
  match path root fragmentId with
  | .error _ => (.ok false, d)
  | .ok p => (.ok (fsExists (resolve p) d).1, (fsExists (resolve p) d).2)

/-! ### The same calls on the map -/

/-- `ChunkStore::delete` with its answer; `storeDelete` is this call with the answer dropped. -/
def storeDrop (frag : Text) : Svc Unit :=
  if isValidFragmentId frag then
    effect .io (fun _ w => w) fun w => (.ok (), { w with store := w.store.set frag none })
  else throwErr .invalidFragmentId

def storeExists (frag : Text) : Svc Bool := fun w =>
  if isValidFragmentId frag then
    match w.script with
    | .fails _ :: rest => (.ok false, { w with script := rest })
    | _ => (.ok (w.store frag).isSome, { w with script := w.script.tail })
  else (.ok false, w)

theorem storeDelete_eq (frag : Text) (w : World) : storeDelete frag w = (.ok (), (storeDrop frag w).2) := by
  unfold storeDelete storeDrop
  split
  · unfold effect
    cases hs : w.script with
    | nil =>
      simp only [List.tail_nil]
      rw [← hs]
    | cons e rest => cases e <;> rfl
  · rfl

/-! ### The faults of a call

A write on disk is two system calls and one on the map: a fault at the directory is a write that
leaves nothing. -/

/-- The events a write on the map meets where the disk has the script `s`, and the script left. -/
def metByWrite (frag : Text) (s : List Event) : List Event × List Event :=
  if isValidFragmentId frag then
    match s.headD .works with
    | .fails _ => ([.fails none], s.tail)
    | .works => ([s.tail.headD .works], s.tail.tail)
  else ([], s)

/-- The same for a call of one system call. -/
def metByOne (frag : Text) (s : List Event) : List Event × List Event :=
  if isValidFragmentId frag then ([s.headD .works], s.tail) else ([], s)

/-! ### Where a shard lies -/

def shardNames (base : List Text) (frag : Text) : List Text := base ++ [frag.take 2, frag]

/-- The shards that are on disk below `base`. -/
def held (base : List Text) (t : Tree Text Bytes) : ChunkStore := fun frag =>
  if isValidFragmentId frag then
    match t (shardNames base frag) with
    | some (.file content) => some content
    | _ => none
  else none

theorem shardNames_inj {base : List Text} {f g : Text} (h : shardNames base f = shardNames base g) : f = g := by
  have hlast := (List.cons.inj (List.append_cancel_left h)).2
  exact (List.cons.inj hlast).1

theorem walk_name {names : List Text} {s : Text} (hne : s ≠ []) (hdot : '.' ∉ s) : walk names s = names ++ [s] := by
  have h₁ : s ≠ ['.'] := by
    rintro rfl
    exact hdot (by simp)
  have h₂ : s ≠ ['.', '.'] := by
    rintro rfl
    exact hdot (by simp)
  simp [walk, hne, h₁, h₂]

/-- A component that is a plain name goes one level down, however the base is spelt. -/
theorem resolve_join {s : Text} (root : Text) (hne : s ≠ []) (hcut : '/' ∉ s) (hdot : '.' ∉ s) :
    resolve (join root s) = resolve root ++ [s] := by
  have hhead : s.head? ≠ some '/' := by
    intro h
    exact hcut (List.mem_of_head? h)
  unfold join
  rw [if_neg hhead]
  by_cases hroot : root = [] ∨ root.getLast? = some '/'
  · rw [if_pos hroot]
    rcases hroot with rfl | hlast
    · rw [List.nil_append, resolve, splitOn_of_uncut hcut]
      exact walk_name hne hdot
    · obtain ⟨q, rfl⟩ := List.getLast?_eq_some_iff.mp hlast
      have hsplit : splitOn '/' (q ++ ['/'] ++ s) = splitOn '/' q ++ [s] := by
        rw [List.append_assoc, List.singleton_append, splitOn_append, splitOn_of_uncut hcut]
      have hsplit' : splitOn '/' (q ++ ['/']) = splitOn '/' q ++ [[]] := by
        rw [splitOn_append]
        rfl
      rw [resolve, resolve, hsplit, hsplit', List.foldl_append, List.foldl_append]
      simp only [List.foldl_cons, List.foldl_nil]
      rw [walk_name hne hdot]
      simp [walk]
  · rw [if_neg hroot, resolve, splitOn_append, splitOn_of_uncut hcut, List.foldl_append]
    simp only [List.foldl_cons, List.foldl_nil]
    rw [walk_name hne hdot]
    rfl

theorem hex_not_mem {s : Text} (h : s.all isHexDigit = true) {c : Char} (hc : isHexDigit c = false) : c ∉ s := by
  intro hmem
  have hhex := List.all_eq_true.mp h c hmem
  rw [hc] at hhex
  cases hhex

/-- A fragment id that passes the check cannot lead out of the root. -/
theorem path_valid (root : Text) {frag : Text} (hv : isValidFragmentId frag = true) :
    ∃ p, path root frag = .ok p ∧ resolve p = shardNames (resolve root) frag := by
  have hparts := hv
  rw [isValidFragmentId, Bool.and_eq_true, decide_eq_true_eq] at hparts
  obtain ⟨hlen, hhex⟩ := hparts
  have hne : frag ≠ [] := by
    rintro rfl
    simp [byteLen, utf8] at hlen
  have htake : frag.take 2 ≠ [] := by
    simp [List.take_eq_nil_iff, hne]
  have hsub : ∀ c, c ∉ frag → c ∉ frag.take 2 := fun c hc h => hc (List.mem_of_mem_take h)
  have hslash : '/' ∉ frag := hex_not_mem hhex (by decide)
  have hdot : '.' ∉ frag := hex_not_mem hhex (by decide)
  refine ⟨_, if_pos hv, ?_⟩
  rw [resolve_join _ hne hslash hdot, resolve_join root htake (hsub _ hslash) (hsub _ hdot), shardNames,
    List.append_assoc]
  rfl

/-! ### What the store relies on -/

/-- The directories down to the shards are no files, and the shards no directories. -/
structure Sound (base : List Text) (t : Tree Text Bytes) : Prop where
  rooted : Rooted t
  fanOut : ∀ frag q r, isValidFragmentId frag = true → q ++ r = base ++ [frag.take 2] → ∀ b, t q ≠ some (.file b)
  shards : ∀ frag, isValidFragmentId frag = true → t (shardNames base frag) ≠ some .dir

/-- What a call may do elsewhere: make missing directories on the way to a shard. -/
def Confined (base : List Text) (t t' : Tree Text Bytes) : Prop := ∀ p,
  t' p = t p ∨ (∃ frag, isValidFragmentId frag = true ∧ p = shardNames base frag) ∨
    t p = none ∧ t' p = some .dir ∧ ∃ frag r, isValidFragmentId frag = true ∧ p ++ r = base ++ [frag.take 2]

section
variable {base : List Text} {t t' : Tree Text Bytes} {frag : Text}

theorem Confined.refl (base : List Text) (t : Tree Text Bytes) : Confined base t t := fun _ => .inl rfl

theorem Confined.trans {t'' : Tree Text Bytes} (h : Confined base t t') (h' : Confined base t' t'') :
    Confined base t t'' := by
  intro p
  rcases h' p with heq | hshard | ⟨hno, hdir, hway⟩
  · rcases h p with heq' | hshard | ⟨hno, hdir, hway⟩
    · exact .inl (heq.trans heq')
    · exact .inr (.inl hshard)
    · exact .inr (.inr ⟨hno, heq.trans hdir, hway⟩)
  · exact .inr (.inl hshard)
  · rcases h p with heq' | hshard | ⟨-, hdir', -⟩
    · exact .inr (.inr ⟨heq'.symm.trans hno, hdir, hway⟩)
    · exact .inr (.inl hshard)
    · rw [hdir'] at hno
      cases hno

/-- The way to one shard is no other shard: it is shorter. -/
theorem way_ne_shard {q r : List Text} {g : Text} (h : q ++ r = base ++ [frag.take 2]) : q ≠ shardNames base g := by
  rintro rfl
  have hlen := congrArg List.length h
  simp [shardNames] at hlen

theorem held_congr (h : ∀ g, isValidFragmentId g = true → t' (shardNames base g) = t (shardNames base g)) :
    held base t' = held base t := by
  funext g
  unfold held
  by_cases hg : isValidFragmentId g = true
  · rw [if_pos hg, if_pos hg, h g hg]
  · rw [if_neg hg, if_neg hg]

theorem held_of_file {content : Bytes} (hv : isValidFragmentId frag = true)
    (h : t (shardNames base frag) = some (.file content)) : held base t frag = some content := by
  rw [held, if_pos hv, h]

/-- Without a file the shard is not there at all. -/
theorem Sound.held_none (h : Sound base t) (hv : isValidFragmentId frag = true)
    (hno : ∀ b, t (shardNames base frag) ≠ some (.file b)) :
    held base t frag = none ∧ t (shardNames base frag) = none := by
  cases hn : t (shardNames base frag) with
  | none => exact ⟨by rw [held, if_pos hv, hn], rfl⟩
  | some node =>
    cases node with
    | dir => exact absurd hn (h.shards frag hv)
    | file b => exact absurd hn (hno b)

theorem Sound.open_way (h : Sound base t) (hv : isValidFragmentId frag = true) : blocked t (shardNames base frag) = false := by
  refine blocked_eq_false fun q r hqr hr b => ?_
  have hway : ∃ s, q ++ s = base ++ [frag.take 2] := by
    refine ⟨r.dropLast, ?_⟩
    rw [← List.dropLast_append_of_ne_nil hr, hqr, shardNames]
    simp
  obtain ⟨s, hs⟩ := hway
  exact h.fanOut frag q s hv hs b

/-! ### One system call -/

theorem Sound.dirsMade {rest s : List Text} (h : Sound base t) (hv : isValidFragmentId frag = true)
    (hrest : rest ++ s = base ++ [frag.take 2]) :
    Sound base (makeDirs t [] rest).2 ∧ held base (makeDirs t [] rest).2 = held base t ∧
      Confined base t (makeDirs t [] rest).2 := by
  have hway : ∀ q, (makeDirs t [] rest).2 q = t q ∨
      t q = none ∧ (makeDirs t [] rest).2 q = some .dir ∧ ∃ r, q ++ r = base ++ [frag.take 2] := by
    intro q
    rcases makeDirs_at (t := t) [] rest q with heq | ⟨hno, hdir, r, r', hr, -, hq⟩
    · exact .inl heq
    · rw [List.nil_append] at hq
      exact .inr ⟨hno, hdir, r' ++ s, by rw [← List.append_assoc, hq, hr, hrest]⟩
  have hshard : ∀ g, (makeDirs t [] rest).2 (shardNames base g) = t (shardNames base g) := by
    intro g
    rcases hway (shardNames base g) with heq | ⟨-, -, r, hr⟩
    · exact heq
    · exact absurd rfl (way_ne_shard hr)
  refine ⟨⟨h.rooted.makeDirs h.rooted.top, ?_, ?_⟩, held_congr fun g _ => hshard g, ?_⟩
  · intro g q r hg hqr b hfile
    rcases hway q with heq | ⟨-, hdir, -⟩
    · exact h.fanOut g q r hg hqr b (heq ▸ hfile)
    · rw [hdir] at hfile
      cases hfile
  · intro g hg
    rw [hshard g]
    exact h.shards g hg
  · intro p
    rcases hway p with heq | ⟨hno, hdir, r, hr⟩
    · exact .inl heq
    · exact .inr (.inr ⟨hno, hdir, frag, r, hv, hr⟩)

theorem Sound.set {node : Option (Node Bytes)} (h : Sound base t) (hv : isValidFragmentId frag = true)
    (hnode : node ≠ some .dir) (hrooted : Rooted (t.set (shardNames base frag) node)) :
    Sound base (t.set (shardNames base frag) node) ∧ Confined base t (t.set (shardNames base frag) node) := by
  refine ⟨⟨hrooted, ?_, ?_⟩, ?_⟩
  · intro g q r hg hqr b
    rw [Tree.set_other t _ (way_ne_shard hqr)]
    exact h.fanOut g q r hg hqr b
  · intro g hg
    by_cases hgf : shardNames base g = shardNames base frag
    · rw [hgf, Tree.set_same]
      exact hnode
    · rw [Tree.set_other t _ hgf]
      exact h.shards g hg
  · intro p
    by_cases hp : p = shardNames base frag
    · exact .inr (.inl ⟨frag, hv, hp⟩)
    · exact .inl (Tree.set_other t _ hp)

theorem held_set (hv : isValidFragmentId frag = true) (content : Option Bytes) :
    held base (t.set (shardNames base frag) (content.map Node.file)) = (held base t).set frag content := by
  funext g
  by_cases hg : g = frag
  · subst hg
    rw [ChunkStore.set_same, held, if_pos hv, Tree.set_same]
    cases content <;> rfl
  · rw [ChunkStore.set_other _ _ hg]
    unfold held
    rw [Tree.set_other t _ fun heq => hg (shardNames_inj heq)]

theorem Sound.fileWritten (data : Bytes) (h : Sound base t) (hv : isValidFragmentId frag = true)
    (hdir : t (base ++ [frag.take 2]) = some .dir) :
    ∃ t', writeFile t (shardNames base frag) data = some t' ∧ Sound base t' ∧
      held base t' = (held base t).set frag (some data) ∧ Confined base t t' := by
  have hlast : (shardNames base frag).dropLast = base ++ [frag.take 2] := by simp [shardNames]
  have hsplit : shardNames base frag = (base ++ [frag.take 2]) ++ [frag] := by simp [shardNames]
  have hwrite : writeFile t (shardNames base frag) data =
      some (t.set (shardNames base frag) (some (.file data))) := by
    cases hn : t (shardNames base frag) with
    | none => simp [writeFile, hlast, hdir, hn]
    | some node =>
      cases node with
      | dir => exact absurd hn (h.shards frag hv)
      | file b => simp [writeFile, hlast, hdir, hn]
  have hrooted : Rooted (t.set (shardNames base frag) (some (.file data))) := by
    rw [hsplit]
    refine h.rooted.set hdir (.inr ?_)
    rw [← hsplit]
    exact h.shards frag hv
  obtain ⟨hsound, hconf⟩ := h.set hv (by simp) hrooted
  exact ⟨_, hwrite, hsound, held_set hv (some data), hconf⟩

end

/-! ### One call -/

/-- On a sound tree the call on the files is the call on the map, for the events that `met` makes of
the script of the disk. -/
def Agrees {α : Type} (base : List Text) (x : Fs α) (y : Svc α)
    (met : List Event → List Event × List Event) : Prop := ∀ d, Sound base d.tree →
  Sound base (x d).2.tree ∧ Confined base d.tree (x d).2.tree ∧ (x d).2.script = (met d.script).2 ∧
    ∀ db more, y ⟨db, held base d.tree, (met d.script).1 ++ more⟩ =
      ((x d).1, ⟨db, held base (x d).2.tree, more⟩)

section
variable {base : List Text} {frag root : Text}

theorem io_cases {α : Type} (spoil : Option ℕ → Tree Text Bytes → Tree Text Bytes)
    (act : Tree Text Bytes → Except Refusal α × Tree Text Bytes) (d : Disk) :
    (d.script.headD .works = .works ∧ io spoil act d = ((act d.tree).1, ⟨(act d.tree).2, d.script.tail⟩)) ∨
      ∃ k, d.script.headD .works = .fails k ∧
        io spoil act d = (.error .other, ⟨spoil k d.tree, d.script.tail⟩) := by
  unfold io
  cases d.script with
  | nil => exact .inl ⟨rfl, rfl⟩
  | cons e rest =>
    cases e with
    | works => exact .inl ⟨rfl, rfl⟩
    | fails k => exact .inr ⟨k, rfl, rfl⟩

theorem createDirAll_cases (hv : isValidFragmentId frag = true) {d : Disk} (h : Sound base d.tree) :
    ∃ d', d'.script = d.script.tail ∧ Sound base d'.tree ∧ held base d'.tree = held base d.tree ∧
      Confined base d.tree d'.tree ∧
      ((∃ k e, d.script.headD .works = .fails k ∧ createDirAll (base ++ [frag.take 2]) d = (.error e, d')) ∨
        d.script.headD .works = .works ∧ createDirAll (base ++ [frag.take 2]) d = (.ok (), d') ∧
          d'.tree (base ++ [frag.take 2]) = some .dir) := by
  unfold createDirAll
  rcases io_cases (fun k t => (makeDirs t [] ((base ++ [frag.take 2]).take (k.getD 0))).2) (fun t =>
    ((if (makeDirs t [] (base ++ [frag.take 2])).1 then .ok () else .error .other : Except Refusal Unit),
      (makeDirs t [] (base ++ [frag.take 2])).2)) d with ⟨hworks, hio⟩ | ⟨k, hfails, hio⟩
  · obtain ⟨hsound, hheld, hconf⟩ := h.dirsMade hv (List.append_nil (base ++ [frag.take 2]))
    have hok : (makeDirs d.tree [] (base ++ [frag.take 2])).1 = true :=
      makeDirs_ok fun r s hrs _ => h.fanOut frag r s hv hrs
    refine ⟨⟨_, d.script.tail⟩, rfl, hsound, hheld, hconf, .inr ⟨hworks, ?_, ?_⟩⟩
    · rw [hio, hok]
      rfl
    · exact makeDirs_dir h.rooted.top hok
  · obtain ⟨hsound, hheld, hconf⟩ := h.dirsMade hv (List.take_append_drop (k.getD 0) (base ++ [frag.take 2]))
    exact ⟨⟨_, d.script.tail⟩, rfl, hsound, hheld, hconf, .inl ⟨k, .other, hfails, hio⟩⟩

/-- What a write that stopped after `k` leaves in the map. -/
def stopped (st : ChunkStore) (frag : Text) (data : Bytes) : Option ℕ → ChunkStore
  | none => st
  | some n => st.set frag (some (data.take n))

theorem storeWrite_stopped (hv : isValidFragmentId frag = true) (data : Bytes) (db : Db) (st : ChunkStore)
    (k : Option ℕ) (more : List Event) : storeWrite frag data ⟨db, st, .fails k :: more⟩ =
      (fail .io, ⟨db, stopped st frag data k, more⟩) := by
  rw [storeWrite, if_pos hv]
  cases k <;> rfl

theorem storeWrite_works (hv : isValidFragmentId frag = true) (data : Bytes) (db : Db) (st : ChunkStore)
    (more : List Event) : storeWrite frag data ⟨db, st, .works :: more⟩ =
      (.ok (), ⟨db, st.set frag (some data), more⟩) := by
  rw [storeWrite, if_pos hv]
  rfl

theorem fsWrite_cases (hv : isValidFragmentId frag = true) (data : Bytes) {d : Disk} (h : Sound base d.tree)
    (hdir : d.tree (base ++ [frag.take 2]) = some .dir) :
    ∃ d', d'.script = d.script.tail ∧ Sound base d'.tree ∧ Confined base d.tree d'.tree ∧
      (d.script.headD .works = .works ∧ fsWrite (shardNames base frag) data d = (.ok (), d') ∧
          held base d'.tree = (held base d.tree).set frag (some data) ∨
        ∃ e k, d.script.headD .works = .fails k ∧ fsWrite (shardNames base frag) data d = (.error e, d') ∧
          held base d'.tree = stopped (held base d.tree) frag data k) := by
  unfold fsWrite
  rcases io_cases (fun k t => match k with
      | none => t
      | some n => (writeFile t (shardNames base frag) (data.take n)).getD t) (fun t =>
      match writeFile t (shardNames base frag) data with
      | some t' => ((.ok () : Except Refusal Unit), t')
      | none => (.error .other, t)) d with ⟨hworks, hio⟩ | ⟨k, hfails, hio⟩
  · obtain ⟨t', hwrite, hsound, hheld, hconf⟩ := h.fileWritten data hv hdir
    rw [hwrite] at hio
    exact ⟨⟨t', d.script.tail⟩, rfl, hsound, hconf, .inl ⟨hworks, hio, hheld⟩⟩
  · cases k with
    | none => exact ⟨⟨d.tree, d.script.tail⟩, rfl, h, .refl _ _, .inr ⟨.other, none, hfails, hio, rfl⟩⟩
    | some n =>
      obtain ⟨t', hwrite, hsound, hheld, hconf⟩ := h.fileWritten (data.take n) hv hdir
      simp only [hwrite, Option.getD_some] at hio
      exact ⟨⟨t', d.script.tail⟩, rfl, hsound, hconf, .inr ⟨.other, some n, hfails, hio, hheld⟩⟩

theorem path_error (hv : ¬ isValidFragmentId frag = true) : path root frag = fail .invalidFragmentId := if_neg hv

theorem agrees_write (root frag : Text) (data : Bytes) :
    Agrees (resolve root) (write root frag data) (storeWrite frag data) (metByWrite frag) := by
  intro d h
  by_cases hv : isValidFragmentId frag = true
  · obtain ⟨p, hp, hres⟩ := path_valid root hv
    have hparent : (shardNames (resolve root) frag).dropLast = resolve root ++ [frag.take 2] := by
      simp [shardNames]
    simp only [write, hp, hres, hparent, metByWrite, if_pos hv]
    obtain ⟨d₁, hscript, hsound, hheld, hconf, hrun⟩ := createDirAll_cases hv h
    rcases hrun with ⟨k, e, hfails, hrun⟩ | ⟨hworks, hrun, hdir⟩
    · simp only [hrun, hfails]
      refine ⟨hsound, hconf, hscript, fun db more => ?_⟩
      simp only [hheld]
      exact storeWrite_stopped hv data db _ none more
    · simp only [hrun, hworks, ← hscript]
      obtain ⟨d₂, hscript', hsound', hconf', hrun'⟩ := fsWrite_cases hv data hsound hdir
      rcases hrun' with ⟨hworks', hrun', hheld'⟩ | ⟨e, k, hfails', hrun', hheld'⟩
      · simp only [hrun', hworks']
        refine ⟨hsound', hconf.trans hconf', hscript', fun db more => ?_⟩
        simp only [hheld', hheld]
        exact storeWrite_works hv data db _ more
      · simp only [hrun', hfails']
        refine ⟨hsound', hconf.trans hconf', hscript', fun db more => ?_⟩
        simp only [hheld', hheld]
        exact storeWrite_stopped hv data db _ k more
  · simp only [write, path_error hv, storeWrite, metByWrite, if_neg hv]
    exact ⟨h, .refl _ _, rfl, fun _ _ => rfl⟩

theorem agrees_read (root frag : Text) :
    Agrees (resolve root) (read root frag) (storeRead frag) (metByOne frag) := by
  intro d h
  by_cases hv : isValidFragmentId frag = true
  · obtain ⟨p, hp, hres⟩ := path_valid root hv
    simp only [read, hp, hres, fsRead, storeRead, metByOne, if_pos hv]
    rcases io_cases (fun _ t => t) (fun t => (readFile t (shardNames (resolve root) frag), t)) d
      with ⟨hworks, hio⟩ | ⟨k, hfails, hio⟩
    · rw [hio, hworks]
      cases hn : d.tree (shardNames (resolve root) frag) with
      | none =>
        have hnone : held (resolve root) d.tree frag = none := (h.held_none hv (by simp [hn])).1
        simp only [readFile, hn, h.open_way hv, Bool.false_eq_true, if_false]
        exact ⟨h, .refl _ _, trivial, fun db more => by simp [effect, hnone, orFail]⟩
      | some node =>
        cases node with
        | dir => exact absurd hn (h.shards frag hv)
        | file b =>
          simp only [readFile, hn]
          have hb := held_of_file hv hn
          exact ⟨h, .refl _ _, trivial, fun db more => by simp [effect, hb]⟩
    · rw [hio, hfails]
      exact ⟨h, .refl _ _, rfl, fun _ _ => rfl⟩
  · simp only [read, path_error hv, storeRead, metByOne, if_neg hv]
    exact ⟨h, .refl _ _, rfl, fun _ _ => rfl⟩

theorem agrees_delete (root frag : Text) :
    Agrees (resolve root) (delete root frag) (storeDrop frag) (metByOne frag) := by
  intro d h
  by_cases hv : isValidFragmentId frag = true
  · obtain ⟨p, hp, hres⟩ := path_valid root hv
    simp only [delete, hp, hres, fsRemove, storeDrop, metByOne, if_pos hv]
    rcases io_cases (fun _ t => t) (fun t => match removeFile t (shardNames (resolve root) frag) with
      | .ok t' => ((.ok () : Except Refusal Unit), t')
      | .error e => (.error e, t)) d with ⟨hworks, hio⟩ | ⟨k, hfails, hio⟩
    · rw [hio, hworks]
      cases hn : d.tree (shardNames (resolve root) frag) with
      | none =>
        have hnone : held (resolve root) d.tree frag = none := (h.held_none hv (by simp [hn])).1
        have hsame : (held (resolve root) d.tree).set frag none = held (resolve root) d.tree := by
          funext g
          by_cases hg : g = frag
          · rw [hg, ChunkStore.set_same, hnone]
          · rw [ChunkStore.set_other _ _ hg]
        simp only [removeFile, hn, h.open_way hv, Bool.false_eq_true, if_false]
        exact ⟨h, .refl _ _, trivial, fun db more => by simp [effect, hsame]⟩
      | some node =>
        cases node with
        | dir => exact absurd hn (h.shards frag hv)
        | file b =>
          simp only [removeFile, hn]
          obtain ⟨hsound, hconf⟩ := h.set hv (by simp) (h.rooted.set_none hn)
          have hset : held (resolve root) (d.tree.set (shardNames (resolve root) frag) none) =
              (held (resolve root) d.tree).set frag none := held_set hv none
          exact ⟨hsound, hconf, trivial, fun db more => by simp [effect, hset]⟩
    · rw [hio, hfails]
      exact ⟨h, .refl _ _, rfl, fun _ _ => rfl⟩
  · simp only [delete, path_error hv, storeDrop, metByOne, if_neg hv]
    exact ⟨h, .refl _ _, rfl, fun _ _ => rfl⟩

theorem agrees_exists (root frag : Text) :
    Agrees (resolve root) (existsShard root frag) (storeExists frag) (metByOne frag) := by
  intro d h
  by_cases hv : isValidFragmentId frag = true
  · obtain ⟨p, hp, hres⟩ := path_valid root hv
    simp only [existsShard, hp, hres, fsExists, storeExists, metByOne, if_pos hv]
    have hsome : (held (resolve root) d.tree frag).isSome = (d.tree (shardNames (resolve root) frag)).isSome := by
      cases hn : d.tree (shardNames (resolve root) frag) with
      | none =>
        rw [(h.held_none hv (by simp [hn])).1]
        rfl
      | some node =>
        cases node with
        | dir => exact absurd hn (h.shards frag hv)
        | file b =>
          rw [held_of_file hv hn]
          rfl
    rcases io_cases (fun _ t => t) (fun t =>
      ((.ok (t (shardNames (resolve root) frag)).isSome : Except Refusal Bool), t)) d
      with ⟨hworks, hio⟩ | ⟨k, hfails, hio⟩
    · rw [hio, hworks]
      exact ⟨h, .refl _ _, rfl, fun db more => by simp [hsome]⟩
    · rw [hio, hfails]
      exact ⟨h, .refl _ _, rfl, fun _ _ => rfl⟩
  · simp only [existsShard, path_error hv, storeExists, metByOne, if_neg hv]
    exact ⟨h, .refl _ _, rfl, fun _ _ => rfl⟩

end

/-! ### Runs -/

inductive Call where
  | write (fragmentId : Text) (data : Bytes)
  | read (fragmentId : Text)
  | delete (fragmentId : Text)
  | present (fragmentId : Text)
  deriving DecidableEq, Repr

inductive Answer where
  | done
  | bytes (content : Bytes)
  | present (there : Bool)
  | stopped (e : Stop StoreError)
  deriving DecidableEq, Repr

def answer {α : Type} (f : α → Answer) : Outcome StoreError α → Answer
  | .ok a => f a
  | .error e => .stopped e

/-- The call on the files under `root`. -/
def onFiles (root : Text) (d : Disk) : Call → Answer × Disk
  | .write frag data => (answer (fun _ => .done) (write root frag data d).1, (write root frag data d).2)
  | .read frag => (answer .bytes (read root frag d).1, (read root frag d).2)
  | .delete frag => (answer (fun _ => .done) (delete root frag d).1, (delete root frag d).2)
  | .present frag => (answer .present (existsShard root frag d).1, (existsShard root frag d).2)

/-- The call on the map the sessions see. -/
def onMap (w : World) : Call → Answer × World
  | .write frag data => (answer (fun _ => .done) (storeWrite frag data w).1, (storeWrite frag data w).2)
  | .read frag => (answer .bytes (storeRead frag w).1, (storeRead frag w).2)
  | .delete frag => (answer (fun _ => .done) (storeDrop frag w).1, (storeDrop frag w).2)
  | .present frag => (answer .present (storeExists frag w).1, (storeExists frag w).2)

def runCalls {σ : Type} (call : σ → Call → Answer × σ) : σ → List Call → List Answer × σ
  | s, [] => ([], s)
  | s, c :: cs => ((call s c).1 :: (runCalls call (call s c).2 cs).1, (runCalls call (call s c).2 cs).2)

def Call.met : Call → List Event → List Event × List Event
  | .write frag _, s => metByWrite frag s
  | .read frag, s | .delete frag, s | .present frag, s => metByOne frag s

/-- The events the calls of a run meet on the map, one for each call with a valid id. -/
def metByRun : List Call → List Event → List Event
  | [], _ => []
  | c :: cs, s => (c.met s).1 ++ metByRun cs (c.met s).2

theorem call_agrees (root : Text) (c : Call) {d : Disk} (h : Sound (resolve root) d.tree) :
    Sound (resolve root) (onFiles root d c).2.tree ∧ Confined (resolve root) d.tree (onFiles root d c).2.tree ∧
      (onFiles root d c).2.script = (c.met d.script).2 ∧
      ∀ db more, onMap ⟨db, held (resolve root) d.tree, (c.met d.script).1 ++ more⟩ c =
        ((onFiles root d c).1, ⟨db, held (resolve root) (onFiles root d c).2.tree, more⟩) := by
  cases c with
  | write frag data =>
    obtain ⟨hsound, hconf, hscript, hmet⟩ := agrees_write root frag data d h
    exact ⟨hsound, hconf, hscript, fun db more => by simp only [onMap, Call.met, hmet, onFiles]⟩
  | read frag =>
    obtain ⟨hsound, hconf, hscript, hmet⟩ := agrees_read root frag d h
    exact ⟨hsound, hconf, hscript, fun db more => by simp only [onMap, Call.met, hmet, onFiles]⟩
  | delete frag =>
    obtain ⟨hsound, hconf, hscript, hmet⟩ := agrees_delete root frag d h
    exact ⟨hsound, hconf, hscript, fun db more => by simp only [onMap, Call.met, hmet, onFiles]⟩
  | present frag =>
    obtain ⟨hsound, hconf, hscript, hmet⟩ := agrees_exists root frag d h
    exact ⟨hsound, hconf, hscript, fun db more => by simp only [onMap, Call.met, hmet, onFiles]⟩

/-- Whatever ids a run is given and whatever faults the disk has, it answers like the map the
sessions work on with those faults, its shards are that map, and below the root nothing but shards
and the way to them changes. -/
theorem files_refine (root : Text) (calls : List Call) {d : Disk} (h : Sound (resolve root) d.tree) :
    Sound (resolve root) (runCalls (onFiles root) d calls).2.tree ∧
      Confined (resolve root) d.tree (runCalls (onFiles root) d calls).2.tree ∧
      ∀ db, runCalls onMap ⟨db, held (resolve root) d.tree, metByRun calls d.script⟩ calls =
        ((runCalls (onFiles root) d calls).1,
          ⟨db, held (resolve root) (runCalls (onFiles root) d calls).2.tree, []⟩) := by
  induction calls generalizing d with
  | nil => exact ⟨h, .refl _ _, fun _ => rfl⟩
  | cons c calls ih =>
    obtain ⟨hsound, hconf, hscript, hmet⟩ := call_agrees root c h
    obtain ⟨hsound', hconf', hmet'⟩ := ih hsound
    refine ⟨hsound', hconf.trans hconf', fun db => ?_⟩
    simp only [runCalls, metByRun, hmet, ← hscript, hmet']

/-! ### A fresh disk -/

def freshTree : Tree Text Bytes := fun p => if p = [] then some .dir else none

theorem fresh_sound (base : List Text) : Sound base freshTree where
  rooted := by
    refine ⟨rfl, fun p n h => ?_⟩
    simp [freshTree] at h
  fanOut frag q r _ _ b := by
    unfold freshTree
    split <;> simp
  shards frag _ := by simp [freshTree, shardNames]

/-- A shard is written, a write of another stops after one byte, and a traversal is tried. -/
def tried : List Call :=
  [.write "00112233445566778899aabbccddeeff".toList [1, 2, 3],
    .write "ff112233445566778899aabbccddeeff".toList [4, 5],
    .read "../../identity/identity.key".toList,
    .read "00112233445566778899aabbccddeeff".toList,
    .present "ff112233445566778899aabbccddeeff".toList]

def triedDisk : Disk := ⟨freshTree, [.works, .works, .works, .fails (some 1)]⟩

theorem tried_sound : Sound (resolve "/data/shards".toList) triedDisk.tree := fresh_sound _

theorem files_refine_tried :
    metByRun tried triedDisk.script = [.works, .fails (some 1), .works, .works] ∧
    (runCalls (onFiles "/data/shards".toList) triedDisk tried).1 =
        [.done, .stopped (.err .io), .stopped (.err .invalidFragmentId), .bytes [1, 2, 3], .present true] ∧
      ∀ db, runCalls onMap ⟨db, held (resolve "/data/shards".toList) triedDisk.tree,
          metByRun tried triedDisk.script⟩ tried =
        ((runCalls (onFiles "/data/shards".toList) triedDisk tried).1,
          ⟨db, held (resolve "/data/shards".toList)
            (runCalls (onFiles "/data/shards".toList) triedDisk tried).2.tree, []⟩) :=
  ⟨by decide +kernel, by decide +kernel, (files_refine "/data/shards".toList tried tried_sound).2.2⟩

end P2pnas.Store.ShardFiles
