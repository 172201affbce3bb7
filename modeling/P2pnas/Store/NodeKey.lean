import Mathlib.Logic.Function.Basic
import P2pnas.Core.Sample
import P2pnas.Lib.Runs
import P2pnas.Store.Session

/-!
# The node key (`identity.rs`)

A node that starts loads its key file or creates it. Several starts may run next to each other, each
of them a sequence of system calls that may fail or be the last before the process is killed; an
operator may change the mode of the file, and the power may fail, which leaves of a file that was
never synced what it happens to have on disk, or nothing. The code syncs the file and not its
directory: a synced file whose entry the system has not written out can be gone as well.
-/

namespace P2pnas.Store.NodeKey
open P2pnas.Lib.Frames P2pnas.Lib.Strings P2pnas.Lib.Runs P2pnas.Core.Base P2pnas.Core.Crypto P2pnas.Store.Session

def KEY_LEN : ℕ := 32

/-- `[u8; KEY_LEN]`. -/
abbrev RawKey := { b : Bytes // b.length = KEY_LEN }

/-- `NodeIdentity` (`identity.rs:18-22`). -/
structure NodeIdentity (K : Type) where
  dataKey : K
  manifestKeyHex : Text
  peerId : Text
  deriving DecidableEq, Repr

structure KeyFile where
  mode : ℕ
  content : Bytes
  /-- The bytes are on disk. -/
  synced : Bool
  /-- The directory entry is on disk. -/
  entered : Bool
  deriving DecidableEq, Repr

/-! ### The errors -/

/-- `{:04o}`. -/
def octal4 (mode : ℕ) : Text := (String.ofList (Nat.toDigits 8 mode)).toList.leftpad 4 '0'

/-- The refusal of `check_key_perms` (`identity.rs:92-99`). -/
def loosePerms (path : Text) (mode : ℕ) : Text :=
  path ++ " is accessible beyond its owner (mode ".toList ++ octal4 mode ++
    "); refusing to start - fix it with `chmod 600 ".toList ++ path ++
    "` and rotate the node key if it may have leaked".toList

def wrongLength : Text := "identity.key has wrong length".toList

/-! ### A start -/

/-- Where `load_or_create` (`identity.rs:34-63`) is: before which of its calls. -/
inductive Start where
  | createDir (drawn : RawKey)
  | looks (drawn : RawKey)
  | checkPerms
  | reads
  | opens (drawn : RawKey)
  | writes (drawn : RawKey) (done : ℕ)
  | syncs (drawn : RawKey)
  deriving DecidableEq, Repr

/-- What becomes of the next call; a write may come to fewer bytes than it was given. -/
inductive Chance where
  | works (count : ℕ)
  | fails
  | killed
  deriving DecidableEq, Repr

inductive Next (K : Type) where
  | goes (s : Start)
  | ends (o : Outcome StoreError (NodeIdentity K))
  | dies

section
variable {K : Type} (P : Prims K) (fromBytes : RawKey → K) (asBytes : K → Bytes) (path : Text) (umask : ℕ)

/-- What is derived of the key (`identity.rs:56-61`). -/
def identity (raw : RawKey) : NodeIdentity K where
  dataKey := fromBytes raw
  manifestKeyHex := hexEncode (asBytes (deriveRaw P (fromBytes raw) (ascii "p2pnas/manifest/v1")))
  peerId := hexEncode ((asBytes (deriveRaw P (fromBytes raw) (ascii "p2pnas/peer-id/v1"))).take 16)

/-- `mode(0o600)` under the umask of the process. -/
def createdMode : ℕ := 0o600 &&& (0o777 ^^^ (umask &&& 0o777))

/-- `write` at a position of the file. -/
def writeAt (content bytes : Bytes) (pos : ℕ) : Bytes :=
  content.take pos ++ bytes ++ content.drop (pos + bytes.length)

/-- The next call of a start on the key file. -/
def advance (e : Chance) (file : Option KeyFile) (s : Start) : Option KeyFile × Next K :=
  match e with
  | .killed => (file, .dies)
  | .fails =>
    match s with
    -- `Path::exists` takes an error for absence
    | .looks drawn => (file, .goes (.opens drawn))
    | _ => (file, .ends (fail .io))
  | .works count =>
    match s with
    | .createDir drawn => (file, .goes (.looks drawn))
    | .looks drawn => (file, .goes (if file.isSome then .checkPerms else .opens drawn))
    | .checkPerms =>
      match file with
      | none => (file, .ends (fail .io))
      | some f =>
        if f.mode &&& 0o7777 &&& 0o077 ≠ 0 then
          (file, .ends (fail (.integrity (loosePerms path (f.mode &&& 0o7777)))))
        else (file, .goes .reads)
    | .reads =>
      match file with
      | none => (file, .ends (fail .io))
      | some f =>
        if h : f.content.length = KEY_LEN then (file, .ends (.ok (identity P fromBytes asBytes ⟨f.content, h⟩)))
        else (file, .ends (fail (.integrity wrongLength)))
    | .opens drawn =>
      -- `create_new`: nobody else's file is taken
      if file.isSome then (file, .ends (fail .io))
      else (some ⟨createdMode umask, [], false, false⟩, .goes (.writes drawn 0))
    | .writes drawn done =>
      if count = 0 then (file, .ends (fail .io))
      else
        (file.map fun f => { f with content := writeAt f.content ((drawn.1.drop done).take count) done },
          .goes (if done + count < KEY_LEN then .writes drawn (done + count) else .syncs drawn))
    | .syncs drawn =>
      (file.map fun f => { f with synced := true }, .ends (.ok (identity P fromBytes asBytes drawn)))

/-! ### The node -/

/-- The key file, the starts in progress and the identities starts have come up with. -/
structure Node (K : Type) where
  file : Option KeyFile
  starts : ℕ → Option Start
  cameUp : List (NodeIdentity K)

inductive Act where
  | start (i : ℕ) (drawn : RawKey)
  | move (i : ℕ) (e : Chance)
  | chmod (mode : ℕ)
  /-- The system writes the directory out. -/
  | writeBack
  /-- Whether the directory happens to be on disk, and how much of the file. -/
  | powerLoss (entry : Bool) (left : Option ℕ)
  deriving DecidableEq, Repr

def settle (n : Node K) (i : ℕ) (file : Option KeyFile) : Next K → Node K
  | .goes s => { n with file := file, starts := Function.update n.starts i (some s) }
  | .ends (.ok identity) =>
    { file := file, starts := Function.update n.starts i none, cameUp := n.cameUp ++ [identity] }
  | .ends (.error _) => { n with file := file, starts := Function.update n.starts i none }
  | .dies => { n with file := file, starts := Function.update n.starts i none }

/-- A file outlives the power whole if it was synced, and at all if its entry is on disk. -/
def afterPowerLoss (entry : Bool) (left : Option ℕ) (f : KeyFile) : Option KeyFile :=
  if f.entered || entry then
    if f.synced then some { f with entered := true }
    else left.map fun k => { f with content := f.content.take k, synced := true, entered := true }
  else none

def step (n : Node K) : Act → Node K
  | .start i drawn =>
    if n.starts i = none then { n with starts := Function.update n.starts i (some (.createDir drawn)) } else n
  | .move i e =>
    match n.starts i with
    | none => n
    | some s =>
      settle n i (advance P fromBytes asBytes path umask e n.file s).1
        (advance P fromBytes asBytes path umask e n.file s).2
  | .chmod mode => { n with file := n.file.map fun f => { f with mode := mode } }
  | .writeBack => { n with file := n.file.map fun f => { f with entered := true } }
  | .powerLoss entry left => { n with file := n.file.bind (afterPowerLoss entry left), starts := fun _ => none }

/-! ### What holds in every state -/

/-- The start has created the file and is not done with it. -/
def Start.owns : Start → Bool
  | .writes _ _ => true
  | .syncs _ => true
  | _ => false

/-- What its creator has put into the file. -/
def Written (f : KeyFile) : Start → Prop
  | .writes drawn done => done < KEY_LEN ∧ f.content = drawn.1.take done ∧ f.synced = false
  | .syncs drawn => f.content = drawn.1 ∧ f.synced = false
  | _ => True

structure Sound (n : Node K) : Prop where
  written : ∀ i s, n.starts i = some s → s.owns = true → ∃ f, n.file = some f ∧ Written f s
  alone : ∀ i j s t, n.starts i = some s → n.starts j = some t → s.owns = true → t.owns = true → i = j
  came : ∀ c ∈ n.cameUp, ∃ f h, n.file = some f ∧ c = identity P fromBytes asBytes ⟨f.content, h⟩

/-- What every start that came up relies on is on disk for good. -/
def Flushed (n : Node K) : Prop :=
  n.cameUp ≠ [] → ∃ f, n.file = some f ∧ f.synced = true ∧ f.entered = true

/-- The power fails only when that is so. -/
def Careful (n : Node K) : Act → Prop
  | .powerLoss .. => Flushed n
  | _ => True

variable {P fromBytes asBytes path umask} {n : Node K}

theorem update_some {starts : ℕ → Option Start} {i j : ℕ} {o : Option Start} {s : Start}
    (h : Function.update starts i o j = some s) : j = i ∧ o = some s ∨ j ≠ i ∧ starts j = some s := by
  by_cases hj : j = i
  · subst hj
    rw [Function.update_self] at h
    exact .inl ⟨rfl, h⟩
  · rw [Function.update_of_ne hj] at h
    exact .inr ⟨hj, h⟩

/-- A start that owns nothing afterwards, and a file that is as it was. -/
theorem Sound.settle_same (h : Sound P fromBytes asBytes n) (i : ℕ) {o : Option Start}
    (ho : ∀ s, o = some s → s.owns = false) :
    Sound P fromBytes asBytes { n with starts := Function.update n.starts i o } where
  written j s hj hown := by
    rcases update_some hj with ⟨-, hs⟩ | ⟨-, hs⟩
    · rw [ho s hs] at hown
      cases hown
    · exact h.written j s hs hown
  alone j k s t hj hk hown hown' := by
    rcases update_some hj with ⟨-, hs⟩ | ⟨-, hs⟩
    · rw [ho s hs] at hown
      cases hown
    · rcases update_some hk with ⟨-, ht⟩ | ⟨-, ht⟩
      · rw [ho t ht] at hown'
        cases hown'
      · exact h.alone j k s t hs ht hown hown'
  came := h.came

/-- The owner of the file goes on with it, or is the first to have it. -/
theorem settle_owner {i : ℕ} {file : KeyFile} {o : Option Start}
    {cameUp : List (NodeIdentity K)}
    (hi : ∀ j s, j ≠ i → n.starts j = some s → s.owns = false)
    (hw : ∀ s, o = some s → s.owns = true → Written file s)
    (hc : ∀ c ∈ cameUp, ∃ h, c = identity P fromBytes asBytes ⟨file.content, h⟩) :
    Sound P fromBytes asBytes ⟨some file, Function.update n.starts i o, cameUp⟩ where
  written j s hj hown := by
    rcases update_some hj with ⟨-, hs⟩ | ⟨hne, hs⟩
    · exact ⟨file, rfl, hw s hs hown⟩
    · rw [hi j s hne hs] at hown
      cases hown
  alone j k s t hj hk hown hown' := by
    rcases update_some hj with ⟨rfl, -⟩ | ⟨hne, hs⟩
    · rcases update_some hk with ⟨rfl, -⟩ | ⟨hne', ht⟩
      · rfl
      · rw [hi k t hne' ht] at hown'
        cases hown'
    · rw [hi j s hne hs] at hown
      cases hown
  came c hcm := by
    obtain ⟨hlen, hid⟩ := hc c hcm
    exact ⟨file, hlen, rfl, hid⟩

theorem Sound.others (h : Sound P fromBytes asBytes n) {i : ℕ} {s : Start} (hi : n.starts i = some s)
    (hown : s.owns = true) (j : ℕ) (t : Start) (hj : j ≠ i) (ht : n.starts j = some t) : t.owns = false := by
  cases ho : t.owns with
  | false => rfl
  | true => exact absurd (h.alone j i t s ht hi ho hown) hj

/-- As long as the file is incomplete nobody has come up. -/
theorem Sound.none_came (h : Sound P fromBytes asBytes n)
    (hno : ∀ f, n.file = some f → f.content.length ≠ KEY_LEN) : n.cameUp = [] := by
  rw [List.eq_nil_iff_forall_not_mem]
  intro c hc
  obtain ⟨f, hlen, hf, -⟩ := h.came c hc
  exact hno f hf hlen

theorem writeAt_take (key : Bytes) (done count : ℕ) :
    writeAt (key.take done) ((key.drop done).take count) done = key.take (done + count) := by
  have htake : (key.take done).take done = key.take done := by
    rw [List.take_take, min_self]
  have hdrop : (key.take done).drop (done + ((key.drop done).take count).length) = [] := by
    rw [List.drop_eq_nil_iff, List.length_take]
    omega
  rw [writeAt, htake, hdrop, List.append_nil, List.take_add]

/-! ### One step -/

theorem Sound.ends (h : Sound P fromBytes asBytes n) (i : ℕ) (e : Stop StoreError) :
    Sound P fromBytes asBytes (settle n i n.file (.ends (.error e))) :=
  h.settle_same i fun s hs => by cases hs

theorem Sound.goes (h : Sound P fromBytes asBytes n) (i : ℕ) {s : Start} (hs : s.owns = false) :
    Sound P fromBytes asBytes (settle n i n.file (.goes s)) :=
  h.settle_same i fun t ht => by
    cases ht
    exact hs

theorem Sound.opens (h : Sound P fromBytes asBytes n) (i : ℕ) (drawn : RawKey) (hno : n.file = none) (mode : ℕ) :
    Sound P fromBytes asBytes (settle n i (some ⟨mode, [], false, false⟩) (.goes (.writes drawn 0))) := by
  have hcame : n.cameUp = [] := h.none_came fun f hf => by rw [hno] at hf; cases hf
  refine settle_owner (fun j s _ hs => ?_) (fun s hs _ => ?_) fun c hc => ?_
  · cases ho : s.owns with
    | false => rfl
    | true =>
      obtain ⟨f, hf, -⟩ := h.written j s hs ho
      rw [hno] at hf
      cases hf
  · cases hs
    exact ⟨by decide, rfl, rfl⟩
  · rw [hcame] at hc
    cases hc

theorem Sound.writes (h : Sound P fromBytes asBytes n) {i : ℕ} {drawn : RawKey} {done count : ℕ} {f : KeyFile}
    (hi : n.starts i = some (.writes drawn done)) (hf : n.file = some f) :
    Sound P fromBytes asBytes
      (settle n i (some { f with content := writeAt f.content ((drawn.1.drop done).take count) done })
        (.goes (if done + count < KEY_LEN then .writes drawn (done + count) else .syncs drawn))) := by
  obtain ⟨f', hf', hlt, hcontent, hsync⟩ := h.written i _ hi rfl
  rw [hf] at hf'
  obtain rfl := Option.some.inj hf'
  have hlen : drawn.1.length = KEY_LEN := drawn.2
  have hshort : f.content.length ≠ KEY_LEN := by
    rw [hcontent, List.length_take]
    omega
  have hcame : n.cameUp = [] := h.none_came fun g hg => by
    rw [hf] at hg
    exact Option.some.inj hg ▸ hshort
  refine settle_owner (fun j s hj hs => h.others hi rfl j s hj hs) (fun s hs _ => ?_) fun c hc => ?_
  · cases hs
    rw [hcontent, writeAt_take]
    by_cases hmore : done + count < KEY_LEN
    · rw [if_pos hmore]
      exact ⟨hmore, rfl, hsync⟩
    · rw [if_neg hmore]
      exact ⟨List.take_of_length_le (by omega), hsync⟩
  · rw [hcame] at hc
    cases hc

theorem Sound.syncs (h : Sound P fromBytes asBytes n) {i : ℕ} {drawn : RawKey} {f : KeyFile}
    (hi : n.starts i = some (.syncs drawn)) (hf : n.file = some f) :
    Sound P fromBytes asBytes (settle n i (some { f with synced := true })
      (.ends (.ok (identity P fromBytes asBytes drawn)))) := by
  obtain ⟨f', hf', hcontent, -⟩ := h.written i _ hi rfl
  rw [hf] at hf'
  obtain rfl := Option.some.inj hf'
  refine settle_owner (fun j s hj hs => h.others hi rfl j s hj hs) (fun s hs _ => by cases hs) fun c hc => ?_
  rcases List.mem_append.mp hc with hold | hnew
  · obtain ⟨g, hlen, hg, hid⟩ := h.came c hold
    rw [hf] at hg
    obtain rfl := Option.some.inj hg
    exact ⟨hlen, hid⟩
  · rw [List.mem_singleton] at hnew
    have hsame : (⟨f.content, hcontent ▸ drawn.2⟩ : RawKey) = drawn := Subtype.ext hcontent
    exact ⟨hcontent ▸ drawn.2, by rw [hnew, hsame]⟩

theorem Sound.reads (h : Sound P fromBytes asBytes n) (i : ℕ) {f : KeyFile} (hf : n.file = some f)
    (hlen : f.content.length = KEY_LEN) :
    Sound P fromBytes asBytes (settle n i n.file (.ends (.ok (identity P fromBytes asBytes ⟨f.content, hlen⟩)))) := by
  have hgone := h.settle_same i (o := none) fun s hs => by cases hs
  refine ⟨hgone.written, hgone.alone, fun c hc => ?_⟩
  rcases List.mem_append.mp hc with hold | hnew
  · exact h.came c hold
  · exact ⟨f, hlen, hf, List.mem_singleton.mp hnew⟩

theorem Sound.advance (h : Sound P fromBytes asBytes n) {i : ℕ} {s : Start} (hi : n.starts i = some s) (e : Chance) :
    Sound P fromBytes asBytes (settle n i (advance P fromBytes asBytes path umask e n.file s).1
      (advance P fromBytes asBytes path umask e n.file s).2) := by
  cases e with
  | killed => exact h.settle_same i fun t ht => by cases ht
  | fails =>
    cases s with
    | looks drawn => exact h.goes i rfl
    | createDir | checkPerms | reads | opens | writes | syncs => exact h.ends i _
  | works count =>
    cases s with
    | createDir drawn => exact h.goes i rfl
    | looks drawn =>
      refine h.goes i ?_
      split <;> rfl
    | checkPerms =>
      simp only [NodeKey.advance]
      split
      · exact h.ends i _
      · split
        · exact h.ends i _
        · exact h.goes i rfl
    | reads =>
      simp only [NodeKey.advance]
      split
      · exact h.ends i _
      · next f hf =>
        split
        · next hlen => exact h.reads i hf hlen
        · exact h.ends i _
    | opens drawn =>
      simp only [NodeKey.advance]
      split
      · exact h.ends i _
      · next hno =>
        rw [Option.not_isSome_iff_eq_none] at hno
        exact h.opens i drawn hno _
    | writes drawn done =>
      obtain ⟨f, hf, -⟩ := h.written i _ hi rfl
      simp only [NodeKey.advance]
      split
      · exact h.ends i _
      · rw [hf]
        exact h.writes hi hf
    | syncs drawn =>
      obtain ⟨f, hf, -⟩ := h.written i _ hi rfl
      simp only [NodeKey.advance]
      rw [hf]
      exact h.syncs hi hf

theorem sound_step (a : Act) (h : Sound P fromBytes asBytes n) (ha : Careful n a) :
    Sound P fromBytes asBytes (step P fromBytes asBytes path umask n a) := by
  cases a with
  | start i drawn =>
    rw [step]
    split
    · exact h.settle_same i fun s hs => by
        cases hs
        rfl
    · exact h
  | move i e =>
    rw [step]
    split
    · exact h
    · next s hi => exact h.advance hi e
  | chmod mode =>
    refine Sound.mk (fun i s hi hown => ?_) h.alone fun c hc => ?_
    · obtain ⟨f, hf, hw⟩ := h.written i s hi hown
      refine ⟨{ f with mode := mode }, by simp [step, hf], ?_⟩
      cases s <;> exact hw
    · obtain ⟨f, hlen, hf, hid⟩ := h.came c hc
      exact ⟨{ f with mode := mode }, hlen, by simp [step, hf], hid⟩
  | writeBack =>
    refine Sound.mk (fun i s hi hown => ?_) h.alone fun c hc => ?_
    · obtain ⟨f, hf, hw⟩ := h.written i s hi hown
      refine ⟨{ f with entered := true }, by simp [step, hf], ?_⟩
      cases s <;> exact hw
    · obtain ⟨f, hlen, hf, hid⟩ := h.came c hc
      exact ⟨{ f with entered := true }, hlen, by simp [step, hf], hid⟩
  | powerLoss entry left =>
    refine Sound.mk (fun i s hi _ => ?_) (fun i j s t hi _ _ _ => ?_) fun c hc => ?_
    · cases hi
    · cases hi
    obtain ⟨f, hlen, hf, hid⟩ := h.came c hc
    obtain ⟨g, hg, hsync, henter⟩ := ha (List.ne_nil_of_mem hc)
    rw [hf] at hg
    obtain rfl := Option.some.inj hg
    exact ⟨{ f with entered := true }, hlen, by simp [step, hf, afterPowerLoss, hsync, henter], hid⟩

/-- What is in a file on disk stays, whoever starts and whatever fails. -/
theorem synced_step (a : Act) (h : Sound P fromBytes asBytes n) {f : KeyFile} (hf : n.file = some f)
    (hsync : f.synced = true) (henter : f.entered = true) :
    ∃ f', (step P fromBytes asBytes path umask n a).file = some f' ∧ f'.content = f.content ∧
      f'.synced = true ∧ f'.entered = true := by
  have hfree : ∀ i s, n.starts i = some s → s.owns = false := by
    intro i s hi
    cases ho : s.owns with
    | false => rfl
    | true =>
      obtain ⟨g, hg, hw⟩ := h.written i s hi ho
      rw [hf] at hg
      obtain rfl := Option.some.inj hg
      cases s <;> simp_all [Start.owns, Written]
  cases a with
  | start i drawn =>
    rw [step]
    split <;> exact ⟨f, hf, rfl, hsync, henter⟩
  | move i e =>
    rw [step]
    split
    · exact ⟨f, hf, rfl, hsync, henter⟩
    · next s hi =>
      have hsame : (NodeKey.advance P fromBytes asBytes path umask e n.file s).1 = some f := by
        have hno := hfree i s hi
        rw [hf]
        unfold NodeKey.advance
        cases s with
        | writes | syncs => cases hno
        | createDir | looks => cases e <;> rfl
        | opens => cases e <;> rfl
        | checkPerms | reads =>
          cases e with
          | killed | fails => rfl
          | works =>
            dsimp only
            split <;> rfl
      refine ⟨f, ?_, rfl, hsync, henter⟩
      rw [hsame]
      unfold settle
      split <;> rfl
  | chmod mode => exact ⟨{ f with mode := mode }, by simp [step, hf], rfl, hsync, henter⟩
  | writeBack => exact ⟨{ f with entered := true }, by simp [step, hf], rfl, hsync, rfl⟩
  | powerLoss entry left =>
    exact ⟨{ f with entered := true }, by simp [step, hf, afterPowerLoss, hsync, henter], rfl, hsync, rfl⟩

/-! ### Runs -/

theorem run_sound {acts : List Act} (h : Sound P fromBytes asBytes n)
    (hacts : AllMeet (step P fromBytes asBytes path umask) Careful n acts) :
    Sound P fromBytes asBytes (run (step P fromBytes asBytes path umask) n acts) := by
  induction acts generalizing n with
  | nil => exact h
  | cons a acts ih => exact ih (sound_step a h hacts.1) hacts.2

theorem run_synced {f : KeyFile} (h : Sound P fromBytes asBytes n) (hf : n.file = some f) (hsync : f.synced = true)
    (henter : f.entered = true) (acts : List Act) :
    Sound P fromBytes asBytes (run (step P fromBytes asBytes path umask) n acts) ∧
      ∃ f', (run (step P fromBytes asBytes path umask) n acts).file = some f' ∧ f'.content = f.content := by
  induction acts generalizing n f with
  | nil => exact ⟨h, f, hf, rfl⟩
  | cons a acts ih =>
    have ha : Careful n a := by
      cases a with
      | powerLoss => exact fun _ => ⟨f, hf, hsync, henter⟩
      | start | move | chmod | writeBack => trivial
    obtain ⟨f', hf', hsame, hsync', henter'⟩ : ∃ f', (step P fromBytes asBytes path umask n a).file = some f' ∧
        f'.content = f.content ∧ f'.synced = true ∧ f'.entered = true := synced_step a h hf hsync henter
    obtain ⟨hsound, f'', hf'', hsame'⟩ := ih (sound_step a h ha) hf' hsync' henter'
    exact ⟨hsound, f'', hf'', hsame'.trans hsame⟩

/-- However starts, kills, failures and changed modes interleave: when the power fails only once the
file the starts rely on is synced and its directory written out, all of them come up with the identity
of the one key on disk. Once both are so the key is final: no start and no power loss changes it, and
a start comes up with it or not at all. -/
theorem identities_agree (hidle : ∀ i, n.starts i = none) (hnone : n.cameUp = []) {acts : List Act}
    (hacts : AllMeet (step P fromBytes asBytes path umask) Careful n acts) :
    (∀ c ∈ (run (step P fromBytes asBytes path umask) n acts).cameUp, ∃ f h,
      (run (step P fromBytes asBytes path umask) n acts).file = some f ∧
        c = identity P fromBytes asBytes ⟨f.content, h⟩) ∧
    ∀ f more, (run (step P fromBytes asBytes path umask) n acts).file = some f → f.synced = true →
      f.entered = true → (∃ f', (run (step P fromBytes asBytes path umask) n (acts ++ more)).file = some f' ∧
        f'.content = f.content) ∧
      ∀ c ∈ (run (step P fromBytes asBytes path umask) n (acts ++ more)).cameUp,
        ∃ h, c = identity P fromBytes asBytes ⟨f.content, h⟩ := by
  have hstart : Sound P fromBytes asBytes n := by
    refine ⟨fun i s hi _ => ?_, fun i j s t hi _ _ _ => ?_, fun c hc => ?_⟩
    · rw [hidle i] at hi
      cases hi
    · rw [hidle i] at hi
      cases hi
    · rw [hnone] at hc
      cases hc
  have hsound := run_sound hstart hacts
  refine ⟨hsound.came, fun f more hf hsync henter => ?_⟩
  obtain ⟨hsound', f', hf', hsame⟩ := run_synced hsound hf hsync henter more
  have happ : run (step P fromBytes asBytes path umask) n (acts ++ more) =
      run (step P fromBytes asBytes path umask) (run (step P fromBytes asBytes path umask) n acts) more :=
    List.foldl_append
  rw [happ]
  refine ⟨⟨f', hf', hsame⟩, fun c hc => ?_⟩
  obtain ⟨g, hlen, hg, hid⟩ := hsound'.came c hc
  rw [hf'] at hg
  obtain rfl := Option.some.inj hg
  have hcontent : (⟨f'.content, hlen⟩ : RawKey) = ⟨f.content, hsame ▸ hlen⟩ := Subtype.ext hsame
  exact ⟨hsame ▸ hlen, by rw [hid, hcontent]⟩

end

/-! ### Two starts at once -/

def drawnFirst : RawKey := ⟨List.replicate 32 1, List.length_replicate⟩

def drawnSecond : RawKey := ⟨List.replicate 32 2, List.length_replicate⟩

def keyOf (raw : RawKey) : Core.Sample.Key := .derived raw.1 .node []

def bytesOf : Core.Sample.Key → Bytes
  | .node => []
  | .derived salt _ info => salt ++ info

def freshNode : Node Core.Sample.Key := ⟨none, fun _ => none, []⟩

def sampleStep : Node Core.Sample.Key → Act → Node Core.Sample.Key :=
  step (Core.Sample.sample []) keyOf bytesOf "identity.key".toList 0o022

/-- The second start finds the file of the first one and reads it before it is synced. -/
def bothStart : List Act :=
  [.start 0 drawnFirst, .start 1 drawnSecond, .move 0 (.works 0), .move 1 (.works 0), .move 0 (.works 0),
    .move 0 (.works 0), .move 1 (.works 0), .move 0 (.works 20), .move 0 (.works 12), .move 1 (.works 0),
    .move 1 (.works 0)]

/-- The first start ends, the directory is written out, then the power fails. -/
def syncedInTime : List Act := bothStart ++ [.move 0 (.works 0), .writeBack, .powerLoss false none]

theorem syncedInTime_careful : AllMeet sampleStep Careful freshNode syncedInTime :=
  ⟨trivial, trivial, trivial, trivial, trivial, trivial, trivial, trivial, trivial, trivial, trivial, trivial,
    trivial, fun _ => ⟨_, rfl, rfl, rfl⟩, trivial⟩

theorem identities_agree_synced :
    (run sampleStep freshNode syncedInTime).cameUp.length = 2 ∧
      ∀ c ∈ (run sampleStep freshNode syncedInTime).cameUp, ∃ f h,
        (run sampleStep freshNode syncedInTime).file = some f ∧
          c = identity (Core.Sample.sample []) keyOf bytesOf ⟨f.content, h⟩ :=
  ⟨by decide +kernel, (identities_agree (fun _ => rfl) rfl syncedInTime_careful).1⟩

/-- The power fails before the directory is written out: the node comes up again as another one. -/
example : (run sampleStep freshNode (bothStart ++ [.move 0 (.works 0), .powerLoss false none, .start 2 drawnSecond] ++
    [.move 2 (.works 0), .move 2 (.works 0), .move 2 (.works 0), .move 2 (.works 32), .move 2 (.works 0)])).cameUp.map
      (·.dataKey) = [keyOf drawnFirst, keyOf drawnFirst, keyOf drawnSecond] := by decide +kernel

end P2pnas.Store.NodeKey
