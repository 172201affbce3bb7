import P2pnas.Store.Session

/-!
# Reading a file (`service.rs:164-212`, `533-569`)

A read is a program of single statements and file reads: each runs on the node as it is at
that moment, on an autocommit connection. Run alone it is a function of the manifest and the
store (`Read.eval`); run next to other sessions the answers may come from different states.
-/

namespace P2pnas.Store.Reading
open P2pnas.Lib.Frames P2pnas.Lib.Strings P2pnas.Core.Base P2pnas.Core.Crypto
open P2pnas.Core P2pnas.Core.Erasure P2pnas.Store.Manifest P2pnas.Store.Session

/-- A failed statement or file read ends the program with its error. -/
inductive Read (α : Type) where
  | done (o : Outcome StoreError α)
  | getFile (u f : Text) (k : Option FileRow → Read α)
  | getChunks (f : Text) (k : List ChunkRow → Read α)
  | getShards (chunkId : Text) (k : List ShardRow → Read α)
  | readStore (frag : Text) (k : Bytes → Read α)

namespace Read
variable {α β : Type}

def bind : Read α → (α → Read β) → Read β
  | .done (.ok a), g => g a
  | .done (.error e), _ => .done (.error e)
  | .getFile u f k, g => .getFile u f fun a => (k a).bind g
  | .getChunks f k, g => .getChunks f fun a => (k a).bind g
  | .getShards c k, g => .getShards c fun a => (k a).bind g
  | .readStore frag k, g => .readStore frag fun a => (k a).bind g

instance : Monad Read where
  pure a := .done (.ok a)
  bind := Read.bind

def file (u f : Text) : Read (Option FileRow) := .getFile u f pure
def chunksOf (f : Text) : Read (List ChunkRow) := .getChunks f pure
def shardsOf (chunkId : Text) : Read (List ShardRow) := .getShards chunkId pure
def store (frag : Text) : Read Bytes := .readStore frag pure
def orStop (e : StoreError) (o : Option α) : Read α := .done (orFail e o)

/-- `ChunkStore::read` without faults. -/
def storeAnswer (st : ChunkStore) (frag : Text) : Outcome StoreError Bytes :=
  if isValidFragmentId frag then orFail .notFound (st frag) else fail .invalidFragmentId

/-- The program on a node that stays as it is. -/
def eval (db : Db) (st : ChunkStore) : Read α → Outcome StoreError α
  | .done o => o
  | .getFile u f k => (k (Manifest.getFile db u f)).eval db st
  | .getChunks f k => (k (Manifest.getChunks db f)).eval db st
  | .getShards c k => (k (Manifest.getShards db c)).eval db st
  | .readStore frag k => do
    let b ← storeAnswer st frag
    (k b).eval db st

/-- The program as part of a service call. -/
def run : Read α → Svc α
  | .done o => ofOutcome o
  | .getFile u f k => query (Manifest.getFile · u f) >>= fun a => (k a).run
  | .getChunks f k => query (Manifest.getChunks · f) >>= fun a => (k a).run
  | .getShards c k => query (Manifest.getShards · c) >>= fun a => (k a).run
  | .readStore frag k => storeRead frag >>= fun a => (k a).run

section
variable (db : Db) (st : ChunkStore)

@[simp] theorem eval_pure (a : α) : (pure a : Read α).eval db st = .ok a := rfl

@[simp] theorem eval_bind (x : Read α) (g : α → Read β) :
    (x >>= g).eval db st = (x.eval db st >>= fun a => (g a).eval db st) := by
  change (x.bind g).eval db st = _
  induction x with
  | done o => cases o <;> rfl
  | getFile u f k ih => simp only [bind, eval, ih]
  | getChunks f k ih => simp only [bind, eval, ih]
  | getShards c k ih => simp only [bind, eval, ih]
  | readStore frag k ih =>
    simp only [bind, eval, ih]
    cases storeAnswer st frag <;> rfl

@[simp] theorem eval_done (o : Outcome StoreError α) : (Read.done o).eval db st = o := rfl
@[simp] theorem eval_file (u f : Text) : (file u f).eval db st = .ok (Manifest.getFile db u f) := rfl
@[simp] theorem eval_chunksOf (f : Text) : (chunksOf f).eval db st = .ok (Manifest.getChunks db f) := rfl
@[simp] theorem eval_shardsOf (c : Text) : (shardsOf c).eval db st = .ok (Manifest.getShards db c) := rfl

@[simp] theorem eval_store (frag : Text) : (store frag).eval db st = storeAnswer st frag := by
  change (storeAnswer st frag >>= fun b => Except.ok b) = _
  cases storeAnswer st frag <;> rfl

@[simp] theorem eval_orStop (e : StoreError) (o : Option α) :
    (orStop e o).eval db st = orFail e o := rfl

end

/-- A read that returns a value under faults returns the one it returns without, and moves
nothing. -/
theorem run_ok {p : Read α} {w w' : World} {a : α} (h : p.run w = (.ok a, w')) :
    p.eval w.db w.store = .ok a ∧ w'.db = w.db ∧ w'.store = w.store := by
  induction p generalizing w with
  | done o =>
    obtain ⟨ho, rfl⟩ := ofOutcome_ok h
    exact ⟨ho, rfl, rfl⟩
  | getFile u f k ih | getChunks f k ih | getShards c k ih =>
    obtain ⟨b, w₁, hq, h⟩ := bind_ok h
    obtain ⟨rfl, hdb, hst⟩ := query_ok hq
    have hk := ih _ h
    rw [hdb, hst] at hk
    exact hk
  | readStore frag k ih =>
    obtain ⟨b, w₁, hr, h⟩ := bind_ok h
    have hv : isValidFragmentId frag = true := by
      cases hf : isValidFragmentId frag with
      | true => rfl
      | false => simp only [storeRead, hf] at hr; cases hr
    obtain ⟨hb, hdb, hst⟩ := storeRead_ok hr
    have hk := ih _ h
    rw [hdb, hst] at hk
    refine ⟨?_, hk.2⟩
    simp only [eval, storeAnswer, hv, if_true, hb, orFail_some, ok_bind]
    exact hk.1

/-- However it ends, a read moves nothing. -/
theorem moves_run {R : World → World → Prop} (hR : Frame R) (p : Read α) : Moves R p.run := by
  induction p with
  | done o => exact moves_outcome hR o
  | getFile u f k ih | getChunks f k ih | getShards c k ih => exact moves_bind hR (moves_query hR _) ih
  | readStore frag k ih => exact moves_bind hR (moves_storeRead hR frag) ih

/-- Without faults a read gives what `eval` gives and moves nothing. -/
theorem run_eval (p : Read α) (w : World) (hs : w.script = []) :
    p.run w = (p.eval w.db w.store, w) := by
  have hq : ∀ {β : Type} (f : Db → β) (g : β → Svc α), (query f >>= g) w = g (f w.db) w := by
    intro β f g
    simp only [bind_apply, query, effect, hs]
  induction p with
  | done o => rfl
  | getFile u f k ih | getChunks f k ih | getShards c k ih => exact (hq _ _).trans (ih _)
  | readStore frag k ih =>
    simp only [run, bind_apply, eval, storeRead, storeAnswer]
    cases isValidFragmentId frag with
    | false => rfl
    | true =>
      simp only [if_true, effect, hs]
      cases w.store frag with
      | none => rfl
      | some b => exact ih b

end Read

variable {K : Type} (P : Prims K) (key : K)

/-- What `pull` and `reassemble` do with one chunk and its shard slots. -/
def openRow (ctx : FileCipher K) (c : ChunkRow) (present : List (Option Bytes)) :
    Outcome StoreError Bytes := do
  let cipher ← wrapErr .core (reconstruct P present (asU64 c.cipherLen))
  let plain ← wrapErr .core (ctx.openChunk P (asU64 c.idx) cipher)
  orFail .io (Pipeline.restore P plain c.isCompressed)

/-- The cipher of a file row: its own scheme, owner, id and chunk count. -/
def rowCipher (file : FileRow) : Outcome StoreError (FileCipher K) := do
  let scheme ← wrapErr .core (KeyScheme.fromI64 file.keyScheme)
  return FileCipher.new P key scheme (utf8 file.userId) (utf8 file.fileId) (asU64 file.chunkCount)

/-- `reassemble` (`service.rs:548-569`). -/
def reassemble (file : FileRow) (chunks : List (ChunkRow × List (Option Bytes))) :
    Outcome StoreError Bytes := do
  let ctx ← rowCipher P key file
  let parts ← collect (fun cp => openRow P ctx cp.1 cp.2) chunks
  return parts.flatten

/-- `pull_plan` (`service.rs:533-543`). -/
def pullPlan (u f : Text) : Read (FileRow × List (ChunkRow × List ShardRow)) := do
  let row ← Read.file u f
  let file ← Read.orStop .notFound row
  let chunks ← Read.chunksOf f
  let plan ← collect (fun c => do
    let shards ← Read.shardsOf c.chunkId
    return (c, shards)) chunks
  return (file, plan)

def rangeError (member : FileRow) : StoreError :=
  .integrity ("member ".toList ++ member.fileId ++ " has an invalid pack range".toList)

/-- `member_slice` (`service.rs:933-946`). -/
def memberSlice (packPlain : Bytes) (member : FileRow) : Outcome StoreError Bytes :=
  match member.packOffset, member.packLen with
  | some (.ofNat off), some (.ofNat len) =>
    if off + len ≤ packPlain.length then .ok ((packPlain.drop off).take len)
    else fail (rangeError member)
  | _, _ => fail (rangeError member)

/-- The slot loop of `pull`: a shard index past the slots is skipped. -/
def fillSlots : List ShardRow → List (Option Bytes) → Read (List (Option Bytes))
  | [], present => pure present
  | s :: rest, present =>
    if asU64 s.shardIndex < present.length then do
      let b ← Read.store s.fragmentId
      fillSlots rest (present.set (asU64 s.shardIndex) (some b))
    else fillSlots rest present

def pullChunk (ctx : FileCipher K) (c : ChunkRow) : Read Bytes := do
  let shards ← Read.shardsOf c.chunkId
  let present ← fillSlots shards (List.replicate TOTAL_SHARDS none)
  .done (openRow P ctx c present)

/-- The part of `pull` for a row with chunks of its own. -/
def pullOwn (file : FileRow) (f : Text) : Read Bytes := do
  let chunks ← Read.chunksOf f
  let ctx ← Read.done (rowCipher P key file)
  -- `Vec::with_capacity(file.size as usize)`
  if file.size < 0 then .done (.error .panic)
  else do
    let parts ← collect (pullChunk P ctx) chunks
    return parts.flatten

/-- `pull` (`service.rs:164-212`), cut off after `fuel` nested calls. -/
def pull : ℕ → Text → Text → Read Bytes
  | 0, _, _ => .done (.error .panic)
  | fuel + 1, u, f => do
    let row ← Read.file u f
    let file ← Read.orStop .notFound row
    match file.packId with
    | none => pullOwn P key file f
    | some packId => do
      let packRow ← Read.file u packId
      let pack ← Read.orStop
        (.integrity ("pack ".toList ++ packId ++ " of member ".toList ++ f ++ " is missing".toList))
        packRow
      if pack.packId.isSome then
        .done (fail (.integrity ("pack ".toList ++ packId ++ " is itself a pack member".toList)))
      else do
        let packPlain ← pull fuel u packId
        .done (memberSlice packPlain file)

end P2pnas.Store.Reading
