import P2pnas.Node.Accounting
import P2pnas.Store.Lifecycle
import P2pnas.Store.Removal

/-!
# What a deleted account leaves (`events/mod.rs:33-139`)

`purge_user` lists every row of the account and purges them one by one, then enqueues one
`gc_remote` job, lowers the node's stored bytes, drops the quota row and logs an event. An
error of one of these is logged and the rest goes on. Nothing in it deletes from `folders`.
-/

namespace P2pnas.Node.AccountDeletion
open P2pnas.Lib.Frames P2pnas.Lib.Strings P2pnas.Lib.Tables P2pnas.Lib.Runs P2pnas.Core
open P2pnas.Core.Base P2pnas.Core.Pipeline P2pnas.Store.Manifest P2pnas.Store.Session
open P2pnas.Store.Service P2pnas.Store.Operations P2pnas.Store.Lifecycle P2pnas.Store.Removal
open P2pnas.Node.Accounting

/-- What the sweep has freed so far. -/
structure Freed where
  deleted : ℕ
  stored : ℤ
  remote : List RemoteShard
  deriving DecidableEq, Repr

def Freed.none : Freed := ⟨0, 0, []⟩

def Freed.add (t : Freed) (row : FileRow) (remote : List RemoteShard) : Freed :=
  ⟨t.deleted + 1, t.stored + row.storedBytes, t.remote ++ remote⟩

/-- An error is logged and the caller goes on without a value; a panic is not caught. -/
def attempt {α : Type} (x : Svc α) : Svc (Option α) := fun w =>
  match x w with
  | (.ok a, w') => (.ok (some a), w')
  | (.error (.err _), w') => (.ok none, w')
  | (.error .panic, w') => (.error .panic, w')

def purgeEach (u : Text) (t : Freed) : List FileRow → Svc Freed
  | [] => pure t
  | f :: fs => do
    let r ← attempt (purgeFile u f.fileId)
    match r with
    | some (row, remote) => purgeEach u (t.add row remote) fs
    | none => purgeEach u t fs

/-- The blocking task of `purge_user`. -/
def purgeTask (u : Text) : Svc Freed := do
  let files ← attempt (query (listUserRows · u))
  match files with
  | some files => purgeEach u .none files
  | none => pure .none

/-- The books with the queue of `gc_remote` payloads and the `user_purged` events. -/
structure Ledger extends Books where
  jobs : List (List RemoteShard)
  events : List (Text × ℕ × ℤ)

/-- What fails under a purge: effects of the task, and each of the statements after it. -/
structure Trouble where
  script : List Event
  enqueue : Bool
  node : Bool
  quota : Bool
  log : Bool

/-- Everything works. -/
def Trouble.calm : Trouble := ⟨[], false, false, false, false⟩

def Ledger.enqueueGc (n : Ledger) (fails : Bool) (remote : List RemoteShard) : Ledger :=
  if remote.isEmpty || fails then n else { n with jobs := n.jobs ++ [remote] }

def Ledger.lowerNode (n : Ledger) (fails : Bool) (stored : ℤ) : Ledger :=
  if 0 < stored ∧ fails = false then { n with toBooks := n.addNode (-stored) } else n

def Ledger.dropQuota (n : Ledger) (fails : Bool) (u : Text) : Ledger :=
  if fails then n else { n with accounts := Function.update n.accounts u none }

def Ledger.logPurge (n : Ledger) (fails : Bool) (u : Text) (freed : Freed) : Ledger :=
  if fails then n else { n with events := n.events ++ [(u, freed.deleted, freed.stored)] }

/-- `purge_user`; a task that panicked has freed nothing as far as the caller knows. -/
def purgeUser (u : Text) (e : Trouble) (n : Ledger) : Ledger :=
  let r := n.toBooks.manifest e.script (purgeTask u)
  let freed := match r.1 with
    | .ok freed => freed
    | .error _ => .none
  ((({ n with toBooks := r.2 }.enqueueGc e.enqueue freed.remote).lowerNode e.node freed.stored).dropQuota
    e.quota u).logPurge e.log u freed

/-! ### The sweep when everything works -/

theorem attempt_ok {α : Type} {x : Svc α} {a : α} {w w' : World} (h : x w = (.ok a, w')) :
    attempt x w = (.ok (some a), w') := by
  rw [attempt, h]

/-- What purging these rows collects. -/
def fragsOfRows (db : Db) (u : Text) (fs : List FileRow) : List RemoteShard :=
  fs.flatMap fun f => fragsOf db u f.fileId

theorem fragsOfRows_deleteFile {db : Db} {u f : Text} {fs : List FileRow}
    (h : f ∉ fs.map FileRow.fileId) : fragsOfRows (deleteFile db u f) u fs = fragsOfRows db u fs := by
  apply List.flatMap_congr
  intro g hg
  apply fragsOf_deleteFile
  intro he
  exact h (List.mem_map.mpr ⟨g, hg, he⟩)

theorem remoteOf_append (a b : List RemoteShard) : remoteOf (a ++ b) = remoteOf a ++ remoteOf b :=
  List.filter_append ..

theorem localIds_append (a b : List RemoteShard) : localIds (a ++ b) = localIds a ++ localIds b := by
  rw [localIds, List.filter_append, List.map_append, localIds, localIds]

/-- One row after the other comes to one `DELETE` of them all. -/
theorem purgeEach_calm {u : Text} {fs : List FileRow} (hn : (fs.map FileRow.fileId).Nodup) {db : Db}
    (hrow : ∀ f ∈ fs, getFile db u f.fileId = some f) (st : ChunkStore) (t : Freed) :
    purgeEach u t fs ⟨db, st, []⟩ =
      (.ok ⟨t.deleted + fs.length, t.stored + (fs.map FileRow.storedBytes).sum,
          t.remote ++ remoteOf (fragsOfRows db u fs)⟩,
        ⟨deleteFiles db fun r => r.userId = u ∧ r.fileId ∈ fs.map FileRow.fileId,
          forget (localIds (fragsOfRows db u fs)) st, []⟩) := by
  induction fs generalizing db st t with
  | nil =>
    have hdel : (deleteFiles db fun r => decide (r.userId = u ∧ r.fileId ∈ ([] : List FileRow).map FileRow.fileId)) = db := by
      have hno : ∀ r ∈ db.files, (decide (r.userId = u ∧ r.fileId ∈ ([] : List FileRow).map FileRow.fileId)) = false := by
        intro r _
        simp
      rw [deleteFiles_congr hno]
      exact deleteFiles_none db
    rw [hdel]
    simp only [purgeEach, fragsOfRows, List.flatMap_nil, List.length_nil, List.map_nil, List.sum_nil,
      Nat.add_zero, Int.add_zero, remoteOf, localIds, List.filter_nil, List.append_nil, forget_nil]
    rfl
  | cons f fs ih =>
    obtain ⟨hf, hn'⟩ := List.nodup_cons.mp hn
    have hone := purgeFile_calm st (hrow f (List.mem_cons_self ..))
    have hrest : ∀ g ∈ fs, getFile (deleteFile db u f.fileId) u g.fileId = some g := by
      intro g hg
      rw [getFile_deleteFile]
      · exact hrow g (List.mem_cons_of_mem _ hg)
      · intro he
        exact hf (List.mem_map.mpr ⟨g, hg, he⟩)
    have hdel : (deleteFiles (deleteFile db u f.fileId) fun r =>
        decide (r.userId = u ∧ r.fileId ∈ fs.map FileRow.fileId)) =
        deleteFiles db fun r => decide (r.userId = u ∧ r.fileId ∈ (f :: fs).map FileRow.fileId) := by
      rw [deleteFile, deleteFiles_deleteFiles]
      apply deleteFiles_congr
      intro r _
      rw [Bool.eq_iff_iff, Bool.or_eq_true, isRow_iff, decide_eq_true_eq, decide_eq_true_eq,
        List.map_cons, List.mem_cons, and_or_left]
    have hfrags : fragsOfRows db u (f :: fs) = fragsOf db u f.fileId ++ fragsOfRows db u fs := rfl
    rw [purgeEach, bind_apply, attempt_ok hone]
    simp only [ih hn' hrest, fragsOfRows_deleteFile hf, hdel, hfrags, remoteOf_append, localIds_append,
      forget_append, Freed.add, List.length_cons, List.map_cons, List.sum_cons, List.append_assoc]
    congr 3
    · omega
    · omega

/-! ### The rows of the account -/

section
variable {db : Db} {u : Text}

theorem listUserRows_perm (db : Db) (u : Text) :
    (listUserRows db u).Perm ((db.files.filter fun r => r.userId = u).map FileRec.view) :=
  List.perm_insertionSort _ _

theorem listUserRows_ids :
    ((listUserRows db u).map FileRow.fileId).Perm
      ((db.files.filter fun r => r.userId = u).map FileRec.fileId) := by
  have h := (listUserRows_perm db u).map FileRow.fileId
  rw [List.map_map] at h
  exact h

theorem listUserRows_nodup : ((listUserRows db u).map FileRow.fileId).Nodup :=
  listUserRows_ids.nodup_iff.mpr (nodup_filter _ db.constraints.fileIds)

theorem getFile_listed {f : FileRow} (hf : f ∈ listUserRows db u) : getFile db u f.fileId = some f := by
  obtain ⟨r, hr, rfl⟩ := List.mem_map.mp ((listUserRows_perm db u).mem_iff.mp hf)
  obtain ⟨hr, hu⟩ := List.mem_filter.mp hr
  rw [decide_eq_true_eq] at hu
  have hfind : db.files.find? (isRow u r.fileId) = some r :=
    find?_eq_some db.constraints.fileIds hr (isRow_iff.mpr ⟨hu, rfl⟩) fun q hq => (isRow_iff.mp hq).2
  change (db.files.find? (isRow u r.fileId)).map FileRec.view = _
  rw [hfind, Option.map_some]

theorem mem_listUserRows_ids {f : Text} :
    f ∈ (listUserRows db u).map FileRow.fileId ↔ db.files.any (isRow u f) = true := by
  rw [listUserRows_ids.mem_iff, List.any_eq_true]
  constructor
  · intro h
    obtain ⟨r, hr, hid⟩ := List.mem_map.mp h
    obtain ⟨hr, hu⟩ := List.mem_filter.mp hr
    exact ⟨r, hr, isRow_iff.mpr ⟨of_decide_eq_true hu, hid⟩⟩
  · rintro ⟨r, hr, hsel⟩
    obtain ⟨hu, hid⟩ := isRow_iff.mp hsel
    exact List.mem_map.mpr ⟨r, List.mem_filter.mpr ⟨hr, decide_eq_true hu⟩, hid⟩

/-- The sweep collects every shard of the account once. -/
theorem fragsOfRows_perm : (fragsOfRows db u (listUserRows db u)).Perm (userFrags db u) := by
  have h := fragsOf_flatMap (@listUserRows_nodup db u) fun f => mem_listUserRows_ids
  rw [List.flatMap_map] at h
  exact h

def storedOf (db : Db) (u : Text) : ℤ := ((db.files.filter fun r => r.userId = u).map FileRec.storedBytes).sum

theorem listUserRows_stored : ((listUserRows db u).map FileRow.storedBytes).sum = storedOf db u := by
  have h := ((listUserRows_perm db u).map FileRow.storedBytes).sum_eq
  rw [List.map_map] at h
  exact h

theorem purgeTask_calm (st : ChunkStore) : purgeTask u ⟨db, st, []⟩ =
    (.ok ⟨(listUserRows db u).length, storedOf db u, remoteOf (fragsOfRows db u (listUserRows db u))⟩,
      ⟨deleteFiles db fun r => r.userId = u,
        forget (localIds (fragsOfRows db u (listUserRows db u))) st, []⟩) := by
  have hquery : query (listUserRows · u) ⟨db, st, []⟩ = (.ok (listUserRows db u), ⟨db, st, []⟩) := rfl
  have hall : (deleteFiles db fun r =>
      decide (r.userId = u ∧ r.fileId ∈ (listUserRows db u).map FileRow.fileId)) =
      deleteFiles db fun r => r.userId = u := by
    apply deleteFiles_congr
    intro r hr
    rw [decide_eq_decide]
    refine and_iff_left_of_imp fun hu => ?_
    exact mem_listUserRows_ids.mpr (List.any_eq_true.mpr ⟨r, hr, isRow_iff.mpr ⟨hu, rfl⟩⟩)
  rw [purgeTask, bind_apply, attempt_ok hquery]
  change purgeEach u .none (listUserRows db u) ⟨db, st, []⟩ = _
  rw [purgeEach_calm listUserRows_nodup (fun f hf => getFile_listed hf), hall, listUserRows_stored]
  simp only [Freed.none, Nat.zero_add, Int.zero_add, List.nil_append]

end

/-! ### What every manifest reached has -/

section
variable {K : Type} {P : Prims K} {key : K}

/-- No row counts a negative number of stored bytes, and every fragment id names a file. -/
structure Sound (db : Db) : Prop where
  stored : ∀ r ∈ db.files, 0 ≤ r.storedBytes
  frags : ∀ s ∈ db.shards, isValidFragmentId s.fragmentId = true

theorem inserts_stored {o : Op} {row : FileRow} (h : o.Inserts P row) : 0 ≤ row.storedBytes := by
  cases o with
  | push u path data mint now =>
    obtain ⟨chunks, lineage, rfl⟩ := h
    exact Store.Sizes.storedBytesOf_nonneg chunks
  | packFiles u entries packId now =>
    obtain ⟨plain, chunks, rfl⟩ := h
    exact Store.Sizes.storedBytesOf_nonneg chunks
  | compactPack u old survivors new now =>
    obtain ⟨plain, chunks, rfl⟩ := h
    exact Store.Sizes.storedBytesOf_nonneg chunks
  | repackSmallFiles u mints now =>
    obtain ⟨i, plain, chunks, rfl⟩ := h
    exact Store.Sizes.storedBytesOf_nonneg chunks
  | _ => exact h.elim

theorem updateFiles_sound {db db' : Db} {sel : FileRec → Bool} {set : FileRec → FileRec}
    {hid : ∀ r, (set r).fileId = r.fileId} (h : updateFiles db sel set hid = some db')
    (hset : ∀ r, 0 ≤ r.storedBytes → 0 ≤ (set r).storedBytes) (hI : Sound db) : Sound db' := by
  have htab := updateFiles_some h
  constructor
  · intro q hq
    rw [htab] at hq
    obtain ⟨r, hr, ⟨_, rfl⟩ | ⟨_, rfl⟩⟩ := mem_update.mp hq
    · exact hset r (hI.stored r hr)
    · exact hI.stored q hr
  · rw [htab]
    exact hI.frags

theorem retireRow_sound {db db' : Db} {u f : Text} {c : Retire} {now : Time}
    (h : retireRow db u f c now = some db') (hI : Sound db) : Sound db' :=
  updateFiles_sound h (fun r hr => by cases c <;> exact hr) hI

theorem edit_sound {o : Op} {b db db' : Db} (he : Edit P o b db db') (hI : Sound db) : Sound db' := by
  cases he with
  | insert row hrow hins =>
    constructor
    · intro q hq
      rw [(insertFile_some hins).2] at hq
      rcases List.mem_append.mp hq with hold | hnew
      · exact hI.stored q hold
      · rw [List.mem_singleton.mp hnew]
        exact inserts_stored hrow
    · rw [(insertFile_some hins).2]
      exact hI.frags
  | chunk c hins =>
    constructor
    · rw [(insertChunk_some hins).2]
      exact hI.stored
    · rw [(insertChunk_some hins).2]
      exact hI.frags
  | shard s hvalid hins =>
    constructor
    · rw [(insertShard_some hins).2]
      exact hI.stored
    · intro t ht
      rw [(insertShard_some hins).2] at ht
      rcases List.mem_append.mp ht with hold | hnew
      · exact hI.frags t hold
      · rw [List.mem_singleton.mp hnew]
        exact hvalid
  | trash r now _ hr hlive hsel h => exact retireRow_sound h hI
  | restore r path _ hr hlive hsel h => exact updateFiles_sound h (fun _ hr => hr) hI
  | repath r path _ hr hlive hsel h => exact updateFiles_sound h (fun _ hr => hr) hI
  | assign u f packId offset len h => exact updateFiles_sound h (fun _ _ => le_refl 0) hI
  | delete u f _ =>
    exact ⟨fun r hr => hI.stored r (List.mem_filter.mp hr).1,
      fun s hs => hI.frags s (List.mem_filter.mp hs).1⟩
  | strip u f => exact ⟨hI.stored, fun s hs => hI.frags s (List.mem_filter.mp hs).1⟩
  | folders hf _ hs _ => exact ⟨hf ▸ hI.stored, hs ▸ hI.frags⟩
  | location frag location =>
    refine ⟨hI.stored, fun s hs => ?_⟩
    obtain ⟨t, ht, ⟨_, rfl⟩ | ⟨_, rfl⟩⟩ := mem_update.mp hs
    · exact hI.frags t ht
    · exact hI.frags s ht

theorem reached_sound {w : World} (h : Reached P key w) : Sound w.db := by
  refine reached_invariant P key (I := Sound) ?_ (fun _ _ _ _ he hI => edit_sound he hI) ?_ h
  · exact ⟨fun r hr => absurd hr List.not_mem_nil, fun s hs => absurd hs List.not_mem_nil⟩
  · intro o db db' hset hI
    obtain ⟨r, -, now, -, -, hsup⟩ := hset
    exact retireRow_sound hsup hI

theorem storedOf_nonneg {db : Db} (h : Sound db) (u : Text) : 0 ≤ storedOf db u := by
  refine List.sum_nonneg fun x hx => ?_
  obtain ⟨r, hr, rfl⟩ := List.mem_map.mp hx
  exact h.stored r (List.mem_filter.mp hr).1

end

/-! ### What is left of the account -/

/-- Everything of the account `u` in `n` is gone from `n'`, and nothing of another account. -/
structure Erased (u : Text) (n n' : Ledger) : Prop where
  files : n'.db.files = n.db.files.filter fun r => r.userId ≠ u
  chunks : n'.db.chunks = n.db.chunks.filter fun c => !ownsChunk n.db u c
  shards : n'.db.shards = n.db.shards.filter fun s => !ownsShard n.db u s
  folders : n'.db.folders = n.db.folders.filter fun r => r.userId ≠ u
  store : ∀ frag, n'.store frag = if (frag, LOCAL) ∈ userFrags n.db u then none else n.store frag
  jobs : ∃ payloads, n'.jobs = n.jobs ++ payloads ∧ payloads.flatten.Perm (remoteOf (userFrags n.db u))
  node : storedOf n.db u ≤ n.nodeUsed → n'.nodeUsed = n.nodeUsed - storedOf n.db u
  quota : n'.accounts = Function.update n.accounts u none

/-- What `purge_user` leaves when everything works. -/
theorem purgeUser_calm (u : Text) (n : Ledger) :
    ∃ freed : Freed, freed.stored = storedOf n.db u ∧
      freed.remote = remoteOf (fragsOfRows n.db u (listUserRows n.db u)) ∧
      purgeUser u .calm n = ((({ n with
        db := deleteFiles n.db fun r => r.userId = u
        store := forget (localIds (fragsOfRows n.db u (listUserRows n.db u))) n.store }.enqueueGc false
          freed.remote).lowerNode false freed.stored).dropQuota false u).logPurge false u freed := by
  refine ⟨⟨(listUserRows n.db u).length, storedOf n.db u,
    remoteOf (fragsOfRows n.db u (listUserRows n.db u))⟩, rfl, rfl, ?_⟩
  simp only [purgeUser, Trouble.calm, Books.manifest, purgeTask_calm]

@[simp] theorem enqueueGc_books (n : Ledger) (fails : Bool) (remote : List RemoteShard) :
    (n.enqueueGc fails remote).toBooks = n.toBooks := by
  unfold Ledger.enqueueGc
  split
  · rfl
  · rfl

theorem enqueueGc_jobs (n : Ledger) (remote : List RemoteShard) :
    ∃ payloads, (n.enqueueGc false remote).jobs = n.jobs ++ payloads ∧ payloads.flatten = remote := by
  unfold Ledger.enqueueGc
  cases remote with
  | nil => exact ⟨[], (List.append_nil _).symm, rfl⟩
  | cons s rest => exact ⟨[s :: rest], rfl, List.append_nil _⟩

theorem lowerNode_frame (n : Ledger) (fails : Bool) (stored : ℤ) :
    (n.lowerNode fails stored).db = n.db ∧ (n.lowerNode fails stored).store = n.store ∧
      (n.lowerNode fails stored).accounts = n.accounts ∧ (n.lowerNode fails stored).jobs = n.jobs := by
  unfold Ledger.lowerNode
  split
  · exact ⟨rfl, rfl, rfl, rfl⟩
  · exact ⟨rfl, rfl, rfl, rfl⟩

theorem lowerNode_used (n : Ledger) {stored : ℤ} (h₀ : 0 ≤ stored) (h : stored ≤ n.nodeUsed) :
    (n.lowerNode false stored).nodeUsed = n.nodeUsed - stored := by
  unfold Ledger.lowerNode
  split
  · change max (n.nodeUsed + -stored) 0 = _
    omega
  · next hno =>
    have hzero : stored = 0 := by
      by_contra hne
      exact hno ⟨by omega, rfl⟩
    rw [hzero, sub_zero]

theorem mem_localIds {frags : List RemoteShard} {g : Text} : g ∈ localIds frags ↔ (g, LOCAL) ∈ frags := by
  constructor
  · intro h
    obtain ⟨⟨i, loc⟩, hs, rfl⟩ := List.mem_map.mp h
    obtain ⟨hs, hloc⟩ := List.mem_filter.mp hs
    have hl : loc = LOCAL := of_decide_eq_true hloc
    exact hl ▸ hs
  · intro h
    exact List.mem_map.mpr ⟨(g, LOCAL), List.mem_filter.mpr ⟨h, decide_eq_true rfl⟩, rfl⟩

/-- The store loses the local shards of the account and nothing else. -/
theorem forget_local {db : Db} {u : Text} (hs : Sound db) (st : ChunkStore) (g : Text) :
    forget (localIds (fragsOfRows db u (listUserRows db u))) st g =
      if (g, LOCAL) ∈ userFrags db u then none else st g := by
  have hmem : g ∈ localIds (fragsOfRows db u (listUserRows db u)) ↔ (g, LOCAL) ∈ userFrags db u :=
    mem_localIds.trans fragsOfRows_perm.mem_iff
  have hvalid : (g, LOCAL) ∈ userFrags db u → isValidFragmentId g = true := by
    intro h
    obtain ⟨s, hs', he⟩ := List.mem_map.mp h
    have hid : s.fragmentId = g := (Prod.mk.inj he).1
    rw [← hid]
    exact hs.frags s (List.mem_filter.mp hs').1
  unfold forget
  by_cases h : (g, LOCAL) ∈ userFrags db u
  · rw [if_pos ⟨hmem.mpr h, hvalid h⟩, if_pos h]
  · rw [if_neg fun hg => h (hmem.mp hg.1), if_neg h]

section
variable {K : Type} {P : Prims K} {key : K}

/-- With every manifest that runs reach, a purge of an account in which nothing fails removes
all the account has and touches nothing else exactly when the account has no folder row. -/
theorem purgeUser_erases_iff (u : Text) (n : Ledger) (hn : ∃ w, Reached P key w ∧ w.db = n.db) :
    Erased u n (purgeUser u .calm n) ↔ ∀ r ∈ n.db.folders, r.userId ≠ u := by
  obtain ⟨freed, hstored, hremote, hrun⟩ := purgeUser_calm u n
  have hsound : Sound n.db := by
    obtain ⟨w, hw, hdb⟩ := hn
    exact hdb ▸ reached_sound hw
  rw [hrun]
  generalize hm : ({ n with
    db := deleteFiles n.db fun r => r.userId = u
    store := forget (localIds (fragsOfRows n.db u (listUserRows n.db u))) n.store } : Ledger) = m
  have hdb : m.db = deleteFiles n.db fun r => r.userId = u := by rw [← hm]
  have hstore : m.store = forget (localIds (fragsOfRows n.db u (listUserRows n.db u))) n.store := by
    rw [← hm]
  have hacc : m.accounts = n.accounts := by rw [← hm]
  have hused : m.nodeUsed = n.nodeUsed := by rw [← hm]
  have hjobs : m.jobs = n.jobs := by rw [← hm]
  obtain ⟨hldb, hlstore, hlacc, hljobs⟩ := lowerNode_frame (m.enqueueGc false freed.remote) false freed.stored
  rw [enqueueGc_books] at hldb hlstore hlacc
  constructor
  · intro h r hr hu
    have hfold : (deleteFiles n.db fun r => r.userId = u).folders =
        n.db.folders.filter fun r => r.userId ≠ u := by
      rw [← hdb, ← hldb]
      exact h.folders
    have hmem : r ∈ n.db.folders.filter fun r => r.userId ≠ u := by
      rw [← hfold]
      exact hr
    exact of_decide_eq_true (List.mem_filter.mp hmem).2 hu
  · intro hfold
    have hdb' : ((((m.enqueueGc false freed.remote).lowerNode false freed.stored).dropQuota false
        u).logPurge false u freed).db = deleteFiles n.db fun r => r.userId = u := hldb.trans hdb
    refine ⟨?_, ?_, ?_, ?_, ?_, ?_, ?_, ?_⟩
    · rw [hdb']
      apply List.filter_congr
      intro r _
      exact (decide_not ..).symm
    · rw [hdb', chunks_deleteUser]
    · rw [hdb', shards_deleteUser]
    · rw [hdb']
      refine (List.filter_eq_self.mpr fun r hr => ?_).symm
      exact decide_eq_true (hfold r hr)
    · intro frag
      change ((m.enqueueGc false freed.remote).lowerNode false freed.stored).store frag = _
      rw [hlstore, hstore, forget_local hsound]
    · obtain ⟨payloads, hp, hflat⟩ := enqueueGc_jobs m freed.remote
      refine ⟨payloads, ?_, ?_⟩
      · change ((m.enqueueGc false freed.remote).lowerNode false freed.stored).jobs = _
        rw [hljobs, hp, hjobs]
      · rw [hflat, hremote]
        exact fragsOfRows_perm.filter _
    · intro hle
      change ((m.enqueueGc false freed.remote).lowerNode false freed.stored).nodeUsed = _
      rw [hstored, lowerNode_used _ (storedOf_nonneg hsound u)]
      · rw [enqueueGc_books, hused]
      · rw [enqueueGc_books, hused]
        exact hle
    · change Function.update ((m.enqueueGc false freed.remote).lowerNode false freed.stored).accounts u none = _
      rw [hlacc, hacc]

end

/-- Books over a manifest. -/
def ledgerOf (w : World) : Ledger where
  db := w.db
  store := w.store
  accounts := fun _ => some (1000000, 3)
  nodeUsed := 100000
  containers := fun _ => false
  jobs := []
  events := []

theorem ledgerOf_db (w : World) : (ledgerOf w).db = w.db := rfl

/-- One account uploads, another makes a folder. -/
def uploadAndFolder : List (Op × List Event) :=
  [(.push ['u'] ['p'] [1, 2, 3] ['m'] 0, []), (.mkdir ['v'] ['d'], [])]

def uploadAndFolderWorld : World := run (step (Sample.sample []) Sample.Key.node) emptyWorld uploadAndFolder

theorem uploadAndFolder_reached :
    Reached (Sample.sample []) Sample.Key.node uploadAndFolderWorld :=
  ⟨uploadAndFolder, by rw [uploadAndFolderWorld]⟩

theorem uploader_erased :
    uploadAndFolderWorld.db.shards.length = 14 ∧
      Erased ['u'] (ledgerOf uploadAndFolderWorld) (purgeUser ['u'] .calm (ledgerOf uploadAndFolderWorld)) := by
  refine ⟨by decide +kernel, (@purgeUser_erases_iff _ (Sample.sample []) Sample.Key.node ['u']
    (ledgerOf uploadAndFolderWorld) ⟨_, uploadAndFolder_reached, (ledgerOf_db _).symm⟩).mpr ?_⟩
  decide +kernel

/-- The folder of a deleted account is still there. -/
theorem folder_not_erased :
    Reached (Sample.sample []) Sample.Key.node uploadAndFolderWorld ∧
      ¬ Erased ['v'] (ledgerOf uploadAndFolderWorld)
        (purgeUser ['v'] .calm (ledgerOf uploadAndFolderWorld)) := by
  refine ⟨uploadAndFolder_reached, fun h => ?_⟩
  have hleft : (purgeUser ['v'] .calm (ledgerOf uploadAndFolderWorld)).db.folders ≠
      (ledgerOf uploadAndFolderWorld).db.folders.filter fun r => r.userId ≠ ['v'] := by decide +kernel
  exact hleft h.folders

end P2pnas.Node.AccountDeletion
