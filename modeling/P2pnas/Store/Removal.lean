import P2pnas.Store.Operations

/-!
# Rows removed one by one (`service.rs:239-267`, `manifest.rs:700-714`)

`purge_file` deletes one row, and with it the chunks and shards of that row alone. Purging
rows one after the other comes to one `DELETE` of all of them, and the shards collected on
the way are those of the rows in the manifest before the first one went.
-/

namespace P2pnas.Store.Removal
open P2pnas.Lib.Frames P2pnas.Lib.Strings P2pnas.Lib.Tables P2pnas.Core.Base P2pnas.Store.Manifest
open P2pnas.Store.Session P2pnas.Store.Service P2pnas.Store.Operations Relation

/-! ### One `DELETE` after another -/

theorem db_ext {db db' : Db} (h : db.toTables = db'.toTables) : db = db' := by
  cases db
  cases db'
  cases h
  rfl

theorem deleteFiles_congr {db : Db} {p q : FileRec → Bool} (h : ∀ r ∈ db.files, p r = q r) :
    deleteFiles db p = deleteFiles db q := by
  have hfiles : db.files.filter (fun r => !p r) = db.files.filter (fun r => !q r) :=
    List.filter_congr fun r hr => by rw [h r hr]
  apply db_ext
  simp only [deleteFiles, hfiles]

theorem deleteFiles_none (db : Db) : (deleteFiles db fun _ => false) = db := by
  have hfiles : (db.files.filter fun _ => !false) = db.files := List.filter_true _
  have hchunks : (db.chunks.filter fun c => decide (c.fileId ∈ db.files.map FileRec.fileId)) = db.chunks :=
    List.filter_eq_self.mpr fun c hc => decide_eq_true (db.constraints.chunkFiles c hc)
  have hshards : (db.shards.filter fun s => decide (s.chunkId ∈ db.chunks.map ChunkRow.chunkId)) = db.shards :=
    List.filter_eq_self.mpr fun s hs => decide_eq_true (db.constraints.shardChunks s hs)
  apply db_ext
  simp only [deleteFiles, hfiles, hchunks, hshards]

/-- The chunks and shards that a longer `DELETE` leaves are left by each shorter one. -/
theorem deleteFiles_deleteFiles (db : Db) (p q : FileRec → Bool) :
    deleteFiles (deleteFiles db p) q = deleteFiles db fun r => p r || q r := by
  have hfiles : (db.files.filter fun r => !p r).filter (fun r => !q r) =
      db.files.filter fun r => !(p r || q r) := by
    rw [List.filter_filter]
    apply List.filter_congr
    intro r _
    rw [Bool.not_or, Bool.and_comm]
  have hids : ∀ i, i ∈ (db.files.filter fun r => !(p r || q r)).map FileRec.fileId →
      i ∈ (db.files.filter fun r => !p r).map FileRec.fileId := by
    intro i hi
    rw [← hfiles] at hi
    exact (List.filter_sublist.map _).subset hi
  have hchunks : (deleteFiles (deleteFiles db p) q).chunks =
      (deleteFiles db fun r => p r || q r).chunks := by
    simp only [deleteFiles, hfiles, List.filter_filter]
    apply List.filter_congr
    intro c _
    rw [Bool.and_eq_left_iff_imp, decide_eq_true_eq, decide_eq_true_eq]
    exact hids c.fileId
  have hshards : (deleteFiles (deleteFiles db p) q).shards =
      (deleteFiles db fun r => p r || q r).shards := by
    have hstep : (deleteFiles (deleteFiles db p) q).shards =
        (deleteFiles db p).shards.filter fun s =>
          decide (s.chunkId ∈ (deleteFiles (deleteFiles db p) q).chunks.map ChunkRow.chunkId) := rfl
    have hsub : ∀ i, i ∈ (deleteFiles (deleteFiles db p) q).chunks.map ChunkRow.chunkId →
        i ∈ (deleteFiles db p).chunks.map ChunkRow.chunkId :=
      fun i hi => (List.filter_sublist.map _).subset hi
    rw [hstep, hchunks]
    rw [hchunks] at hsub
    change (db.shards.filter _).filter _ = db.shards.filter _
    rw [List.filter_filter]
    apply List.filter_congr
    intro s _
    rw [Bool.eq_iff_iff, Bool.and_eq_true, decide_eq_true_eq, decide_eq_true_eq, decide_eq_true_eq]
    exact and_iff_left_of_imp (hsub s.chunkId)
  apply db_ext
  have htab : ∀ d d' : Tables, d.files = d'.files → d.chunks = d'.chunks → d.shards = d'.shards →
      d.folders = d'.folders → d = d' := by
    rintro ⟨_, _, _, _⟩ ⟨_, _, _, _⟩ rfl rfl rfl rfl
    rfl
  exact htab _ _ hfiles hchunks hshards rfl

/-! ### What one row's deletion leaves of the others -/

section
variable {db : Db} {u f g : Text}

theorem getFile_deleteFile (h : g ≠ f) : getFile (deleteFile db u f) u g = getFile db u g := by
  unfold getFile
  congr 1
  change (db.files.filter fun r => !isRow u f r).find? (isRow u g) = _
  rw [List.find?_filter]
  congr 1
  funext r
  cases hr : isRow u g r with
  | false => simp
  | true =>
    have hid : r.fileId = g := by
      rw [isRow, Bool.and_eq_true, decide_eq_true_eq, decide_eq_true_eq] at hr
      exact hr.2
    rw [isRow_other (hid ▸ h)]
    rfl

theorem any_deleteFile (h : g ≠ f) :
    (deleteFile db u f).files.any (isRow u g) = db.files.any (isRow u g) := by
  have hfind := @getFile_deleteFile db u f g h
  have hsome := congrArg Option.isSome hfind
  simpa only [getFile, Option.isSome_map, List.isSome_find?] using hsome

/-- The shards of another row are listed as before. -/
theorem fragsOf_deleteFile (h : g ≠ f) : fragsOf (deleteFile db u f) u g = fragsOf db u g := by
  unfold fragsOf
  rw [any_deleteFile h]
  cases hany : db.files.any (isRow u g) with
  | false => rfl
  | true =>
    obtain ⟨r, hr, hsel⟩ := List.any_eq_true.mp hany
    have hid : r.fileId = g := by
      rw [isRow, Bool.and_eq_true, decide_eq_true_eq, decide_eq_true_eq] at hsel
      exact hsel.2
    have hstays : g ∈ (deleteFile db u f).files.map FileRec.fileId := by
      refine List.mem_map.mpr ⟨r, List.mem_filter.mpr ⟨hr, ?_⟩, hid⟩
      rw [isRow_other (hid ▸ h)]
      rfl
    rw [if_pos rfl, if_pos rfl]
    congr 1
    change (db.shards.filter fun s =>
      decide (s.chunkId ∈ (deleteFile db u f).chunks.map ChunkRow.chunkId)).filter _ = _
    rw [List.filter_filter]
    apply List.filter_congr
    intro s _
    rw [Bool.eq_iff_iff, Bool.and_eq_true, List.any_eq_true, List.any_eq_true, decide_eq_true_eq]
    constructor
    · rintro ⟨⟨c, hc, hsel⟩, -⟩
      exact ⟨c, (List.mem_filter.mp hc).1, hsel⟩
    · rintro ⟨c, hc, hsel⟩
      rw [Bool.and_eq_true, decide_eq_true_eq, decide_eq_true_eq] at hsel
      have hc' : c ∈ (deleteFile db u f).chunks :=
        List.mem_filter.mpr ⟨hc, decide_eq_true (hsel.2 ▸ hstays)⟩
      exact ⟨⟨c, hc', by rw [hsel.1, hsel.2]; simp⟩, List.mem_map.mpr ⟨c, hc', hsel.1⟩⟩

end

/-! ### A purge on which everything works -/

/-- The shard store without the fragments of a list. -/
def forget (ids : List Text) (st : ChunkStore) : ChunkStore :=
  fun g => if g ∈ ids ∧ isValidFragmentId g = true then none else st g

theorem forget_nil (st : ChunkStore) : forget [] st = st := by
  funext g
  rw [forget, if_neg fun h => List.not_mem_nil h.1]

theorem forget_append (a b : List Text) (st : ChunkStore) :
    forget b (forget a st) = forget (a ++ b) st := by
  funext g
  simp only [forget, List.mem_append]
  split
  · next h => rw [if_pos ⟨.inr h.1, h.2⟩]
  · next h =>
    split
    · next h' => rw [if_pos ⟨.inl h'.1, h'.2⟩]
    · next h' => rw [if_neg fun ⟨hm, hv⟩ => hm.elim (fun ha => h' ⟨ha, hv⟩) fun hb => h ⟨hb, hv⟩]

theorem storeDelete_calm (frag : Text) (db : Db) (st : ChunkStore) :
    storeDelete frag ⟨db, st, []⟩ = (.ok (), ⟨db, forget [frag] st, []⟩) := by
  unfold storeDelete
  split
  · next hvalid =>
    have hset : st.set frag none = forget [frag] st := by
      funext g
      simp only [ChunkStore.set, forget, List.mem_singleton]
      split
      · next h => rw [if_pos ⟨h, h ▸ hvalid⟩]
      · next h => rw [if_neg fun hg => h hg.1]
    simp only [List.tail_nil, hset]
  · next hvalid =>
    have hnone : forget [frag] st = st := by
      funext g
      rw [forget, if_neg]
      rintro ⟨hg, hv⟩
      rw [List.mem_singleton.mp hg] at hv
      exact hvalid hv
    rw [hnone]

theorem collect_storeDelete_calm (frags : List RemoteShard) (db : Db) (st : ChunkStore) :
    collect (fun s : RemoteShard => storeDelete s.1) frags ⟨db, st, []⟩ =
      (.ok (frags.map fun _ => ()), ⟨db, forget (frags.map Prod.fst) st, []⟩) := by
  induction frags generalizing st with
  | nil =>
    rw [List.map_nil, List.map_nil, forget_nil]
    rfl
  | cons s frags ih =>
    simp only [collect, bind_apply, storeDelete_calm, ih, forget_append]
    rfl

/-- The fragments of a list that are stored here, and those that are not. -/
def localIds (frags : List RemoteShard) : List Text := (frags.filter fun s => s.2 = LOCAL).map Prod.fst

def remoteOf (frags : List RemoteShard) : List RemoteShard := frags.filter fun s => s.2 ≠ LOCAL

theorem purgeFile_calm {u f : Text} {row : FileRow} {db : Db} (st : ChunkStore)
    (h : getFile db u f = some row) :
    purgeFile u f ⟨db, st, []⟩ = (.ok (row, remoteOf (fragsOf db u f)),
      ⟨deleteFile db u f, forget (localIds (fragsOf db u f)) st, []⟩) := by
  have hget : query (getFile · u f) ⟨db, st, []⟩ = (.ok (some row), ⟨db, st, []⟩) := by
    rw [← h]
    rfl
  have hrow : purgeFileRow u f ⟨db, st, []⟩ = (.ok (fragsOf db u f), ⟨deleteFile db u f, st, []⟩) := rfl
  have hlocal : purgeLocalCollectRemote (fragsOf db u f) ⟨deleteFile db u f, st, []⟩ =
      (.ok (remoteOf (fragsOf db u f)),
        ⟨deleteFile db u f, forget (localIds (fragsOf db u f)) st, []⟩) := by
    rw [purgeLocalCollectRemote, bind_apply, collect_storeDelete_calm]
    rfl
  have hthrow : orThrow .notFound (some row) ⟨db, st, []⟩ = (.ok row, ⟨db, st, []⟩) := rfl
  rw [purgeFile, bind_apply, hget]
  simp only [bind_apply, hthrow, hrow, hlocal]
  rfl

/-! ### Whose a chunk and a shard are -/

def ownsChunk (db : Db) (u : Text) (c : ChunkRow) : Bool := db.files.any (isRow u c.fileId)

def ownsShard (db : Db) (u : Text) (s : ShardRow) : Bool :=
  db.chunks.any fun c => c.chunkId = s.chunkId && ownsChunk db u c

/-- The shards of a user with their locations. -/
def userFrags (db : Db) (u : Text) : List RemoteShard :=
  (db.shards.filter (ownsShard db u)).map fun s => (s.fragmentId, s.location)

section
variable {db : Db} {u : Text}

theorem isRow_iff {u f : Text} {r : FileRec} : isRow u f r = true ↔ r.userId = u ∧ r.fileId = f := by
  rw [isRow, Bool.and_eq_true, decide_eq_true_eq, decide_eq_true_eq]

/-- A chunk goes with the rows of a user exactly when its row is one of them. -/
theorem chunks_deleteUser : (deleteFiles db fun r => r.userId = u).chunks =
    db.chunks.filter fun c => !ownsChunk db u c := by
  apply List.filter_congr
  intro c hc
  obtain ⟨r, hr, hid⟩ := List.mem_map.mp (db.constraints.chunkFiles c hc)
  rw [Bool.eq_iff_iff, decide_eq_true_eq, Bool.not_eq_true', Bool.eq_false_iff, ownsChunk, ne_eq,
    List.any_eq_true]
  constructor
  · rintro hmem ⟨q, hq, hsel⟩
    obtain ⟨p, hp, hpid⟩ := List.mem_map.mp hmem
    obtain ⟨hp, hpu⟩ := List.mem_filter.mp hp
    obtain ⟨hqu, hqid⟩ := isRow_iff.mp hsel
    have hpq : p = q := eq_of_key db.constraints.fileIds hp hq (hpid.trans hqid.symm)
    simp [hpq, hqu] at hpu
  · intro hno
    refine List.mem_map.mpr ⟨r, List.mem_filter.mpr ⟨hr, ?_⟩, hid⟩
    rw [Bool.not_eq_true', decide_eq_false_iff_not]
    intro hru
    exact hno ⟨r, hr, isRow_iff.mpr ⟨hru, hid⟩⟩

theorem shards_deleteUser : (deleteFiles db fun r => r.userId = u).shards =
    db.shards.filter fun s => !ownsShard db u s := by
  have hstep : (deleteFiles db fun r => r.userId = u).shards = db.shards.filter fun s =>
      decide (s.chunkId ∈ (deleteFiles db fun r => r.userId = u).chunks.map ChunkRow.chunkId) := rfl
  rw [hstep, chunks_deleteUser]
  apply List.filter_congr
  intro s hs
  obtain ⟨c, hc, hid⟩ := List.mem_map.mp (db.constraints.shardChunks s hs)
  rw [Bool.eq_iff_iff, decide_eq_true_eq, Bool.not_eq_true', Bool.eq_false_iff, ownsShard, ne_eq,
    List.any_eq_true]
  constructor
  · rintro hmem ⟨d, hd, hsel⟩
    obtain ⟨e, he, heid⟩ := List.mem_map.mp hmem
    obtain ⟨he, hno⟩ := List.mem_filter.mp he
    rw [Bool.and_eq_true, decide_eq_true_eq] at hsel
    have hed : e = d := eq_of_key db.constraints.chunkIds he hd (heid.trans hsel.1.symm)
    rw [hed, hsel.2] at hno
    cases hno
  · intro hno
    refine List.mem_map.mpr ⟨c, List.mem_filter.mpr ⟨hc, ?_⟩, hid⟩
    rw [Bool.not_eq_true', Bool.eq_false_iff]
    intro hown
    exact hno ⟨c, hc, by rw [hid, hown]; simp⟩

theorem userFrags_nodup : ((userFrags db u).map Prod.fst).Nodup := by
  rw [userFrags, List.map_map]
  exact nodup_filter _ db.constraints.shardIds

theorem mem_fragsOf {f : Text} {x : RemoteShard} : x ∈ fragsOf db u f ↔
    db.files.any (isRow u f) = true ∧ ∃ s ∈ db.shards, (∃ c ∈ db.chunks, c.chunkId = s.chunkId ∧
      c.fileId = f) ∧ x = (s.fragmentId, s.location) := by
  unfold fragsOf
  split
  · next h =>
    simp only [h, true_and, List.mem_map, List.mem_filter, List.any_eq_true, Bool.and_eq_true,
      decide_eq_true_eq]
    constructor
    · rintro ⟨s, ⟨hs, hc⟩, rfl⟩
      exact ⟨s, hs, hc, rfl⟩
    · rintro ⟨s, hs, hc, rfl⟩
      exact ⟨s, ⟨hs, hc⟩, rfl⟩
  · next h => simp [h]

/-- Row by row, each shard of the user is collected once. -/
theorem fragsOf_flatMap {ids : List Text} (hn : ids.Nodup)
    (hids : ∀ f, f ∈ ids ↔ db.files.any (isRow u f) = true) :
    (ids.flatMap (fragsOf db u)).Perm (userFrags db u) := by
  have hinj : ∀ s ∈ db.shards, ∀ s' ∈ db.shards, s.fragmentId = s'.fragmentId → s = s' :=
    fun s hs s' hs' he => eq_of_key db.constraints.shardIds hs hs' he
  have heach : ∀ f, (fragsOf db u f).Nodup := by
    intro f
    unfold fragsOf
    split
    · refine List.Nodup.of_map Prod.fst ?_
      rw [List.map_map]
      exact nodup_filter _ db.constraints.shardIds
    · exact List.nodup_nil
  rw [List.perm_ext_iff_of_nodup]
  · intro x
    simp only [List.mem_flatMap, mem_fragsOf, userFrags, List.mem_map, List.mem_filter, ownsShard,
      ownsChunk, List.any_eq_true (l := db.chunks), Bool.and_eq_true, decide_eq_true_eq]
    constructor
    · rintro ⟨f, -, hany, s, hs, ⟨c, hc, hid, rfl⟩, rfl⟩
      exact ⟨s, ⟨hs, c, hc, hid, hany⟩, rfl⟩
    · rintro ⟨s, ⟨hs, c, hc, hid, hany⟩, rfl⟩
      exact ⟨c.fileId, (hids _).mpr hany, hany, s, hs, ⟨c, hc, hid, rfl⟩, rfl⟩
  · refine List.nodup_flatMap.mpr ⟨fun f _ => heach f, hn.imp ?_⟩
    intro f g hfg x hf hg
    obtain ⟨-, s, hs, ⟨c, hc, hid, hcf⟩, rfl⟩ := mem_fragsOf.mp hf
    obtain ⟨-, s', hs', ⟨d, hd, hid', hdg⟩, he⟩ := mem_fragsOf.mp hg
    have hss : s = s' := hinj s hs s' hs' (Prod.mk.inj he).1
    have hcd : c = d := eq_of_key db.constraints.chunkIds hc hd (by rw [hid, hid', hss])
    exact hfg (by rw [← hcf, ← hdg, hcd])
  · exact List.Nodup.of_map Prod.fst userFrags_nodup

end

end P2pnas.Store.Removal
