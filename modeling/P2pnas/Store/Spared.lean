import P2pnas.Store.Migration
import P2pnas.Store.Operations

/-!
# Files that a call leaves alone (`service.rs`, `manifest.rs`)

A call takes the ids it is given, those its selections name and those it mints. What a file that is
not among them reads from, its chunk rows, their shard rows and the bytes at these, is the same
after the call, whatever fails in it.
-/

namespace P2pnas.Store.Spared
open P2pnas.Lib.Frames P2pnas.Lib.Strings P2pnas.Lib.Runs P2pnas.Core.Base P2pnas.Store.Manifest
open P2pnas.Store.Session P2pnas.Store.Reading P2pnas.Store.Service P2pnas.Store.Packing
open P2pnas.Store.Shelves P2pnas.Store.Edits P2pnas.Store.Crashes P2pnas.Store.Operations
open P2pnas.Store.Rows P2pnas.Store.Migration

/-- The ids a call mints. -/
def Mints : Op → Text → Prop
  | .push _ _ _ mint _, m => m = mint
  | .packFiles _ _ packId _, m => m = packId
  | .compactPack _ _ _ newPackId _, m => m = newPackId
  | .repackSmallFiles _ mints _, m => ∃ i, m = mints i
  | _, _ => False

/-- The files whose rows a call on `b` is about, by their ids. A path selects live rows, and moves
them at most. -/
def Takes (b : Db) : Op → Text → Prop
  | .trash _ f _, g | .restore _ f _ _, g | .purgeFile _ f, g => g = f
  | .emptyTrash u, g => ∃ row ∈ listTrashed b u, row.fileId = g
  | .purgeRetired policy t v, g => ∃ c ∈ retiredCandidates b policy t v, c.2.1 = g
  | .packFiles _ entries _ _, g => ∃ e ∈ entries, e.fileId = g
  | .compactPack _ old survivors _ _, g => g = old ∨ ∃ e ∈ survivors, e.fileId = g
  | .repackSmallFiles u _ _, g => ∃ row ∈ packableFiles b u SMALL_MAX, row.fileId = g
  | .setLocation frag _, g => ∃ s ∈ b.shards, s.fragmentId = frag ∧ ∃ i, s.chunkId = chunkId g i
  | .push .., _ | .trashPath .., _ | .rename .., _ | .mkdir .., _ => False

/-- `s` is a shard of file `g`. -/
def ShardOf (g : Text) (s : ShardRow) : Prop := ∃ i, s.chunkId = chunkId g i

section
variable {K : Type} (P : Prims K)

/-- The call takes none of the files and gives none of their fragment ids to a new one. -/
structure Spares (F : Set Text) (b : Db) (o : Op) : Prop where
  taken : ∀ g ∈ F, ¬ Takes b o g
  minted : ∀ m, Mints o m → m ∉ F
  apart : ∀ m, Mints o m → ∀ g ∈ F, ∀ s ∈ b.shards, ShardOf g s → ¬ Addr P m s.fragmentId

theorem Spares.of_forall {P : Prims K} {F : Set Text} {b : Db} {o : Op} (h : ∀ g ∈ F, Spares P {g} b o) :
    Spares P F b o where
  taken := fun g hg => (h g hg).taken g rfl
  minted := fun m hm hin => (h m hin).minted m hm rfl
  apart := fun m hm g hg => (h g hg).apart m hm g rfl

/-- No fragment id of the files in `F` is one of a file in `M`. -/
structure Guarded (F M : Set Text) (db : Db) : Prop where
  tidy : Tidy P db
  apart : ∀ m ∈ M, ∀ g ∈ F, ∀ s ∈ db.shards, ShardOf g s → ¬ Addr P m s.fragmentId

/-- The rows and the bytes that the files in `F` read from are the same. -/
structure Same (F : Set Text) (w w' : World) : Prop where
  rows : ∀ g ∈ F, SameAt g w.db w'.db
  bytes : ∀ g ∈ F, ∀ s ∈ w.db.shards, ShardOf g s → w'.store s.fragmentId = w.store s.fragmentId

def Sparing (F M : Set Text) (w w' : World) : Prop :=
  Guarded P F M w.db → Guarded P F M w'.db ∧ Same F w w'

end

/-! ### Composition -/

section
variable {K : Type} {P : Prims K} {F M : Set Text} {w w' : World} {α β : Type}

theorem shard_back {g : Text} {db db' : Db} (h : SameAt g db db') {s : ShardRow} (hs : s ∈ db'.shards)
    (hg : ShardOf g s) : s ∈ db.shards := by
  obtain ⟨i, hi⟩ := hg
  have hmem : s ∈ getShards db' (chunkId g i) := mem_getShards.mpr ⟨hs, hi⟩
  rw [h.shards i] at hmem
  exact (mem_getShards.mp hmem).1

theorem shard_kept {g : Text} {db db' : Db} (h : SameAt g db db') {s : ShardRow} (hs : s ∈ db.shards)
    (hg : ShardOf g s) : s ∈ db'.shards := by
  obtain ⟨i, hi⟩ := hg
  have hmem : s ∈ getShards db (chunkId g i) := mem_getShards.mpr ⟨hs, hi⟩
  rw [← h.shards i] at hmem
  exact (mem_getShards.mp hmem).1

theorem Same.trans {w₁ : World} (h : Same F w w₁) (h' : Same F w₁ w') : Same F w w' := by
  refine ⟨fun g hg => (h.rows g hg).trans (h'.rows g hg), fun g hg s hs hof => ?_⟩
  rw [h'.bytes g hg s (shard_kept (h.rows g hg) hs hof) hof, h.bytes g hg s hs hof]

theorem Guarded.same (h : Guarded P F M w.db) (ht : Tidy P w'.db) (hs : Same F w w') :
    Guarded P F M w'.db :=
  ⟨ht, fun m hm g hg s hsh hof => h.apart m hm g hg s (shard_back (hs.rows g hg) hsh hof) hof⟩

theorem spared_frame (P : Prims K) (F M : Set Text) : Frame (Sparing P F M) where
  refl _ _ hg := ⟨hg, fun g _ => .refl g _, fun _ _ _ _ _ => rfl⟩
  trans _ _ _ h h' hg :=
    ⟨(h' (h hg).1).1, (h hg).2.trans (h' (h hg).1).2⟩

theorem spared_of_touches (h : Touches P Fᶜ M w w') : Sparing P F M w w' := by
  intro hg
  obtain ⟨ht, hsame⟩ := h.db hg.tidy
  have hs : Same F w w' := by
    refine ⟨fun g hgF => hsame g fun hnot => hnot hgF, fun g hgF s hsh hof => ?_⟩
    exact h.store _ fun m hm => hg.apart m hm g hgF s hsh hof
  exact ⟨hg.same ht hs, hs⟩

theorem moves_spared {x : Svc α} (h : Moves (Touches P Fᶜ M) x) : Moves (Sparing P F M) x :=
  fun w => spared_of_touches (h w)

/-- Calls on paths and stamps change nothing that any file reads. -/
theorem shelved_same {x : Svc α} (ht : Tidy P w.db)
    (hx : Moves (Touches P ∅ ∅) x) : Tidy P (x w).2.db ∧ Same Set.univ w (x w).2 := by
  have hmoves : Moves (Touches P Set.univᶜ ∅) x := by
    rw [Set.compl_univ]
    exact hx
  have hall := spared_of_touches (hmoves w)
  obtain ⟨hg, hs⟩ := hall ⟨ht, fun m hm => absurd hm (Set.notMem_empty m)⟩
  exact ⟨hg.tidy, hs⟩

theorem transaction_store (body : Svc α) (w : World) :
    (transaction body w).2.store = (body w).2.store := by
  rw [transaction]
  cases body w with
  | mk r w₁ =>
    cases r with
    | error e => rfl
    | ok a =>
      simp only [effect]
      split <;> rfl

/-- A transaction that does not commit leaves bytes at most. -/
theorem spared_transaction {body : Svc α} (h : Sparing P F M w (body w).2) :
    Sparing P F M w (transaction body w).2 := by
  intro hg
  obtain ⟨hg', hs⟩ := h hg
  cases hx : transaction body w with
  | mk r w₂ =>
    cases r with
    | ok a =>
      obtain ⟨w₁, hb, hdb, hst⟩ := transaction_ok hx
      rw [hb] at hg' hs
      dsimp only at hg' hs ⊢
      refine ⟨by rw [hdb]; exact hg', fun g hgF => by rw [hdb]; exact hs.rows g hgF, ?_⟩
      rw [hst]
      exact hs.bytes
    | error e =>
      have hdb := transaction_error hx
      have hst : w₂.store = (body w).2.store := by
        have hsame := transaction_store body w
        rw [hx] at hsame
        exact hsame
      dsimp only
      refine ⟨by rw [hdb]; exact hg, fun g _ => by rw [hdb]; exact .refl g w.db, ?_⟩
      rw [hst]
      exact hs.bytes

/-- Shards that are given up are no rows of the files any more when their bytes go. -/
theorem spared_purged {x : Svc α} (freed : α → List RemoteShard) (k : α → List RemoteShard → β)
    (hx : Sparing P F M w (x w).2)
    (hfreed : Guarded P F M w.db → ∀ a w₁, x w = (.ok a, w₁) → ∀ g ∈ F, ∀ s ∈ w₁.db.shards,
      ShardOf g s → ∀ r ∈ freed a, r.1 ≠ s.fragmentId) :
    Sparing P F M w ((x >>= fun a => purgeLocalCollectRemote (freed a) >>= fun remote =>
      (pure (k a remote) : Svc β)) w).2 := by
  rcases bind_cases x (fun a => purgeLocalCollectRemote (freed a) >>= fun remote =>
    (pure (k a remote) : Svc β)) w with ⟨e, w₁, hrun, heq⟩ | ⟨a, w₁, hrun, heq⟩
  · rw [heq]
    rw [hrun] at hx
    exact hx
  · intro hg
    have hpast := hx hg
    rw [hrun] at hpast
    obtain ⟨w₂, hpurge, hdb, hst⟩ := purgeLocal_spec (freed a) w₁
    have hlast : (x >>= fun a => purgeLocalCollectRemote (freed a) >>= fun remote =>
        (pure (k a remote) : Svc β)) w = (.ok (k a ((freed a).filter fun s => s.2 ≠ LOCAL)), w₂) := by
      rw [heq, bind_apply, hpurge]
      rfl
    rw [hlast]
    have hsame : Same F w₁ w₂ := by
      refine ⟨fun g _ => by rw [hdb]; exact .refl g w₁.db, fun g hgF s hs hof => hst _ fun r hr _ => ?_⟩
      exact (hfreed hg a w₁ hrun g hgF s hs hof r hr).symm
    exact ⟨hdb ▸ hpast.1, hpast.2.trans hsame⟩

/-! ### Reading -/

theorem Same.own {g : Text} (ht : Tidy P w.db) (h : Same F w w') (hg : g ∈ F) : OwnSame g w w' := by
  have hindex : ∀ c ∈ getChunks w.db g, ∃ i, c.chunkId = chunkId g i := by
    intro c hc
    obtain ⟨hmem, hcg⟩ := mem_getChunks.mp hc
    obtain ⟨i, hi⟩ := ht.chunks c hmem
    exact ⟨i, by rw [hi, hcg]⟩
  refine ⟨(h.rows g hg).chunks, fun c hc => ?_, fun c hc s hs => ?_⟩
  · obtain ⟨i, hi⟩ := hindex c hc
    rw [hi]
    exact (h.rows g hg).shards i
  · obtain ⟨i, hi⟩ := hindex c hc
    obtain ⟨hmem, hsc⟩ := mem_getShards.mp hs
    exact h.bytes g hg s hmem ⟨i, hsc.trans hi⟩

theorem Same.symm (h : Same F w w') : Same F w' w := by
  refine ⟨fun g hg => ?_, fun g hg s hs hof => ?_⟩
  · have hrows := h.rows g hg
    exact ⟨hrows.cols.symm, hrows.chunks.symm, fun i => (hrows.shards i).symm⟩
  · exact (h.bytes g hg s (shard_back (h.rows g hg) hs hof) hof).symm

section
variable {key : K} {u f : Text}

/-- Two rows with the columns of one file read alike. -/
theorem pullOwn_cols {v v' : FileRow} (hid : v'.fileId = v.fileId) (hc : readCols v' = readCols v) :
    pullOwn P key v' f = pullOwn P key v f ∧ ∀ plain, memberSlice plain v' = memberSlice plain v := by
  have hu : v'.userId = v.userId := congrArg ReadCols.userId hc
  have hsize : v'.size = v.size := congrArg ReadCols.size hc
  have hcount : v'.chunkCount = v.chunkCount := congrArg ReadCols.chunkCount hc
  have hscheme : v'.keyScheme = v.keyScheme := congrArg ReadCols.keyScheme hc
  have hoff : v'.packOffset = v.packOffset := congrArg ReadCols.packOffset hc
  have hlen : v'.packLen = v.packLen := congrArg ReadCols.packLen hc
  constructor
  · simp only [pullOwn, rowCipher, hid, hu, hsize, hcount, hscheme]
  · intro plain
    simp only [memberSlice, rangeError, hid, hoff, hlen]

theorem getFile_same {db db' : Db} (h : colsOf db' f = colsOf db f) :
    getFile db u f = none ∧ getFile db' u f = none ∨ ∃ v v', getFile db u f = some v ∧
      getFile db' u f = some v' ∧ v'.fileId = v.fileId ∧ readCols v' = readCols v := by
  have hnone : ∀ db : Db, (∀ c, colsOf db f = some c → c.userId ≠ u) → getFile db u f = none := by
    intro db hno
    cases hv : getFile db u f with
    | none => rfl
    | some v =>
      obtain ⟨-, hu, hcols⟩ := getFile_some hv
      exact absurd hu (hno _ hcols)
  by_cases hu : ∃ c, colsOf db f = some c ∧ c.userId = u
  · obtain ⟨c, hc, rfl⟩ := hu
    obtain ⟨v, hv, hid, hcols⟩ := getFile_of_cols hc
    obtain ⟨v', hv', hid', hcols'⟩ := getFile_of_cols (h.trans hc)
    exact .inr ⟨v, v', hv, hv', hid'.trans hid.symm, hcols'.trans hcols.symm⟩
  · refine .inl ⟨hnone db fun c hc hcu => hu ⟨c, hc, hcu⟩, hnone db' fun c hc hcu => ?_⟩
    exact hu ⟨c, h.symm.trans hc, hcu⟩

theorem own_same {v v' : FileRow} {g : Text} (ht : Tidy P w.db) (h : Same F w w') (hg : g ∈ F)
    (hv : getFile w.db u g = some v) (hid : v'.fileId = v.fileId) (hcols : readCols v' = readCols v) :
    (pullOwn P key v' g).eval w'.db w'.store = (pullOwn P key v g).eval w.db w.store := by
  obtain ⟨r, hr, -, rfl⟩ := rowOf_getFile hv
  obtain rfl := (rowOf_some hr).2
  rw [(pullOwn_cols hid hcols).1]
  exact ownBytes_same (h.own ht hg)

/-- A file reads as before when it and its container are the same. -/
theorem pulled_same (ht : Tidy P w.db) (h : Same F w w') (hf : f ∈ F)
    (hpack : ∀ v, getFile w.db u f = some v → ∀ p, v.packId = some p → p ∈ F) :
    pulled P key w' u f = pulled P key w u f := by
  have hcols : ∀ g ∈ F, colsOf w'.db g = colsOf w.db g := fun g hg => (h.rows g hg).cols
  rw [pulled, pulled, PULL_DEPTH, pull, Read.eval_bind, Read.eval_bind, Read.eval_file, Read.eval_file,
    ok_bind, ok_bind, Read.eval_bind, Read.eval_bind, Read.eval_orStop, Read.eval_orStop]
  rcases @getFile_same u f _ _ (hcols f hf) with ⟨hv, hv'⟩ | ⟨v, v', hv, hv', hid, hc⟩
  · rw [hv, hv']
    rfl
  rw [hv, hv', orFail_some, orFail_some, ok_bind, ok_bind,
    show v'.packId = v.packId from congrArg ReadCols.packId hc]
  cases hp : v.packId with
  | none => exact own_same ht h hf hv hid hc
  | some p =>
    have hpF := hpack v hv p hp
    dsimp only
    rw [Read.eval_bind, Read.eval_bind, Read.eval_file, Read.eval_file, ok_bind, ok_bind,
      Read.eval_bind, Read.eval_bind, Read.eval_orStop, Read.eval_orStop]
    rcases @getFile_same u p _ _ (hcols p hpF) with ⟨hz, hz'⟩ | ⟨z, z', hz, hz', hzid, hzc⟩
    · rw [hz, hz']
      rfl
    rw [hz, hz', orFail_some, orFail_some, ok_bind, ok_bind,
      show z'.packId = z.packId from congrArg ReadCols.packId hzc]
    by_cases hnest : z.packId.isSome = true
    · rw [if_pos hnest, if_pos hnest]
      rfl
    · have hnone : z.packId = none := by
        rw [← Option.not_isSome_iff_eq_none]
        exact hnest
      have hnone' : z'.packId = none := (congrArg ReadCols.packId hzc).trans hnone
      obtain ⟨c, hcr, hcu, rfl⟩ := rowOf_getFile hz
      obtain ⟨c', hcr', hcu', rfl⟩ := rowOf_getFile hz'
      have hbytes : ownBytes P key w' c' = ownBytes P key w c := by
        rw [ownBytes, ownBytes, (rowOf_some hcr).2, (rowOf_some hcr').2]
        exact own_same ht h hpF hz hzid hzc
      rw [if_neg hnest, if_neg hnest, Read.eval_bind, Read.eval_bind, pull_own hcr' hcu' hnone' 0,
        pull_own hcr hcu hnone 0, hbytes]
      congr 1
      funext plain
      rw [Read.eval_done, Read.eval_done, (@pullOwn_cols K P key f _ _ hid hc).2 plain]

end

/-! ### The calls -/

/-- `R` for an answer of the database that the manifest bears out. -/
theorem spared_query_bind {f : Db → α} {g : α → Svc β}
    (hg : ∀ w₁, w₁.db = w.db → w₁.store = w.store → Sparing P F M w₁ (g (f w.db) w₁).2) :
    Sparing P F M w ((query f >>= g) w).2 := by
  have hF := spared_frame P F M
  rcases bind_cases (query f) g w with ⟨e, w₁, hx, hb⟩ | ⟨a, w₁, hx, hb⟩
  · have hq := moves_query hF f w
    rw [hx] at hq
    rw [hb]
    exact hq
  · have hq := moves_query hF f w
    rw [hx] at hq
    obtain ⟨rfl, hdb, hst⟩ := query_ok hx
    rw [hb]
    exact hF.trans _ _ _ hq (hg w₁ hdb hst)

theorem spared_emptyTrash {u : Text} (hF : ∀ g ∈ F, ∀ row ∈ listTrashed w.db u, row.fileId ≠ g) :
    Sparing P F M w (emptyTrash u w).2 := by
  refine spared_purged (fun r : TrashSummary × List RemoteShard => r.2)
    (fun r remote => (r.1, remote)) (spared_transaction ?_) ?_
  · refine spared_query_bind fun w₁ _ _ => ?_
    refine moves_bind (spared_frame P F M) (moves_collect (spared_frame P F M) fun r hr =>
      moves_spared (touches_purgeFileRow ?_)) (fun _ => moves_pure (spared_frame P F M) _) w₁
    exact fun hin => hF _ hin r hr rfl
  · intro _ a w₁ hrun g _ s hs _ r hr
    obtain ⟨w₂, hb, hdb, -⟩ := transaction_ok hrun
    obtain ⟨rows, w₃, hq, h₃⟩ := bind_ok hb
    obtain ⟨frags, w₄, hall, h₄⟩ := bind_ok h₃
    obtain ⟨rfl, rfl⟩ := pure_ok h₄
    have hfreed := collect_freed (fun fs => fs) (fun _ _ _ _ h => purgeFileRow_freed h) hall
    rw [List.map_id'] at hfreed
    exact hfreed.gone s (hdb ▸ hs) r hr

theorem spared_purgeFile {u f : Text} (hf : f ∉ F) : Sparing P F M w (purgeFile u f w).2 := by
  have hR := spared_frame P F M
  refine spared_query_bind fun w₁ _ _ => ?_
  cases hrow : getFile w.db u f with
  | none => exact moves_outcome hR _ w₁
  | some file =>
    refine spared_purged (x := purgeFileRow u f) (fun r => r) (fun _ remote => (file, remote))
      (moves_spared (touches_purgeFileRow hf) w₁) fun _ a w₂ hrun g _ s hs _ r hr => ?_
    exact (purgeFileRow_freed hrun).gone s hs r hr

theorem spared_purgeRetired {policy : RetentionPolicy} {t v : Time}
    (hF : ∀ g ∈ F, ∀ c ∈ retiredCandidates w.db policy t v, c.2.1 ≠ g) :
    Sparing P F M w (purgeRetired policy t v w).2 := by
  have hR := spared_frame P F M
  refine spared_purged (fun r : List PurgeCandidate × List RemoteShard => r.2)
    (fun r remote => ({ files := r.1.length, freed := freedPerUser r.1, remote := remote } :
      PurgeReport)) (spared_transaction ?_) ?_
  · refine spared_query_bind fun w₁ h₁ _ => spared_query_bind fun w₂ h₂ _ =>
      spared_query_bind fun w₃ h₃ _ => spared_query_bind fun w₄ _ _ => ?_
    rw [h₃, h₂, h₁]
    refine moves_bind hR (moves_collect hR fun c hc => moves_spared (touches_purgeFileRow fun hin => ?_))
      (fun _ => moves_pure hR _) w₄
    exact hF _ hin c (firstSeen_subset [] _ hc) rfl
  · intro _ a w₁ hrun g _ s hs _ r hr
    obtain ⟨w₂, hb, hdb, -⟩ := transaction_ok hrun
    obtain ⟨_, wa, -, h₁⟩ := bind_ok hb
    obtain ⟨_, wb, -, h₂⟩ := bind_ok h₁
    obtain ⟨_, wc, -, h₃⟩ := bind_ok h₂
    obtain ⟨_, wd, -, h₄⟩ := bind_ok h₃
    obtain ⟨frags, we, hall, h₅⟩ := bind_ok h₄
    obtain ⟨rfl, rfl⟩ := pure_ok h₅
    have hfreed := collect_freed (fun fs => fs) (fun _ _ _ _ h => purgeFileRow_freed h) hall
    rw [List.map_id'] at hfreed
    exact hfreed.gone s (hdb ▸ hs) r hr

section
variable {key : K}

theorem spared_packFiles {u packId : Text} {entries : List PackEntry} {now : Time}
    (hF : ∀ e ∈ entries, e.fileId ∉ F) (hp : packId ∉ F) (hM : packId ∈ M) :
    Moves (Sparing P F M) (packFiles P key u entries packId now) := by
  have hR := spared_frame P F M
  unfold packFiles
  split
  · exact moves_outcome hR _
  · refine moves_bind hR (moves_outcome hR _) fun built w => ?_
    have hentries : ∀ er ∈ entries.zip built.2, er.1.fileId ∈ Fᶜ := fun er her =>
      hF _ (List.of_mem_zip her).1
    refine spared_purged (fun r : ℤ × List RemoteShard × ℤ => r.2.1)
      (fun r remote => ({
        packId := some packId
        packSize := built.1.length
        packStoredBytes := r.2.2
        members := entries.length
        freedStoredBytes := r.1
        remote := remote } : PackResult))
      (spared_transaction (moves_spared (touches_packFilesTx hentries hp hM) w)) ?_
    intro hg a w₁ hrun g hgF s hs hof r hr
    obtain ⟨w₂, hb, hdb, -⟩ := transaction_ok hrun
    rw [packFilesTx] at hb
    obtain ⟨freed, w₃, hall, h₃⟩ := bind_ok hb
    obtain ⟨stored, w₄, hrow, h₄⟩ := bind_ok h₃
    obtain ⟨rfl, rfl⟩ := pure_ok h₄
    have hpack : Moves (Sparing P F M) (collect (packMember u packId) (entries.zip built.2)) :=
      moves_spared (moves_collect (touches_frame P Fᶜ M) fun er her => touches_packMember (hentries er her))
    have hmembers := hpack w hg
    rw [hall] at hmembers
    have hwrite : Moves (Sparing P F M) (insertPackRow P key u packId built.1 now) :=
      moves_spared (touches_insertPackRow hp hM)
    have hinsert := hwrite w₃ hmembers.1
    rw [hrow] at hinsert
    -- the new rows are not those of a spared file, so its rows are the ones before them
    have hback : s ∈ w₃.db.shards := shard_back (hinsert.2.rows g hgF) (hdb ▸ hs) hof
    exact (collect_freed Prod.snd (fun _ _ _ _ h => packMember_freed h) hall).gone s hback r hr

theorem spared_compactPack {u old new : Text} {survivors : List PackEntry} {now : Time}
    (hF : ∀ e ∈ survivors, e.fileId ∉ F) (hold : old ∉ F) (hnew : new ∉ F) (hM : new ∈ M) :
    Moves (Sparing P F M) (compactPack P key u old survivors new now) := by
  intro w
  refine spared_purged (fun r : FileRow × Option (ℕ × ℤ) × List RemoteShard => r.2.2)
    (fun r remote => ({
      packId := r.2.1.map fun _ => new
      packSize := (r.2.1.map fun n => (n.1 : ℤ)).getD 0
      packStoredBytes := (r.2.1.map Prod.snd).getD 0
      members := survivors.length
      freedStoredBytes := r.1.storedBytes
      remote := remote } : PackResult))
    (spared_transaction (moves_spared (touches_compactPackTx hF hold hnew hM) w)) ?_
  intro _ a w₁ hrun g _ s hs _ r hr
  obtain ⟨w₂, hb, hdb, -⟩ := transaction_ok hrun
  exact (compactPackTx_commit hb).freed s (hdb ▸ hs) r hr

theorem spared_repackGroup {u : Text} {now : Time} {g : List FileRow × Text}
    (hF : ∀ f ∈ g.1, f.fileId ∉ F) (hm : g.2 ∉ F) (hM : g.2 ∈ M) :
    Moves (Sparing P F M) (repackGroup P key u now g) := by
  have hR := spared_frame P F M
  intro w
  have hread : Moves (Sparing P F M) (gather P key u (g.1.map FileRow.fileId)) :=
    moves_collect hR fun f _ => moves_bind hR (Read.moves_run hR _) fun _ => moves_pure hR _
  have hgather := hread w
  rw [repackGroup]
  rcases bind_cases (gather P key u (g.1.map FileRow.fileId)) (fun entries =>
    packFiles P key u entries g.2 now >>= fun r =>
      pure (r, ((entries.map fun e => (e.data.length : ℤ)).sum))) w with ⟨e, w₁, hx, hb⟩ | ⟨es, w₁, hx, hb⟩
  · rw [hx] at hgather
    rw [hb]
    exact hgather
  · rw [hx] at hgather
    rw [hb]
    have hentries : ∀ e ∈ es, e.fileId ∉ F := by
      intro e he
      obtain ⟨f, hf, hid⟩ := List.mem_map.mp ((gather_ok hx).2.2 e he).1
      exact hid ▸ hF f hf
    exact hR.trans _ _ _ hgather
      (moves_bind hR (spared_packFiles hentries hm hM) (fun _ => moves_pure hR _) w₁)

theorem spared_repackSmallFiles {u : Text} {mints : ℕ → Text} {now : Time}
    (hF : ∀ g ∈ F, ∀ row ∈ packableFiles w.db u SMALL_MAX, row.fileId ≠ g)
    (hm : ∀ i, mints i ∉ F) (hM : ∀ i, mints i ∈ M) :
    Sparing P F M w (repackSmallFiles P key u mints now w).2 := by
  have hR := spared_frame P F M
  refine spared_query_bind fun w₁ _ _ => moves_bind hR (moves_collect hR fun g hg => ?_)
    (fun _ => moves_pure hR _) w₁
  obtain ⟨⟨group, i⟩, hgi, rfl⟩ := List.mem_map.mp hg
  refine spared_repackGroup (fun f hf hin => ?_) (hm i) (hM i)
  have hgroup : group ∈ planPacks (packableFiles w.db u SMALL_MAX) PACK_TARGET :=
    (List.mem_zipIdx hgi).2.2 ▸ List.getElem_mem _
  rcases mem_planGroups (List.mem_filter.mp hgroup).1 f hf with hnone | hrow
  · cases hnone
  · exact hF _ hin f hrow rfl

theorem dbEdits_setShardLocation {T : Set Text} {db : Db} {frag location : Text}
    (hT : ∀ s ∈ db.shards, s.fragmentId = frag → ∀ g, ShardOf g s → g ∈ T) :
    DbEdits P T db (setShardLocation db frag location) := by
  intro ht
  refine ⟨⟨ht.chunks, fun s hs => ?_⟩, fun g hg => ⟨rfl, rfl, fun i => ?_⟩⟩
  · have hrow : s ∈ Lib.Tables.update (fun s : ShardRow => decide (s.fragmentId = frag))
        (fun s => { s with location := location }) db.shards := hs
    obtain ⟨s₀, hs₀, ⟨-, rfl⟩ | ⟨-, rfl⟩⟩ := Lib.Tables.mem_update.mp hrow
    · exact ht.shards s₀ hs₀
    · exact ht.shards s hs₀
  · have hkeep : ∀ s ∈ db.shards, s.chunkId = chunkId g i → s.fragmentId ≠ frag :=
      fun s hs hsi heq => hg (hT s hs heq g ⟨i, hsi⟩)
    have hrows : (setShardLocation db frag location).shards =
        db.shards.map fun s => if decide (s.fragmentId = frag) then { s with location := location } else s := rfl
    rw [getShards, hrows, List.filter_map, getShards]
    have hsel : ((fun s : ShardRow => decide (s.chunkId = chunkId g i)) ∘ fun s =>
        if decide (s.fragmentId = frag) then { s with location := location } else s) =
        fun s => decide (s.chunkId = chunkId g i) := by
      funext s
      simp only [Function.comp_apply]
      split <;> rfl
    rw [hsel]
    congr 1
    have hid : ∀ s ∈ db.shards.filter (fun s => decide (s.chunkId = chunkId g i)),
        (if decide (s.fragmentId = frag) then { s with location := location } else s) = s := by
      intro s hs
      obtain ⟨hmem, hsi⟩ := List.mem_filter.mp hs
      rw [decide_eq_false (hkeep s hmem (of_decide_eq_true hsi)), if_neg Bool.false_ne_true]
    exact (List.map_congr_left hid).trans (List.map_id' _)

/-- What a call does to the files it does not take, whatever fails. -/
theorem op_same (o : Op) (ht : Tidy P w.db) (hs : Spares P F w.db o) :
    Tidy P (o.leaves P key w).db ∧ Same F w (o.leaves P key w) := by
  have hg : Guarded P F {m | Mints o m} w.db := ⟨ht, fun m hm => hs.apart m hm⟩
  have hall : Sparing P F {m | Mints o m} w (o.leaves P key w) := by
    cases o with
    | push u path data mint now =>
      have hm : mint ∈ {m | Mints (.push u path data mint now) m} := rfl
      exact moves_spared (touches_push (hs.minted mint rfl) hm) w
    | trash u f now => exact moves_spared (moves_trash touches_shelves u f now) w
    | trashPath u path now => exact moves_spared (moves_trashPath touches_shelves u path now) w
    | restore u f newPath now => exact moves_spared (moves_restore touches_shelves u f newPath now) w
    | rename u fromPath toPath => exact moves_spared (moves_rename touches_shelves u fromPath toPath) w
    | mkdir u path => exact moves_spared (moves_mkdir touches_shelves u path) w
    | purgeFile u f => exact spared_purgeFile fun hin => hs.taken f hin rfl
    | emptyTrash u => exact spared_emptyTrash fun g hg row hrow heq => hs.taken g hg ⟨row, hrow, heq⟩
    | purgeRetired policy t v =>
      exact spared_purgeRetired fun g hg c hc heq => hs.taken g hg ⟨c, hc, heq⟩
    | packFiles u entries packId now =>
      have hm : packId ∈ {m | Mints (.packFiles u entries packId now) m} := rfl
      exact spared_packFiles (fun e he hin => hs.taken _ hin ⟨e, he, rfl⟩) (hs.minted packId rfl) hm w
    | compactPack u old survivors new now =>
      have hm : new ∈ {m | Mints (.compactPack u old survivors new now) m} := rfl
      exact spared_compactPack (fun e he hin => hs.taken _ hin (.inr ⟨e, he, rfl⟩))
        (fun hin => hs.taken _ hin (.inl rfl)) (hs.minted new rfl) hm w
    | repackSmallFiles u mints now =>
      exact spared_repackSmallFiles (fun g hg row hrow heq => hs.taken g hg ⟨row, hrow, heq⟩)
        (fun i => hs.minted _ ⟨i, rfl⟩) (fun i => ⟨i, rfl⟩)
    | setLocation frag location =>
      refine spared_of_touches ?_
      have hedit : DbEdits P Fᶜ w.db (setShardLocation w.db frag location) :=
        dbEdits_setShardLocation fun s hsm heq g hof hin => hs.taken g hin ⟨s, hsm, heq, hof⟩
      change Touches P Fᶜ _ w (stmt (fun db => some (setShardLocation db frag location)) w).2
      cases hx : stmt (fun db => some (setShardLocation db frag location)) w with
      | mk r w₁ =>
        cases r with
        | error e => exact touches_of_eq (stmt_error hx).1 (stmt_error hx).2
        | ok _ =>
          obtain ⟨hdb, hst⟩ := stmt_ok hx
          refine ⟨?_, fun _ _ => by rw [hst]⟩
          dsimp only
          rw [← Option.some.inj hdb]
          exact hedit
  exact ⟨(hall hg).1.tidy, (hall hg).2⟩

/-! ### Runs -/

/-- Every call of a run leaves the files alone. -/
theorem run_same {as : List (Op × List Event)} (ht : Tidy P w.db)
    (has : AllMeet (step P key) (fun w a => Spares P F w.db a.1) w as) :
    Tidy P (run (step P key) w as).db ∧ Same F w (run (step P key) w as) := by
  refine run_invariant (I := fun w' => Tidy P w'.db ∧ Same F w w') ?_
    ⟨ht, fun g _ => .refl g _, fun _ _ _ _ _ => rfl⟩ has
  intro w₁ a hI ha
  obtain ⟨ht', hs⟩ := @op_same K P F { w₁ with script := a.2 } key a.1 hI.1 ha
  exact ⟨ht', hI.2.trans ⟨hs.rows, hs.bytes⟩⟩

theorem op_tidy (o : Op) (ht : Tidy P w.db) : Tidy P (o.leaves P key w).db :=
  (@op_same K P ∅ w key o ht ⟨nofun, fun _ _ => id, nofun⟩).1

theorem reached_tidy (h : Reached P key w) : Tidy P w.db := by
  obtain ⟨as, rfl⟩ := h
  have hstep : ∀ w a, Tidy P w.db → True → Tidy P (step P key w a).db := fun w a ht _ =>
    @op_tidy K P { w with script := a.2 } key a.1 ht
  exact run_invariant (I := fun w : World => Tidy P w.db) hstep (tidy_empty P)
    (allMeet_of_forall (Q := fun _ => True) fun _ _ => trivial)

end

end

end P2pnas.Store.Spared
