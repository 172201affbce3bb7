import P2pnas.Core.Sample
import P2pnas.Store.Edits
import P2pnas.Store.Faultless

/-!
# Errors and crashes (`service.rs:52-161`, `255-267`, `379-512`, `947-1167`)

Shards are written before a commit and freed after it, and neither is undone. At whatever
statement or file operation a call fails, the manifest is the one before or the one a call
without faults leaves, and the bytes of every local shard row are there. A crash is a script
whose remaining effects all fail: what was not committed is rolled back when the manifest is
opened again.
-/

namespace P2pnas.Store.Crashes
open P2pnas.Lib.Frames P2pnas.Lib.Strings P2pnas.Lib.Tables P2pnas.Core P2pnas.Core.Base
open P2pnas.Core.Erasure P2pnas.Core.Pipeline P2pnas.Store.Manifest P2pnas.Store.Session
open P2pnas.Store.Service P2pnas.Store.Packing P2pnas.Store.Shelves P2pnas.Store.Written
open P2pnas.Store.Edits P2pnas.Store.Faultless

variable {K : Type} (P : Prims K)

/-- No shard row has a fragment id of these files. -/
def Unused (A : Set Text) (db : Db) : Prop := ∀ s ∈ db.shards, ∀ f ∈ A, ¬ Addr P f s.fragmentId

/-- `w'`: what a call left of `w`; `done`: what it leaves where nothing fails. -/
structure AtomicAt (w w' done : World) : Prop where
  manifest : w'.db = w.db ∨ w'.db = done.db
  kept : ∀ s ∈ w'.db.shards, s ∈ w.db.shards → s.location = LOCAL →
    ∀ b, w.store s.fragmentId = some b → w'.store s.fragmentId = some b
  written : ∀ s ∈ w'.db.shards, s ∉ w.db.shards →
    ∃ b, w'.store s.fragmentId = some b ∧ s.hash = shardHash P b

/-- Under every script, when the ids in `A` are unused. -/
def Atomic {α : Type} (A : Set Text) (x : Svc α) : Prop :=
  ∀ w, Unused P A w.db → AtomicAt P w (x w).2 (x (faultless w)).2

section
variable {P} {A : Set Text} {α β : Type}

/-! ### Composition -/

/-- Bytes change only at the fragment ids of `A`. -/
def WritesOnly (P : Prims K) (A : Set Text) (w w' : World) : Prop :=
  ∀ g, (∀ f ∈ A, ¬ Addr P f g) → w'.store g = w.store g

theorem atomicAt_unchanged {w w' done : World} (hu : Unused P A w.db) (hdb : w'.db = w.db)
    (hst : WritesOnly P A w w') : AtomicAt P w w' done where
  manifest := .inl hdb
  kept s hs _ _ b hb := by
    rw [hdb] at hs
    rw [hst _ (hu s hs)]
    exact hb
  written s hs hnew := by
    rw [hdb] at hs
    exact absurd hs hnew

theorem atomic_outcome (o : Outcome StoreError α) : Atomic P A (ofOutcome o : Svc α) :=
  fun _ hu => atomicAt_unchanged hu rfl fun _ _ => rfl

theorem atomic_outcome_bind {o : Outcome StoreError α} {f : α → Svc β}
    (hf : ∀ a, o = .ok a → Atomic P A (f a)) : Atomic P A (ofOutcome o >>= f) := by
  intro w hu
  cases o with
  | error e => exact atomicAt_unchanged hu rfl fun _ _ => rfl
  | ok a => exact hf a rfl w hu

theorem atomic_query_bind {q : Db → α} {f : α → Svc β} (hf : ∀ a, Atomic P A (f a)) :
    Atomic P A (query q >>= f) := by
  intro w hu
  have hdone : (query q >>= f) (faultless w) = f (q w.db) (faultless w) := rfl
  rw [hdone]
  rcases bind_cases (query q) f w with ⟨e, w₁, hq, heq⟩ | ⟨a, w₁, hq, heq⟩
  · rw [heq]
    obtain ⟨hdb, hst⟩ := query_error hq
    exact atomicAt_unchanged hu hdb fun _ _ => by rw [hst]
  · obtain ⟨rfl, hdb, hst⟩ := query_ok hq
    rw [heq]
    have h := hf (q w.db) w₁ (by rw [hdb]; exact hu)
    have hless : faultless w₁ = faultless w := by
      simp only [faultless, hdb, hst]
    rw [hless] at h
    obtain ⟨hmanifest, hkept, hwritten⟩ := h
    rw [hdb] at hmanifest hwritten
    rw [hdb, hst] at hkept
    exact ⟨hmanifest, hkept, hwritten⟩

/-- What a part that came through did: rows were there or have their bytes, and no row is at a
fragment id that it gives up. -/
structure Commit (P : Prims K) (A : Set Text) (w w' : World) (freed : List RemoteShard) : Prop where
  store : WritesOnly P A w w'
  rows : ∀ s ∈ w'.db.shards, s ∈ w.db.shards ∨
    ∃ b, w'.store s.fragmentId = some b ∧ s.hash = shardHash P b
  freed : ∀ s ∈ w'.db.shards, ∀ r ∈ freed, r.1 ≠ s.fragmentId

/-- What follows a commit: the manifest stays, bytes go only at these fragment ids. -/
def Tail (freed : List RemoteShard) (x : Svc α) : Prop :=
  ∀ w, (x w).2.db = w.db ∧ ∀ g, (∀ r ∈ freed, r.1 ≠ g) → (x w).2.store g = w.store g

/-- A part that changes the manifest all at once or not at all, and what follows it. -/
theorem atomic_bind {x : Svc α} {g : α → Svc β} {freed : α → List RemoteShard}
    (hsteady : Steady x)
    (hfail : ∀ w e w', x w = (.error e, w') → w'.db = w.db ∧ WritesOnly P A w w')
    (hcommit : ∀ w a w', Unused P A w.db → x w = (.ok a, w') → Commit P A w w' (freed a))
    (htail : ∀ a, Tail (freed a) (g a)) : Atomic P A (x >>= g) := by
  intro w hu
  rcases bind_cases x g w with ⟨e, w₁, hx, heq⟩ | ⟨a, w₁, hx, heq⟩
  · rw [heq]
    exact atomicAt_unchanged hu (hfail w e w₁ hx).1 (hfail w e w₁ hx).2
  · have hc := hcommit w a w₁ hu hx
    obtain ⟨hdb, hst⟩ := htail a w₁
    have hdone : ((x >>= g) (faultless w)).2.db = w₁.db := by
      rw [bind_apply, hsteady w a w₁ hx]
      exact (htail a (faultless w₁)).1
    rw [heq]
    refine ⟨.inr (hdb.trans hdone.symm), ?_, ?_⟩
    · intro s hs hold _ b hb
      rw [hdb] at hs
      rw [hst _ fun r hr => hc.freed s hs r hr, hc.store _ (hu s hold)]
      exact hb
    · intro s hs hnew
      rw [hdb] at hs
      rw [hst _ fun r hr => hc.freed s hs r hr]
      exact (hc.rows s hs).resolve_left hnew

theorem tail_pure (a : α) : Tail [] (pure a : Svc α) := fun _ => ⟨rfl, fun _ _ => rfl⟩

theorem atomic_of_pure {x : Svc α} (h : Atomic P A (x >>= pure)) : Atomic P A x := by
  have heq : ∀ w, (x >>= pure) w = x w := by
    intro w
    rw [bind_apply]
    cases x w with
    | mk o w₁ => cases o <;> rfl
  intro w hu
  have hw := h w hu
  rw [heq, heq] at hw
  exact hw

/-- Freeing local shards after a commit. -/
theorem tail_purgeLocal (freed : List RemoteShard) (k : List RemoteShard → β) :
    Tail freed (purgeLocalCollectRemote freed >>= fun remote => (pure (k remote) : Svc β)) := by
  intro w
  obtain ⟨w', h, hdb, hst⟩ := purgeLocal_spec freed w
  rw [bind_apply, h]
  exact ⟨hdb, fun g hg => hst g fun r hr _ he => hg r hr he.symm⟩

theorem fail_transaction {T : Set Text} {body : Svc α} (h : Moves (Touches P T A) body) {w w' : World}
    {e : Stop StoreError} (he : transaction body w = (.error e, w')) :
    w'.db = w.db ∧ WritesOnly P A w w' :=
  ⟨transaction_error he, (touches_rolledBack h he).store⟩

theorem commit_transaction {body : Svc α} {freed : List RemoteShard} {w w' : World} {a : α}
    (h : ∀ w₁, body w = (.ok a, w₁) → Commit P A w w₁ freed) (he : transaction body w = (.ok a, w')) :
    Commit P A w w' freed := by
  obtain ⟨w₁, hb, hdb, hst⟩ := transaction_ok he
  have hc := h w₁ hb
  refine ⟨fun g hg => ?_, ?_, ?_⟩
  · rw [hst]
    exact hc.store g hg
  · rw [hdb, hst]
    exact hc.rows
  · rw [hdb]
    exact hc.freed

/-! ### Giving shards up -/

/-- Rows were removed and their fragment ids returned; bytes stay for now. -/
structure Freed (w w' : World) (frags : List RemoteShard) : Prop where
  store : w'.store = w.store
  rows : ∀ s ∈ w'.db.shards, s ∈ w.db.shards
  known : ∀ r ∈ frags, r.1 ∈ w.db.shards.map ShardRow.fragmentId
  gone : ∀ s ∈ w'.db.shards, ∀ r ∈ frags, r.1 ≠ s.fragmentId

theorem Freed.same {w w' : World} (hst : w'.store = w.store) (hsh : w'.db.shards = w.db.shards) :
    Freed w w' [] where
  store := hst
  rows _ hs := hsh ▸ hs
  known _ hr := absurd hr List.not_mem_nil
  gone _ _ _ hr := absurd hr List.not_mem_nil

theorem Freed.append {a b c : World} {fs gs : List RemoteShard} (h : Freed a b fs)
    (h' : Freed b c gs) : Freed a c (fs ++ gs) where
  store := h'.store.trans h.store
  rows s hs := h.rows s (h'.rows s hs)
  known r hr := by
    rcases List.mem_append.mp hr with hr | hr
    · exact h.known r hr
    · obtain ⟨s, hs, hid⟩ := List.mem_map.mp (h'.known r hr)
      exact List.mem_map.mpr ⟨s, h.rows s hs, hid⟩
  gone s hs r hr := by
    rcases List.mem_append.mp hr with hr | hr
    · exact h.gone s (h'.rows s hs) r hr
    · exact h'.gone s hs r hr

theorem Freed.after {a b c : World} {fs : List RemoteShard} (h : Freed a b []) (h' : Freed b c fs) :
    Freed a c fs := h.append h'

theorem Freed.before {a b c : World} {fs : List RemoteShard} (h : Freed a b fs) (h' : Freed b c []) :
    Freed a c fs := List.append_nil fs ▸ h.append h'

theorem Freed.commit {w w' : World} {frags : List RemoteShard} (h : Freed w w' frags) :
    Commit P A w w' frags where
  store g _ := by rw [h.store]
  rows s hs := .inl (h.rows s hs)
  freed := h.gone

theorem collect_freed {f : α → Svc β} (fr : β → List RemoteShard) {as : List α}
    (hf : ∀ a w b w', f a w = (.ok b, w') → Freed w w' (fr b)) {w w' : World} {bs : List β}
    (h : collect f as w = (.ok bs, w')) : Freed w w' (bs.map fr).flatten := by
  induction as generalizing w bs with
  | nil =>
    obtain ⟨rfl, rfl⟩ := pure_ok h
    exact Freed.same rfl rfl
  | cons a as ih =>
    obtain ⟨b, w₁, cs, hb, hcs, rfl⟩ := collect_cons_ok h
    exact (hf a w b w₁ hb).append (ih hcs)

/-- The shards of a file are those of its chunks, so none of them stays behind the chunks. -/
theorem fragsOf_gone {db db' : Db} {u f : Text}
    (hch : ∀ c ∈ db'.chunks, c ∈ db.chunks ∧ (db.files.any (isRow u f) = true → c.fileId ≠ f))
    (hsh : ∀ s ∈ db'.shards, s ∈ db.shards) :
    ∀ s ∈ db'.shards, ∀ r ∈ fragsOf db u f, r.1 ≠ s.fragmentId := by
  intro s hs r hr heq
  rw [fragsOf] at hr
  split at hr
  · next hrow =>
    obtain ⟨t, ht, rfl⟩ := List.mem_map.mp hr
    obtain ⟨htm, hany⟩ := List.mem_filter.mp ht
    obtain ⟨c, hc, hcf⟩ := List.any_eq_true.mp hany
    rw [Bool.and_eq_true, decide_eq_true_eq, decide_eq_true_eq] at hcf
    obtain rfl : t = s := eq_of_key db.constraints.shardIds htm (hsh s hs) heq
    obtain ⟨d, hd, hdid⟩ := List.mem_map.mp (db'.constraints.shardChunks t hs)
    obtain ⟨hdm, hne⟩ := hch d hd
    obtain rfl : d = c := eq_of_key db.constraints.chunkIds hdm hc (hdid.trans hcf.1.symm)
    exact hne hrow hcf.2
  · cases hr

theorem fragsOf_known {db : Db} {u f : Text} {r : RemoteShard} (hr : r ∈ fragsOf db u f) :
    r.1 ∈ db.shards.map ShardRow.fragmentId := by
  rw [fragsOf] at hr
  split at hr
  · obtain ⟨t, ht, rfl⟩ := List.mem_map.mp hr
    exact List.mem_map_of_mem (List.mem_filter.mp ht).1
  · cases hr

/-- Once the row of a file is deleted, no chunk row of it is left. -/
theorem deleteFile_chunks {db : Db} {u f : Text} {c : ChunkRow} (hc : c ∈ (deleteFile db u f).chunks) :
    c ∈ db.chunks ∧ (db.files.any (isRow u f) = true → c.fileId ≠ f) := by
  obtain ⟨hmem, hfile⟩ := List.mem_filter.mp hc
  refine ⟨hmem, fun hany hcf => ?_⟩
  obtain ⟨r, hr, hrow⟩ := List.any_eq_true.mp hany
  obtain ⟨q, hq, hqid⟩ := List.mem_map.mp (of_decide_eq_true hfile)
  obtain ⟨hqm, hnot⟩ := List.mem_filter.mp hq
  have hrf : r.fileId = f := by
    rw [isRow, Bool.and_eq_true, decide_eq_true_eq, decide_eq_true_eq] at hrow
    exact hrow.2
  obtain rfl : q = r := eq_of_key db.constraints.fileIds hqm hr (hqid.trans (hcf.trans hrf.symm))
  rw [hrow] at hnot
  cases hnot

theorem deleteChunks_chunks {db : Db} {u f : Text} {c : ChunkRow}
    (hc : c ∈ (deleteChunks db u f).chunks) :
    c ∈ db.chunks ∧ (db.files.any (isRow u f) = true → c.fileId ≠ f) := by
  obtain ⟨hmem, hkeep⟩ := List.mem_filter.mp hc
  refine ⟨hmem, fun hany hcf => ?_⟩
  rw [hany, decide_eq_true hcf] at hkeep
  cases hkeep

theorem purgeFileRow_freed {u f : Text} {frags : List RemoteShard} {w w' : World}
    (h : purgeFileRow u f w = (.ok frags, w')) : Freed w w' frags := by
  obtain ⟨fs, w₁, hq, h₁⟩ := bind_ok h
  obtain ⟨_, w₂, hdel, h₂⟩ := bind_ok h₁
  obtain ⟨rfl, rfl⟩ := pure_ok h₂
  obtain ⟨rfl, hdb, hst⟩ := query_ok hq
  obtain ⟨hdel, hst'⟩ := stmt_ok hdel
  rw [hdb] at hdel
  have hdb' : w'.db = deleteFile w.db u f := (Option.some.inj hdel).symm
  have hrows : ∀ s ∈ w'.db.shards, s ∈ w.db.shards := by
    intro s hs
    rw [hdb'] at hs
    exact (List.mem_filter.mp hs).1
  refine ⟨hst'.trans hst, hrows, fun r hr => fragsOf_known hr, fragsOf_gone ?_ hrows⟩
  intro c hc
  rw [hdb'] at hc
  exact deleteFile_chunks hc

theorem packMember_freed {u packId : Text} {er : PackEntry × ℕ × ℕ} {r : ℤ × List RemoteShard}
    {w w' : World} (h : packMember u packId er w = (.ok r, w')) : Freed w w' r.2 := by
  obtain ⟨_, w₁, hq, h₁⟩ := bind_ok h
  obtain ⟨_, hdb₁, hst₁⟩ := query_ok hq
  obtain ⟨row, w₂, ho, h₂⟩ := bind_ok h₁
  obtain ⟨_, rfl⟩ := orThrow_ok ho
  split at h₂
  · cases h₂
  · obtain ⟨frags, w₃, hf, h₃⟩ := bind_ok h₂
    obtain ⟨rfl, hdb₃, hst₃⟩ := query_ok hf
    obtain ⟨_, w₄, hdel, h₄⟩ := bind_ok h₃
    obtain ⟨hdel, hst₄⟩ := stmt_ok hdel
    obtain ⟨_, w₅, hassign, h₅⟩ := bind_ok h₄
    obtain ⟨hassign, hst₅⟩ := stmt_ok hassign
    obtain ⟨rfl, rfl⟩ := pure_ok h₅
    have htab := updateFiles_some hassign
    have hsh : w'.db.shards = w₄.db.shards := by rw [htab]
    rw [hdb₃] at hdel
    have hdb₄ : w₄.db = deleteChunks w₂.db u er.1.fileId := (Option.some.inj hdel).symm
    have hrows : ∀ s ∈ w₄.db.shards, s ∈ w₂.db.shards := by
      intro s hs
      rw [hdb₄] at hs
      exact (List.mem_filter.mp hs).1
    have hfreed : Freed w₂ w₄ (fragsOf w₂.db u er.1.fileId) := by
      refine ⟨hst₄.trans hst₃, hrows, fun r hr => fragsOf_known hr, fragsOf_gone ?_ hrows⟩
      intro c hc
      rw [hdb₄] at hc
      exact deleteChunks_chunks hc
    exact (Freed.same hst₁ (by rw [hdb₁])).after (hfreed.before (Freed.same hst₅ hsh))

/-! ### Writing shards -/

/-- Rows of file `m` were added with their bytes, all under its fragment ids. -/
structure Wrote (P : Prims K) (m : Text) (w w' : World) : Prop where
  store : WritesOnly P {m} w w'
  rows : ∀ s ∈ w'.db.shards, s ∈ w.db.shards ∨
    Addr P m s.fragmentId ∧ ∃ b, w'.store s.fragmentId = some b ∧ s.hash = shardHash P b

theorem writeChunkRows_wrote {m : Text} {chunks : List ProcessedChunk} (hsize : ∀ c ∈ chunks, Sized c)
    (hidx : Indexed chunks) {w w' : World} (h : writeChunkRows P m chunks w = (.ok (), w')) :
    Wrote P m w w' := by
  have hmoves := (touches_writeChunkRows (P := P) (T := {m}) (A := {m}) rfl rfl hidx w).store
  rw [h] at hmoves
  obtain ⟨us, w₁, hall, hret⟩ := bind_ok h
  obtain ⟨_, rfl⟩ := pure_ok hret
  obtain ⟨_, _, _, hsh, hheld, _⟩ := writeChunks_ok P hsize hall
  refine ⟨hmoves, fun s hs => ?_⟩
  rw [hsh] at hs
  rcases List.mem_append.mp hs with hs | hs
  · exact .inl hs
  · obtain ⟨c, hc, hrow⟩ := List.mem_flatMap.mp hs
    obtain ⟨i, hi, rfl⟩ := List.mem_map.mp hrow
    have hlt := List.mem_range.mp hi
    have hbytes := (hheld c hc).bytes i hlt
    have hget : c.shards[i]? = some (c.shards.getD i []) := by
      have hin : i < c.shards.length := Nat.lt_of_lt_of_le hlt (hheld c hc).full
      rw [List.getD_eq_getElem?_getD, List.getElem?_eq_getElem hin, Option.getD_some]
    exact .inr ⟨⟨c.index, hidx c hc, i, hlt, rfl⟩, _, hbytes.trans hget, rfl⟩

/-- A row inserted and its chunks written. -/
theorem Wrote.after {m : Text} {a b c : World} (hst : b.store = a.store)
    (hsh : b.db.shards = a.db.shards) (h : Wrote P m b c) : Wrote P m a c := by
  refine ⟨fun g hg => (h.store g hg).trans (by rw [hst]), fun s hs => ?_⟩
  rw [← hsh]
  exact h.rows s hs

theorem insertPackRow_wrote {key : K} {u packId : Text} {plain : Bytes} {now : Time} {n : ℤ}
    {w w' : World} (h : insertPackRow P key u packId plain now w = (.ok n, w')) :
    Wrote P packId w w' := by
  rw [insertPackRow] at h
  obtain ⟨chunks, w₁, ho, h₁⟩ := bind_ok h
  obtain ⟨hproc, rfl⟩ := ofOutcome_ok ho
  obtain ⟨_, w₂, hins, h₂⟩ := bind_ok h₁
  obtain ⟨_, w₃, hwr, h₃⟩ := bind_ok h₂
  obtain ⟨_, rfl⟩ := pure_ok h₃
  obtain ⟨hins, hst⟩ := stmt_ok hins
  obtain ⟨_, htab⟩ := insertFile_some hins
  have hv2 := wrapErr_eq_ok hproc
  exact (writeChunkRows_wrote (processV2_sized hv2) (processV2_indexed hv2) hwr).after hst
    (by rw [htab])

/-- Shards given up, then others written under unused ids. -/
theorem Freed.wrote {a b c : World} {m : Text} {frags : List RemoteShard} (hu : Unused P {m} a.db)
    (h : Freed a b frags) (h' : Wrote P m b c) : Commit P {m} a c frags where
  store g hg := (h'.store g hg).trans (by rw [h.store])
  rows s hs := (h'.rows s hs).imp (h.rows s) fun hnew => hnew.2
  freed s hs r hr he := by
    rcases h'.rows s hs with hold | ⟨haddr, -⟩
    · exact h.gone s hold r hr he
    · obtain ⟨t, ht, hid⟩ := List.mem_map.mp (h.known r hr)
      exact hu t ht m rfl (by rw [hid, he]; exact haddr)

/-- Shards written, then others given up. -/
theorem Wrote.giveUp {a b c : World} {m : Text} {frags : List RemoteShard} (h : Wrote P m a b)
    (h' : Freed b c frags) : Commit P {m} a c frags := by
  refine ⟨fun g hg => ?_, fun s hs => ?_, h'.gone⟩
  · rw [h'.store]
    exact h.store g hg
  · rw [h'.store]
    exact (h.rows s (h'.rows s hs)).imp_right And.right

/-! ### Rows on their shelves -/

/-- The shard rows and the bytes stay. -/
def KeepsShards (w w' : World) : Prop := w'.db.shards = w.db.shards ∧ w'.store = w.store

theorem keepsShards_shelves : RowMoves KeepsShards where
  refl _ _ := ⟨rfl, rfl⟩
  trans _ _ _ h h' := ⟨h'.1.trans h.1, h'.2.trans h.2⟩
  back _ _ h := ⟨rfl, h.2⟩
  retire _ _ _ _ _ _ h := ⟨by rw [updateFiles_some h], rfl⟩
  restore _ _ _ _ _ h := ⟨by rw [updateFiles_some h], rfl⟩
  repath _ _ _ _ _ h := ⟨by rw [updateFiles_some h], rfl⟩
  folders _ _ _ _ h := ⟨h, rfl⟩

theorem KeepsShards.freed {w w' : World} (h : KeepsShards w w') : Freed w w' [] :=
  Freed.same h.2 h.1

theorem keepsShards_ok {x : Svc α} (h : Moves KeepsShards x) {w w' : World} {o : Outcome StoreError α}
    (hx : x w = (o, w')) : KeepsShards w w' := by
  have hw := h w
  rw [hx] at hw
  exact hw

/-- A call that only moves rows, all at once or not at all. -/
theorem atomic_shelf {x : Svc α} {g : α → Svc β} (hsteady : Steady x) (hmoves : Moves KeepsShards x)
    (hfail : ∀ w e w', x w = (.error e, w') → w'.db = w.db) (htail : ∀ a, Tail [] (g a)) :
    Atomic P A (x >>= g) :=
  atomic_bind hsteady
    (fun w e w' h => ⟨hfail w e w' h, fun _ _ => by rw [(keepsShards_ok hmoves h).2]⟩)
    (fun _ _ _ _ h => (keepsShards_ok hmoves h).freed.commit) htail

theorem atomic_trashPath (u path : Text) (now : Time) : Atomic P A (trashPath u path now) :=
  atomic_of_pure (atomic_shelf (steady_trashPath u path now) (moves_trashPath keepsShards_shelves u path now)
    (fun _ _ _ h => transaction_error h) tail_pure)

theorem atomic_rename (u fromPath toPath : Text) : Atomic P A (rename u fromPath toPath) := by
  refine atomic_of_pure (atomic_shelf (steady_rename u fromPath toPath)
    (moves_rename keepsShards_shelves u fromPath toPath) ?_ tail_pure)
  intro w e w' h
  unfold rename at h
  split at h
  · cases h
    rfl
  · exact transaction_error h

theorem atomic_restore (u f : Text) (newPath : Option Text) (now : Time) :
    Atomic P A (restore u f newPath now) := by
  refine atomic_shelf (steady_transaction (steady_restoreTx u f newPath now)) ?_
    (fun _ _ _ h => transaction_error h) ?_
  · exact moves_transaction keepsShards_shelves.toFrame keepsShards_shelves.back
      (moves_restoreTx keepsShards_shelves u f newPath now)
  · intro _ w
    have hq : Moves (fun w w' : World => w'.db = w.db ∧ w'.store = w.store)
        (query (getFile · u f) >>= fun row => orThrow .notFound row) := by
      have hF : Frame fun w w' : World => w'.db = w.db ∧ w'.store = w.store :=
        ⟨fun _ _ => ⟨rfl, rfl⟩, fun _ _ _ h h' => ⟨h'.1.trans h.1, h'.2.trans h.2⟩⟩
      exact moves_bind hF (moves_query hF _) fun _ => moves_outcome hF _
    exact ⟨(hq w).1, fun g _ => congrFun (hq w).2 g⟩

/-! ### The other calls -/

theorem atomic_purgeFile (u f : Text) : Atomic P A (purgeFile u f) := by
  refine atomic_query_bind fun row => atomic_outcome_bind fun file _ => ?_
  refine atomic_bind (steady_purgeFileRow u f) ?_ (fun _ _ _ _ h => (purgeFileRow_freed h).commit)
    fun frags => tail_purgeLocal frags fun remote => (file, remote)
  intro w e w' h
  rcases bind_cases (query (fragsOf · u f)) _ w with ⟨e', w₁, hq, heq⟩ | ⟨frags, w₁, hq, heq⟩
  · cases heq.symm.trans h
    obtain ⟨hdb, hst⟩ := query_error hq
    exact ⟨hdb, fun _ _ => by rw [hst]⟩
  · obtain ⟨-, hdb, hst⟩ := query_ok hq
    have h₁ := heq.symm.trans h
    rcases bind_cases (stmt fun db => some (deleteFile db u f)) (fun _ => pure frags) w₁ with
      ⟨e', w₂, hs, heq'⟩ | ⟨_, w₂, hs, heq'⟩
    · cases heq'.symm.trans h₁
      obtain ⟨hdb', hst'⟩ := stmt_error hs
      exact ⟨hdb'.trans hdb, fun _ _ => by rw [hst', hst]⟩
    · cases heq'.symm.trans h₁

theorem atomic_emptyTrash (u : Text) : Atomic P ∅ (emptyTrash u) := by
  refine atomic_bind (steady_transaction (steady_emptyTrashTx u)) (fun _ _ _ h => ?_)
    (fun w r w' _ h => commit_transaction (fun w₁ hb => ?_) h)
    fun r => tail_purgeLocal r.2 fun remote => (r.1, remote)
  · refine fail_transaction (T := Set.univ) ?_ h
    have hR := touches_frame P Set.univ ∅
    exact moves_bind hR (moves_query hR _) fun rows =>
      moves_bind hR (moves_collect hR fun r _ => touches_purgeFileRow (Set.mem_univ _)) fun _ =>
      moves_pure hR _
  · obtain ⟨rows, w₂, hq, h₂⟩ := bind_ok hb
    obtain ⟨-, hdb, hst⟩ := query_ok hq
    obtain ⟨frags, w₃, hall, h₃⟩ := bind_ok h₂
    obtain ⟨rfl, rfl⟩ := pure_ok h₃
    have hfreed := collect_freed (fun fs => fs) (fun _ _ _ _ h => purgeFileRow_freed h) hall
    rw [List.map_id'] at hfreed
    exact ((Freed.same hst (by rw [hdb])).after hfreed).commit

theorem atomic_purgeRetired (policy : RetentionPolicy) (nowTrash nowVersion : Time) :
    Atomic P ∅ (purgeRetired policy nowTrash nowVersion) := by
  refine atomic_bind (steady_transaction (steady_purgeRetiredTx policy nowTrash nowVersion))
    (fun _ _ _ h => ?_) (fun w r w' _ h => commit_transaction (fun w₁ hb => ?_) h)
    fun r => tail_purgeLocal r.2 _
  · refine fail_transaction (T := Set.univ) ?_ h
    have hR := touches_frame P Set.univ ∅
    exact moves_bind hR (moves_query hR _) fun _ => moves_bind hR (moves_query hR _) fun _ =>
      moves_bind hR (moves_query hR _) fun _ => moves_bind hR (moves_query hR _) fun _ =>
      moves_bind hR (moves_collect hR fun c _ => touches_purgeFileRow (Set.mem_univ _)) fun _ =>
      moves_pure hR _
  · obtain ⟨_, wa, ha, h₁⟩ := bind_ok hb
    obtain ⟨_, wb, hb', h₂⟩ := bind_ok h₁
    obtain ⟨_, wc, hc, h₃⟩ := bind_ok h₂
    obtain ⟨_, wd, hd, h₄⟩ := bind_ok h₃
    obtain ⟨-, hdba, hsta⟩ := query_ok ha
    obtain ⟨-, hdbb, hstb⟩ := query_ok hb'
    obtain ⟨-, hdbc, hstc⟩ := query_ok hc
    obtain ⟨-, hdbd, hstd⟩ := query_ok hd
    obtain ⟨frags, we, hall, h₅⟩ := bind_ok h₄
    obtain ⟨rfl, rfl⟩ := pure_ok h₅
    have hfreed := collect_freed (fun fs => fs) (fun _ _ _ _ h => purgeFileRow_freed h) hall
    rw [List.map_id'] at hfreed
    refine ((Freed.same ?_ ?_).after hfreed).commit
    · rw [hstd, hstc, hstb, hsta]
    · rw [hdbd, hdbc, hdbb, hdba]

theorem pushTx_commit {u path mint : Text} {data : Bytes} {now : Time} {chunks : List ProcessedChunk}
    (hsize : ∀ c ∈ chunks, Sized c) (hidx : Indexed chunks) {r : PushResult} {w w' : World}
    (h : pushTx P u path mint data now chunks w = (.ok r, w')) : Commit P {mint} w w' [] := by
  rw [pushTx] at h
  obtain ⟨prev, w₁, hq, h₁⟩ := bind_ok h
  obtain ⟨-, hdb₁, hst₁⟩ := query_ok hq
  obtain ⟨_, w₂, hsup, h₂⟩ := bind_ok h₁
  obtain ⟨hsh₂, hst₂⟩ := keepsShards_ok (moves_supersedeOpt keepsShards_shelves u prev now) hsup
  obtain ⟨_, w₃, hins, h₃⟩ := bind_ok h₂
  obtain ⟨hins, hst₃⟩ := stmt_ok hins
  obtain ⟨-, htab⟩ := insertFile_some hins
  have hsh₃ : w₃.db.shards = w₂.db.shards := by rw [htab]
  obtain ⟨_, w₄, hwr, h₄⟩ := bind_ok h₃
  obtain ⟨-, rfl⟩ := pure_ok h₄
  have hwrote : Wrote P mint w w' := (writeChunkRows_wrote hsize hidx hwr).after
    (by rw [hst₃, hst₂, hst₁]) (by rw [hsh₃, hsh₂, hdb₁])
  exact hwrote.giveUp (Freed.same rfl rfl)

theorem atomic_push (key : K) (u path : Text) (data : Bytes) (mint : Text) (now : Time) :
    Atomic P {mint} (push P key u path data mint now) := by
  refine atomic_query_bind fun prev => ?_
  split
  · exact atomic_outcome (.ok _)
  · refine atomic_outcome_bind fun chunks hproc => ?_
    have hv2 := wrapErr_eq_ok hproc
    have hidx := processV2_indexed hv2
    exact atomic_of_pure (atomic_bind (steady_transaction (steady_pushTx P u path mint data now chunks))
      (fun _ _ _ h => fail_transaction (touches_pushTx (T := {mint}) (Set.mem_singleton mint)
        (Set.mem_singleton mint) hidx) h)
      (fun _ _ _ _ h => commit_transaction (fun _ hb => pushTx_commit (processV2_sized hv2) hidx hb) h)
      tail_pure)

theorem packFilesTx_commit {key : K} {u packId : Text} {entries : List PackEntry} {plain : Bytes}
    {ranges : List (ℕ × ℕ)} {now : Time} {r : ℤ × List RemoteShard × ℤ} {w w' : World}
    (hu : Unused P {packId} w.db)
    (h : packFilesTx P key u packId entries plain ranges now w = (.ok r, w')) :
    Commit P {packId} w w' r.2.1 := by
  rw [packFilesTx] at h
  obtain ⟨freed, w₁, hall, h₁⟩ := bind_ok h
  obtain ⟨stored, w₂, hrow, h₂⟩ := bind_ok h₁
  obtain ⟨rfl, rfl⟩ := pure_ok h₂
  have hfreed := collect_freed _ (fun _ _ _ _ h => packMember_freed h) hall
  exact hfreed.wrote hu (insertPackRow_wrote hrow)

theorem atomic_packFiles (key : K) (u : Text) (entries : List PackEntry) (packId : Text) (now : Time) :
    Atomic P {packId} (packFiles P key u entries packId now) := by
  unfold packFiles
  split
  · exact atomic_outcome _
  · refine atomic_outcome_bind fun built _ => ?_
    refine atomic_bind
      (steady_transaction (steady_packFilesTx P key u packId entries built.1 built.2 now))
      (fun _ _ _ h => fail_transaction (T := Set.univ) (touches_packFilesTx (fun _ _ => Set.mem_univ _)
        (Set.mem_univ _) (Set.mem_singleton packId)) h)
      (fun _ _ _ hu h => commit_transaction (fun _ hb => packFilesTx_commit hu hb) h)
      fun r => tail_purgeLocal r.2.1 _

theorem moveMember_freed {u oldPackId newPackId : Text} {er : PackEntry × ℕ × ℕ} {w w' : World}
    (h : moveMember u oldPackId newPackId er w = (.ok (), w')) : Freed w w' [] := by
  rw [moveMember] at h
  obtain ⟨_, w₁, hq, h₁⟩ := bind_ok h
  obtain ⟨-, hdb, hst⟩ := query_ok hq
  obtain ⟨row, w₂, ho, h₂⟩ := bind_ok h₁
  obtain ⟨-, rfl⟩ := orThrow_ok ho
  split at h₂
  · cases h₂
  · obtain ⟨hassign, hst'⟩ := stmt_ok h₂
    have hsh : w'.db.shards = w₂.db.shards := by rw [updateFiles_some hassign]
    exact Freed.same (by rw [hst', hst]) (by rw [hsh, hdb])

theorem compactPackTx_commit {key : K} {u oldPackId : Text} {survivors : List PackEntry}
    {newPackId : Text} {now : Time} {r : FileRow × Option (ℕ × ℤ) × List RemoteShard} {w w' : World}
    (h : compactPackTx P key u oldPackId survivors newPackId now w = (.ok r, w')) :
    Commit P {newPackId} w w' r.2.2 := by
  rw [compactPackTx] at h
  obtain ⟨_, w₁, hq, h₁⟩ := bind_ok h
  obtain ⟨-, hdb₁, hst₁⟩ := query_ok hq
  obtain ⟨old, w₂, ho, h₂⟩ := bind_ok h₁
  obtain ⟨-, rfl⟩ := orThrow_ok ho
  split at h₂
  · obtain ⟨members, w₃, hq', h₃⟩ := bind_ok h₂
    obtain ⟨-, hdb₃, hst₃⟩ := query_ok hq'
    obtain ⟨_, w₄, ho', h₄⟩ := bind_ok h₃
    obtain ⟨-, rfl⟩ := ofOutcome_ok ho'
    have hsame : Freed w w₄ [] := Freed.same (by rw [hst₃, hst₁]) (by rw [hdb₃, hdb₁])
    split at h₄
    · obtain ⟨frags, w₅, hpurge, h₅⟩ := bind_ok h₄
      obtain ⟨rfl, rfl⟩ := pure_ok h₅
      exact (hsame.after (purgeFileRow_freed hpurge)).commit
    · obtain ⟨built, w₅, ho'', h₅⟩ := bind_ok h₄
      obtain ⟨-, rfl⟩ := ofOutcome_ok ho''
      obtain ⟨us, w₆, hall, h₆⟩ := bind_ok h₅
      obtain ⟨stored, w₇, hrow, h₇⟩ := bind_ok h₆
      obtain ⟨frags, w₈, hpurge, h₈⟩ := bind_ok h₇
      obtain ⟨rfl, rfl⟩ := pure_ok h₈
      have hmoved := collect_freed (fun _ => []) (fun _ _ _ _ h => moveMember_freed h) hall
      have hnone : (us.map fun _ => ([] : List RemoteShard)).flatten = [] := by simp
      rw [hnone] at hmoved
      have hkept := hsame.after hmoved
      have hwrote : Wrote P newPackId w w₇ := by
        refine ⟨fun g hg => ?_, fun s hs => ?_⟩
        · rw [(insertPackRow_wrote hrow).store g hg, hkept.store]
        · exact ((insertPackRow_wrote hrow).rows s hs).imp_left (hkept.rows s)
      exact hwrote.giveUp (purgeFileRow_freed hpurge)
  · cases h₂

theorem atomic_compactPack (key : K) (u oldPackId : Text) (survivors : List PackEntry)
    (newPackId : Text) (now : Time) :
    Atomic P {newPackId} (compactPack P key u oldPackId survivors newPackId now) :=
  atomic_bind (steady_transaction (steady_compactPackTx P key u oldPackId survivors newPackId now))
    (fun _ _ _ h => fail_transaction (T := Set.univ) (touches_compactPackTx (fun _ _ => Set.mem_univ _)
      (Set.mem_univ _) (Set.mem_univ _) (Set.mem_singleton newPackId)) h)
    (fun _ _ _ _ h => commit_transaction (fun _ hb => compactPackTx_commit hb) h)
    fun r => tail_purgeLocal r.2.2 _

end

/-! ### Any call -/

/-- The calls that write. -/
inductive Call where
  | push (u path : Text) (data : Bytes) (mint : Text) (now : Time)
  | packFiles (u : Text) (entries : List PackEntry) (packId : Text) (now : Time)
  | compactPack (u oldPackId : Text) (survivors : List PackEntry) (newPackId : Text) (now : Time)
  | purgeFile (u f : Text)
  | emptyTrash (u : Text)
  | purgeRetired (policy : RetentionPolicy) (nowTrash nowVersion : Time)
  | rename (u fromPath toPath : Text)
  | restore (u f : Text) (newPath : Option Text) (now : Time)
  | trashPath (u path : Text) (now : Time)

/-- The world a call leaves. -/
def Call.leaves (key : K) (w : World) : Call → World
  | .push u path data mint now => (Service.push P key u path data mint now w).2
  | .packFiles u entries packId now => (Packing.packFiles P key u entries packId now w).2
  | .compactPack u old survivors new now => (Packing.compactPack P key u old survivors new now w).2
  | .purgeFile u f => (Service.purgeFile u f w).2
  | .emptyTrash u => (Service.emptyTrash u w).2
  | .purgeRetired policy t v => (Service.purgeRetired policy t v w).2
  | .rename u a b => (Service.rename u a b w).2
  | .restore u f newPath now => (Service.restore u f newPath now w).2
  | .trashPath u path now => (Service.trashPath u path now w).2

/-- The file id a call mints. -/
def Call.mints : Call → Set Text
  | .push _ _ _ mint _ => {mint}
  | .packFiles _ _ packId _ => {packId}
  | .compactPack _ _ _ newPackId _ => {newPackId}
  | _ => ∅

/-- Whatever fails, and wherever: the manifest before or the manifest after, and every local
shard row with its bytes. -/
theorem call_atomic (key : K) (c : Call) (w : World) (hu : Unused P c.mints w.db) :
    AtomicAt P w (c.leaves P key w) (c.leaves P key (faultless w)) := by
  cases c with
  | push u path data mint now => exact atomic_push key u path data mint now w hu
  | packFiles u entries packId now => exact atomic_packFiles key u entries packId now w hu
  | compactPack u old survivors new now => exact atomic_compactPack key u old survivors new now w hu
  | purgeFile u f => exact atomic_purgeFile u f w hu
  | emptyTrash u => exact atomic_emptyTrash u w hu
  | purgeRetired policy t v => exact atomic_purgeRetired policy t v w hu
  | rename u a b => exact atomic_rename u a b w hu
  | restore u f newPath now => exact atomic_restore u f newPath now w hu
  | trashPath u path now => exact atomic_trashPath u path now w hu

/-! ### An upload cut off next to another file -/

/-- A fragment id of a file with a short name shows the name, or that the text under the digest was
long. -/
theorem addr_shows {x : Char} {n : UInt8} (hx : utf8 [x] = [n]) {g : Text}
    (h : Addr (Sample.sample []) [x] g) :
    g.take 2 ≠ ['0', '0'] ∨ (g.drop 4).take 2 = hexEncode [n] := by
  obtain ⟨i, -, j, -, rfl⟩ := h
  have hblake : (Sample.sample []).blake3 = Sample.digestSample [] := rfl
  have hm : utf8 (chunkId [x] i) ++ utf8 [':'] ++ beBytes 4 j =
      n :: (utf8 (':' :: Nat.toDigits 10 i) ++ utf8 [':'] ++ beBytes 4 j) := by
    rw [chunkId, utf8_append, hx, List.append_assoc, List.append_assoc, List.append_assoc]
    rfl
  rw [fragmentId, hblake, hm, Sample.digestSample]
  split
  · right
    rw [Lib.Stripes.padTo]
    rfl
  · left
    intro h
    cases h

/-- One file is stored, and an upload is cut off in the middle of a shard file. -/
def cutOff : World :=
  { (push (Sample.sample []) .node ['u'] ['q'] [9] ['a'] 0 ⟨Db.empty, fun _ => none, []⟩).2 with
    script := [.works, .works, .works, .works, .fails (some 3)] }

theorem cutOff_shards : cutOff.db.shards ≠ [] ∧ ∀ s ∈ cutOff.db.shards,
    s.fragmentId.take 2 = ['0', '0'] ∧ (s.fragmentId.drop 4).take 2 ≠ hexEncode [109] := by
  decide +kernel

theorem cutOff_atomic : cutOff.db.shards ≠ [] ∧ AtomicAt (Sample.sample []) cutOff
    ((Call.push ['u'] ['p'] [1, 2, 3] ['m'] 0).leaves (Sample.sample []) .node cutOff)
    ((Call.push ['u'] ['p'] [1, 2, 3] ['m'] 0).leaves (Sample.sample []) .node (faultless cutOff)) := by
  refine ⟨cutOff_shards.1, call_atomic (Sample.sample []) .node (.push ['u'] ['p'] [1, 2, 3] ['m'] 0) cutOff ?_⟩
  intro s hs f hf haddr
  obtain rfl : f = ['m'] := hf
  obtain ⟨hzero, hname⟩ := cutOff_shards.2 s hs
  exact (@addr_shows 'm' 109 (by decide) _ haddr).elim (fun h => h hzero) hname

end P2pnas.Store.Crashes
