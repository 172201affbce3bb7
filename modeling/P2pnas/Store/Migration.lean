import P2pnas.Core.Sample
import P2pnas.Store.Repacking

/-!
# A repacking pass and a compaction, whatever fails (`service.rs:1042-1201`)

A call either came through, and the manifest is relaid, or it left the manifest as it was. A
pass packs group after group; each group finds what the groups before it left.
-/

namespace P2pnas.Store.Migration
open P2pnas.Lib.Frames P2pnas.Lib.Strings P2pnas.Lib.Stripes P2pnas.Lib.Tables P2pnas.Core
open P2pnas.Core.Base P2pnas.Core.Crypto P2pnas.Core.Pipeline P2pnas.Store.Manifest
open P2pnas.Store.Session P2pnas.Store.Reading P2pnas.Store.Service P2pnas.Store.Packing
open P2pnas.Store.Roundtrip P2pnas.Store.Readable P2pnas.Store.Crashes P2pnas.Store.Edits
open P2pnas.Store.Rows P2pnas.Store.HiddenNames P2pnas.Store.Relaid P2pnas.Store.Repacking

section
variable {K : Type} {P : Prims K} {key : K} {w w₁ w' : World} {α β : Type}

/-! ### One call -/

/-- A value made of the result changes nothing about the world. -/
theorem bind_pure_world (x : Svc α) (g : α → β) (w : World) :
    ((x >>= fun a => (pure (g a) : Svc β)) w).2 = (x w).2 := by
  rcases bind_cases x (fun a => (pure (g a) : Svc β)) w with ⟨e, w₁, hx, heq⟩ | ⟨a, w₁, hx, heq⟩
  · rw [heq, hx]
  · rw [heq, hx]
    rfl

theorem quiet_of_unused {A : Set Text} (hu : Unused P A w.db) (hdb : w'.db = w.db)
    (hst : WritesOnly P A w w') : Quiet w w' :=
  ⟨hdb, fun s hs => hst _ (hu s hs)⟩

/-- A transaction that frees shards after its commit came through, or left the manifest alone. -/
theorem transaction_purge {A T : Set Text} {body : Svc α} {freed : α → List RemoteShard}
    {k : α → List RemoteShard → β} (hu : Unused P A w.db) (hmoves : Moves (Touches P T A) body)
    (hcommit : ∀ a w₁, body w = (.ok a, w₁) → Commit P A w w₁ (freed a)) :
    Quiet w ((transaction body >>= fun a => purgeLocalCollectRemote (freed a) >>= fun remote =>
        (pure (k a remote) : Svc β)) w).2 ∨
      ∃ a w₁, body w = (.ok a, w₁) ∧
        Quiet w₁ ((transaction body >>= fun a => purgeLocalCollectRemote (freed a) >>= fun remote =>
          (pure (k a remote) : Svc β)) w).2 := by
  rcases bind_cases (transaction body) (fun a => purgeLocalCollectRemote (freed a) >>= fun remote =>
    (pure (k a remote) : Svc β)) w with ⟨e, w₁, hx, heq⟩ | ⟨a, w₂, hx, heq⟩
  · obtain ⟨hdb, hst⟩ := fail_transaction hmoves hx
    rw [heq]
    exact .inl (quiet_of_unused hu hdb hst)
  · obtain ⟨w₁, hbody, hdb, hst⟩ := transaction_ok hx
    obtain ⟨hdb', hst'⟩ := tail_purgeLocal (freed a) (k a) w₂
    rw [heq]
    refine .inr ⟨a, w₁, hbody, hdb'.trans hdb, fun s hs => ?_⟩
    rw [hst' _ ((hcommit a w₁ hbody).freed s hs), hst]

/-- Shard rows that a packing adds belong to its container. -/
theorem packFilesTx_shards {u pk : Text} {es : List PackEntry} {plain : Bytes}
    {ranges : List (ℕ × ℕ)} {now : Time} {r : ℤ × List RemoteShard × ℤ}
    (h : packFilesTx P key u pk es plain ranges now w = (.ok r, w')) :
    ∀ s ∈ w'.db.shards, s ∈ w.db.shards ∨ Addr P pk s.fragmentId := by
  rw [packFilesTx] at h
  obtain ⟨freed, w₁, hall, h₁⟩ := bind_ok h
  obtain ⟨stored, w₂, hrow, h₂⟩ := bind_ok h₁
  obtain ⟨-, rfl⟩ := pure_ok h₂
  have hfreed := collect_freed _ (fun _ _ _ _ h => packMember_freed h) hall
  intro s hs
  exact ((insertPackRow_wrote hrow).rows s hs).imp (hfreed.rows s) And.left

/-- `pack_files` relaid its entries, or left the manifest as it was. -/
inductive PackedOr (P : Prims K) (key : K) (u pk : Text) (es : List PackEntry) (w w' : World) : Prop
  | quiet (stays : Quiet w w')
  | relaid (ers : List Ranged) (w₁ : World) (ids : ers.map Prod.fst = es)
      (done : Relaid P key u pk none ers w w₁)
      (shards : ∀ s ∈ w₁.db.shards, s ∈ w.db.shards ∨ Addr P pk s.fragmentId) (after : Quiet w₁ w')

theorem packFiles_cases (hP : Restores P) {u pk : Text} {es : List PackEntry} {now : Time}
    (hu : Unused P {pk} w.db) : PackedOr P key u pk es w (packFiles P key u es pk now w).2 := by
  unfold packFiles
  split
  · exact .quiet (quiet_of_eq rfl rfl)
  · rcases bind_cases (ofOutcome (buildPack es)) _ w with ⟨e, w₁, hb, heq⟩ | ⟨built, w₁, ho, heq⟩
    · rw [heq]
      obtain rfl : w = w₁ := (Prod.mk.inj hb).2
      exact .quiet (quiet_of_eq rfl rfl)
    · obtain ⟨hb, rfl⟩ := ofOutcome_ok ho
      have hmoves : Moves (Touches P Set.univ {pk}) (packFilesTx P key u pk es built.1 built.2 now) :=
        touches_packFilesTx (fun _ _ => Set.mem_univ _) (Set.mem_univ _) (Set.mem_singleton pk)
      rw [heq]
      rcases transaction_purge hu hmoves fun _ _ h => packFilesTx_commit hu h with
        hq | ⟨r, w₂, hbody, hq⟩
      · exact .quiet hq
      · exact .relaid _ w₂ (buildPack_ok hb).1 (packFilesTx_relaid hP hb hu hbody)
          (packFilesTx_shards hbody) hq

/-! ### One group of a pass -/

/-- What packings under the ids `ms` did. -/
structure Repacked (P : Prims K) (key : K) (u : Text) (ms : List Text) (w w' : World) : Prop where
  preserved : Preserved P key w w'
  laid : ∀ m ∈ ms, ∀ c, rowOf w'.db m = some c → Laid P key w' u m
  kept : ∀ p, Laid P key w u p → Laid P key w' u p
  shards : ∀ s ∈ w'.db.shards, s ∈ w.db.shards ∨ ∃ m ∈ ms, Addr P m s.fragmentId
  absent : ∀ g, g ∉ ms → rowOf w.db g = none → rowOf w'.db g = none

theorem repacked_of_quiet (hwf : WellFormed P key w) (hq : Quiet w w') {u : Text} {ms : List Text}
    (hfresh : ∀ m ∈ ms, rowOf w.db m = none) : Repacked P key u ms w w' := by
  refine ⟨hq.preserved hwf, fun m hm c hc => ?_, fun p h => h.quiet hq, fun s hs => ?_, fun g _ hg => ?_⟩
  · rw [hq.1, hfresh m hm] at hc
    cases hc
  · rw [hq.1] at hs
    exact .inl hs
  · rw [hq.1, hg]

/-- The group of a pass that mints `m`, then the groups behind it. -/
theorem Repacked.cons {u m : Text} {ms : List Text} (h : Repacked P key u [m] w w₁)
    (h' : Repacked P key u ms w₁ w') (hm : m ∉ ms) : Repacked P key u (m :: ms) w w' := by
  refine ⟨h.preserved.trans h'.preserved, fun n hn c hc => ?_, fun p hp => h'.kept p (h.kept p hp),
    fun s hs => ?_, fun g hg hno => ?_⟩
  · rcases List.mem_cons.mp hn with rfl | hn
    · cases hc₁ : rowOf w₁.db n with
      | none =>
        rw [h'.absent n hm hc₁] at hc
        cases hc
      | some c₁ => exact h'.kept n (h.laid n (List.mem_singleton_self n) c₁ hc₁)
    · exact h'.laid n hn c hc
  · rcases h'.shards s hs with hs | ⟨n, hn, haddr⟩
    · rcases h.shards s hs with hs | ⟨n, hn, haddr⟩
      · exact .inl hs
      · exact .inr ⟨n, List.mem_cons.mpr (.inl (List.mem_singleton.mp hn)), haddr⟩
    · exact .inr ⟨n, List.mem_cons_of_mem m hn, haddr⟩
  · rw [List.mem_cons, not_or] at hg
    exact h'.absent g hg.2 (h.absent g (fun hin => hg.1 (List.mem_singleton.mp hin)) hno)

/-- The entries are files of `u` with their bytes. -/
def Gathered (P : Prims K) (key : K) (u : Text) (es : List PackEntry) (w : World) : Prop :=
  ∀ e ∈ es, pulled P key w u e.fileId = .ok e.data ∧
    ∀ r, rowOf w.db e.fileId = some r → isContainer r = false

/-- No container is among entries that are files. -/
theorem Gathered.carries (hwf : WellFormed P key w) {u : Text} {es : List PackEntry}
    {ers : List Ranged} (hids : ers.map Prod.fst = es) (h : Gathered P key u es w) :
    Carries P key u none ers w := by
  have hentry : ∀ er ∈ ers, er.1 ∈ es := fun er her => hids ▸ List.mem_map_of_mem her
  have hno : ∀ p, (none : Option Text) ≠ some p := fun p => (Option.some_ne_none p).symm
  refine ⟨fun er her => (h er.1 (hentry er her)).1, fun er her g r hr hp => ?_,
    fun p hp => absurd hp (hno p), fun p _ hp => absurd hp (hno p)⟩
  obtain ⟨c, hc, -, hhidden, -⟩ := hwf g r _ hr hp
  rw [(h er.1 (hentry er her)).2 c hc] at hhidden
  cases hhidden

/-- Containers that were there keep their members and their bytes. -/
theorem Relaid.kept {u pk : Text} {ers : List Ranged} (h : Relaid P key u pk none ers w w')
    (hfile : ∀ er ∈ ers, ∀ r, rowOf w.db er.1.fileId = some r → isContainer r = false) {p : Text}
    (hp : Laid P key w u p) : Laid P key w' u p := by
  obtain ⟨c, plain, hc, -, hhidden, -⟩ := hp.container
  have hin : p ∉ ers.map fun er => er.1.fileId := by
    intro hin
    obtain ⟨er, her, rfl⟩ := List.mem_map.mp hin
    rw [hfile er her c hc] at hhidden
    cases hhidden
  have hne : p ≠ pk := by
    rintro rfl
    rw [h.fresh] at hc
    cases hc
  refine hp.stays (h.rest p hin hne (Option.some_ne_none p).symm) fun g r hr hrp => ?_
  exact (h.member hr hrp).resolve_left fun hnew => hne hnew.1

theorem packFiles_repacked (hP : Restores P) (hwf : WellFormed P key w) {u pk : Text}
    {es : List PackEntry} {now : Time} (hu : Unused P {pk} w.db) (hfresh : rowOf w.db pk = none)
    (hg : Gathered P key u es w) : Repacked P key u [pk] w (packFiles P key u es pk now w).2 := by
  have hcases : PackedOr P key u pk es w (packFiles P key u es pk now w).2 := packFiles_cases hP hu
  cases hcases with
  | quiet hq =>
    exact repacked_of_quiet hwf hq fun m hm => List.mem_singleton.mp hm ▸ hfresh
  | relaid ers w₁ ids done shards after =>
    have hcarries := hg.carries hwf ids
    have hpres := done.preserved hcarries hwf
    refine ⟨hpres.trans (after.preserved hpres.formed), fun m hm c _ => ?_, fun p hp => ?_,
      fun s hs => ?_, fun g hne hno => ?_⟩
    · rw [List.mem_singleton.mp hm]
      exact (done.laid hwf).quiet after
    · refine (Relaid.kept done (fun er her => ?_) hp).quiet after
      exact (hg er.1 (ids ▸ List.mem_map_of_mem her)).2
    · rw [after.1] at hs
      exact (shards s hs).imp_right fun haddr => ⟨pk, List.mem_singleton_self pk, haddr⟩
    · rw [after.1]
      cases hrow : rowOf w₁.db g with
      | none => rfl
      | some r =>
        -- a row that is new is the container
        by_cases hin : g ∈ ers.map fun er => er.1.fileId
        · obtain ⟨er, her, rfl⟩ := List.mem_map.mp hin
          obtain ⟨q, hq, -⟩ := done.rows er her
          rw [hno] at hq
          cases hq
        · have hstay := done.rest g hin (fun heq => hne (List.mem_singleton.mpr heq))
            (Option.some_ne_none g).symm
          rw [hstay.1, hno] at hrow
          cases hrow

/-! ### The pass -/

theorem gather_ok {u : Text} {fs : List Text} {es : List PackEntry}
    (h : gather P key u fs w = (.ok es, w')) :
    w'.db = w.db ∧ w'.store = w.store ∧
      ∀ e ∈ es, e.fileId ∈ fs ∧ pulled P key w u e.fileId = .ok e.data := by
  induction fs generalizing w es with
  | nil =>
    obtain ⟨rfl, rfl⟩ := pure_ok h
    exact ⟨rfl, rfl, nofun⟩
  | cons f fs ih =>
    obtain ⟨e, w₁, es', he, hes, rfl⟩ := collect_cons_ok h
    obtain ⟨data, w₂, hread, hret⟩ := bind_ok he
    obtain ⟨rfl, rfl⟩ := pure_ok hret
    obtain ⟨heval, hdb, hst⟩ := Read.run_ok hread
    obtain ⟨hdb', hst', hin⟩ := ih hes
    refine ⟨hdb'.trans hdb, hst'.trans hst, fun e' he' => ?_⟩
    rcases List.mem_cons.mp he' with rfl | he'
    · exact ⟨List.mem_cons_self .., heval⟩
    · obtain ⟨hid, hpull⟩ := hin e' he'
      rw [pulled, hdb, hst] at hpull
      exact ⟨List.mem_cons_of_mem f hid, hpull⟩

theorem moves_gather (u : Text) (fs : List Text) : Moves Quiet (gather P key u fs) :=
  moves_collect quiet_frame fun _ _ => moves_bind quiet_frame (Read.moves_run quiet_frame _) fun _ =>
    moves_pure quiet_frame _

theorem Repacked.of_quiet (hwf : WellFormed P key w) (hq : Quiet w w₁) {u : Text} {ms : List Text}
    (h : Repacked P key u ms w₁ w') : Repacked P key u ms w w' where
  preserved := (hq.preserved hwf).trans h.preserved
  laid := h.laid
  kept p hp := h.kept p (hp.quiet hq)
  shards s hs := by
    rw [← hq.1]
    exact h.shards s hs
  absent g hg hno := h.absent g hg (by rw [hq.1, hno])

/-- What a group of a pass relies on: its files are no containers, its id is unused. -/
structure Ready (P : Prims K) (w : World) (g : List FileRow × Text) : Prop where
  files : ∀ f ∈ g.1, ∃ r, rowOf w.db f.fileId = some r ∧ isContainer r = false
  fresh : rowOf w.db g.2 = none
  unused : Unused P {g.2} w.db

theorem repackGroup_repacked (hP : Restores P) (hwf : WellFormed P key w) {u : Text} {now : Time}
    {g : List FileRow × Text} (hg : Ready P w g) :
    Repacked P key u [g.2] w (repackGroup P key u now g w).2 := by
  have hno : ∀ m ∈ [g.2], rowOf w.db m = none := fun m hm => List.mem_singleton.mp hm ▸ hg.fresh
  have hmoves := @moves_gather _ P key u (g.1.map FileRow.fileId) w
  rcases bind_cases (gather P key u (g.1.map FileRow.fileId)) _ w with
    ⟨e, w₁, hx, heq⟩ | ⟨es, w₁, hx, heq⟩
  · rw [hx] at hmoves
    rw [repackGroup, heq]
    exact repacked_of_quiet hwf hmoves hno
  · obtain ⟨hdb, hst, hin⟩ := gather_ok hx
    have hq : Quiet w w₁ := quiet_of_eq hdb hst
    have hgathered : Gathered P key u es w₁ := by
      intro e he
      obtain ⟨hid, hpull⟩ := hin e he
      obtain ⟨f, hf, hfe⟩ := List.mem_map.mp hid
      obtain ⟨q, hqrow, hfile⟩ := hg.files f hf
      refine ⟨by rw [pulled, hdb, hst]; exact hpull, fun r hr => ?_⟩
      rw [hdb, ← hfe, hqrow] at hr
      cases hr
      exact hfile
    have hwf₁ := (hq.preserved hwf).formed
    have hunused : Unused P {g.2} w₁.db := hdb ▸ hg.unused
    have hpacked : Repacked P key u [g.2] w₁ (packFiles P key u es g.2 now w₁).2 :=
      packFiles_repacked hP hwf₁ hunused (hdb ▸ hg.fresh) hgathered
    have hend : (repackGroup P key u now g w).2 = (packFiles P key u es g.2 now w₁).2 := by
      rw [repackGroup, heq]
      exact bind_pure_world ..
    rw [hend]
    exact hpacked.of_quiet hwf hq

/-- A group is ready for what the group before it left. -/
theorem Ready.after {u m : Text} {g : List FileRow × Text} (h : Ready P w g) (hne : m ≠ g.2)
    (hapart : Apart P m g.2) (hr : Repacked P key u [m] w w₁) : Ready P w₁ g := by
  refine ⟨fun f hf => ?_, ?_, fun s hs f hf => ?_⟩
  · obtain ⟨r, hrow, hfile⟩ := h.files f hf
    obtain ⟨r', hrow', hsame⟩ := hr.preserved.files _ r hrow hfile
    exact ⟨r', hrow', hsame.isContainer.trans hfile⟩
  · exact hr.absent g.2 (fun hin => hne (List.mem_singleton.mp hin).symm) h.fresh
  · rcases hr.shards s hs with hold | ⟨n, hn, haddr⟩
    · exact h.unused s hold f hf
    · rw [List.mem_singleton.mp hn] at haddr
      rw [hf]
      exact hapart _ haddr

theorem collect_repacked (hP : Restores P) {u : Text} {now : Time} {gs : List (List FileRow × Text)}
    (hwf : WellFormed P key w) (hready : ∀ g ∈ gs, Ready P w g)
    (hapart : gs.Pairwise fun a b => a.2 ≠ b.2 ∧ Apart P a.2 b.2) :
    Repacked P key u (gs.map Prod.snd) w (collect (repackGroup P key u now) gs w).2 := by
  induction gs generalizing w with
  | nil => exact repacked_of_quiet hwf (quiet_of_eq rfl rfl) nofun
  | cons g gs ih =>
    obtain ⟨hhead, htail⟩ := List.pairwise_cons.mp hapart
    have hone : Repacked P key u [g.2] w (repackGroup P key u now g w).2 :=
      repackGroup_repacked hP hwf (hready g (List.mem_cons_self ..))
    have hnot : g.2 ∉ gs.map Prod.snd := by
      intro hin
      obtain ⟨g', hg', hid⟩ := List.mem_map.mp hin
      exact (hhead g' hg').1 hid.symm
    have hnext : ∀ g' ∈ gs, Ready P (repackGroup P key u now g w).2 g' := fun g' hg' =>
      (hready g' (List.mem_cons_of_mem g hg')).after (hhead g' hg').1 (hhead g' hg').2 hone
    have hwf₁ := hone.preserved.formed
    rcases bind_cases (repackGroup P key u now g) _ w with ⟨e, w₁, hx, heq⟩ | ⟨r, w₁, hx, heq⟩
    · rw [hx] at hone hnext hwf₁
      rw [collect, heq]
      refine hone.cons (repacked_of_quiet hwf₁ (quiet_of_eq rfl rfl) fun m hm => ?_) hnot
      obtain ⟨g', hg', rfl⟩ := List.mem_map.mp hm
      exact (hnext g' hg').fresh
    · rw [hx] at hone hnext hwf₁
      have hrest := ih hwf₁ hnext htail
      have hend : (collect (repackGroup P key u now) (g :: gs) w).2 =
          (collect (repackGroup P key u now) gs w₁).2 := by
        rw [collect, heq]
        exact bind_pure_world ..
      rw [hend]
      exact hone.cons hrest hnot

theorem mem_planGroups {target bytes : ℤ} {group fs g : List FileRow}
    (hg : g ∈ planGroups target group bytes fs) : ∀ f ∈ g, f ∈ group ∨ f ∈ fs := by
  induction fs generalizing group bytes with
  | nil =>
    rw [planGroups] at hg
    split at hg
    · cases hg
    · rw [List.mem_singleton.mp hg]
      exact fun f hf => .inl hf
  | cons f₀ fs ih =>
    rw [planGroups] at hg
    split at hg
    · rcases List.mem_cons.mp hg with rfl | hg
      · exact fun f hf => .inl hf
      · intro f hf
        rcases ih hg f hf with hf | hf
        · exact .inr (List.mem_singleton.mp hf ▸ List.mem_cons_self ..)
        · exact .inr (List.mem_cons_of_mem f₀ hf)
    · intro f hf
      rcases ih hg f hf with hf | hf
      · rcases List.mem_append.mp hf with hf | hf
        · exact .inl hf
        · exact .inr (List.mem_singleton.mp hf ▸ List.mem_cons_self ..)
      · exact .inr (List.mem_cons_of_mem f₀ hf)

/-- The groups of a pass with the ids they mint. -/
def passGroups (db : Db) (u : Text) (mints : ℕ → Text) : List (List FileRow × Text) :=
  (planPacks (packableFiles db u SMALL_MAX) PACK_TARGET).zipIdx.map fun g => (g.1, mints g.2)

/-- No candidate of a pass is a container. -/
theorem packable_file {db : Db} {u : Text} {n : ℤ} {f : FileRow} (hf : f ∈ packableFiles db u n) :
    ∃ r, rowOf db f.fileId = some r ∧ isContainer r = false := by
  rw [packableFiles, List.mem_insertionSort] at hf
  obtain ⟨r, hr, rfl⟩ := List.mem_map.mp hf
  obtain ⟨hmem, hsel⟩ := List.mem_filter.mp hr
  exact ⟨r, rowOf_mem hmem, not_isPack_of_notPack (Bool.and_eq_true_iff.mp hsel).2⟩

theorem passGroups_files {db : Db} {u : Text} {mints : ℕ → Text} {g : List FileRow × Text}
    (hg : g ∈ passGroups db u mints) :
    ∀ f ∈ g.1, ∃ r, rowOf db f.fileId = some r ∧ isContainer r = false := by
  obtain ⟨gi, hgi, rfl⟩ := List.mem_map.mp hg
  have hplan := List.fst_mem_of_mem_zipIdx hgi
  rw [planPacks] at hplan
  intro f hf
  rcases mem_planGroups (List.mem_filter.mp hplan).1 f hf with hnone | hf
  · cases hnone
  · exact packable_file hf

/-- Ids that no row has, whose fragment ids no shard has, each with fragment ids of its own. -/
structure Fresh (P : Prims K) (db : Db) (ms : List Text) : Prop where
  rows : ∀ m ∈ ms, rowOf db m = none
  unused : ∀ m ∈ ms, Unused P {m} db
  apart : ms.Pairwise fun a b => a ≠ b ∧ Apart P a b

theorem repackSmallFiles_repacked (hP : Restores P) (hwf : WellFormed P key w) {u : Text}
    {mints : ℕ → Text} {now : Time} (hfresh : Fresh P w.db ((passGroups w.db u mints).map Prod.snd)) :
    Repacked P key u ((passGroups w.db u mints).map Prod.snd) w
      (repackSmallFiles P key u mints now w).2 := by
  have hmint : ∀ g ∈ passGroups w.db u mints, g.2 ∈ (passGroups w.db u mints).map Prod.snd :=
    fun g hg => List.mem_map_of_mem hg
  rcases bind_cases (query (packableFiles · u SMALL_MAX)) _ w with ⟨e, w₁, hq, heq⟩ | ⟨fs, w₁, hq, heq⟩
  · rw [repackSmallFiles, heq]
    obtain ⟨hdb, hst⟩ := query_error hq
    exact repacked_of_quiet hwf (quiet_of_eq hdb hst) hfresh.rows
  · obtain ⟨rfl, hdb, hst⟩ := query_ok hq
    have hquiet : Quiet w w₁ := quiet_of_eq hdb hst
    have hready : ∀ g ∈ passGroups w.db u mints, Ready P w₁ g := fun g hg =>
      ⟨hdb ▸ passGroups_files hg, hdb ▸ hfresh.rows _ (hmint g hg), hdb ▸ hfresh.unused _ (hmint g hg)⟩
    have hall : Repacked P key u ((passGroups w.db u mints).map Prod.snd) w₁
        (collect (repackGroup P key u now) (passGroups w.db u mints) w₁).2 :=
      collect_repacked hP (hquiet.preserved hwf).formed hready (List.pairwise_map.mp hfresh.apart)
    have hend : (repackSmallFiles P key u mints now w).2 =
        (collect (repackGroup P key u now) (passGroups w.db u mints) w₁).2 := by
      rw [repackSmallFiles, heq]
      exact bind_pure_world ..
    rw [hend]
    exact hall.of_quiet hwf hquiet

/-! ### A compaction -/

/-- The survivors are members of `old` with their bytes. -/
def Sliced (P : Prims K) (key : K) (u old : Text) (survivors : List PackEntry) (w : World) : Prop :=
  ∀ e ∈ survivors, ∃ plain r, pulled P key w u old = .ok plain ∧ rowOf w.db e.fileId = some r ∧
    memberSlice plain r.view = .ok e.data

theorem Relaid.carries (hwf : WellFormed P key w) {u old new : Text} {survivors : List PackEntry}
    {ranges : List (ℕ × ℕ)} (hids : (survivors.zip ranges).map Prod.fst = survivors)
    (h : Relaid P key u new (some old) (survivors.zip ranges) w w')
    (hmembers : ∀ g r, rowOf w.db g = some r → r.packId = some old →
      g ∈ survivors.map PackEntry.fileId)
    (hsliced : Sliced P key u old survivors w)
    (hhidden : ∀ c, rowOf w.db old = some c → isContainer c = true) :
    Carries P key u (some old) (survivors.zip ranges) w := by
  have hentry : ∀ er ∈ survivors.zip ranges, er.1 ∈ survivors := fun er her =>
    (List.of_mem_zip her).1
  refine ⟨fun er her => ?_, fun er her g r hr hp => ?_, fun p hp g r hr hrp => ?_, fun p c hp hc => ?_⟩
  · obtain ⟨r, hr, hu, hrp, -⟩ := h.rows er her
    obtain ⟨plain, r', hplain, hr', hslice⟩ := hsliced er.1 (hentry er her)
    rw [hr] at hr'
    cases hr'
    obtain ⟨c, hc, hcu, -, hown, -⟩ := hwf _ r old hr hrp
    rw [hu] at hcu
    rw [pulled_own hc hcu hown] at hplain
    rw [pulled_member hr hu hrp hc hcu hown, hplain]
    exact hslice
  · -- an entry is a member, so nothing names it
    obtain ⟨q, hq, -, hqp, -⟩ := h.rows er her
    obtain ⟨c, hc, -, -, hown, -⟩ := hwf g r _ hr hp
    rw [hq] at hc
    cases hc
    rw [hqp] at hown
    cases hown
  · cases hp
    rw [← hids, List.map_map] at hmembers
    exact hmembers g r hr hrp
  · cases hp
    exact hhidden c hc

/-- An emptied container goes, and nothing else. -/
theorem Dropped.preserved (hwf : WellFormed P key w) {old : Text} (h : Dropped old w w')
    (hmembers : ∀ g r, rowOf w.db g = some r → r.packId ≠ some old)
    (hhidden : ∀ c, rowOf w.db old = some c → isContainer c = true) : Preserved P key w w' := by
  refine preserved_of_became hwf (fun g r hr => ?_) fun g r' hr' => ?_
  · by_cases hg : g = old
    · subst hg
      exact .dropped (hhidden r hr) h.gone
    · refine .same (h.rest g hg) fun p hp => h.rest p ?_
      rintro rfl
      exact hmembers g r hr hp
  · by_cases hg : g = old
    · rw [hg, h.gone] at hr'
      cases hr'
    · exact .inl ⟨r', (h.rest g hg).1.symm.trans hr'⟩

/-- What such a call has to keep. -/
structure Kept (P : Prims K) (key : K) (u : Text) (ms : List Text) (w w' : World) : Prop where
  preserved : Preserved P key w w'
  laid : ∀ m ∈ ms, ∀ c, rowOf w'.db m = some c → Laid P key w' u m

theorem compactPack_kept (hP : Restores P) (hwf : WellFormed P key w) {u old new : Text}
    {survivors : List PackEntry} {now : Time} (hfresh : Fresh P w.db [new])
    (hsliced : Sliced P key u old survivors w)
    (hhidden : ∀ c, rowOf w.db old = some c → isContainer c = true) :
    Kept P key u [new] w (compactPack P key u old survivors new now w).2 := by
  have hnew := hfresh.rows new (List.mem_singleton_self new)
  have hu := hfresh.unused new (List.mem_singleton_self new)
  have hmoves : Moves (Touches P Set.univ {new}) (compactPackTx P key u old survivors new now) :=
    touches_compactPackTx (fun _ _ => Set.mem_univ _) (Set.mem_univ _) (Set.mem_univ _)
      (Set.mem_singleton new)
  rcases transaction_purge hu hmoves fun _ _ h => compactPackTx_commit h with hq | ⟨r, w₁, hbody, hq⟩
  · obtain ⟨hpres, hlaid, -⟩ := @repacked_of_quiet _ P key _ _ hwf hq u [new] hfresh.rows
    exact ⟨hpres, hlaid⟩
  · have hrow : rowOf (compactPack P key u old survivors new now w).2.db new = rowOf w₁.db new :=
      congrArg (rowOf · new) hq.1
    cases compactPackTx_compacted hP hwf hu hbody with
    | emptied dropped members =>
      have hpres := Dropped.preserved hwf dropped members hhidden
      refine ⟨hpres.trans (hq.preserved hpres.formed), fun m hm c hc => ?_⟩
      rw [List.mem_singleton.mp hm, hrow] at hc
      by_cases hne : new = old
      · rw [hne, dropped.gone] at hc
        cases hc
      · rw [(dropped.rest new hne).1, hnew] at hc
        cases hc
    | moved ranges ids relaid members =>
      have hpres := relaid.preserved (Relaid.carries hwf ids relaid members hsliced hhidden) hwf
      refine ⟨hpres.trans (hq.preserved hpres.formed), fun m hm c _ => ?_⟩
      rw [List.mem_singleton.mp hm]
      exact (relaid.laid hwf).quiet hq

end

/-! ### Either call -/

/-- The two calls that change where bytes are kept. -/
inductive Relayout where
  | repack (u : Text) (mints : ℕ → Text) (now : Time)
  | compact (u old : Text) (survivors : List PackEntry) (new : Text) (now : Time)

def Relayout.user : Relayout → Text
  | .repack u _ _ | .compact u _ _ _ _ => u

/-- The ids it mints, one for each container it may write. -/
def Relayout.mints (db : Db) : Relayout → List Text
  | .repack u mints _ => (passGroups db u mints).map Prod.snd
  | .compact _ _ _ new _ => [new]

section
variable {K : Type} (P : Prims K) (key : K)

/-- The world it leaves, whether it returned a value or an error. -/
def Relayout.leaves (w : World) : Relayout → World
  | .repack u mints now => (repackSmallFiles P key u mints now w).2
  | .compact u old survivors new now => (compactPack P key u old survivors new now w).2

/-- A compaction is of a container, with the bytes that its members slice from it. -/
def Relayout.Applies (w : World) : Relayout → Prop
  | .repack .. => True
  | .compact u old survivors _ _ => Sliced P key u old survivors w ∧
      ∀ c, rowOf w.db old = some c → isContainer c = true

end

/-- Every file reads as before, nothing about it but where its bytes are kept changed, the
manifest stays well formed, and every container written is laid out. -/
theorem relayout_kept {K : Type} {P : Prims K} {key : K} (hP : Restores P) {w : World}
    (hwf : WellFormed P key w) (m : Relayout) (hfresh : Fresh P w.db (m.mints w.db))
    (happlies : m.Applies P key w) : Kept P key m.user (m.mints w.db) w (m.leaves P key w) := by
  cases m with
  | repack u mints now =>
    obtain ⟨hpres, hlaid, -⟩ := @repackSmallFiles_repacked _ P key w hP hwf u mints now hfresh
    exact ⟨hpres, hlaid⟩
  | compact u old survivors new now => exact compactPack_kept hP hwf hfresh happlies.1 happlies.2

/-! ### A pass over two files -/

/-- Two files of one user, of two bytes and of one. -/
def twoFiles : World :=
  (push (Sample.sample []) .node ['u'] ['b'] [3] ['b'] 1
    (push (Sample.sample []) .node ['u'] ['a'] [1, 2] ['a'] 0 ⟨Db.empty, fun _ => none, []⟩).2).2

/-- The id of a short name is new where no fragment id shows it. -/
theorem fresh_sample {x : Char} {n : UInt8} (hx : utf8 [x] = [n]) {db : Db} (hrow : rowOf db [x] = none)
    (hshards : ∀ s ∈ db.shards, s.fragmentId.take 2 = ['0', '0'] ∧
      (s.fragmentId.drop 4).take 2 ≠ hexEncode [n]) : Fresh (Sample.sample []) db [[x]] := by
  refine ⟨fun m hm => List.mem_singleton.mp hm ▸ hrow, fun m hm s hs f hf haddr => ?_,
    List.pairwise_singleton _ _⟩
  obtain rfl : f = [x] := (Set.mem_singleton_iff.mp hf).trans (List.mem_singleton.mp hm)
  obtain ⟨hzero, hname⟩ := hshards s hs
  exact (addr_shows hx haddr).elim (fun h => h hzero) hname

theorem twoFiles_kept : Kept (Sample.sample []) .node ['u'] [['m']] twoFiles
      ((Relayout.repack ['u'] (fun _ => ['m']) 2).leaves (Sample.sample []) .node twoFiles) ∧
    ((rowOf ((Relayout.repack ['u'] (fun _ => ['m']) 2).leaves (Sample.sample []) .node
      twoFiles).db ['m']).map isContainer) = some true := by
  have hmint : (Relayout.repack ['u'] (fun _ => ['m']) 2).mints twoFiles.db = [['m']] := by
    decide +kernel
  have hwf : WellFormed (Sample.sample []) .node twoFiles := by
    intro g r p hr hp
    have hnone : ∀ r ∈ twoFiles.db.files, r.packId = none := by decide +kernel
    rw [hnone r (rowOf_some hr).1] at hp
    cases hp
  have hfresh : Fresh (Sample.sample []) twoFiles.db
      ((Relayout.repack ['u'] (fun _ => ['m']) 2).mints twoFiles.db) := by
    rw [hmint]
    exact @fresh_sample 'm' 109 (by decide) _ (by decide +kernel) (by decide +kernel)
  refine ⟨?_, by decide +kernel⟩
  have hkept := @relayout_kept _ (Sample.sample []) .node
    ⟨Sample.sample_aead [], Sample.sample_zstd [], Sample.sample_rs []⟩ twoFiles hwf
    (.repack ['u'] (fun _ => ['m']) 2) hfresh trivial
  rw [hmint] at hkept
  exact hkept

end P2pnas.Store.Migration
