import P2pnas.Store.Spared

/-!
# What a file is safe from (`service.rs:85-527`, `1042-1201`)

Of a run of calls: which files its pushes made, with which bytes, and which of them a call has
destroyed by their own row. All others read as they were pushed as long as no call destroys or packs
a row that they name as their container.
-/

namespace P2pnas.Store.Intact
open P2pnas.Lib.Frames P2pnas.Lib.Strings P2pnas.Lib.Runs P2pnas.Core P2pnas.Core.Base
open P2pnas.Store.Manifest P2pnas.Store.Session P2pnas.Store.Reading P2pnas.Store.Service
open P2pnas.Store.Packing P2pnas.Store.Roundtrip P2pnas.Store.Readable P2pnas.Store.Crashes
open P2pnas.Store.Edits P2pnas.Store.Shelves P2pnas.Store.Rows P2pnas.Store.Relaid
open P2pnas.Store.Repacking P2pnas.Store.Migration P2pnas.Store.Operations P2pnas.Store.Spared

/-! ### Files and their bytes -/

/-- A node with the files that pushes made and no call destroyed: owner and bytes of each. -/
structure Tracked where
  world : World
  origin : Text → Option (Text × Bytes)

def start : Tracked := ⟨emptyWorld, fun _ => none⟩

/-- The rows that a call on `b` destroys, as its argument or by their own state. -/
def Destroys (b : Db) : Op → Text → Prop
  | .purgeFile u f, g => g = f ∧ (getFile b u f).isSome = true
  | .emptyTrash u, g => ∃ row ∈ listTrashed b u, row.fileId = g
  | .purgeRetired policy t v, g => ∃ c ∈ retiredCandidates b policy t v, c.2.1 = g
  | _, _ => False

instance Destroys.decidable (b : Db) (g : Text) : ∀ o, Decidable (Destroys b o g)
  | .purgeFile u f => inferInstanceAs (Decidable (g = f ∧ (getFile b u f).isSome = true))
  | .emptyTrash u => inferInstanceAs (Decidable (∃ row ∈ listTrashed b u, row.fileId = g))
  | .purgeRetired policy t v =>
    inferInstanceAs (Decidable (∃ c ∈ retiredCandidates b policy t v, c.2.1 = g))
  | .push .. | .trash .. | .trashPath .. | .restore .. | .rename .. | .mkdir .. | .packFiles ..
  | .compactPack .. | .repackSmallFiles .. | .setLocation .. => .isFalse id

section
variable {K : Type} (P : Prims K) (key : K)

def step (s : Tracked) (a : Op × List Event) : Tracked where
  world := Operations.step P key s.world a
  origin g :=
    match a.1 with
    | .push u _ data m _ =>
      if g = m ∧ rowOf s.world.db m = none ∧ rowOf (Operations.step P key s.world a).db m ≠ none then
        some (u, data)
      else s.origin g
    | o => if Destroys s.world.db o g then none else s.origin g

/-- No file names a row of these as its container. -/
def Unnamed (s : Tracked) (ids : List Text) : Prop :=
  ∀ f v, s.origin f = some v → ∀ r, rowOf s.world.db f = some r → ∀ p, r.packId = some p → p ∉ ids

/-- The entries carry the bytes that their files read as. -/
def Carried (w : World) (u : Text) (es : List PackEntry) : Prop :=
  ∀ e ∈ es, pulled P key w u e.fileId = .ok e.data

/-- What every caller sees to: minted ids are new, entries were read. -/
def Fair (s : Tracked) : Op → Prop
  | .push _ _ _ m _ => Fresh P s.world.db [m]
  | .packFiles u es m _ => Fresh P s.world.db [m] ∧ Carried P key s.world u es
  | .compactPack u _ es m _ => Fresh P s.world.db [m] ∧ Carried P key s.world u es
  | .repackSmallFiles u mints _ => Fresh P s.world.db ((passGroups s.world.db u mints).map Prod.snd)
  | .setLocation .. => False
  | _ => True

end

/-- The call destroys no container of a file it leaves, packs none, and compacts no file. -/
def Careful (s : Tracked) : Op → Prop
  | .packFiles _ es _ _ => Unnamed s (es.map PackEntry.fileId)
  | .repackSmallFiles u _ _ => Unnamed s ((packableFiles s.world.db u SMALL_MAX).map FileRow.fileId)
  | .compactPack _ old _ _ _ => s.origin old = none
  | o => ∀ f v, s.origin f = some v → ¬ Destroys s.world.db o f → ∀ r, rowOf s.world.db f = some r →
      ∀ p, r.packId = some p → ¬ Destroys s.world.db o p

/-! ### One call and one file -/

section
variable {K : Type} {P : Prims K} {key : K} {w w' : World} {u f : Text} {b : Bytes}

/-- The file and its container are among those that a call leaves alone. -/
theorem pulled_spared {F : Set Text} (ht : Tidy P w.db) (hs : Same F w w') (hf : f ∈ F)
    (hp : ∀ r, rowOf w.db f = some r → ∀ p, r.packId = some p → p ∈ F)
    (hb : pulled P key w u f = .ok b) : pulled P key w' u f = .ok b := by
  rw [← hb]
  refine pulled_same ht hs hf fun v hv p hvp => ?_
  obtain ⟨r, hr, -, rfl⟩ := rowOf_getFile hv
  exact hp r hr p hvp

/-- A container that a file reads from has a row of the same user with chunks of its own. -/
theorem container_of_pulled (hb : pulled P key w u f = .ok b) {r : FileRec}
    (hr : rowOf w.db f = some r) : r.userId = u ∧ ∀ p, r.packId = some p →
      ∃ c, rowOf w.db p = some c ∧ c.userId = u ∧ c.packId = none := by
  obtain ⟨r', hr', hu, hcase⟩ := pulled_ok hb
  obtain rfl : r = r' := Option.some.inj (hr.symm.trans hr')
  refine ⟨hu, fun p hp => ?_⟩
  rcases hcase with ⟨hnone, -⟩ | ⟨q, c, plain, hq, hc, hcu, hcnone, -⟩
  · rw [hp] at hnone
    cases hnone
  · rw [hp] at hq
    cases hq
    exact ⟨c, hc, hcu, hcnone⟩

theorem pulled_quiet (hq : Quiet w w') (hb : pulled P key w u f = .ok b) :
    pulled P key w' u f = .ok b := by
  obtain ⟨r, hr, -⟩ := pulled_ok hb
  exact pulled_stays hr (hq.stays f) (fun p _ => hq.stays p) hb

/-- Two users read the same bytes of a file, if both read any. -/
theorem pulled_unique {v : Text} {d : Bytes} (hb : pulled P key w u f = .ok b)
    (hd : pulled P key w v f = .ok d) : d = b := by
  obtain ⟨r, hr, hu, -⟩ := pulled_ok hb
  obtain ⟨hv, -⟩ := container_of_pulled hd hr
  rw [← hv, hu, hb] at hd
  exact (Except.ok.inj hd).symm

/-! ### Packings -/

/-- A file reads as before after packings under the ids `ms`, and names one of these, or what it
named. -/
structure Rests (P : Prims K) (key : K) (u f : Text) (b : Bytes) (ms : List Text) (w w' : World) : Prop where
  reads : pulled P key w' u f = .ok b
  names : ∀ r' p, rowOf w'.db f = some r' → r'.packId = some p →
    p ∈ ms ∨ ∃ r, rowOf w.db f = some r ∧ r.packId = some p
  shards : ∀ s ∈ w'.db.shards, s ∈ w.db.shards ∨ ∃ m ∈ ms, Addr P m s.fragmentId

theorem Rests.of_quiet (ms : List Text) (hq : Quiet w w') (hb : pulled P key w u f = .ok b) :
    Rests P key u f b ms w w' := by
  refine ⟨pulled_quiet hq hb, fun r p hr hp => .inr ⟨r, ?_, hp⟩, fun s hs => .inl ?_⟩
  · rw [← hr, hq.1]
  · rw [← hq.1]
    exact hs

theorem Rests.trans {w₁ : World} {ms ns : List Text} (h : Rests P key u f b ms w w₁)
    (h' : Rests P key u f b ns w₁ w') : Rests P key u f b (ms ++ ns) w w' := by
  refine ⟨h'.reads, fun r' p hr' hp => ?_, fun s hs => ?_⟩
  · rcases h'.names r' p hr' hp with hin | ⟨r₁, hr₁, hp₁⟩
    · exact .inl (List.mem_append_right ms hin)
    · exact (h.names r₁ p hr₁ hp₁).imp_left (List.mem_append_left ns)
  · rcases h'.shards s hs with hs | ⟨m, hm, haddr⟩
    · exact (h.shards s hs).imp_right fun ⟨m, hm, haddr⟩ => ⟨m, List.mem_append_left ns hm, haddr⟩
    · exact .inr ⟨m, List.mem_append_right ms hm, haddr⟩

/-- The file names none of the ids. -/
def Avoids (w : World) (f : Text) (ids : List Text) : Prop :=
  ∀ r, rowOf w.db f = some r → ∀ p, r.packId = some p → p ∉ ids

theorem Rests.avoids {ms ids : List Text} (h : Rests P key u f b ms w w') (hno : ∀ m ∈ ms, m ∉ ids)
    (hw : Avoids w f ids) : Avoids w' f ids := by
  intro r' hr' p hp
  rcases h.names r' p hr' hp with hin | ⟨r, hr, hrp⟩
  · exact hno p hin
  · exact hw r hr p hrp

theorem packFiles_rests (hP : Restores P) {v pk : Text} {es : List PackEntry} {now : Time}
    (hu : Unused P {pk} w.db) (hdata : ∀ e ∈ es, e.fileId = f → e.data = b)
    (hno : Avoids w f (es.map PackEntry.fileId)) (hb : pulled P key w u f = .ok b) :
    Rests P key u f b [pk] w (packFiles P key v es pk now w).2 := by
  have hcases : PackedOr P key v pk es w (packFiles P key v es pk now w).2 := packFiles_cases hP hu
  cases hcases with
  | quiet hq => exact .of_quiet [pk] hq hb
  | relaid ers w₁ ids done shards after =>
    have hone : Rests P key u f b [pk] w w₁ := by
      obtain ⟨r, hr, -⟩ := pulled_ok hb
      refine ⟨?_, fun r' p hr' hp => ?_, fun s hs => ?_⟩
      · by_cases hin : f ∈ ers.map fun er => er.1.fileId
        · obtain ⟨er, her, rfl⟩ := List.mem_map.mp hin
          obtain ⟨r₀, hr₀, hrv, -, hrow⟩ := done.rows er her
          obtain ⟨c, plain, hc, hcu, hown, -, hplain, hslices⟩ := done.container
          obtain ⟨hinside, hslice⟩ := hslices er her
          have hru := (container_of_pulled hb hr₀).1
          rw [← hru, pulled_placed hrow hc (hcu.trans hrv.symm) hown hplain hinside, hslice,
            hdata er.1 (ids ▸ List.mem_map_of_mem her) rfl]
        · have hstay : ∀ g, g ∉ ers.map (fun er => er.1.fileId) → (∃ q, rowOf w.db g = some q) →
              Stays w w₁ g := by
            rintro g hg ⟨q, hq⟩
            refine done.rest g hg ?_ (Option.some_ne_none g).symm
            rintro rfl
            rw [done.fresh] at hq
            cases hq
          refine pulled_stays hr (hstay f hin ⟨r, hr⟩) (fun p hp => ?_) hb
          obtain ⟨c, hc, -⟩ := (container_of_pulled hb hr).2 p hp
          refine hstay p (fun hpin => hno r hr p hp ?_) ⟨c, hc⟩
          rw [← ids, List.map_map]
          exact hpin
      · rcases done.member hr' hp with ⟨rfl, -⟩ | hold
        · exact .inl (List.mem_singleton_self p)
        · exact .inr ⟨r', hold, hp⟩
      · exact (shards s hs).imp_right fun haddr => ⟨pk, List.mem_singleton_self pk, haddr⟩
    exact hone.trans (.of_quiet [] after hone.reads)

theorem repackGroup_rests (hP : Restores P) {v : Text} {now : Time} {g : List FileRow × Text}
    (hu : Unused P {g.2} w.db) (hno : Avoids w f (g.1.map FileRow.fileId))
    (hb : pulled P key w u f = .ok b) :
    Rests P key u f b [g.2] w (repackGroup P key v now g w).2 := by
  have hmoves := @moves_gather _ P key v (g.1.map FileRow.fileId) w
  rcases bind_cases (gather P key v (g.1.map FileRow.fileId)) _ w with
    ⟨e, w₁, hx, heq⟩ | ⟨es, w₁, hx, heq⟩
  · rw [hx] at hmoves
    rw [repackGroup, heq]
    exact .of_quiet [g.2] hmoves hb
  · obtain ⟨hdb, hst, hin⟩ := gather_ok hx
    have hq : Quiet w w₁ := quiet_of_eq hdb hst
    have hdata : ∀ e ∈ es, e.fileId = f → e.data = b := by
      rintro e he rfl
      exact pulled_unique hb (hin e he).2
    have hids : ∀ p ∈ es.map PackEntry.fileId, p ∈ g.1.map FileRow.fileId := by
      intro p hp
      obtain ⟨e, he, rfl⟩ := List.mem_map.mp hp
      exact (hin e he).1
    have hpack : Rests P key u f b [g.2] w₁ (packFiles P key v es g.2 now w₁).2 := by
      refine packFiles_rests hP (hdb ▸ hu) hdata (fun r hr p hp hpin => ?_) (pulled_quiet hq hb)
      exact hno r (hdb ▸ hr) p hp (hids p hpin)
    have hend : (repackGroup P key v now g w).2 = (packFiles P key v es g.2 now w₁).2 := by
      rw [repackGroup, heq]
      exact bind_pure_world ..
    rw [hend]
    exact (Rests.of_quiet [] hq hb).trans hpack

/-- The groups of a pass, each with an id of its own that none of the files has. -/
theorem collect_rests (hP : Restores P) {v : Text} {now : Time} {gs : List (List FileRow × Text)}
    {ids : List Text} (hids : ∀ g ∈ gs, ∀ x ∈ g.1, x.fileId ∈ ids) (hmint : ∀ g ∈ gs, g.2 ∉ ids)
    (hu : ∀ g ∈ gs, Unused P {g.2} w.db) (hapart : gs.Pairwise fun a b => Apart P a.2 b.2)
    (hno : Avoids w f ids) (hb : pulled P key w u f = .ok b) :
    Rests P key u f b (gs.map Prod.snd) w (collect (repackGroup P key v now) gs w).2 := by
  induction gs generalizing w with
  | nil => exact .of_quiet [] (quiet_of_eq rfl rfl) hb
  | cons g gs ih =>
    obtain ⟨hhead, htail⟩ := List.pairwise_cons.mp hapart
    have hfirst := List.mem_cons_self (a := g) (l := gs)
    have hgroup : Avoids w f (g.1.map FileRow.fileId) := by
      intro r hr p hp hin
      obtain ⟨x, hx, rfl⟩ := List.mem_map.mp hin
      exact hno r hr _ hp (hids g hfirst x hx)
    have hone : Rests P key u f b [g.2] w (repackGroup P key v now g w).2 :=
      repackGroup_rests hP (hu g hfirst) hgroup hb
    have hnext : Avoids (repackGroup P key v now g w).2 f ids :=
      hone.avoids (fun m hm => List.mem_singleton.mp hm ▸ hmint g hfirst) hno
    have hunused : ∀ g' ∈ gs, Unused P {g'.2} (repackGroup P key v now g w).2.db := by
      intro g' hg' s hs m hm
      obtain rfl := Set.mem_singleton_iff.mp hm
      rcases hone.shards s hs with hold | ⟨n, hn, haddr⟩
      · exact hu g' (List.mem_cons_of_mem g hg') s hold _ rfl
      · rw [List.mem_singleton.mp hn] at haddr
        exact hhead g' hg' _ haddr
    rcases bind_cases (repackGroup P key v now g) _ w with ⟨e, w₁, hx, heq⟩ | ⟨r, w₁, hx, heq⟩
    · rw [hx] at hone
      rw [collect, heq]
      exact hone.trans (.of_quiet (gs.map Prod.snd) (quiet_of_eq rfl rfl) hone.reads)
    · rw [hx] at hone hnext hunused
      have hrest := ih (fun g' hg' => hids g' (List.mem_cons_of_mem g hg'))
        (fun g' hg' => hmint g' (List.mem_cons_of_mem g hg')) hunused htail hnext hone.reads
      have hend : (collect (repackGroup P key v now) (g :: gs) w).2 =
          (collect (repackGroup P key v now) gs w₁).2 := by
        rw [collect, heq]
        exact bind_pure_world ..
      rw [hend]
      exact hone.trans hrest

theorem repackSmallFiles_rests (hP : Restores P) {v : Text} {mints : ℕ → Text} {now : Time}
    (hfresh : Fresh P w.db ((passGroups w.db v mints).map Prod.snd))
    (hno : Avoids w f ((packableFiles w.db v SMALL_MAX).map FileRow.fileId))
    (hb : pulled P key w u f = .ok b) :
    pulled P key (repackSmallFiles P key v mints now w).2 u f = .ok b := by
  rcases bind_cases (query (packableFiles · v SMALL_MAX)) _ w with ⟨e, w₁, hq, heq⟩ | ⟨fs, w₁, hq, heq⟩
  · rw [repackSmallFiles, heq]
    obtain ⟨hdb, hst⟩ := query_error hq
    exact pulled_quiet (quiet_of_eq hdb hst) hb
  · obtain ⟨rfl, hdb, hst⟩ := query_ok hq
    have hquiet : Quiet w w₁ := quiet_of_eq hdb hst
    have hmint : ∀ g ∈ passGroups w.db v mints, g.2 ∈ (passGroups w.db v mints).map Prod.snd :=
      fun g hg => List.mem_map_of_mem hg
    have hfiles : ∀ g ∈ passGroups w.db v mints, ∀ x ∈ g.1, x ∈ packableFiles w.db v SMALL_MAX := by
      intro g hg x hx
      obtain ⟨gi, hgi, rfl⟩ := List.mem_map.mp hg
      have hplan := (List.mem_filter.mp (List.fst_mem_of_mem_zipIdx hgi)).1
      exact (mem_planGroups hplan x hx).resolve_left List.not_mem_nil
    have hall : Rests P key u f b ((passGroups w.db v mints).map Prod.snd) w₁
        (collect (repackGroup P key v now) (passGroups w.db v mints) w₁).2 := by
      refine collect_rests hP (fun g hg x hx => List.mem_map_of_mem (hfiles g hg x hx)) (fun g hg hin => ?_)
        (fun g hg => hdb ▸ hfresh.unused _ (hmint g hg)) ?_ (fun r hr => hno r (hdb ▸ hr))
        (pulled_quiet hquiet hb)
      · -- the candidates have rows, the new ids have none
        obtain ⟨x, hx, hxg⟩ := List.mem_map.mp hin
        obtain ⟨r, hr, -⟩ := packable_file hx
        rw [hxg, hfresh.rows _ (hmint g hg)] at hr
        cases hr
      · exact (List.pairwise_map.mp hfresh.apart).imp And.right
    have hend : (repackSmallFiles P key v mints now w).2 =
        (collect (repackGroup P key v now) (passGroups w.db v mints) w₁).2 := by
      rw [repackSmallFiles, heq]
      exact bind_pure_world ..
    rw [hend]
    exact hall.reads

/-- A compaction of a container keeps every file but the container. -/
theorem compactPack_rests (hP : Restores P) {v old new : Text} {es : List PackEntry} {now : Time}
    (hu : Unused P {new} w.db) (hdata : ∀ e ∈ es, e.fileId = f → e.data = b) (hne : f ≠ old)
    (hb : pulled P key w u f = .ok b) : pulled P key (compactPack P key v old es new now w).2 u f = .ok b := by
  have hmoves : Moves (Touches P Set.univ {new}) (compactPackTx P key v old es new now) :=
    touches_compactPackTx (fun _ _ => Set.mem_univ _) (Set.mem_univ _) (Set.mem_univ _)
      (Set.mem_singleton new)
  obtain ⟨r, hr, -⟩ := pulled_ok hb
  obtain ⟨hru, hcont⟩ := container_of_pulled hb hr
  rcases transaction_purge hu hmoves fun _ _ h => compactPackTx_commit h with hq | ⟨res, w₁, hbody, hq⟩
  · exact pulled_quiet hq hb
  refine pulled_quiet hq ?_
  obtain ⟨⟨c, hc, hcv⟩, hmembers, hsteps⟩ := compactPackTx_steps hP hu hbody
  -- a member of the old container is the same user's, so it is carried over
  have hcarried : r.packId = some old → f ∈ es.map PackEntry.fileId := by
    intro hp
    obtain ⟨c', hc', hcu, -⟩ := hcont old hp
    rw [hc] at hc'
    cases hc'
    exact hmembers f r hr (hru.trans (hcu.symm.trans hcv)) hp
  cases hsteps with
  | emptied hempty hdropped =>
    refine pulled_stays hr (hdropped.rest f hne) (fun p hp => hdropped.rest p ?_) hb
    rintro rfl
    have hin := hcarried hp
    rw [hempty] at hin
    cases hin
  | moved built w₂ w₃ hnew hbuilt hmoved hinserted hdropped =>
    have hids : (es.zip built.2).map (fun er => er.1.fileId) = es.map PackEntry.fileId := by
      have heq := congrArg (List.map PackEntry.fileId) (buildPack_ok hbuilt).1
      rwa [List.map_map] at heq
    have hafter : ∀ g q, rowOf w₂.db g = some q → g ≠ new := by
      intro g q hq heq
      rw [heq, hinserted.fresh] at hq
      cases hq
    by_cases hin : f ∈ (es.zip built.2).map fun er => er.1.fileId
    · obtain ⟨er, her, rfl⟩ := List.mem_map.mp hin
      obtain ⟨r₀, hr₀, hrv, -, hrow⟩ := hmoved.rows er her
      obtain rfl : r = r₀ := Option.some.inj (hr.symm.trans hr₀)
      obtain ⟨c₁, hc₁, hc₁u, hown, -, hplain⟩ := hinserted.row
      obtain ⟨hinside, hslice⟩ := (buildPack_ok hbuilt).2.2 er her
      have hrow₃ := (hinserted.rest _ (hafter _ _ hrow)).1.trans hrow
      have hread : pulled P key w₃ u er.1.fileId = .ok b := by
        rw [← hru, pulled_placed hrow₃ hc₁ (hc₁u.trans hrv.symm) hown hplain hinside, hslice,
          hdata er.1 (List.of_mem_zip her).1 rfl]
      refine pulled_stays hrow₃ (hdropped.rest _ hne) (fun p hp => hdropped.rest p ?_) hread
      cases hp
      exact hnew.symm
    · have hstay : ∀ g q, rowOf w.db g = some q → g ∉ (es.zip built.2).map (fun er => er.1.fileId) →
          g ≠ old → Stays w w₁ g := by
        intro g q hq hg hold
        obtain ⟨hrow, hsame⟩ := hmoved.rest g hg
        obtain ⟨hrow₂, hsame₂⟩ := hinserted.rest g (hafter g q (hrow.trans hq))
        obtain ⟨hrow₃, hsame₃⟩ := hdropped.rest g hold
        exact ⟨hrow₃.trans (hrow₂.trans hrow), (hsame.trans hsame₂).trans hsame₃⟩
      refine pulled_stays hr (hstay f r hr hin hne) (fun p hp => ?_) hb
      obtain ⟨c', hc', -, hown⟩ := hcont p hp
      refine hstay p c' hc' (fun hpin => ?_) fun heq => ?_
      · -- an entry names the old container, the container of a file names none
        obtain ⟨er, her, rfl⟩ := List.mem_map.mp hpin
        obtain ⟨q, hq, -, hqp, -⟩ := hmoved.rows er her
        rw [hc'] at hq
        cases hq
        rw [hown] at hqp
        cases hqp
      · exact hin (hids ▸ hcarried (heq ▸ hp))

/-! ### One call -/

theorem purgeFile_none {v g : Text} (h : getFile w.db v g = none) :
    (purgeFile v g w).2.db = w.db ∧ (purgeFile v g w).2.store = w.store := by
  rcases bind_cases (query (getFile · v g)) _ w with ⟨e, w₁, hq, heq⟩ | ⟨row, w₁, hq, heq⟩
  · rw [purgeFile, heq]
    exact query_error hq
  · obtain ⟨rfl, hdb, hst⟩ := query_ok hq
    rw [purgeFile, heq, h]
    exact ⟨hdb, hst⟩

/-- A destroying call leaves a file that it does not destroy, if it leaves its container. -/
theorem destroy_rests {o : Op} (ht : Tidy P w.db) (hmint : ∀ m, ¬ Mints o m)
    (htakes : ∀ g, Takes w.db o g → Destroys w.db o g) (hf : ¬ Destroys w.db o f)
    (hp : ∀ r, rowOf w.db f = some r → ∀ p, r.packId = some p → ¬ Destroys w.db o p)
    (hb : pulled P key w u f = .ok b) : pulled P key (o.leaves P key w) u f = .ok b := by
  have hs : Spares P {g | ¬ Destroys w.db o g} w.db o :=
    ⟨fun g hg htake => hg (htakes g htake), fun m hm => absurd hm (hmint m), fun m hm => absurd hm (hmint m)⟩
  exact pulled_spared ht (op_same o ht hs).2 hf hp hb

/-- A file that a call does not destroy reads as before it. -/
theorem op_rests (hP : Restores P) {s : Tracked} {o : Op} (script : List Event)
    (ht : Tidy P s.world.db) (hfair : Fair P key s o) (hcare : Careful s o)
    (hf : s.origin f = some (u, b)) (hd : ¬ Destroys s.world.db o f)
    (hb : pulled P key s.world u f = .ok b) :
    pulled P key (o.leaves P key { s.world with script := script }) u f = .ok b := by
  obtain ⟨r, hr, -⟩ := pulled_ok hb
  obtain ⟨-, hcont⟩ := container_of_pulled hb hr
  generalize hw : ({ s.world with script := script } : World) = w
  have hdb : w.db = s.world.db := hw ▸ rfl
  have hbw : pulled P key w u f = .ok b := hw ▸ hb
  rw [← hdb] at ht hr hcont hd
  have hshelf : ∀ {α : Type} {x : Svc α}, Moves (Touches P ∅ ∅) x → pulled P key (x w).2 u f = .ok b :=
    fun hx => pulled_spared ht (shelved_same ht hx).2 (Set.mem_univ _) (fun _ _ _ _ => Set.mem_univ _) hbw
  have hdata : ∀ {v es}, Carried P key s.world v es → ∀ e ∈ es, e.fileId = f → e.data = b := by
    rintro v es hc e he rfl
    exact pulled_unique hb (hc e he)
  cases o with
  | push v path data m now =>
    have hnew : ∀ g q, rowOf w.db g = some q → g ≠ m := by
      rintro g q hq rfl
      rw [hdb, hfair.rows g (List.mem_singleton_self g)] at hq
      cases hq
    have hs : Spares P {g | g ≠ m} w.db (.push v path data m now) := by
      refine ⟨fun _ _ => id, fun x hx hne => hne hx, fun x hx g _ sh hsh _ haddr => ?_⟩
      obtain rfl : x = m := hx
      exact hfair.unused x (List.mem_singleton_self x) sh (hdb ▸ hsh) x rfl haddr
    refine pulled_spared ht (op_same _ ht hs).2 (hnew f r hr) (fun q hq p hp => ?_) hbw
    obtain rfl := Option.some.inj (hr.symm.trans hq)
    obtain ⟨c, hc, -⟩ := hcont p hp
    exact hnew p c hc
  | trash v g now => exact hshelf (moves_trash touches_shelves v g now)
  | trashPath v path now => exact hshelf (moves_trashPath touches_shelves v path now)
  | restore v g newPath now => exact hshelf (moves_restore touches_shelves v g newPath now)
  | rename v fromPath toPath => exact hshelf (moves_rename touches_shelves v fromPath toPath)
  | mkdir v path => exact hshelf (moves_mkdir touches_shelves v path)
  | purgeFile v g =>
    cases hrow : getFile w.db v g with
    | none =>
      obtain ⟨hdb', hst'⟩ := purgeFile_none hrow
      exact pulled_quiet (quiet_of_eq hdb' hst') hbw
    | some row =>
      refine destroy_rests ht (fun _ => id) (fun x hx => ⟨hx, ?_⟩) hd (fun q hq p hp => ?_) hbw
      · rw [hrow]
        rfl
      · rw [hdb] at hq ⊢
        exact hcare f _ hf (hdb ▸ hd) q hq p hp
  | emptyTrash v =>
    refine destroy_rests ht (fun _ => id) (fun _ => id) hd (fun q hq p hp => ?_) hbw
    rw [hdb] at hq ⊢
    exact hcare f _ hf (hdb ▸ hd) q hq p hp
  | purgeRetired policy t v =>
    refine destroy_rests ht (fun _ => id) (fun _ => id) hd (fun q hq p hp => ?_) hbw
    rw [hdb] at hq ⊢
    exact hcare f _ hf (hdb ▸ hd) q hq p hp
  | packFiles v es m now =>
    refine (packFiles_rests hP (hdb ▸ hfair.1.unused m (List.mem_singleton_self m)) (hdata hfair.2)
      (fun q hq p hp => ?_) hbw).reads
    exact hcare f _ hf q (hdb ▸ hq) p hp
  | compactPack v old es m now =>
    refine compactPack_rests hP (hdb ▸ hfair.1.unused m (List.mem_singleton_self m)) (hdata hfair.2) ?_ hbw
    rintro rfl
    have hnone : s.origin f = none := hcare
    rw [hnone] at hf
    cases hf
  | repackSmallFiles v mints now =>
    have hno : Avoids w f ((packableFiles w.db v SMALL_MAX).map FileRow.fileId) := by
      intro q hq p hp
      rw [hdb] at hq ⊢
      exact hcare f _ hf q hq p hp
    have hfresh : Fresh P w.db ((passGroups w.db v mints).map Prod.snd) := by
      rw [hdb]
      exact hfair
    exact repackSmallFiles_rests hP hfresh hno hbw
  | setLocation frag location => exact hfair.elim

/-- A push that made a row made it of its bytes. -/
theorem push_reads (hP : Restores P) {v path m : Text} {data : Bytes} {now : Time}
    (hnone : rowOf w.db m = none) (hmade : rowOf (push P key v path data m now w).2.db m ≠ none) :
    pulled P key (push P key v path data m now w).2 v m = .ok data := by
  cases hx : push P key v path data m now w with
  | mk res w' =>
    rw [hx] at hmade
    have hsame : w'.db ≠ w.db := by
      intro heq
      rw [heq] at hmade
      exact hmade hnone
    cases res with
    | error stop => exact absurd (push_error hx) hsame
    | ok res =>
      rcases push_ok hx with ⟨-, hdb, -⟩ | ⟨-, -, c, hc, rfl, hown, hreads⟩
      · exact absurd hdb hsame
      · exact Readable.pull_own hP hc (hreads (fun _ => data) rfl) hown 1

/-! ### Runs -/

/-- Everything tracked reads as the bytes it was pushed with. -/
structure Unharmed (P : Prims K) (key : K) (s : Tracked) : Prop where
  tidy : Tidy P s.world.db
  reads : ∀ f u b, s.origin f = some (u, b) → pulled P key s.world u f = .ok b

theorem step_intact (hP : Restores P) {s : Tracked} {a : Op × List Event} (h : Unharmed P key s)
    (hfair : Fair P key s a.1) (hcare : Careful s a.1) : Unharmed P key (step P key s a) := by
  refine ⟨@op_tidy K P { s.world with script := a.2 } key a.1 h.tidy, fun f u b hf => ?_⟩
  have hold : s.origin f = some (u, b) → ¬ Destroys s.world.db a.1 f →
      pulled P key (step P key s a).world u f = .ok b := fun hf hd =>
    op_rests hP a.2 h.tidy hfair hcare hf hd (h.reads f u b hf)
  obtain ⟨o, script⟩ := a
  cases o with
  | push v path data m now =>
    dsimp only [step] at hf
    split at hf
    · next hmade =>
      obtain ⟨rfl, hnone, hrow⟩ := hmade
      cases hf
      exact push_reads hP hnone hrow
    · exact hold hf id
  | _ =>
    dsimp only [step] at hf
    split at hf
    · cases hf
    · next hd => exact hold hf hd

end

/-- In every run of calls, whatever fails in them: a file that a push made and no call destroyed by
its own row is there and reads as the bytes of its push. -/
theorem run_intact {K : Type} {P : Prims K} (key : K) (hP : Restores P) (as : List (Op × List Event))
    (h : AllMeet (step P key) (fun s a => Fair P key s a.1 ∧ Careful s a.1) start as) :
    ∀ f u b, (run (step P key) start as).origin f = some (u, b) →
      pulled P key (run (step P key) start as).world u f = .ok b := by
  have hinv := run_invariant (I := Unharmed P key) (fun s a hs ha => step_intact hP hs ha.1 ha.2)
    ⟨tidy_empty P, fun _ _ _ hnone => absurd hnone (Option.some_ne_none _).symm⟩ h
  exact hinv.reads

/-! ### Two files in a container -/

def packTwo : List (Op × List Event) :=
  [(.push ['u'] ['a'] [1, 2] ['a'] 0, []), (.push ['u'] ['b'] [3] ['b'] 1, []),
    (.repackSmallFiles ['u'] (fun _ => ['m']) 2, [])]

def twoPushed : Tracked :=
  step (Sample.sample []) Sample.Key.node
    (step (Sample.sample []) Sample.Key.node start (.push ['u'] ['a'] [1, 2] ['a'] 0, []))
    (.push ['u'] ['b'] [3] ['b'] 1, [])

def twoPacked : Tracked :=
  step (Sample.sample []) Sample.Key.node twoPushed (.repackSmallFiles ['u'] (fun _ => ['m']) 2, [])

theorem packTwo_fair : Fresh (Sample.sample []) start.world.db [['a']] ∧
    Fresh (Sample.sample [])
      (step (Sample.sample []) Sample.Key.node start (.push ['u'] ['a'] [1, 2] ['a'] 0, [])).world.db [['b']] ∧
    Fresh (Sample.sample []) twoPushed.world.db
      ((passGroups twoPushed.world.db ['u'] fun _ => ['m']).map Prod.snd) := by
  have hmint : (passGroups twoPushed.world.db ['u'] fun _ => ['m']).map Prod.snd = [['m']] := by
    decide +kernel
  refine ⟨?_, ?_, ?_⟩
  · exact @fresh_sample 'a' 97 (by decide) _ (by decide +kernel) (by decide +kernel)
  · exact @fresh_sample 'b' 98 (by decide) _ (by decide +kernel) (by decide +kernel)
  · rw [hmint]
    exact @fresh_sample 'm' 109 (by decide) _ (by decide +kernel) (by decide +kernel)

/-- The container is a row with an id of its own: its destruction takes both files with it. -/
theorem purgedContainer_loses : AllMeet (step (Sample.sample []) Sample.Key.node)
      (fun s a => Fair (Sample.sample []) Sample.Key.node s a.1) start
      [(.push ['u'] ['a'] [1, 2] ['a'] 0, []), (.push ['u'] ['b'] [3] ['b'] 1, []),
        (.repackSmallFiles ['u'] (fun _ => ['m']) 2, []), (.purgeFile ['u'] ['m'], [])] ∧
    (step (Sample.sample []) Sample.Key.node twoPacked (.purgeFile ['u'] ['m'], [])).origin ['a'] =
      some (['u'], [1, 2]) ∧
    pulled (Sample.sample []) Sample.Key.node
      (step (Sample.sample []) Sample.Key.node twoPacked (.purgeFile ['u'] ['m'], [])).world ['u'] ['a'] ≠
      .ok [1, 2] := by
  obtain ⟨ha, hb, hm⟩ := packTwo_fair
  refine ⟨⟨ha, hb, hm, trivial, trivial⟩, by decide +kernel, fun h => ?_⟩
  obtain ⟨r, hr, -, ⟨hnone, -⟩ | ⟨p, c, -, hp, hc, -⟩⟩ := pulled_ok h
  · have hno : ∀ r ∈ (step (Sample.sample []) Sample.Key.node twoPacked (.purgeFile ['u'] ['m'], [])).world.db.files,
        r.packId ≠ none := by decide +kernel
    exact hno r (rowOf_some hr).1 hnone
  · have hno : ∀ r ∈ (step (Sample.sample []) Sample.Key.node twoPacked (.purgeFile ['u'] ['m'], [])).world.db.files,
        ∀ c ∈ (step (Sample.sample []) Sample.Key.node twoPacked (.purgeFile ['u'] ['m'], [])).world.db.files,
        r.packId ≠ some c.fileId := by decide +kernel
    obtain ⟨hcm, rfl⟩ := rowOf_some hc
    exact hno r (rowOf_some hr).1 c hcm hp

/-- A member of the container goes, and the other one stays. -/
theorem purgedMember_intact :
    (run (step (Sample.sample []) Sample.Key.node) start (packTwo ++ [(.purgeFile ['u'] ['b'], [])])).origin
      ['a'] = some (['u'], [1, 2]) ∧
    pulled (Sample.sample []) Sample.Key.node
      (run (step (Sample.sample []) Sample.Key.node) start (packTwo ++ [(.purgeFile ['u'] ['b'], [])])).world
      ['u'] ['a'] = .ok [1, 2] := by
  obtain ⟨ha, hb, hm⟩ := packTwo_fair
  have horigin : (run (step (Sample.sample []) Sample.Key.node) start
      (packTwo ++ [(.purgeFile ['u'] ['b'], [])])).origin ['a'] = some (['u'], [1, 2]) := by decide +kernel
  have hnone : ∀ r ∈ twoPushed.world.db.files, r.packId = none := by decide +kernel
  have hpacked : ∀ r ∈ twoPacked.world.db.files, r.packId = none ∨ r.packId = some ['m'] := by decide +kernel
  have hrepack : Careful twoPushed (.repackSmallFiles ['u'] (fun _ => ['m']) 2) := by
    intro f v _ r hr p hp
    rw [hnone r (rowOf_some hr).1] at hp
    cases hp
  have hpurge : Careful twoPacked (.purgeFile ['u'] ['b']) := by
    rintro f v _ _ r hr p hp ⟨rfl, -⟩
    rcases hpacked r (rowOf_some hr).1 with h | h
    · rw [h] at hp
      cases hp
    · rw [h] at hp
      cases hp
  have hlast : AllMeet (step (Sample.sample []) Sample.Key.node)
      (fun s a => Fair (Sample.sample []) Sample.Key.node s a.1 ∧ Careful s a.1) twoPacked
      [(.purgeFile ['u'] ['b'], [])] := ⟨⟨trivial, hpurge⟩, trivial⟩
  rw [twoPacked] at hlast
  have hmid : AllMeet (step (Sample.sample []) Sample.Key.node)
      (fun s a => Fair (Sample.sample []) Sample.Key.node s a.1 ∧ Careful s a.1) twoPushed
      [(.repackSmallFiles ['u'] (fun _ => ['m']) 2, []), (.purgeFile ['u'] ['b'], [])] :=
    ⟨⟨hm, hrepack⟩, hlast⟩
  rw [twoPushed] at hmid
  have hall : AllMeet (step (Sample.sample []) Sample.Key.node)
      (fun s a => Fair (Sample.sample []) Sample.Key.node s a.1 ∧ Careful s a.1) start
      (packTwo ++ [(.purgeFile ['u'] ['b'], [])]) :=
    ⟨⟨ha, fun _ _ _ _ _ _ _ _ => id⟩, ⟨hb, fun _ _ _ _ _ _ _ _ => id⟩, hmid⟩
  exact ⟨horigin, run_intact Sample.Key.node
    ⟨Sample.sample_aead [], Sample.sample_zstd [], Sample.sample_rs []⟩ _ hall ['a'] ['u'] [1, 2] horigin⟩

end P2pnas.Store.Intact
