import P2pnas.Store.Effects
import P2pnas.Store.Intact
import P2pnas.Store.Parked

/-!
# The service refines its documents (`service.rs:55-657`, `800-1200`)

A run of calls, each under faults of its own, is a history of the document machine in which every
call that returned a value happened. What an acknowledged upload wrote is therefore what its path
shows, and what it reads as, until a call takes it from there.
-/

namespace P2pnas.Store.Refinement
open P2pnas.Lib.Frames P2pnas.Lib.Strings P2pnas.Lib.Runs P2pnas.Lib.Atomic P2pnas.Core
open P2pnas.Core.Base P2pnas.Core.Pipeline P2pnas.Store.Manifest P2pnas.Store.Session
open P2pnas.Store.Service P2pnas.Store.Packing P2pnas.Store.Operations P2pnas.Store.Lifecycle P2pnas.Store.Rows
open P2pnas.Store.Documents P2pnas.Store.Effects
open P2pnas.Store.Parked P2pnas.Store.Roundtrip

variable {K : Type} (P : Prims K) (key : K)

/-! ### Runs as histories -/

/-- The call returns a value. -/
def Op.returns (w : World) : Op → Bool
  | .push u path data mint now => (Service.push P key u path data mint now w).1.isOk
  | .trash u f now => (Service.trash u f now w).1.isOk
  | .trashPath u path now => (Service.trashPath u path now w).1.isOk
  | .restore u f newPath now => (Service.restore u f newPath now w).1.isOk
  | .rename u fromPath toPath => (Service.rename u fromPath toPath w).1.isOk
  | .mkdir u path => (Service.mkdir u path w).1.isOk
  | .purgeFile u f => (Service.purgeFile u f w).1.isOk
  | .emptyTrash u => (Service.emptyTrash u w).1.isOk
  | .purgeRetired policy t v => (Service.purgeRetired policy t v w).1.isOk
  | .packFiles u entries packId now => (Packing.packFiles P key u entries packId now w).1.isOk
  | .compactPack u old survivors new now => (Packing.compactPack P key u old survivors new now w).1.isOk
  | .repackSmallFiles u mints now => (Packing.repackSmallFiles P key u mints now w).1.isOk
  | .setLocation frag location => (Operations.setLocation frag location w).1.isOk

/-- One call under a script of its own is acknowledged. -/
def acked (w : World) (a : Op × List Event) : Bool := Op.returns P key { w with script := a.2 } a.1

section
variable {P key} {w : World}

/-- A call meets its effect on the documents, or returns an error and leaves them. -/
theorem op_meets (o : Op) (hfiled : AllFiled w.db) :
    Meets (blake3Hex P) o (docs w.db) (docs (o.leaves P key w).db) ∨
      Op.returns P key w o = false ∧ docs (o.leaves P key w).db = docs w.db := by
  cases o with
  | push u path data mint now => exact push_effect hfiled
  | trash u f now => exact trash_effect hfiled
  | trashPath u path now => exact trashPath_effect hfiled
  | restore u f newPath now => exact restore_effect hfiled
  | rename u fromPath toPath => exact rename_effect hfiled
  | mkdir u path =>
    have hF : Frame fun w w' : World => w'.db.files = w.db.files := ⟨fun _ _ => rfl, fun _ _ _ h h' => h'.trans h⟩
    refine .inl (docs_congr ?_)
    refine moves_bind hF (moves_collect hF fun row _ => moves_stmt hF fun w db h => ?_)
      (fun _ => moves_pure hF ()) w
    cases h
    unfold insertFolderRow
    split
    · rfl
    · rfl
  | purgeFile u f => exact purgeFile_effect
  | emptyTrash u => exact emptyTrash_effect hfiled
  | purgeRetired policy t v => exact purgeRetired_effect hfiled
  | packFiles u es m now => exact packFiles_effect
  | compactPack u old es m now => exact compactPack_effect
  | repackSmallFiles u mints now => exact .inl (repack_moves mints w)
  | setLocation frag location =>
    have hmoves : Moves (fun w w' => docs w'.db = docs w.db) (Operations.setLocation frag location) := by
      refine moves_stmt docs_frame fun w db h => ?_
      obtain rfl := Option.some.inj h
      exact docs_congr rfl
    exact .inl (hmoves w)

theorem step_meets (hw : Reached P key w) (a : Op × List Event) :
    Meets (blake3Hex P) a.1 (docs w.db) (docs (step P key w a).db) ∨
      acked P key w a = false ∧ docs (step P key w a).db = docs w.db := by
  have hfiled : AllFiled w.db := reached_filed P key hw
  exact @op_meets K P key { w with script := a.2 } a.1 hfiled

end

/-- Every run of calls from the empty manifest, with any faults in it, is a history of the document
machine: each call had its whole effect or none, and those that returned a value had it. -/
theorem run_refines (as : List (Op × List Event)) :
    History (fun a D D' => Meets (blake3Hex P) a.1 D D') (fun _ => none)
      (answers (step P key) (acked P key) emptyWorld as) (docs (run (step P key) emptyWorld as).db) := by
  have hstart : Reached P key emptyWorld := ⟨[], rfl⟩
  have hatomic : ∀ w a, Reached P key w → AllOrNothing (step P key) (acked P key) (fun w => docs w.db)
      (fun a D D' => Meets (blake3Hex P) a.1 D D') w a := fun w a hw => step_meets hw a
  exact run_history (fun w a hw => reached_step P key hw a) hatomic hstart as

/-! ### What an upload leaves at its path -/

/-- The call is about no document at the path: it writes elsewhere, and names neither the document
nor a folder it is in. -/
def Elsewhere (u path : Text) (D : Docs) : Op → Prop
  | .push v q _ _ _ => v = u → q ≠ path
  | .trash v f _ | .purgeFile v f | .compactPack v f _ _ _ => v = u → ∀ d, D f = some d → ¬ At u path d
  | .trashPath v q _ | .rename v q _ => v = u → trimMatches slash q ≠ path ∧
      (¬ Occupied D u (trimMatches slash q) → underPath (trimMatches slash q) path = false)
  | .restore v f newPath _ => v = u → ∀ d, D f = some d → d.shelf ≠ .live →
      trimMatches slash (newPath.getD d.path) ≠ path
  | _ => True

section
variable {u path f : Text} {d : Doc} {D D' : Docs} {sel : Text → Doc → Prop} {set : Doc → Doc}

theorem changed_of_not (hd : D f = some d) (hs : ¬ sel f d) : changed sel set D f = some d := by
  rw [changed, hd, Option.map_some, if_neg hs]

theorem removed_of_not (hd : D f = some d) (hs : ¬ sel f d) : removed sel D f = some d := by
  rw [removed, hd]
  simp [Option.filter, hs]

theorem added_of_ne {g : Text} {e : Doc} (hg : f ≠ g) : added g e D f = D f := if_neg hg

/-- A path names at most one thing. -/
theorem at_eq {v q : Text} (h : At u path d) (h' : At v q d) : v = u ∧ q = path :=
  ⟨h'.1.symm.trans h.1, h'.2.1.symm.trans h.2.1⟩

theorem packs_keep {v m : Text} {now : Time} (h : Packs v m now D D') (hd : D f = some d) : D' f = some d := by
  obtain ⟨e, -, hnone, rfl⟩ := h
  have hne : f ≠ m := by
    rintro rfl
    rw [hnone] at hd
    cases hd
  rw [added_of_ne hne, hd]

/-- A call about something else leaves the document that stands at the path. -/
theorem meets_keep {hash : Bytes → Text} {o : Op} (h : Meets hash o D D') (hd : D f = some d)
    (hat : At u path d) (helse : Elsewhere u path D o) : D' f = some d := by
  have hlive : d.shelf = .live := hat.2.2.1
  have hfree : ∀ {v q : Text}, (v = u → q ≠ path) → ¬ At v q d := by
    intro v q hne hatq
    obtain ⟨rfl, rfl⟩ := at_eq hat hatq
    exact hne rfl rfl
  have hout : ∀ {v q : Text}, (v = u → underPath q path = false) → ¬ Within v q d := by
    rintro v q hno ⟨rfl, -, hunder⟩
    rw [hat.2.1, hno hat.1] at hunder
    cases hunder
  cases o with
  | push v q data m now =>
    rcases h with ⟨-, rfl⟩ | ⟨-, hnone, lineage, -, rfl⟩
    · exact hd
    · have hne : f ≠ m := by
        rintro rfl
        rw [hnone] at hd
        cases hd
      rw [added_of_ne hne]
      exact changed_of_not hd (hfree helse)
  | trash v g now =>
    obtain ⟨⟨e, he, hown, -⟩, rfl⟩ := h
    refine changed_of_not hd ?_
    rintro ⟨rfl, -⟩
    rw [hd] at he
    obtain rfl := Option.some.inj he
    exact helse (hown.symm.trans hat.1) d hd hat
  | trashPath v q now =>
    rcases h with ⟨-, rfl⟩ | ⟨hvacant, rfl⟩
    · exact changed_of_not hd (hfree fun hv => (helse hv).1)
    · exact changed_of_not hd (hout fun hv => (helse hv).2 (hv ▸ hvacant))
  | restore v g newPath now =>
    obtain ⟨e, he, hown, hdead, -, rfl⟩ := h
    have hne : f ≠ g := by
      rintro rfl
      rw [hd] at he
      obtain rfl := Option.some.inj he
      exact hdead hlive
    rw [added_of_ne hne]
    exact changed_of_not hd (hfree fun hv => helse hv e he hdead)
  | rename v q q' =>
    obtain ⟨-, -, -, ⟨-, rfl⟩ | ⟨hvacant, rfl⟩⟩ := h
    · exact changed_of_not hd (hfree fun hv => (helse hv).1)
    · exact changed_of_not hd (hout fun hv => (helse hv).2 (hv ▸ hvacant))
  | mkdir v q =>
    obtain rfl := h
    exact hd
  | purgeFile v g =>
    obtain ⟨⟨e, he, hown⟩, rfl⟩ := h
    refine removed_of_not hd ?_
    rintro rfl
    rw [hd] at he
    obtain rfl := Option.some.inj he
    exact helse (hown.symm.trans hat.1) d hd hat
  | emptyTrash v =>
    obtain rfl := h
    refine removed_of_not hd ?_
    rintro ⟨-, t, ht⟩
    rw [hlive] at ht
    cases ht
  | purgeRetired policy t v =>
    obtain rfl := h
    refine removed_of_not hd fun hexp => ?_
    rw [Expired, hlive] at hexp
    exact hexp
  | packFiles v es m now => exact packs_keep h hd
  | compactPack v old es m now =>
    obtain ⟨⟨e, he, hown, -⟩, hcase⟩ := h
    have hne : f ≠ old := by
      rintro rfl
      rw [hd] at he
      obtain rfl := Option.some.inj he
      exact helse (hown.symm.trans hat.1) d hd hat
    rcases hcase with rfl | ⟨D₁, hpacks, rfl⟩
    · exact removed_of_not hd hne
    · exact removed_of_not (packs_keep hpacks hd) hne
  | repackSmallFiles v mints now =>
    induction h with
    | refl => exact hd
    | tail _ hpack ih =>
      obtain ⟨i, hpack⟩ := hpack
      exact packs_keep hpack ih
  | setLocation frag location =>
    obtain rfl := h
    exact hd

end

section
variable {P key} {u path m : Text} {data : Bytes} {now : Time}

/-- A file of this size and digest stands at the path. -/
def Shows (u path : Text) (size : ℤ) (digest : Text) (D : Docs) : Prop :=
  ∃ f d, D f = some d ∧ At u path d ∧ d.size = size ∧ d.digest = some digest

theorem shows_found {db : Db} (hfiled : AllFiled db) {size : ℤ} {digest : Text}
    (h : Shows u path size digest (docs db)) : ∃ v, getFileByPath db u path = some v ∧ v.size = size ∧
      v.contentHash = some digest := by
  obtain ⟨f, d, hd, hat, hsize, hdigest⟩ := h
  obtain ⟨r, hr, -, rfl⟩ := docs_some hd
  cases hfind : getFileByPath db u path with
  | none => exact absurd (occupied_of_mem hr hat) (getFileByPath_vacant hfiled hfind)
  | some v =>
    obtain ⟨q, hq, hatq, rfl⟩ := getFileByPath_at hfiled hfind
    obtain rfl := at_unique hfiled hr hq hat hatq
    exact ⟨q.view, rfl, hsize, hdigest⟩

/-- An upload that came through shows at its path. -/
theorem meets_shows {hash : Bytes → Text} {D D' : Docs} (hvisible : notPack path = true)
    (h : Meets hash (.push u path data m now) D D') : Shows u path data.length (hash data) D' := by
  rcases h with ⟨h, rfl⟩ | ⟨-, hnone, lineage, -, rfl⟩
  · exact h
  · exact ⟨m, _, if_pos rfl, ⟨rfl, rfl, rfl, hvisible⟩, rfl, rfl⟩

end

/-- After an acknowledged upload, and any further calls about other things and whatever fails in them,
the path shows a file of the uploaded length and digest. -/
theorem upload_lasts {u path m : Text} {data : Bytes} {now : Time} {script : List Event}
    {before after : List (Op × List Event)} (hvisible : notPack path = true)
    (hacked : acked P key (run (step P key) emptyWorld before) (.push u path data m now, script) = true)
    (hafter : AllMeet (step P key) (fun w a => Elsewhere u path (docs w.db) a.1)
      (run (step P key) emptyWorld (before ++ [(.push u path data m now, script)])) after) :
    ∃ v, getFileByPath (run (step P key) emptyWorld
        (before ++ [(.push u path data m now, script)] ++ after)).db u path = some v ∧
      v.size = data.length ∧ v.contentHash = some (blake3Hex P data) := by
  set w := run (step P key) emptyWorld before with hw
  have hreach : Reached P key w := ⟨before, rfl⟩
  have hrun : run (step P key) emptyWorld (before ++ [(.push u path data m now, script)]) =
      step P key w (.push u path data m now, script) := List.foldl_append ..
  have hpushed : Shows u path data.length (blake3Hex P data)
      (docs (step P key w (.push u path data m now, script)).db) := by
    rcases step_meets hreach (.push u path data m now, script) with h | ⟨hno, -⟩
    · exact meets_shows hvisible h
    · rw [hacked] at hno
      cases hno
  rw [hrun] at hafter
  rw [run, List.foldl_append, ← run, hrun]
  have hkeep : ∀ w a, Reached P key w ∧ Shows u path data.length (blake3Hex P data) (docs w.db) →
      Elsewhere u path (docs w.db) a.1 → Reached P key (step P key w a) ∧
        Shows u path data.length (blake3Hex P data) (docs (step P key w a).db) := by
    rintro w a ⟨hw, f, d, hd, hat, hrest⟩ helse
    refine ⟨reached_step P key hw a, f, d, ?_, hat, hrest⟩
    rcases step_meets hw a with h | ⟨-, h⟩
    · exact meets_keep h hd hat helse
    · exact (congrFun h f).trans hd
  obtain ⟨hreach', hshows⟩ := run_invariant hkeep ⟨reached_step P key hreach _, hpushed⟩ hafter
  exact shows_found (reached_filed P key hreach') hshows

/-- One upload at `a`, then one that fails at `b`, and a folder that goes to the trash. -/
theorem upload_lasts_failed : ∃ v, getFileByPath (run (step (Sample.sample []) Sample.Key.node) emptyWorld
      ([] ++ [(.push ['u'] ['a'] [1, 2] ['m'] 0, [])] ++
        [(.push ['u'] ['b'] [3] ['n'] 1, [.fails none]), (.trashPath ['u'] ['c'] 2, [])])).db ['u'] ['a'] = some v ∧
    v.size = ([1, 2] : Bytes).length ∧ v.contentHash = some (blake3Hex (Sample.sample []) [1, 2]) :=
  upload_lasts (Sample.sample []) Sample.Key.node (by decide) (by decide +kernel)
    ⟨fun _ => by decide, fun _ => ⟨by decide, fun _ => by decide⟩, trivial⟩

/-! ### What an upload reads as -/

section
variable {P key} {s : Intact.Tracked} {u path m : Text} {data : Bytes}

/-- No call destroys a live document but by its name. -/
theorem destroys_not {db : Db} {d : Doc} (hfiled : AllFiled db) (hd : docs db m = some d)
    (hat : At u path d) {o : Op} (helse : Elsewhere u path (docs db) o) : ¬ Intact.Destroys db o m := by
  obtain ⟨r, hr, rfl, rfl⟩ := docs_some hd
  have hl : r.live = true := shelfOf_live.mp hat.2.2.1
  intro hdes
  cases o with
  | purgeFile v g =>
    obtain ⟨rfl, hrow⟩ := hdes
    obtain ⟨x, hx⟩ := Option.isSome_iff_exists.mp hrow
    obtain ⟨q, hq, hqu, hqid, -⟩ := mem_of_isRow hx
    obtain rfl := Lib.Tables.eq_of_key db.constraints.fileIds hq hr hqid
    exact helse (hqu.symm.trans hat.1) _ hd hat
  | emptyTrash v =>
    obtain ⟨row, hrow, hid⟩ := hdes
    rw [listTrashed, List.mem_insertionSort, List.mem_map] at hrow
    obtain ⟨q, hq, rfl⟩ := hrow
    obtain ⟨hq, hsel⟩ := List.mem_filter.mp hq
    obtain rfl := Lib.Tables.eq_of_key db.constraints.fileIds hq hr hid
    rw [(live_stamps hl).1] at hsel
    simp at hsel
  | purgeRetired policy t v =>
    obtain ⟨c, hc, hid⟩ := hdes
    have hexp := (expired_iff hfiled hr).mpr (Retention.candidate_row hr hc hid.symm)
    rw [Expired, hat.2.2.1] at hexp
    exact hexp
  | _ => exact hdes

/-- The upload `m` stands at its path, and its bytes are on record. -/
structure Standing (P : Prims K) (key : K) (u path m : Text) (data : Bytes) (s : Intact.Tracked) : Prop where
  reached : Reached P key s.world
  origin : s.origin m = some (u, data)
  stands : ∃ d, docs s.world.db m = some d ∧ At u path d

theorem standing_step (h : Standing P key u path m data s) {a : Op × List Event}
    (helse : Elsewhere u path (docs s.world.db) a.1) :
    Standing P key u path m data (Intact.step P key s a) := by
  obtain ⟨d, hd, hat⟩ := h.stands
  have hfiled : AllFiled s.world.db := reached_filed P key h.reached
  have hnot := destroys_not hfiled hd hat helse
  refine ⟨reached_step P key h.reached a, ?_, d, ?_, hat⟩
  · obtain ⟨o, script⟩ := a
    cases o with
    | push v q b m' now =>
      dsimp only [Intact.step]
      rw [if_neg, h.origin]
      rintro ⟨rfl, hnone, -⟩
      rw [docs, hnone] at hd
      cases hd
    | _ =>
      dsimp only [Intact.step]
      rw [if_neg hnot, h.origin]
  · rcases step_meets h.reached a with hm | ⟨-, hm⟩
    · exact meets_keep hm hd hat helse
    · exact (congrFun hm m).trans hd

/-- A push that stored new content puts it at its path. -/
theorem standing_push (hreach : Reached P key s.world) (hvisible : notPack path = true) {now : Time}
    {script : List Event} (hfresh : rowOf s.world.db m = none) {res : PushResult} {w' : World}
    (hpush : push P key u path data m now { s.world with script := script } = (.ok res, w'))
    (hnew : res.unchanged = false) :
    Standing P key u path m data (Intact.step P key s (.push u path data m now, script)) := by
  have hw' : (Operations.step P key s.world (.push u path data m now, script)) = w' := by
    rw [Operations.step, Op.leaves, hpush]
  have hrow : rowOf w'.db m ≠ none := by
    rcases Readable.push_ok hpush with ⟨hsame, -⟩ | ⟨-, -, c, hc, -⟩
    · rw [hnew] at hsame
      cases hsame
    · obtain ⟨r, hr, rfl, -⟩ := Edits.mem_of_colsOf hc
      rw [rowOf_mem hr]
      exact Option.some_ne_none _
  refine ⟨reached_step P key hreach (.push u path data m now, script), ?_, ?_⟩
  · dsimp only [Intact.step]
    rw [hw', if_pos ⟨rfl, hfresh, hrow⟩]
  · have hmeets := step_meets hreach (.push u path data m now, script)
    have hback : acked P key s.world (.push u path data m now, script) = true := by
      rw [acked, Op.returns, hpush]
      rfl
    have hnone : docs s.world.db m = none := by rw [docs, hfresh, Option.map_none]
    rcases hmeets with (⟨-, hsame⟩ | ⟨-, -, lineage, -, hadd⟩) | ⟨hno, -⟩
    · rw [hw'] at hsame
      have hdoc := congrFun hsame m
      rw [hnone, docs, Option.map_eq_none_iff] at hdoc
      exact absurd hdoc hrow
    · refine ⟨_, (congrFun hadd m).trans (if_pos rfl), rfl, rfl, rfl, hvisible⟩
    · rw [hback] at hno
      cases hno

end

/-- After an upload that stored its content, and any further calls about other things, whatever fails
in them, the path still shows the upload and reads as its bytes; the callers mint new ids and no call
destroys or packs a container that a file reads from. -/
theorem upload_reads {P : Prims K} (hP : Restores P) {u path m : Text} {data : Bytes} {now : Time}
    {script : List Event} {before after : List (Op × List Event)} (hvisible : notPack path = true)
    (hcalls : AllMeet (Intact.step P key) (fun s a => Intact.Fair P key s a.1 ∧ Intact.Careful s a.1)
      Intact.start (before ++ (.push u path data m now, script) :: after))
    {res : PushResult} {w' : World}
    (hpush : push P key u path data m now
      { (run (Intact.step P key) Intact.start before).world with script := script } = (.ok res, w'))
    (hnew : res.unchanged = false)
    (hafter : AllMeet (Intact.step P key) (fun s a => Elsewhere u path (docs s.world.db) a.1)
      (Intact.step P key (run (Intact.step P key) Intact.start before) (.push u path data m now, script)) after) :
    ∃ v, getFileByPath (run (Intact.step P key) Intact.start
        (before ++ (.push u path data m now, script) :: after)).world.db u path = some v ∧ v.fileId = m ∧
      pulled P key (run (Intact.step P key) Intact.start
        (before ++ (.push u path data m now, script) :: after)).world u m = .ok data := by
  have hworld : ∀ as s, (run (Intact.step P key) s as).world = run (step P key) s.world as := by
    intro as
    induction as with
    | nil => exact fun s => rfl
    | cons a as ih => exact fun s => ih _
  have hreach : Reached P key (run (Intact.step P key) Intact.start before).world :=
    ⟨before, (hworld before Intact.start).symm⟩
  obtain ⟨hfair, -⟩ := allMeet_middle hcalls
  have hfresh : rowOf (run (Intact.step P key) Intact.start before).world.db m = none :=
    hfair.rows m (List.mem_singleton_self m)
  have hkeep : ∀ s a, Standing P key u path m data s → Elsewhere u path (docs s.world.db) a.1 →
      Standing P key u path m data (Intact.step P key s a) := fun s a hs helse => standing_step hs helse
  have hstand := run_invariant hkeep (standing_push hreach hvisible hfresh hpush hnew) hafter
  have hrun : run (Intact.step P key) Intact.start (before ++ (.push u path data m now, script) :: after) =
      run (Intact.step P key) (Intact.step P key (run (Intact.step P key) Intact.start before)
        (.push u path data m now, script)) after := List.foldl_append ..
  have hintact := run_invariant (fun s a hs ha => Intact.step_intact hP hs ha.1 ha.2)
    (show Intact.Unharmed P key Intact.start from
      ⟨Edits.tidy_empty P, fun _ _ _ hnone => absurd hnone (Option.some_ne_none _).symm⟩) hcalls
  have hreads := hintact.reads m u data
  rw [hrun] at hreads ⊢
  have hfiled : AllFiled (run (Intact.step P key) (Intact.step P key (run (Intact.step P key) Intact.start before)
      (.push u path data m now, script)) after).world.db := reached_filed P key hstand.reached
  obtain ⟨d, hd, hat⟩ := hstand.stands
  obtain ⟨r, hr, rfl, rfl⟩ := docs_some hd
  cases hfind : getFileByPath (run (Intact.step P key) (Intact.step P key
      (run (Intact.step P key) Intact.start before) (.push u path data r.fileId now, script)) after).world.db
      u path with
  | none => exact absurd (occupied_of_mem hr hat) (getFileByPath_vacant hfiled hfind)
  | some v =>
    obtain ⟨q, hq, hatq, rfl⟩ := getFileByPath_at hfiled hfind
    obtain rfl := at_unique hfiled hr hq hat hatq
    exact ⟨q.view, rfl, rfl, hreads hstand.origin⟩

/-- A call that returns a value, told by a property of the value. -/
theorem returned_value {α : Type} {res : Outcome StoreError α × World} {p : α → Bool} {b : Bool}
    (h : res.1.toOption.map p = some b) : ∃ a w', res = (.ok a, w') ∧ p a = b := by
  obtain ⟨r, w'⟩ := res
  cases r with
  | error e => cases h
  | ok a => exact ⟨a, w', rfl, Option.some.inj h⟩

/-- Two uploads, and the pass that packs them into a container. -/
theorem upload_reads_packed : ∃ v, getFileByPath (run (Intact.step (Sample.sample []) Sample.Key.node)
      Intact.start ([] ++ Intact.packTwo)).world.db ['u'] ['a'] = some v ∧ v.fileId = ['a'] ∧
    pulled (Sample.sample []) Sample.Key.node (run (Intact.step (Sample.sample []) Sample.Key.node)
      Intact.start ([] ++ Intact.packTwo)).world ['u'] ['a'] = .ok [1, 2] := by
  obtain ⟨ha, hb, hm⟩ := Intact.packTwo_fair
  have hnone : ∀ r ∈ Intact.twoPushed.world.db.files, r.packId = none := by decide +kernel
  have hrepack : Intact.Careful Intact.twoPushed (.repackSmallFiles ['u'] (fun _ => ['m']) 2) := by
    intro f v _ r hr p hp
    rw [hnone r (rowOf_some hr).1] at hp
    cases hp
  have hpushed : ∃ res w', push (Sample.sample []) Sample.Key.node ['u'] ['a'] [1, 2] ['a'] 0
      { Intact.start.world with script := [] } = (.ok res, w') ∧ res.unchanged = false := by
    have hok : ((push (Sample.sample []) Sample.Key.node ['u'] ['a'] [1, 2] ['a'] 0
        { Intact.start.world with script := [] }).1.toOption.map PushResult.unchanged) = some false := by
      decide +kernel
    exact returned_value hok
  obtain ⟨res, w', hpush, hnew⟩ := hpushed
  exact upload_reads Sample.Key.node ⟨Sample.sample_aead [], Sample.sample_zstd [], Sample.sample_rs []⟩
    (by decide) ⟨⟨ha, fun _ _ _ _ _ _ _ _ => id⟩, ⟨hb, fun _ _ _ _ _ _ _ _ => id⟩, ⟨hm, hrepack⟩, trivial⟩
    hpush hnew ⟨fun _ => by decide, trivial, trivial⟩

end P2pnas.Store.Refinement
