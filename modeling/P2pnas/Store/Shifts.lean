import Mathlib.Data.List.Dedup
import P2pnas.Store.Sizes

/-!
# What the calls shift (`service.rs`)

A committed transaction shifts the sum of an account by what it added or destroyed, and the
node's stored bytes likewise; an error shifts nothing. Each call gets one lemma that says how
it can end and what it returned for the accounting.
-/

namespace P2pnas.Store.Shifts
open P2pnas.Lib.Frames P2pnas.Lib.Strings P2pnas.Lib.Tables P2pnas.Core.Base P2pnas.Core.Erasure
open P2pnas.Core.Pipeline P2pnas.Store.Manifest P2pnas.Store.Session P2pnas.Store.Service
open P2pnas.Store.Packing P2pnas.Store.Sizes

/-- No size is negative and members store nothing of their own. -/
def Sound (es : List Entry) : Prop :=
  ∀ e ∈ es, 0 ≤ e.size ∧ 0 ≤ e.stored ∧ (e.packed = true → e.stored = 0)

/-- From `es` to `es'` the accounts shift by `size` and the node by `stored`. -/
structure Shift (c c' : Text → Bool) (es es' : List Entry) (size : Text → ℤ) (stored : ℤ) : Prop where
  used : ∀ v, usedBy c' v es' = usedBy c v es + size v
  stored : storedTotal es' = storedTotal es + stored
  sound : Sound es → Sound es'

/-- Nobody owns a row who owned none before. -/
def Owners (es es' : List Entry) : Prop := ∀ e' ∈ es', ∃ e ∈ es, e.userId = e'.userId

section
variable {c c' c'' : Text → Bool} {es es' es'' : List Entry}

theorem Shift.zero (c : Text → Bool) (es : List Entry) : Shift c c es es (fun _ => 0) 0 :=
  ⟨fun _ => (add_zero _).symm, (add_zero _).symm, fun h => h⟩

theorem Shift.trans {s t : Text → ℤ} {m n : ℤ} (h : Shift c c' es es' s m)
    (h' : Shift c' c'' es' es'' t n) : Shift c c'' es es'' (fun v => s v + t v) (m + n) := by
  refine ⟨fun v => ?_, ?_, fun hh => h'.sound (h.sound hh)⟩
  · rw [h'.used, h.used]
    omega
  · rw [h'.stored, h.stored]
    omega

theorem Owners.refl (es : List Entry) : Owners es es := fun e he => ⟨e, he, rfl⟩

theorem Owners.trans (h : Owners es es') (h' : Owners es' es'') : Owners es es'' := by
  intro e he
  obtain ⟨e₁, he₁, hu₁⟩ := h' e he
  obtain ⟨e₀, he₀, hu₀⟩ := h e₁ he₁
  exact ⟨e₀, he₀, hu₀.trans hu₁⟩

theorem owners_drop (u f : Text) (es : List Entry) : Owners es (dropEntry u f es) :=
  fun e he => ⟨e, (List.mem_filter.mp he).1, rfl⟩

theorem owners_hollow (u f : Text) (es : List Entry) : Owners es (hollowEntry u f es) := by
  intro e he
  obtain ⟨e₀, he₀, ⟨_, rfl⟩ | ⟨_, rfl⟩⟩ := mem_update.mp he
  · exact ⟨e₀, he₀, rfl⟩
  · exact ⟨e, he₀, rfl⟩

/-- A new row with its own bytes; `b` says whether it is a container. -/
theorem shift_insert {m u : Text} {size stored : ℤ} (hsize : 0 ≤ size) (hstored : 0 ≤ stored)
    (b : Bool) (hnew : m ∉ es.map Entry.fileId) :
    Shift c (Function.update c m b) es (es ++ [⟨m, u, size, stored, false⟩])
      (fun v => if v = u && !b then size else 0) stored := by
  refine ⟨fun v => ?_, sumOf_concat _ _ _, fun hh e he => ?_⟩
  · have hold : usedBy (Function.update c m b) v es = usedBy c v es := by
      refine usedBy_congr (fun e he => ?_) v
      refine Function.update_of_ne (fun hm => hnew ?_) _ _
      rw [← hm]
      exact List.mem_map_of_mem he
    rw [usedBy, sumOf_concat, ← usedBy, hold]
    simp only [Function.update_self]
    congr 2
    simp only [eq_comm]
  · rcases List.mem_append.mp he with he | he
    · exact hh e he
    · rw [List.mem_singleton.mp he]
      exact ⟨hsize, hstored, fun h => by cases h⟩

/-- A row that is no container is destroyed. -/
theorem shift_drop {e : Entry} (hn : (es.map Entry.fileId).Nodup) (he : e ∈ es)
    (hc : c e.fileId = false) :
    Shift c c es (dropEntry e.userId e.fileId es) (fun v => if v = e.userId then -e.size else 0)
      (-e.stored) := by
  refine ⟨fun v => ?_, sumOf_drop _ hn he, fun hh e' he' => hh e' (List.mem_filter.mp he').1⟩
  rw [usedBy, sumOf_drop _ hn he, ← usedBy, hc]
  by_cases hv : v = e.userId
  · simp [hv, Int.sub_eq_add_neg]
  · simp [hv, Ne.symm hv]

/-- A container is destroyed. -/
theorem shift_dropContainer {e : Entry} (hn : (es.map Entry.fileId).Nodup) (he : e ∈ es)
    (hc : c e.fileId = true) :
    Shift c c es (dropEntry e.userId e.fileId es) (fun _ => 0) (-e.stored) := by
  refine ⟨fun v => ?_, sumOf_drop _ hn he, fun hh e' he' => hh e' (List.mem_filter.mp he').1⟩
  rw [usedBy, sumOf_drop _ hn he, ← usedBy, hc]
  simp

/-- A row becomes a member. -/
theorem shift_hollow {e : Entry} (hn : (es.map Entry.fileId).Nodup) (he : e ∈ es) :
    Shift c c es (hollowEntry e.userId e.fileId es) (fun _ => 0) (-e.stored) := by
  refine ⟨fun v => ?_, ?_, fun hh e' he' => ?_⟩
  · rw [usedBy_hollow c v hn he, add_zero]
  · rw [storedTotal, sumOf_hollow _ hn he, ← storedTotal]
    change _ + (0 - e.stored) = _
    omega
  · obtain ⟨e₀, he₀, ⟨_, rfl⟩ | ⟨_, rfl⟩⟩ := mem_update.mp he'
    · exact ⟨(hh e₀ he₀).1, le_refl 0, fun _ => rfl⟩
    · exact hh e' he₀

end

section
variable {K : Type} {P : Prims K} {key : K} {w w' : World} {c : Text → Bool}

theorem shift_of_eq {es es' : List Entry} {s : Text → ℤ} {n : ℤ} {t : Text → ℤ} {k : ℤ}
    {c' : Text → Bool} (h : Shift c c' es es' s n) (hs : ∀ v, s v = t v) (hn : n = k) :
    Shift c c' es es' t k := by
  obtain rfl : s = t := funext hs
  subst hn
  exact h

/-- Rows that are no containers, purged one after the other. -/
theorem purgeAll_shift {α : Type} {u f : α → Text} {size stored : α → ℤ} {as : List α}
    {frags : List (List RemoteShard)}
    (hin : ∀ a ∈ as, ∃ p, (⟨f a, u a, size a, stored a, p⟩ : Entry) ∈ entries w.db)
    (hids : (as.map f).Nodup) (hno : ∀ a ∈ as, c (f a) = false)
    (h : collect (fun a => purgeFileRow (u a) (f a)) as w = (.ok frags, w')) :
    Shift c c (entries w.db) (entries w'.db)
      (fun v => -((as.filter fun a => u a = v).map size).sum) (-(as.map stored).sum) ∧
      Owners (entries w.db) (entries w'.db) := by
  induction as generalizing w frags with
  | nil =>
    obtain ⟨_, rfl⟩ := pure_ok h
    exact ⟨shift_of_eq (Shift.zero c _) (fun _ => rfl) rfl, Owners.refl _⟩
  | cons a as ih =>
    obtain ⟨_, w₁, _, hone, hrest, _⟩ := collect_cons_ok h
    obtain ⟨p, he⟩ := hin a (List.mem_cons_self ..)
    have hdrop := purgeFileRow_entries hone
    have hshift := shift_drop (c := c) (entries_nodup w.db) he (hno a (List.mem_cons_self ..))
    have hids' := List.nodup_cons.mp (by simpa only [List.map_cons] using hids)
    have hleft : ∀ b ∈ as, ∃ p, (⟨f b, u b, size b, stored b, p⟩ : Entry) ∈ entries w₁.db := by
      intro b hb
      obtain ⟨q, hq⟩ := hin b (List.mem_cons_of_mem _ hb)
      refine ⟨q, ?_⟩
      rw [hdrop]
      refine List.mem_filter.mpr ⟨hq, decide_eq_true fun hk => hids'.1 ?_⟩
      have hf : f b = f a := (Prod.mk.inj hk).2
      rw [← hf]
      exact List.mem_map_of_mem hb
    obtain ⟨hs, ho⟩ := ih hleft hids'.2 (fun b hb => hno b (List.mem_cons_of_mem _ hb)) hrest
    rw [← hdrop] at hshift
    refine ⟨shift_of_eq (hshift.trans hs) (fun v => ?_) ?_, ?_⟩
    · by_cases hv : u a = v
      · simp only [List.filter_cons, hv, decide_true, if_true, List.map_cons, List.sum_cons]
        omega
      · simp only [List.filter_cons, hv, decide_false, Bool.false_eq_true, if_false,
          if_neg (Ne.symm hv)]
        omega
    · simp only [List.map_cons, List.sum_cons]
      omega
    · exact (hdrop ▸ owners_drop _ _ _).trans ho

/-- The members of a pack give up what they stored. -/
theorem packMembers_shift {u m : Text} {ers : List (PackEntry × ℕ × ℕ)}
    {freed : List (ℤ × List RemoteShard)} (h : collect (packMember u m) ers w = (.ok freed, w')) :
    Shift c c (entries w.db) (entries w'.db) (fun _ => 0) (-(freed.map Prod.fst).sum) ∧
      Owners (entries w.db) (entries w'.db) ∧
      (ers ≠ [] → ∃ e ∈ entries w.db, e.userId = u) := by
  induction ers generalizing w freed with
  | nil =>
    obtain ⟨rfl, rfl⟩ := pure_ok h
    exact ⟨shift_of_eq (Shift.zero c _) (fun _ => rfl) rfl, Owners.refl _, fun hne => absurd rfl hne⟩
  | cons er ers ih =>
    obtain ⟨r, w₁, rest, hone, hrest, rfl⟩ := collect_cons_ok h
    obtain ⟨⟨size, he⟩, hhollow⟩ := packMember_entries hone
    have hshift := shift_hollow (c := c) (entries_nodup w.db) he
    obtain ⟨hs, ho, _⟩ := ih hrest
    rw [← hhollow] at hshift
    refine ⟨shift_of_eq (hshift.trans hs) (fun _ => rfl) ?_, ?_, fun _ => ⟨_, he, rfl⟩⟩
    · simp only [List.map_cons, List.sum_cons]
      omega
    · exact (hhollow ▸ owners_hollow _ _ _).trans ho

/-- Members that move to another pack shift nothing. -/
theorem moveMembers_entries {u old new : Text} {ers : List (PackEntry × ℕ × ℕ)} {us : List Unit}
    (hh : Sound (entries w.db)) (h : collect (moveMember u old new) ers w = (.ok us, w')) : entries w'.db = entries w.db := by
  induction ers generalizing w us with
  | nil =>
    obtain ⟨_, rfl⟩ := pure_ok h
    rfl
  | cons er ers ih =>
    obtain ⟨_, w₁, _, hone, hrest, _⟩ := collect_cons_ok h
    obtain ⟨⟨size, stored, he⟩, hhollow⟩ := moveMember_entries hone
    have hsame : entries w₁.db = entries w.db := by
      rw [hhollow, hollowEntry, update]
      conv_rhs => rw [← List.map_id (entries w.db)]
      apply List.map_congr_left
      intro e hm
      split
      · rename_i hkey
        have hk : e.key = (u, er.1.fileId) := of_decide_eq_true hkey
        obtain rfl := eq_of_key (keys_nodup (entries_nodup w.db)) hm he hk
        have hz := (hh _ he).2.2 rfl
        simp only [Entry.hollow, id_eq]
        rw [← hz]
      · rfl
    rw [ih (by rw [hsame]; exact hh) hrest, hsame]

/-! ### The transactions -/

theorem pushTx_shift {u path m : Text} {data : Bytes} {now : Time} {chunks : List ProcessedChunk}
    {r : PushResult} (h : transaction (pushTx P u path m data now chunks) w = (.ok r, w')) :
    Shift c (Function.update c m false) (entries w.db) (entries w'.db)
      (fun v => if v = u then r.size else 0) r.storedBytes ∧
      r.size = data.length ∧
      ∀ e' ∈ entries w'.db, e'.userId = u ∨ ∃ e ∈ entries w.db, e.userId = e'.userId := by
  obtain ⟨w₁, hbody, hdb, _⟩ := transaction_ok h
  obtain ⟨hes, hnew, hsize, hstored⟩ := pushTx_entries hbody
  rw [hdb, hes, hsize, hstored]
  refine ⟨shift_of_eq (shift_insert (Int.natCast_nonneg _) (storedBytesOf_nonneg chunks) false hnew) (fun v => by simp) rfl, rfl, fun e he => ?_⟩
  rcases List.mem_append.mp he with he | he
  · exact .inr ⟨e, he, rfl⟩
  · rw [List.mem_singleton.mp he]
    exact .inl rfl

theorem emptyTrashTx_shift {u : Text} {r : TrashSummary × List RemoteShard}
    (hno : ∀ row ∈ listTrashed w.db u, c row.fileId = false)
    (h : transaction (emptyTrashTx u) w = (.ok r, w')) :
    Shift c c (entries w.db) (entries w'.db) (fun v => if v = u then -r.1.size else 0)
      (-r.1.storedBytes) ∧ Owners (entries w.db) (entries w'.db) ∧
      (Sound (entries w.db) → 0 ≤ r.1.size ∧ (0 < r.1.size → ∃ e ∈ entries w.db, e.userId = u)) := by
  obtain ⟨w₁, hbody, hdb, _⟩ := transaction_ok h
  obtain ⟨rows, w₂, hq, h₁⟩ := bind_ok hbody
  obtain ⟨frags, w₃, hall, h₂⟩ := bind_ok h₁
  obtain ⟨rfl, hdb₂, _⟩ := query_ok hq
  obtain ⟨rfl, rfl⟩ := pure_ok h₂
  have hperm := List.perm_insertionSort
    (fun a b : FileRow => b.deletedAt.getD 0 < a.deletedAt.getD 0 ∨
      (a.deletedAt.getD 0 = b.deletedAt.getD 0 ∧ textLe a.path b.path))
    ((w.db.files.filter fun r => r.userId = u && r.deletedAt.isSome && notPack r.path).map
      FileRec.view)
  have hrow : ∀ row ∈ listTrashed w.db u, row.userId = u ∧ ∃ p,
      (⟨row.fileId, u, row.size, row.storedBytes, p⟩ : Entry) ∈ entries w.db := by
    intro row hr
    obtain ⟨rec, hrec, rfl⟩ := List.mem_map.mp (hperm.mem_iff.mp hr)
    obtain ⟨hmem, hsel⟩ := List.mem_filter.mp hrec
    simp only [Bool.and_eq_true, decide_eq_true_eq] at hsel
    obtain ⟨⟨rfl, _⟩, _⟩ := hsel
    exact ⟨rfl, _, List.mem_map.mpr ⟨rec, hmem, rfl⟩⟩
  have hids : ((listTrashed w.db u).map FileRow.fileId).Nodup := by
    refine (hperm.map FileRow.fileId).nodup_iff.mpr ?_
    rw [List.map_map]
    exact nodup_filter _ w.db.constraints.fileIds
  obtain ⟨hs, ho⟩ := purgeAll_shift (w := w₂) (u := fun _ => u) (c := c)
    (by rw [hdb₂]; exact fun row hr => (hrow row hr).2) hids hno hall
  rw [hdb₂] at hs ho
  rw [hdb]
  refine ⟨shift_of_eq hs (fun v => ?_) rfl, ho, fun hsound => ⟨?_, fun hpos => ?_⟩⟩
  · by_cases hv : v = u
    · simp [hv, TrashSummary.of]
    · simp [hv, Ne.symm hv]
  · refine List.sum_nonneg fun n hn => ?_
    obtain ⟨row, hr, rfl⟩ := List.mem_map.mp hn
    obtain ⟨_, p, he⟩ := hrow row hr
    exact (hsound _ he).1
  · cases hrows : listTrashed w.db u with
    | nil =>
      rw [hrows] at hpos
      exact absurd hpos (lt_irrefl 0)
    | cons row rows =>
      obtain ⟨_, p, he⟩ := hrow row (hrows ▸ List.mem_cons_self ..)
      exact ⟨_, he, rfl⟩

theorem firstSeen_spec (seen : List Text) (cs : List PurgeCandidate) :
    (∀ x ∈ firstSeen seen cs, x ∈ cs ∧ x.2.1 ∉ seen) ∧
      ((firstSeen seen cs).map fun x => x.2.1).Nodup := by
  induction cs generalizing seen with
  | nil => exact ⟨fun _ h => (List.not_mem_nil h).elim, List.nodup_nil⟩
  | cons a cs ih =>
    simp only [firstSeen]
    split
    · obtain ⟨hm, hn⟩ := ih seen
      exact ⟨fun x hx => ⟨List.mem_cons_of_mem _ (hm x hx).1, (hm x hx).2⟩, hn⟩
    · rename_i hnew
      obtain ⟨hm, hn⟩ := ih (a.2.1 :: seen)
      constructor
      · intro x hx
        rcases List.mem_cons.mp hx with rfl | hx
        · exact ⟨List.mem_cons_self .., hnew⟩
        · exact ⟨List.mem_cons_of_mem _ (hm x hx).1,
            fun hs => (hm x hx).2 (List.mem_cons_of_mem _ hs)⟩
      · rw [List.map_cons, List.nodup_cons]
        refine ⟨fun hin => ?_, hn⟩
        obtain ⟨x, hx, hxa⟩ := List.mem_map.mp hin
        exact (hm x hx).2 (hxa ▸ List.mem_cons_self ..)

/-- Every candidate of the sweep is the entry of a row. -/
theorem retired_entry {db : Db} {policy : RetentionPolicy} {t v : Time} {x : PurgeCandidate}
    (hx : x ∈ retiredCandidates db policy t v) :
    ∃ p, (⟨x.2.1, x.1, x.2.2.1, x.2.2.2, p⟩ : Entry) ∈ entries db := by
  have hrow : ∃ r ∈ db.files, r.candidate = x := by
    simp only [retiredCandidates, List.mem_append] at hx
    rcases hx with ((hx | hx) | hx) | hx
    all_goals
      obtain ⟨r, hr, hxr⟩ := List.mem_map.mp hx
      exact ⟨r, (List.mem_filter.mp hr).1, hxr⟩
  obtain ⟨r, hr, rfl⟩ := hrow
  exact ⟨_, List.mem_map.mpr ⟨r, hr, rfl⟩⟩

theorem purgeRetiredTx_ok {policy : RetentionPolicy} {t v : Time}
    {r : List PurgeCandidate × List RemoteShard}
    (h : transaction (purgeRetiredTx policy t v) w = (.ok r, w')) :
    r.1 = firstSeen [] (retiredCandidates w.db policy t v) ∧ ∃ w₁ frags w₂, w₁.db = w.db ∧
      collect (fun x : PurgeCandidate => purgeFileRow x.1 x.2.1) r.1 w₁ = (.ok frags, w₂) ∧
      w'.db = w₂.db := by
  obtain ⟨w₂, hbody, hdb, _⟩ := transaction_ok h
  obtain ⟨_, wa, hqa, h₁⟩ := bind_ok hbody
  obtain ⟨_, wb, hqb, h₂⟩ := bind_ok h₁
  obtain ⟨_, wc, hqc, h₃⟩ := bind_ok h₂
  obtain ⟨_, wd, hqd, h₄⟩ := bind_ok h₃
  obtain ⟨frags, we, hall, h₅⟩ := bind_ok h₄
  obtain ⟨rfl, hda, _⟩ := query_ok hqa
  obtain ⟨rfl, hdb', _⟩ := query_ok hqb
  obtain ⟨rfl, hdc, _⟩ := query_ok hqc
  obtain ⟨rfl, hdd, _⟩ := query_ok hqd
  obtain ⟨rfl, rfl⟩ := pure_ok h₅
  refine ⟨?_, wd, frags, w₂, hdd.trans (hdc.trans (hdb'.trans hda)), hall, hdb⟩
  rw [hdc, hdb', hda]
  rfl

theorem purgeRetiredTx_shift {policy : RetentionPolicy} {t v : Time}
    {r : List PurgeCandidate × List RemoteShard}
    (hno : ∀ x ∈ retiredCandidates w.db policy t v, c x.2.1 = false)
    (h : transaction (purgeRetiredTx policy t v) w = (.ok r, w')) :
    Shift c c (entries w.db) (entries w'.db)
      (fun u => -((r.1.filter fun x => x.1 = u).map fun x => x.2.2.1).sum)
      (-(r.1.map fun x => x.2.2.2).sum) ∧ Owners (entries w.db) (entries w'.db) ∧
      ∀ x ∈ r.1, ∃ p, (⟨x.2.1, x.1, x.2.2.1, x.2.2.2, p⟩ : Entry) ∈ entries w.db := by
  obtain ⟨hr, w₁, frags, w₂, hbase, hall, hdb⟩ := purgeRetiredTx_ok h
  obtain ⟨hmem, hids⟩ := firstSeen_spec [] (retiredCandidates w.db policy t v)
  rw [← hr] at hmem hids
  have hin : ∀ x ∈ r.1, ∃ p, (⟨x.2.1, x.1, x.2.2.1, x.2.2.2, p⟩ : Entry) ∈ entries w.db :=
    fun x hx => retired_entry (hmem x hx).1
  obtain ⟨hs, ho⟩ := purgeAll_shift (w := w₁) (c := c) (by rw [hbase]; exact hin) hids
    (fun x hx => hno x (hmem x hx).1) hall
  rw [hbase] at hs ho
  rw [hdb]
  exact ⟨hs, ho, hin⟩

theorem packFilesTx_shift {u m : Text} {es : List PackEntry} {plain : Bytes} {ranges : List (ℕ × ℕ)}
    {now : Time} {r : ℤ × List RemoteShard × ℤ} (hne : es.zip ranges ≠ [])
    (h : transaction (packFilesTx P key u m es plain ranges now) w = (.ok r, w')) :
    Shift c (Function.update c m true) (entries w.db) (entries w'.db) (fun _ => 0) (r.2.2 - r.1) ∧
      Owners (entries w.db) (entries w'.db) := by
  obtain ⟨w₁, hbody, hdb, _⟩ := transaction_ok h
  rw [packFilesTx] at hbody
  obtain ⟨freed, w₂, hmem, h₁⟩ := bind_ok hbody
  obtain ⟨stored, w₃, hins, h₂⟩ := bind_ok h₁
  obtain ⟨hr, hw₁⟩ := pure_ok h₂
  subst hr hw₁
  obtain ⟨hs, ho, howner⟩ := packMembers_shift (c := c) hmem
  obtain ⟨hes, hnew, hpos⟩ := insertPackRow_entries hins
  have hs' := hs.trans (shift_insert (c := c) (u := u) (Int.natCast_nonneg plain.length) hpos true hnew)
  rw [← hes] at hs'
  rw [hdb]
  refine ⟨shift_of_eq hs' (fun v => by simp) (by simp only; omega), fun e he => ?_⟩
  rw [hes] at he
  rcases List.mem_append.mp he with he | he
  · exact ho e he
  · obtain ⟨e₀, he₀, hu⟩ := howner hne
    rw [List.mem_singleton.mp he]
    exact ⟨e₀, he₀, hu⟩

/-- The container `old` gives way to a new one, or to nothing. -/
theorem compactPackTx_shift {u old m : Text} {survivors : List PackEntry} {now : Time}
    {r : FileRow × Option (ℕ × ℤ) × List RemoteShard} (hc : c old = true)
    (hh : Sound (entries w.db)) (h : transaction (compactPackTx P key u old survivors m now) w = (.ok r, w')) :
    Shift c (if r.2.1.isSome then Function.update c m true else c) (entries w.db) (entries w'.db)
      (fun _ => 0) ((r.2.1.map Prod.snd).getD 0 - r.1.storedBytes) ∧
      Owners (entries w.db) (entries w'.db) := by
  obtain ⟨w₁, hbody, hdb, _⟩ := transaction_ok h
  rw [compactPackTx] at hbody
  obtain ⟨_, wa, hq, h₁⟩ := bind_ok hbody
  obtain ⟨row, wb, hthrow, h₂⟩ := bind_ok h₁
  obtain ⟨hget, hda, _⟩ := query_ok hq
  obtain ⟨hrow, hwb⟩ := orThrow_ok hthrow
  subst hget hwb
  have hold := getFile_entry hrow
  by_cases hpack : row.isPack = true
  · rw [if_pos hpack] at h₂
    obtain ⟨members, wc, hqm, h₃⟩ := bind_ok h₂
    obtain ⟨_, wd, hcar, h₄⟩ := bind_ok h₃
    have hdc : wc.db = w.db := (query_ok hqm).2.1.trans hda
    obtain ⟨_, hwd⟩ := ofOutcome_ok hcar
    subst hwd
    by_cases hemp : survivors.isEmpty = true
    · rw [if_pos hemp] at h₄
      obtain ⟨frags, we, hpurge, h₅⟩ := bind_ok h₄
      obtain ⟨hr, hw₁⟩ := pure_ok h₅
      subst hr hw₁
      have hdrop := purgeFileRow_entries hpurge
      rw [hdc] at hdrop
      rw [hdb, hdrop]
      exact ⟨shift_of_eq (shift_dropContainer (entries_nodup w.db) hold hc) (fun _ => rfl)
        (by simp), owners_drop _ _ _⟩
    · rw [if_neg hemp] at h₄
      obtain ⟨built, we, hbuilt, h₅⟩ := bind_ok h₄
      obtain ⟨_, wf, hmove, h₆⟩ := bind_ok h₅
      obtain ⟨stored, wg, hins, h₇⟩ := bind_ok h₆
      obtain ⟨frags, wh, hpurge, h₈⟩ := bind_ok h₇
      obtain ⟨hr, hw₁⟩ := pure_ok h₈
      obtain ⟨_, hwe⟩ := ofOutcome_ok hbuilt
      subst hr hw₁ hwe
      have hsame : entries wf.db = entries w.db := by
        rw [moveMembers_entries (by rw [hdc]; exact hh) hmove, hdc]
      obtain ⟨hes, hnew, hpos⟩ := insertPackRow_entries hins
      have hdrop := purgeFileRow_entries hpurge
      rw [hsame] at hes hnew
      have hs := shift_insert (c := c) (u := u) (Int.natCast_nonneg built.1.length) hpos true hnew
      rw [← hes] at hs
      have hin : (⟨old, u, row.size, row.storedBytes, row.packId.isSome⟩ : Entry) ∈ entries wg.db := by
        rw [hes]
        exact List.mem_append_left _ hold
      have hcon : Function.update c m true old = true := by
        by_cases hm : old = m
        · rw [hm, Function.update_self]
        · rw [Function.update_of_ne hm, hc]
      have hs' := hs.trans (shift_dropContainer (entries_nodup wg.db) hin hcon)
      rw [← hdrop] at hs'
      rw [hdb]
      refine ⟨shift_of_eq hs' (fun v => by simp) (by simp; omega), fun e he => ?_⟩
      rw [hdrop] at he
      have he' := (List.mem_filter.mp he).1
      rw [hes] at he'
      rcases List.mem_append.mp he' with he' | he'
      · exact ⟨e, he', rfl⟩
      · rw [List.mem_singleton.mp he']
        exact ⟨_, hold, rfl⟩
  · rw [if_neg hpack] at h₂
    cases h₂

/-- A compaction that commits found a row behind a pack path. -/
theorem compactPackTx_old {u old m : Text} {survivors : List PackEntry} {now : Time}
    {r : FileRow × Option (ℕ × ℤ) × List RemoteShard}
    (h : transaction (compactPackTx P key u old survivors m now) w = (.ok r, w')) :
    ∃ row, getFile w.db u old = some row ∧ row.isPack = true := by
  obtain ⟨w₁, hbody, _, _⟩ := transaction_ok h
  rw [compactPackTx] at hbody
  obtain ⟨_, wa, hq, h₁⟩ := bind_ok hbody
  obtain ⟨row, wb, hthrow, h₂⟩ := bind_ok h₁
  obtain ⟨hget, _, _⟩ := query_ok hq
  obtain ⟨hrow, _⟩ := orThrow_ok hthrow
  subst hget
  refine ⟨row, hrow, ?_⟩
  by_contra hpack
  rw [if_neg hpack] at h₂
  cases h₂

/-! ### The calls, however they end -/

/-- What follows a purge of rows: local shards go, the manifest stays. -/
theorem purgeLocal_then {α β : Type} (frags : β → List RemoteShard) (a : β → List RemoteShard → α)
    (b : β) (w : World) :
    ∃ x w', (do
      let remote ← purgeLocalCollectRemote (frags b)
      return a b remote : Svc α) w = (.ok x, w') ∧ w'.db = w.db := by
  obtain ⟨w', h, hdb, _⟩ := Edits.purgeLocal_spec (frags b) w
  refine ⟨a b ((frags b).filter fun s => s.2 ≠ LOCAL), w', ?_, hdb⟩
  rw [bind_apply, h]
  rfl

theorem emptyTrash_cases {u : Text} (hno : ∀ row ∈ listTrashed w.db u, c row.fileId = false) :
    (∃ e w', emptyTrash u w = (.error e, w') ∧ w'.db = w.db) ∨
      ∃ r w', emptyTrash u w = (.ok r, w') ∧
        Shift c c (entries w.db) (entries w'.db) (fun v => if v = u then -r.1.size else 0)
          (-r.1.storedBytes) ∧ Owners (entries w.db) (entries w'.db) ∧
        (Sound (entries w.db) →
          0 ≤ r.1.size ∧ (0 < r.1.size → ∃ e ∈ entries w.db, e.userId = u)) := by
  rcases transaction_bind_cases (purgeLocal_then (fun r : TrashSummary × List RemoteShard => r.2)
    fun r remote => (r.1, remote)) w with h | ⟨b, w₁, a, w', htx, hg, hdb, h⟩
  · exact .inl h
  · refine .inr ⟨a, w', h, ?_⟩
    obtain ⟨_, _, _, hret⟩ := bind_ok hg
    have hsum : a.1 = b.1 := by rw [(pure_ok hret).1]
    rw [hdb, hsum]
    exact emptyTrashTx_shift hno htx

/-- The sums per account add up to the sums over the purged rows. -/
theorem sum_perKey (g : PurgeCandidate → ℤ) (us : List Text) (hn : us.Nodup)
    (l : List PurgeCandidate) :
    (us.map fun u => ((l.filter fun x => x.1 = u).map g).sum).sum =
      ((l.filter fun x => x.1 ∈ us).map g).sum := by
  induction us with
  | nil => simp
  | cons u us ih =>
    obtain ⟨hu, hn'⟩ := List.nodup_cons.mp hn
    rw [List.map_cons, List.sum_cons, ih hn']
    clear ih
    induction l with
    | nil => rfl
    | cons x l ihl =>
      by_cases hx : x.1 = u
      · have hno : x.1 ∉ us := hx ▸ hu
        simp only [List.filter_cons, hx, List.mem_cons, true_or, decide_true, if_true,
          List.map_cons, List.sum_cons, hu, decide_false, Bool.false_eq_true, if_false] at ihl ⊢
        omega
      · by_cases hin : x.1 ∈ us
        · simp only [List.filter_cons, hx, List.mem_cons, hin, or_true, decide_true, if_true,
            List.map_cons, List.sum_cons, decide_false, Bool.false_eq_true, if_false] at ihl ⊢
          omega
        · simp only [List.filter_cons, hx, List.mem_cons, hin, or_self, decide_false,
            Bool.false_eq_true, if_false] at ihl ⊢
          omega

/-- The accounts of the report. -/
def accountsOf (purged : List PurgeCandidate) : List Text :=
  ((purged.map fun x => x.1).dedup).insertionSort (fun a b => textLe a b)

theorem mem_accountsOf {purged : List PurgeCandidate} {u : Text} :
    u ∈ accountsOf purged ↔ ∃ x ∈ purged, x.1 = u := by
  rw [accountsOf, (List.perm_insertionSort _ _).mem_iff, List.mem_dedup, List.mem_map]

theorem accountsOf_nodup (purged : List PurgeCandidate) : (accountsOf purged).Nodup :=
  (List.perm_insertionSort _ _).nodup_iff.mpr (List.nodup_dedup _)

theorem freedPerUser_eq (purged : List PurgeCandidate) : freedPerUser purged =
    (accountsOf purged).map fun u =>
      (u, ((purged.filter fun x => x.1 = u).map fun x => x.2.2.1).sum,
        ((purged.filter fun x => x.1 = u).map fun x => x.2.2.2).sum) := rfl

theorem freedPerUser_stored (purged : List PurgeCandidate) :
    ((freedPerUser purged).map fun x => x.2.2).sum = (purged.map fun x => x.2.2.2).sum := by
  rw [freedPerUser_eq, List.map_map]
  have h := sum_perKey (fun x => x.2.2.2) (accountsOf purged) (accountsOf_nodup purged) purged
  have hall : purged.filter (fun x => decide (x.1 ∈ accountsOf purged)) = purged :=
    List.filter_eq_self.mpr fun x hx => decide_eq_true (mem_accountsOf.mpr ⟨x, hx, rfl⟩)
  rw [hall] at h
  exact h

theorem freedPerUser_size (purged : List PurgeCandidate) (v : Text) :
    (((freedPerUser purged).filter fun x => x.1 = v).map fun x => x.2.1).sum =
      ((purged.filter fun x => x.1 = v).map fun x => x.2.2.1).sum := by
  rw [freedPerUser_eq, List.filter_map, List.map_map]
  have hcomp : ((fun x : Text × ℤ × ℤ => decide (x.1 = v)) ∘ fun u =>
      (u, ((purged.filter fun x => x.1 = u).map fun x => x.2.2.1).sum,
        ((purged.filter fun x => x.1 = u).map fun x => x.2.2.2).sum)) = fun u => decide (u = v) := rfl
  rw [hcomp]
  by_cases hv : v ∈ accountsOf purged
  · rw [List.filter_eq, List.count_eq_one_of_mem (accountsOf_nodup purged) hv]
    simp
  · have hnone : (accountsOf purged).filter (fun u => decide (u = v)) = [] := by
      rw [List.filter_eq_nil_iff]
      intro u hu hd
      exact hv (of_decide_eq_true hd ▸ hu)
    have hno : purged.filter (fun x => decide (x.1 = v)) = [] := by
      rw [List.filter_eq_nil_iff]
      intro x hx hd
      exact hv (mem_accountsOf.mpr ⟨x, hx, of_decide_eq_true hd⟩)
    rw [hnone, hno]
    rfl

theorem purgeRetired_cases {policy : RetentionPolicy} {t v : Time}
    (hno : ∀ x ∈ retiredCandidates w.db policy t v, c x.2.1 = false) (hsound : Sound (entries w.db)) :
    (∃ e w', purgeRetired policy t v w = (.error e, w') ∧ w'.db = w.db) ∨
      ∃ r w', purgeRetired policy t v w = (.ok r, w') ∧
        Shift c c (entries w.db) (entries w'.db)
          (fun u => -((r.freed.filter fun x => x.1 = u).map fun x => x.2.1).sum)
          (-(r.freed.map fun x => x.2.2).sum) ∧ Owners (entries w.db) (entries w'.db) ∧
        ∀ x ∈ r.freed, (∃ e ∈ entries w.db, e.userId = x.1) ∧ 0 ≤ x.2.1 ∧ 0 ≤ x.2.2 := by
  rcases transaction_bind_cases (purgeLocal_then
    (fun r : List PurgeCandidate × List RemoteShard => r.2) fun r remote =>
      ({ files := r.1.length, freed := freedPerUser r.1, remote := remote } : PurgeReport)) w with
    h | ⟨b, w₁, a, w', htx, hg, hdb, h⟩
  · exact .inl h
  · refine .inr ⟨a, w', h, ?_⟩
    obtain ⟨_, _, _, hret⟩ := bind_ok hg
    have hfreed : a.freed = freedPerUser b.1 := by rw [(pure_ok hret).1]
    obtain ⟨hs, ho, hin⟩ := purgeRetiredTx_shift hno htx
    rw [hdb, hfreed]
    refine ⟨shift_of_eq hs (fun u => ?_) ?_, ho, fun x hx => ?_⟩
    · rw [freedPerUser_size]
    · rw [freedPerUser_stored]
    · rw [freedPerUser_eq] at hx
      obtain ⟨u, hu, rfl⟩ := List.mem_map.mp hx
      obtain ⟨y, hy, rfl⟩ := mem_accountsOf.mp hu
      obtain ⟨p, he⟩ := hin y hy
      refine ⟨⟨_, he, rfl⟩, List.sum_nonneg fun n hn => ?_, List.sum_nonneg fun n hn => ?_⟩
      · obtain ⟨z, hz, rfl⟩ := List.mem_map.mp hn
        obtain ⟨q, hq⟩ := hin z (List.mem_filter.mp hz).1
        exact (hsound _ hq).1
      · obtain ⟨z, hz, rfl⟩ := List.mem_map.mp hn
        obtain ⟨q, hq⟩ := hin z (List.mem_filter.mp hz).1
        exact (hsound _ hq).2.1

theorem buildPack_ranges {es : List PackEntry} {built : Bytes × List (ℕ × ℕ)}
    (h : buildPack es = .ok built) : built.2 = packRanges 0 es := by
  obtain ⟨records, _, h⟩ := bind_eq_ok h
  simp only at h
  split at h
  · cases h
    rfl
  · cases h

theorem packFiles_cases (P : Prims K) (key : K) (c : Text → Bool) (u m : Text)
    (es : List PackEntry) (now : Time) (w : World) :
    (∃ e w', packFiles P key u es m now w = (.error e, w') ∧ w'.db = w.db) ∨
      ∃ r w', packFiles P key u es m now w = (.ok r, w') ∧
        Shift c (Function.update c m true) (entries w.db) (entries w'.db) (fun _ => 0)
          (r.packStoredBytes - r.freedStoredBytes) ∧ Owners (entries w.db) (entries w'.db) := by
  rw [packFiles]
  by_cases hemp : es.isEmpty = true
  · rw [if_pos hemp]
    exact .inl ⟨_, w, rfl, rfl⟩
  · rw [if_neg hemp]
    rcases bind_cases (ofOutcome (buildPack es)) _ w with ⟨e, w₁, hx, hb⟩ | ⟨built, w₁, hx, hb⟩
    · obtain ⟨_, rfl⟩ := Prod.mk.inj hx
      exact .inl ⟨e, w, hb, rfl⟩
    · obtain ⟨hbuilt, rfl⟩ := ofOutcome_ok hx
      rw [hb]
      have hne : es.zip built.2 ≠ [] := by
        rw [buildPack_ranges hbuilt]
        intro hz
        have hlen := congrArg List.length hz
        rw [List.length_zip, packRanges_length, Nat.min_self, List.length_nil] at hlen
        exact hemp (List.isEmpty_iff.mpr (List.length_eq_zero_iff.mp hlen))
      rcases transaction_bind_cases (purgeLocal_then
        (fun r : ℤ × List RemoteShard × ℤ => r.2.1) fun r remote => ({
          packId := some m
          packSize := built.1.length
          packStoredBytes := r.2.2
          members := es.length
          freedStoredBytes := r.1
          remote := remote } : PackResult)) w₁ with h | ⟨b, w₂, a, w', htx, hg, hdb, h⟩
      · exact .inl h
      · refine .inr ⟨a, w', h, ?_⟩
        obtain ⟨_, _, _, hret⟩ := bind_ok hg
        have hpack : a.packStoredBytes = b.2.2 := by rw [(pure_ok hret).1]
        have hfreed : a.freedStoredBytes = b.1 := by rw [(pure_ok hret).1]
        rw [hdb, hpack, hfreed]
        exact packFilesTx_shift hne htx

theorem compactPack_cases (P : Prims K) (key : K) {u old : Text} (m : Text)
    (survivors : List PackEntry) (now : Time)
    (hc : ∀ row ∈ getFile w.db u old, row.isPack = true → c old = true)
    (hh : Sound (entries w.db)) :
    (∃ e w', compactPack P key u old survivors m now w = (.error e, w') ∧ w'.db = w.db) ∨
      ∃ r w', compactPack P key u old survivors m now w = (.ok r, w') ∧
        Shift c (if r.packId.isSome then Function.update c m true else c) (entries w.db)
          (entries w'.db) (fun _ => 0) (r.packStoredBytes - r.freedStoredBytes) ∧
        Owners (entries w.db) (entries w'.db) := by
  rw [compactPack]
  rcases transaction_bind_cases (purgeLocal_then
    (fun r : FileRow × Option (ℕ × ℤ) × List RemoteShard => r.2.2) fun r remote => ({
      packId := r.2.1.map fun _ => m
      packSize := (r.2.1.map fun n => (n.1 : ℤ)).getD 0
      packStoredBytes := (r.2.1.map Prod.snd).getD 0
      members := survivors.length
      freedStoredBytes := r.1.storedBytes
      remote := remote } : PackResult)) w with h | ⟨b, w₂, a, w', htx, hg, hdb, h⟩
  · exact .inl h
  · refine .inr ⟨a, w', h, ?_⟩
    obtain ⟨_, _, _, hret⟩ := bind_ok hg
    have hid : a.packId.isSome = b.2.1.isSome := by rw [(pure_ok hret).1, Option.isSome_map]
    have hpack : a.packStoredBytes = (b.2.1.map Prod.snd).getD 0 := by rw [(pure_ok hret).1]
    have hfreed : a.freedStoredBytes = b.1.storedBytes := by rw [(pure_ok hret).1]
    obtain ⟨row, hrow, hpk⟩ := compactPackTx_old htx
    rw [hdb, hpack, hfreed, hid]
    exact compactPackTx_shift (hc row hrow hpk) hh htx

end

end P2pnas.Store.Shifts
