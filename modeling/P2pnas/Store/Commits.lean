import P2pnas.Store.Chronicle

/-!
# The record over a call (`service.rs:52-161`, `947-1167`)

A call that commits a file puts its id on record; whatever else it did, or left undone because
something failed, the node agrees with the record after it as before.
-/

namespace P2pnas.Store.Chronicle
open P2pnas.Lib.Frames P2pnas.Lib.Strings P2pnas.Lib.Tables P2pnas.Core P2pnas.Core.Base
open P2pnas.Core.Crypto P2pnas.Core.Erasure P2pnas.Core.Pipeline P2pnas.Store.Manifest
open P2pnas.Store.Session P2pnas.Store.Service P2pnas.Store.Packing P2pnas.Store.Shelves
open P2pnas.Store.Written P2pnas.Store.Roundtrip P2pnas.Store.Edits P2pnas.Store.Readable
open P2pnas.Store.Rows P2pnas.Store.Relaid P2pnas.Store.Crashes

variable {K : Type} (P : Prims K) (key : K) (H : Record)

/-! ### The record and the node over a call -/

/-- The file was just stored under its id. -/
def StoredAs (u m : Text) (data : Bytes) (w : World) : Prop :=
  ∃ chunks, processV2 P data key (utf8 u) (utf8 m) {} = .ok chunks ∧ Stored P w.db w.store m chunks

/-- The id has all its chunk rows or none, its shard files or not, each at a fragment id of its own. -/
structure Written (m : Text) (w : World) : Prop where
  chunks : ∀ chunks, ChunksOf P key H m chunks →
    getChunks w.db m = [] ∨ getChunks w.db m = chunks.map (chunkRowFor m)
  bytes : ∀ c i b, PieceOf P key H m c i b →
    w.store (fragOf P m c i) = none ∨ w.store (fragOf P m c i) = some b
  apart : ∀ c i b c' i' b', PieceOf P key H m c i b → PieceOf P key H m c' i' b' →
    fragOf P m c i = fragOf P m c' i' → b = b'

section
variable {P key H} {H' : Record} {m : Text} {w w' : World}

theorem StoredAs.written {u : Text} {data : Bytes} (h : StoredAs P key u m data w)
    (hm : H m = some (u, data)) : Written P key H m w := by
  obtain ⟨chunks, hproc, hst⟩ := h
  have hon : ChunksOf P key H m chunks := ⟨u, data, hm, hproc⟩
  refine ⟨fun chunks' h' => .inr ?_, fun c i b hp => .inr ?_, fun c i b c' i' b' hp hp' heq => ?_⟩
  · rw [← hon.unique h']
    exact hst.rows
  · obtain ⟨hc, hi, hb⟩ := hp.of_chunks hon
    exact ((hst.held c hc).bytes i hi).trans hb
  · -- two shard rows at one fragment id are one row
    obtain ⟨hc, hi, hb⟩ := hp.of_chunks hon
    obtain ⟨hc', hi', hb'⟩ := hp'.of_chunks hon
    have hrow : ∀ c ∈ chunks, ∀ i < TOTAL_SHARDS,
        shardRowFor P (chunkId m c.index) i (c.shards.getD i []) ∈ w.db.shards := by
      intro c hc i hi
      have hin : shardRowFor P (chunkId m c.index) i (c.shards.getD i []) ∈ shardRows P m c :=
        List.mem_map_of_mem (List.mem_range.mpr hi)
      rw [← hst.shards c hc] at hin
      exact (mem_getShards.mp hin).1
    have hsame := eq_of_key w.db.constraints.shardIds (hrow c hc i hi) (hrow c' hc' i' hi') heq
    have hcid : chunkId m c.index = chunkId m c'.index := congrArg ShardRow.chunkId hsame
    have hidx : (i : ℤ) = i' := congrArg ShardRow.shardIndex hsame
    obtain rfl := (processV2_ordered hproc).eq_of_index hc hc' (chunkId_inj hcid).2
    rw [Int.ofNat.inj hidx, hb'] at hb
    exact (Option.some.inj hb).symm

theorem Written.worn (h : Written P key H m w) (hw : Worn P key H ∅ w w') : Written P key H m w' := by
  refine ⟨fun chunks hc => ?_, fun c i b hp => ?_, h.apart⟩
  · rcases hw.db.chunks m (Set.notMem_empty m) with heq | hnil
    · rw [heq]
      exact h.chunks chunks hc
    · exact .inl hnil
  · rcases hw.store (fragOf P m c i) (fun f hf => absurd hf (Set.notMem_empty f)) with heq | hnone
    · rw [heq]
      exact h.bytes c i b hp
    · exact .inl hnone

theorem IsShard.addr {frag : Text} {b : Bytes} (h : IsShard P key H frag b) :
    ∃ f, H f ≠ none ∧ Addr P f frag := by
  obtain ⟨f, c, i, ⟨chunks, ⟨u, d, hf, hproc⟩, hc, hi, -⟩, rfl⟩ := h
  exact ⟨f, by rw [hf]; exact Option.some_ne_none _, c.index, processV2_indexed hproc c hc, i, hi, rfl⟩

/-- Bytes were written for an id whose fragment ids are none of those on record. -/
theorem StoreOk.worn (h : StoreOk P key H w.store) {A : Set Text} (hw : Worn P key H' A w w')
    (hapart : ∀ a ∈ A, ∀ g, H g ≠ none → Apart P a g) : StoreOk P key H w'.store := by
  intro frag b hb
  obtain ⟨f, hf, haddr⟩ := hb.addr
  rcases hw.store frag (fun a ha hin => hapart a ha f hf frag hin haddr) with heq | hnone
  · rw [heq]
    exact h frag b hb
  · exact .inl hnone

theorem Faithful.worn (h : Faithful P key H w) (hw : Worn P key H ∅ w w') : Faithful P key H w' := by
  refine ⟨hw.db.ok h.db, fun f chunks hc => ?_, h.store.worn hw fun a ha => absurd ha (Set.notMem_empty a),
    h.separate⟩
  rcases hw.db.chunks f (Set.notMem_empty f) with heq | hnil
  · rw [heq]
    exact h.chunks f chunks hc
  · exact .inl hnil

/-- A call that committed nothing. -/
theorem Faithful.failed (h : Faithful P key H w) (hw : Worn P key H' {m} w w')
    (hapart : ∀ g, H g ≠ none → Apart P m g) (hdb : w'.db = w.db) : Faithful P key H w' := by
  have hstore := h.store.worn hw fun a ha g hg => Set.mem_singleton_iff.mp ha ▸ hapart g hg
  exact ⟨by rw [hdb]; exact h.db, by rw [hdb]; exact h.chunks, hstore, h.separate⟩

/-- A call that stored a file under a new id. -/
theorem Faithful.made (h : Faithful P key H w) {v : Text × Bytes} (hnew : H m = none)
    (hapart : ∀ g, H g ≠ none → Apart P m g)
    (hw : Worn P key (Function.update H m (some v)) {m} w w')
    (hm : Written P key (Function.update H m (some v)) m w') :
    Faithful P key (Function.update H m (some v)) w' := by
  have hx : Extends H (Function.update H m (some v)) := extends_update hnew
  have hback : ∀ f, f ≠ m → ∀ x, Function.update H m (some v) f = some x → H f ≠ none := by
    intro f hne x hf
    rw [Function.update_of_ne hne] at hf
    rw [hf]
    exact Option.some_ne_none x
  have hpiece : ∀ {f c i b}, f ≠ m → PieceOf P key (Function.update H m (some v)) f c i b →
      PieceOf P key H f c i b := by
    rintro f c i b hne ⟨chunks, hchunks, hrest⟩
    obtain ⟨u, d, hf, -⟩ := id hchunks
    exact ⟨chunks, hchunks.back hx (hback f hne _ hf), hrest⟩
  have hstore := h.store.worn hw fun a ha g hg => Set.mem_singleton_iff.mp ha ▸ hapart g hg
  refine ⟨hw.db.ok (h.db.mono hx), fun f chunks hc => ?_, ?_, ?_⟩
  · by_cases hf : f = m
    · exact hf ▸ hm.chunks chunks (hf ▸ hc)
    · obtain ⟨u, d, hfd, -⟩ := id hc
      rcases hw.db.chunks f hf with heq | hnil
      · rw [heq]
        exact h.chunks f chunks (hc.back hx (hback f hf _ hfd))
      · exact .inl hnil
  · rintro frag b ⟨f, c, i, hp, rfl⟩
    by_cases hf : f = m
    · subst hf
      exact hm.bytes c i b hp
    · exact hstore _ b ⟨f, c, i, hpiece hf hp, rfl⟩
  · -- fragment ids of the new file are its own, and none of those on record
    have hmixed : ∀ {frag b c i f c' i' b'}, PieceOf P key (Function.update H m (some v)) m c i b →
        frag = fragOf P m c i → f ≠ m → PieceOf P key (Function.update H m (some v)) f c' i' b' →
        frag ≠ fragOf P f c' i' := by
      intro frag b c i f c' i' b' hp hfrag hne hp' hfrag'
      obtain ⟨chunks, ⟨u, d, -, hproc⟩, hc, hi, -⟩ := hp
      obtain ⟨g, hg, haddr⟩ := IsShard.addr (H := H) ⟨f, c', i', hpiece hne hp', hfrag'⟩
      exact hapart g hg frag ⟨c.index, processV2_indexed hproc c hc, i, hi, hfrag⟩ haddr
    rintro frag b b' ⟨f, c, i, hp, hfrag⟩ ⟨f', c', i', hp', hfrag'⟩
    by_cases hf : f = m
    · subst hf
      by_cases hf' : f' = f
      · subst hf'
        exact hm.apart c i b c' i' b' hp hp' (hfrag.symm.trans hfrag')
      · exact absurd hfrag' (hmixed hp hfrag hf' hp')
    · by_cases hf' : f' = m
      · subst hf'
        exact absurd hfrag (hmixed hp' hfrag' hf hp)
      · exact h.separate frag b b' ⟨f, c, i, hpiece hf hp, hfrag⟩ ⟨f', c', i', hpiece hf' hp', hfrag'⟩

end

/-! ### What a committed call stored -/

section
variable {P key H} {u m : Text} {data : Bytes} {now : Time} {w w' : World}

theorem push_stored {path : Text} {r : PushResult} (h : push P key u path data m now w = (.ok r, w'))
    (hr : r.unchanged = false) : StoredAs P key u m data w' := by
  rcases push_ok h with ⟨hsame, -⟩ | ⟨-, -, c, -, rfl, hown, hreads⟩
  · rw [hr] at hsame
    cases hsame
  · obtain ⟨chunks, hproc, -, hst⟩ := (hreads (fun _ => data) rfl).own hown
    exact ⟨chunks, hproc, hst⟩

theorem insertPackRow_stored {n : ℤ} (h : insertPackRow P key u m data now w = (.ok n, w')) :
    StoredAs P key u m data w' := by
  obtain ⟨-, c, -, rfl, hown, hreads⟩ := insertPackRow_ok h
  obtain ⟨chunks, hproc, -, hst⟩ := (hreads (fun _ => data) rfl).own hown
  exact ⟨chunks, hproc, hst⟩

variable (P key H) in
/-- A transaction, and local shards freed after it: nothing was committed, or what the transaction
left wears off. -/
theorem freed_cases {α β : Type} (body : Svc β) (frags : β → List RemoteShard)
    (a : β → List RemoteShard → α) (w : World) :
    (∃ e w', (transaction body >>= fun r => do
        let remote ← purgeLocalCollectRemote (frags r)
        return a r remote) w = (.error e, w') ∧ w'.db = w.db) ∨
      ∃ b w₀ remote w', body w = (.ok b, w₀) ∧ (transaction body >>= fun r => do
        let remote ← purgeLocalCollectRemote (frags r)
        return a r remote) w = (.ok (a b remote), w') ∧ Wears P key H ∅ w₀ w' := by
  have hR := wears_frame P key H ∅
  rcases transaction_bind_cases (Shifts.purgeLocal_then frags a) w with h | ⟨b, w₁, x, w', htx, htail, -, h⟩
  · exact .inl h
  · obtain ⟨w₀, hbody, hdb, hst⟩ := transaction_ok htx
    obtain ⟨remote, w₂, hp, hret⟩ := bind_ok htail
    obtain ⟨rfl, rfl⟩ := pure_ok hret
    refine .inr ⟨b, w₀, remote, w', hbody, h, ?_⟩
    have hw : Wears P key H ∅ w₁ (purgeLocalCollectRemote (frags b) w₁).2 :=
      wears_purgeLocal (frags b) w₁
    rw [hp] at hw
    exact hR.trans _ _ _ (fun _ => worn_of_eq hdb hst) hw

/-- A packing under an id on record commits nothing, or the container is written. -/
theorem packFiles_written {es : List PackEntry} (hok : DbOk P key H w.db)
    (hm : ∀ built, buildPack es = .ok built → H m = some (u, built.1)) (hright : ∀ e ∈ es, Right H e) :
    (∃ e w', packFiles P key u es m now w = (.error e, w') ∧ w'.db = w.db) ∨
      ∃ r built w', packFiles P key u es m now w = (.ok r, w') ∧ buildPack es = .ok built ∧
        Written P key H m w' := by
  rw [packFiles]
  split
  · exact .inl ⟨_, w, rfl, rfl⟩
  · cases hb : buildPack es with
    | error e => exact .inl ⟨e, w, rfl, rfl⟩
    | ok built =>
      have hon := hm built hb
      rcases freed_cases P key H (packFilesTx P key u m es built.1 built.2 now)
          (fun r => r.2.1) (fun r remote => ({
            packId := some m
            packSize := built.1.length
            packStoredBytes := r.2.2
            members := es.length
            freedStoredBytes := r.1
            remote := remote } : PackResult)) w with h | ⟨b, w₀, remote, w', hbody, h, hwears⟩
      · exact .inl h
      · have htx : Moves (Wears P key H {m}) (packFilesTx P key u m es built.1 built.2 now) :=
          wears_packFilesTx (Set.mem_singleton m) hb hon hright
        have hw := htx w
        rw [hbody] at hw
        obtain ⟨freed, w₂, -, hnext⟩ := bind_ok hbody
        obtain ⟨n, w₃, hins, hret⟩ := bind_ok hnext
        obtain ⟨-, rfl⟩ := pure_ok hret
        have hwritten := (insertPackRow_stored hins).written hon
        exact .inr ⟨_, built, w', h, rfl, hwritten.worn (hwears ((hw hok).db.ok hok))⟩

/-- A compaction that names a new container stored it before it dropped the old one. -/
theorem compactPack_written {old : Text} {es : List PackEntry} (hok : DbOk P key H w.db)
    (hm : es ≠ [] → ∀ built, buildPack es = .ok built → H m = some (u, built.1))
    (hright : ∀ e ∈ es, Right H e) :
    (∃ e w', compactPack P key u old es m now w = (.error e, w') ∧ w'.db = w.db) ∨
      ∃ r w', compactPack P key u old es m now w = (.ok r, w') ∧
        (r.packId.isSome = false ∧ es = [] ∨ r.packId.isSome = true ∧ es ≠ [] ∧
          ∃ built, buildPack es = .ok built ∧ Written P key H m w') := by
  have hR := wears_frame P key H
  rcases freed_cases P key H (compactPackTx P key u old es m now)
      (fun r => r.2.2) (fun r remote => ({
        packId := r.2.1.map fun _ => m
        packSize := (r.2.1.map fun n => (n.1 : ℤ)).getD 0
        packStoredBytes := (r.2.1.map Prod.snd).getD 0
        members := es.length
        freedStoredBytes := r.1.storedBytes
        remote := remote } : PackResult)) w with h | ⟨b, w₀, remote, w', hbody, h, hwears⟩
  · exact .inl h
  · refine .inr ⟨_, w', h, ?_⟩
    obtain ⟨row, w₁, hq, hbody⟩ := bind_ok hbody
    obtain ⟨-, hdb₁, -⟩ := query_ok hq
    obtain ⟨oldRow, w₂, ho, hbody⟩ := bind_ok hbody
    obtain ⟨-, hw₂⟩ := orThrow_ok ho
    split at hbody
    · obtain ⟨members, w₃, hq, hbody⟩ := bind_ok hbody
      obtain ⟨-, hdb₃, -⟩ := query_ok hq
      obtain ⟨_, w₄, ho, hbody⟩ := bind_ok hbody
      obtain ⟨-, hw₄⟩ := ofOutcome_ok ho
      have hdb₄ : w₄.db = w.db := by rw [hw₄, hdb₃, hw₂, hdb₁]
      split at hbody
      · next hempty =>
        obtain ⟨frags, w₅, -, hret⟩ := bind_ok hbody
        obtain ⟨rfl, -⟩ := pure_ok hret
        exact .inl ⟨rfl, List.isEmpty_iff.mp hempty⟩
      · next hne =>
        have hnonempty : es ≠ [] := fun hnil => hne (hnil ▸ rfl)
        obtain ⟨built, w₅, ho, hbuilt⟩ := bind_ok hbody
        obtain ⟨hb, hw₅⟩ := ofOutcome_ok ho
        obtain ⟨us, w₆, hmoved, hnext⟩ := bind_ok hbuilt
        obtain ⟨n, w₇, hins, hdropped⟩ := bind_ok hnext
        obtain ⟨frags, w₈, hpurge, hret⟩ := bind_ok hdropped
        obtain ⟨rfl, rfl⟩ := pure_ok hret
        have hon := hm hnonempty built hb
        have hmove : Wears P key H {m} w₅ (collect (moveMember u old m) (es.zip built.2) w₅).2 :=
          wears_moveMembers hb hon hright w₅
        have hinsert : Wears P key H {m} w₆ (insertPackRow P key u m built.1 now w₆).2 :=
          wears_insertPackRow (Set.mem_singleton m) hon w₆
        have hdrop : Wears P key H ∅ w₇ (purgeFileRow u old w₇).2 := wears_purgeFileRow u old w₇
        rw [hmoved] at hmove
        rw [hins] at hinsert
        rw [hpurge] at hdrop
        have hok₅ : DbOk P key H w₅.db := by
          rw [hw₅, hdb₄]
          exact hok
        have hok₇ := ((hR {m}).trans _ _ _ hmove hinsert hok₅).db.ok hok₅
        have hwritten := (insertPackRow_stored hins).written hon
        exact .inr ⟨rfl, hnonempty, built, hb, hwritten.worn ((hR ∅).trans _ _ _ hdrop hwears hok₇)⟩
    · cases hbody

end

/-! ### Every call -/

/-- The file that a call committed: its id, its owner and its bytes. -/
def stored (w : World) : Call → Option (Text × Text × Bytes)
  | .push u path data m now =>
    match (push P key u path data m now w).1 with
    | .ok r => if r.unchanged then none else some (m, u, data)
    | .error _ => none
  | .packFiles u es m now =>
    match (packFiles P key u es m now w).1, buildPack es with
    | .ok _, .ok built => some (m, u, built.1)
    | _, _ => none
  | .compactPack u old es m now =>
    match (compactPack P key u old es m now w).1, buildPack es with
    | .ok r, .ok built => if r.packId.isSome then some (m, u, built.1) else none
    | _, _ => none
  | _ => none

/-- The record after a call. -/
def Record.add (H : Record) : Option (Text × Text × Bytes) → Record
  | some (m, v) => Function.update H m (some v)
  | none => H

/-- The ids that a call mints were never given out, and their fragment ids are their own. -/
def Unseen (c : Call) : Prop := ∀ m ∈ c.mints, H m = none ∧ ∀ g, H g ≠ none → Apart P m g

/-- The entries that a call is given are right where they have the right length. -/
def Carries : Call → Prop
  | .packFiles _ es _ _ | .compactPack _ _ es _ _ => ∀ e ∈ es, Right H e
  | _ => True

section
variable {P key H} {w : World} {u m : Text}

theorem update_of_built {es : List PackEntry} {built : Bytes × List (ℕ × ℕ)}
    (hb : buildPack es = .ok built) :
    ∀ b, buildPack es = .ok b → Function.update H m (some (u, built.1)) m = some (u, b.1) := by
  intro b hb'
  rw [hb] at hb'
  cases hb'
  exact Function.update_self ..

theorem push_faithful (h : Faithful P key H w) (path : Text) (data : Bytes) (now : Time)
    (hm : H m = none) (hapart : ∀ g, H g ≠ none → Apart P m g) :
    Faithful P key (H.add (stored P key w (.push u path data m now)))
      (push P key u path data m now w).2 := by
  have hx : Extends H (Function.update H m (some (u, data))) := extends_update hm
  have hw : Worn P key (Function.update H m (some (u, data))) {m} w (push P key u path data m now w).2 :=
    wears_push (Set.mem_singleton m) (Function.update_self ..) w (h.db.mono hx)
  cases hcall : push P key u path data m now w with
  | mk res w' =>
    rw [hcall] at hw
    simp only [stored, hcall]
    cases res with
    | error e => exact h.failed hw hapart (push_error hcall)
    | ok r =>
      cases hr : r.unchanged with
      | true =>
        simp only [hr, if_true]
        rcases push_ok hcall with ⟨-, hdb, -⟩ | ⟨hno, -⟩
        · exact h.failed hw hapart hdb
        · rw [hr] at hno
          cases hno
      | false =>
        simp only [hr, Bool.false_eq_true, if_false]
        exact h.made hm hapart hw ((push_stored hcall hr).written (Function.update_self ..))

theorem packFiles_faithful (h : Faithful P key H w) {es : List PackEntry} (now : Time)
    (hc : ∀ e ∈ es, Right H e) (hm : H m = none) (hapart : ∀ g, H g ≠ none → Apart P m g) :
    Faithful P key (H.add (stored P key w (.packFiles u es m now)))
      (packFiles P key u es m now w).2 := by
  cases hb : buildPack es with
  | error e =>
    have hstop : ∃ stop, packFiles P key u es m now w = (.error stop, w) := by
      rw [packFiles]
      split
      · exact ⟨_, rfl⟩
      · rw [hb]
        exact ⟨e, rfl⟩
    obtain ⟨stop, hcall⟩ := hstop
    simp only [stored, hcall]
    exact h
  | ok built =>
    have hx : Extends H (Function.update H m (some (u, built.1))) := extends_update hm
    have hon : ∀ b, buildPack es = .ok b →
        Function.update H m (some (u, built.1)) m = some (u, b.1) := update_of_built hb
    have hright : ∀ e ∈ es, Right (Function.update H m (some (u, built.1))) e :=
      fun e he => (hc e he).mono hx
    have hw : Worn P key (Function.update H m (some (u, built.1))) {m} w
        (packFiles P key u es m now w).2 :=
      wears_packFiles (Set.mem_singleton m) hon hright w (h.db.mono hx)
    rcases packFiles_written (h.db.mono hx) hon hright with
      ⟨e, w', hcall, hdb⟩ | ⟨r, b, w', hcall, hb', hwritten⟩
    · rw [hcall] at hw
      simp only [stored, hcall]
      exact h.failed hw hapart hdb
    · rw [hcall] at hw
      simp only [stored, hcall, hb]
      exact h.made hm hapart hw hwritten

/-- A compaction with no survivors only drops the old container. -/
theorem compactPack_dropped (h : Faithful P key H w) (old : Text) (now : Time) :
    Faithful P key (H.add (stored P key w (.compactPack u old [] m now)))
      (compactPack P key u old [] m now w).2 := by
  have hnil : ∀ e ∈ ([] : List PackEntry), Right H e := fun e he => absurd he List.not_mem_nil
  have hw : Wears P key H ∅ w (compactPack P key u old [] m now w).2 :=
    wears_compactPack (absurd rfl) (absurd rfl) hnil w
  rcases compactPack_written h.db (absurd rfl) hnil with
    ⟨e, w', hcall, -⟩ | ⟨r, w', hcall, ⟨hnone, -⟩ | ⟨-, hne, -⟩⟩
  · rw [hcall] at hw
    simp only [stored, hcall]
    exact h.worn (hw h.db)
  · have hstored : stored P key w (.compactPack u old [] m now) = none := by
      simp only [stored, hcall]
      cases buildPack [] with
      | error e => rfl
      | ok built => exact if_neg (by rw [hnone]; exact Bool.false_ne_true)
    rw [hcall] at hw
    rw [hstored, hcall]
    exact h.worn (hw h.db)
  · exact absurd rfl hne

theorem compactPack_faithful (h : Faithful P key H w) {es : List PackEntry} (old : Text) (now : Time)
    (hc : ∀ e ∈ es, Right H e) (hm : H m = none) (hapart : ∀ g, H g ≠ none → Apart P m g) :
    Faithful P key (H.add (stored P key w (.compactPack u old es m now)))
      (compactPack P key u old es m now w).2 := by
  by_cases hes : es = []
  · subst hes
    exact compactPack_dropped h old now
  · cases hb : buildPack es with
    | error stop =>
      have hon : es ≠ [] → ∀ built, buildPack es = .ok built → H m = some (u, built.1) := by
        intro _ built hb'
        rw [hb] at hb'
        cases hb'
      have hw : Wears P key H {m} w (compactPack P key u old es m now w).2 :=
        wears_compactPack (fun _ => Set.mem_singleton m) hon hc w
      rcases compactPack_written h.db hon hc with
        ⟨e, w', hcall, hdb⟩ | ⟨r, w', hcall, ⟨-, hnil⟩ | ⟨-, -, built, hb', -⟩⟩
      · rw [hcall] at hw
        simp only [stored, hcall]
        exact h.failed (hw h.db) hapart hdb
      · exact absurd hnil hes
      · rw [hb] at hb'
        cases hb'
    | ok built =>
      have hx : Extends H (Function.update H m (some (u, built.1))) := extends_update hm
      have hon : es ≠ [] → ∀ b, buildPack es = .ok b →
          Function.update H m (some (u, built.1)) m = some (u, b.1) := fun _ => update_of_built hb
      have hright : ∀ e ∈ es, Right (Function.update H m (some (u, built.1))) e :=
        fun e he => (hc e he).mono hx
      have hw : Worn P key (Function.update H m (some (u, built.1))) {m} w
          (compactPack P key u old es m now w).2 :=
        wears_compactPack (fun _ => Set.mem_singleton m) hon hright w (h.db.mono hx)
      rcases compactPack_written (h.db.mono hx) hon hright with
        ⟨e, w', hcall, hdb⟩ | ⟨r, w', hcall, ⟨-, hnil⟩ | ⟨hsome, -, b, hb', hwritten⟩⟩
      · rw [hcall] at hw
        simp only [stored, hcall]
        exact h.failed hw hapart hdb
      · exact absurd hnil hes
      · rw [hcall] at hw
        simp only [stored, hcall, hb, hsome, if_true]
        exact h.made hm hapart hw hwritten

/-- Any call, whatever fails in it. -/
theorem call_faithful (h : Faithful P key H w) (c : Call) (hnew : Unseen P H c) (hc : Carries H c) :
    Faithful P key (H.add (stored P key w c)) (c.leaves P key w) := by
  have hlight : ∀ {α : Type} {x : Svc α}, Moves (Wears P key H ∅) x → Faithful P key H (x w).2 :=
    fun hx => h.worn (hx w h.db)
  cases c with
  | push u path data m now =>
    obtain ⟨hm, hapart⟩ := hnew m rfl
    exact push_faithful h path data now hm hapart
  | packFiles u es m now =>
    obtain ⟨hm, hapart⟩ := hnew m rfl
    exact packFiles_faithful h now hc hm hapart
  | compactPack u old es m now =>
    obtain ⟨hm, hapart⟩ := hnew m rfl
    exact compactPack_faithful h old now hc hm hapart
  | purgeFile u f => exact hlight (wears_purgeFile u f)
  | emptyTrash u => exact hlight (wears_emptyTrash u)
  | purgeRetired policy t v => exact hlight (wears_purgeRetired policy t v)
  | rename u a b => exact hlight (moves_rename wears_shelves u a b)
  | restore u f newPath now => exact hlight (moves_restore wears_shelves u f newPath now)
  | trashPath u path now => exact hlight (moves_trashPath wears_shelves u path now)

end

end P2pnas.Store.Chronicle
