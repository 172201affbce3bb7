import Mathlib.Data.List.Pairwise
import P2pnas.Store.Relaid

/-!
# Packing and compaction preserve meaning (`service.rs:857-1201`)

What became of a row: nothing, it went with an emptied container, or it is a range of a new
container that holds its bytes. Where that can be said of every row, files read as before and
the manifest stays well formed; it can be said of a repacking pass and of a compaction, whatever
fails in them.
-/

namespace P2pnas.Store.Repacking
open P2pnas.Lib.Frames P2pnas.Lib.Strings P2pnas.Lib.Tables P2pnas.Core P2pnas.Core.Base
open P2pnas.Core.Crypto P2pnas.Core.Erasure P2pnas.Core.Pipeline P2pnas.Store.Manifest
open P2pnas.Store.Session P2pnas.Store.Reading P2pnas.Store.Service P2pnas.Store.Packing
open P2pnas.Store.Written P2pnas.Store.Roundtrip P2pnas.Store.Readable P2pnas.Store.Crashes
open P2pnas.Store.Edits P2pnas.Store.Rows P2pnas.Store.HiddenNames P2pnas.Store.Relaid

/-- The range that a row records. -/
def HasRange (r : FileRec) (range : ℕ × ℕ) : Prop :=
  r.packOffset = some (range.1 : ℤ) ∧ r.packLen = some (range.2 : ℤ)

/-- Only where the bytes of the file are kept may differ. -/
def SameFile (r r' : FileRec) : Prop := r' = { r with
  packId := r'.packId
  packOffset := r'.packOffset
  packLen := r'.packLen
  chunkCount := r'.chunkCount
  storedBytes := r'.storedBytes }

/-- The row and the chunks of an id stay. -/
def Stays (w w' : World) (g : Text) : Prop := rowOf w'.db g = rowOf w.db g ∧ OwnSame g w w'

section
variable {K : Type} (P : Prims K) (key : K)

/-- A row that names a container is a range of a hidden row of the same user with chunks of its
own, and the range lies in its plaintext. -/
def WellFormed (w : World) : Prop :=
  ∀ g r p, rowOf w.db g = some r → r.packId = some p →
    ∃ c, rowOf w.db p = some c ∧ c.userId = r.userId ∧ isContainer c = true ∧ c.packId = none ∧
      ∃ range, HasRange r range ∧
        ∀ plain, ownBytes P key w c = .ok plain → range.1 + range.2 ≤ plain.length

/-- The members of a container have disjoint ranges inside its plaintext. -/
structure Laid (w : World) (u p : Text) : Prop where
  container : ∃ c plain, rowOf w.db p = some c ∧ c.userId = u ∧ isContainer c = true ∧
    ownBytes P key w c = .ok plain ∧
    ∀ g r, rowOf w.db g = some r → r.packId = some p →
      ∃ range, HasRange r range ∧ range.1 + range.2 ≤ plain.length
  apart : ∀ g g' r r' a b, rowOf w.db g = some r → rowOf w.db g' = some r' → g ≠ g' →
    r.packId = some p → r'.packId = some p → HasRange r a → HasRange r' b →
      a.1 + a.2 ≤ b.1 ∨ b.1 + b.2 ≤ a.1

/-- Files of users read as before, nothing else about them changed, none appeared, and the
manifest is well formed. -/
structure Preserved (w w' : World) : Prop where
  pulls : ∀ v g r b, rowOf w.db g = some r → isContainer r = false → pulled P key w v g = .ok b →
    pulled P key w' v g = .ok b
  files : ∀ g r, rowOf w.db g = some r → isContainer r = false →
    ∃ r', rowOf w'.db g = some r' ∧ SameFile r r'
  noNew : ∀ g r', rowOf w'.db g = some r' → isContainer r' = false →
    ∃ r, rowOf w.db g = some r ∧ isContainer r = false
  formed : WellFormed P key w'

/-- What became of the row `r` of the id `g`. -/
inductive Became (w w' : World) (g : Text) (r : FileRec) : Prop
  | same (self : Stays w w' g) (via : ∀ p, r.packId = some p → Stays w w' p)
  | dropped (hidden : isContainer r = true) (gone : rowOf w'.db g = none)
  | moved (pk : Text) (range : ℕ × ℕ) (c : FileRec) (plain b : Bytes)
      (row : rowOf w'.db g = some (placed pk range r)) (container : rowOf w'.db pk = some c)
      (user : c.userId = r.userId) (hidden : isContainer c = true) (own : c.packId = none)
      (reads : ownBytes P key w' c = .ok plain) (inside : range.1 + range.2 ≤ plain.length)
      (slice : (plain.drop range.1).take range.2 = b) (before : pulled P key w r.userId g = .ok b)

end

section
variable {K : Type} {P : Prims K} {key : K} {w w₁ w' : World}

theorem SameFile.refl (r : FileRec) : SameFile r r := rfl

theorem SameFile.trans {r r₁ r' : FileRec} (h : SameFile r r₁) (h' : SameFile r₁ r') : SameFile r r' := by
  unfold SameFile at h h' ⊢
  rw [h', h]

theorem SameFile.path {r r' : FileRec} (h : SameFile r r') : r'.path = r.path := by
  rw [h]

theorem SameFile.isContainer {r r' : FileRec} (h : SameFile r r') : isContainer r' = isContainer r := by
  rw [Relaid.isContainer, h.path, Relaid.isContainer]

theorem placed_sameFile (pk : Text) (range : ℕ × ℕ) (r : FileRec) : SameFile r (placed pk range r) := rfl

theorem placed_slice (pk : Text) {range : ℕ × ℕ} (r : FileRec) {plain : Bytes}
    (h : range.1 + range.2 ≤ plain.length) :
    memberSlice plain (placed pk range r).view = .ok ((plain.drop range.1).take range.2) := by
  have hoff : (placed pk range r).view.packOffset = some (Int.ofNat range.1) := rfl
  have hlen : (placed pk range r).view.packLen = some (Int.ofNat range.2) := rfl
  simp only [memberSlice, hoff, hlen, if_pos h]

theorem Preserved.trans (h : Preserved P key w w₁) (h' : Preserved P key w₁ w') :
    Preserved P key w w' := by
  refine ⟨fun v g r b hr hc hb => ?_, fun g r hr hc => ?_, fun g r' hr' hc => ?_, h'.formed⟩
  · obtain ⟨r₁, hr₁, hs⟩ := h.files g r hr hc
    exact h'.pulls v g r₁ b hr₁ (hs.isContainer.trans hc) (h.pulls v g r b hr hc hb)
  · obtain ⟨r₁, hr₁, hs⟩ := h.files g r hr hc
    obtain ⟨r', hr', hs'⟩ := h'.files g r₁ hr₁ (hs.isContainer.trans hc)
    exact ⟨r', hr', hs.trans hs'⟩
  · obtain ⟨r₁, hr₁, hc₁⟩ := h'.noNew g r' hr' hc
    exact h.noNew g r₁ hr₁ hc₁

/-- The row of `g` reads as before where it and its container stay. -/
theorem pulled_stays {v g : Text} {r : FileRec} {b : Bytes} (hr : rowOf w.db g = some r)
    (hself : Stays w w' g) (hvia : ∀ p, r.packId = some p → Stays w w' p)
    (hb : pulled P key w v g = .ok b) : pulled P key w' v g = .ok b := by
  obtain ⟨r₀, hr₀, hu, hcase⟩ := pulled_ok hb
  obtain rfl : r = r₀ := Option.some.inj (hr.symm.trans hr₀)
  have hr' : rowOf w'.db g = some r := hself.1.trans hr
  rcases hcase with ⟨hnone, hown⟩ | ⟨p, c, plain, hp, hc, hcu, hcnone, hplain, hslice⟩
  · rw [pulled_own hr' hu hnone, ownBytes_same ((rowOf_some hr).2 ▸ hself.2)]
    exact hown
  · obtain ⟨hrow, hsame⟩ := hvia p hp
    rw [pulled_member hr' hu hp (hrow.trans hc) hcu hcnone,
      ownBytes_same ((rowOf_some hc).2 ▸ hsame), hplain]
    exact hslice

/-- A range of a container reads as its bytes. -/
theorem pulled_placed {g pk : Text} {range : ℕ × ℕ} {r c : FileRec} {plain : Bytes}
    (hrow : rowOf w'.db g = some (placed pk range r)) (hc : rowOf w'.db pk = some c)
    (hcu : c.userId = r.userId) (hown : c.packId = none) (hreads : ownBytes P key w' c = .ok plain)
    (hin : range.1 + range.2 ≤ plain.length) :
    pulled P key w' r.userId g = .ok ((plain.drop range.1).take range.2) := by
  have hmember := @pulled_member _ P key w' r.userId g (placed pk range r) c pk hrow rfl rfl hc hcu hown
  rw [hmember, hreads, ok_bind, placed_slice pk r hin]

theorem preserved_of_became (hwf : WellFormed P key w)
    (hall : ∀ g r, rowOf w.db g = some r → Became P key w w' g r)
    (hnew : ∀ g r', rowOf w'.db g = some r' →
      (∃ r, rowOf w.db g = some r) ∨ isContainer r' = true ∧ r'.packId = none) :
    Preserved P key w w' := by
  refine ⟨fun v g r b hr hc hb => ?_, fun g r hr hc => ?_, fun g r' hr' hc => ?_,
    fun g r' p hr' hp => ?_⟩
  · cases hall g r hr with
    | same self via => exact pulled_stays hr self via hb
    | dropped hidden gone =>
      rw [hc] at hidden
      cases hidden
    | moved pk range c plain b' row container user hidden own reads inside slice before =>
      obtain ⟨r₀, hr₀, hu, -⟩ := pulled_ok hb
      obtain rfl : r = r₀ := Option.some.inj (hr.symm.trans hr₀)
      rw [← hu] at hb ⊢
      rw [pulled_placed row container user own reads inside, slice, ← before, hb]
  · cases hall g r hr with
    | same self via => exact ⟨r, self.1.trans hr, SameFile.refl r⟩
    | dropped hidden gone =>
      rw [hc] at hidden
      cases hidden
    | moved pk range c plain b' row => exact ⟨_, row, placed_sameFile pk range r⟩
  · rcases hnew g r' hr' with ⟨r, hr⟩ | ⟨hhidden, -⟩
    · refine ⟨r, hr, ?_⟩
      cases hall g r hr with
      | same self via =>
        rw [self.1, hr] at hr'
        cases hr'
        exact hc
      | dropped hidden gone =>
        rw [gone] at hr'
        cases hr'
      | moved pk range c plain b' row =>
        rw [row] at hr'
        cases hr'
        exact hc
    · rw [hc] at hhidden
      cases hhidden
  · rcases hnew g r' hr' with ⟨r, hr⟩ | ⟨-, hnone⟩
    · cases hall g r hr with
      | same self via =>
        rw [self.1, hr] at hr'
        cases hr'
        obtain ⟨c, hc, hcu, hhidden, hown, range, hrange, hin⟩ := hwf g r' p hr hp
        obtain ⟨hrow, hsame⟩ := via p hp
        refine ⟨c, hrow.trans hc, hcu, hhidden, hown, range, hrange, fun plain hplain => hin plain ?_⟩
        rw [← hplain]
        exact (ownBytes_same ((rowOf_some hc).2 ▸ hsame)).symm
      | dropped hidden gone =>
        rw [gone] at hr'
        cases hr'
      | moved pk range c plain b' row container user hidden own reads inside slice before =>
        rw [row] at hr'
        cases hr'
        cases hp
        refine ⟨c, container, user, hidden, own, range, ⟨rfl, rfl⟩, fun plain' hplain => ?_⟩
        rw [reads] at hplain
        cases hplain
        exact inside
    · rw [hnone] at hp
      cases hp

/-! ### Calls that leave the manifest alone -/

/-- The manifest stays, and the bytes at its shard rows. -/
def Quiet (w w' : World) : Prop :=
  w'.db = w.db ∧ ∀ s ∈ w.db.shards, w'.store s.fragmentId = w.store s.fragmentId

theorem quiet_frame : Frame Quiet where
  refl _ _ := ⟨rfl, fun _ _ => rfl⟩
  trans a b c h h' := by
    refine ⟨h'.1.trans h.1, fun s hs => ?_⟩
    rw [h'.2 s (h.1 ▸ hs), h.2 s hs]

theorem quiet_of_eq (hdb : w'.db = w.db) (hst : w'.store = w.store) : Quiet w w' :=
  ⟨hdb, fun _ _ => by rw [hst]⟩

theorem Quiet.stays (h : Quiet w w') (g : Text) : Stays w w' g :=
  ⟨by rw [h.1], ownSame_of_store h.1 h.2⟩

theorem Quiet.preserved (h : Quiet w w') (hwf : WellFormed P key w) : Preserved P key w w' :=
  preserved_of_became hwf (fun g _ _ => .same (h.stays g) fun p _ => h.stays p) fun g r' hr' =>
    .inl ⟨r', by rw [← hr', h.1]⟩

/-- Containers keep their layout where they stay and get no member. -/
theorem Laid.stays {u p : Text} (h : Laid P key w u p) (hself : Stays w w' p)
    (hin : ∀ g r, rowOf w'.db g = some r → r.packId = some p → rowOf w.db g = some r) :
    Laid P key w' u p := by
  obtain ⟨c, plain, hc, hcu, hhidden, hplain, hrange⟩ := h.container
  refine ⟨⟨c, plain, hself.1.trans hc, hcu, hhidden, ?_, fun g r hr hp => hrange g r (hin g r hr hp) hp⟩,
    fun g g' r r' a b hr hr' hne hp hp' =>
      h.apart g g' r r' a b (hin g r hr hp) (hin g' r' hr' hp') hne hp hp'⟩
  rw [ownBytes_same ((rowOf_some hc).2 ▸ hself.2)]
  exact hplain

theorem Laid.quiet {u p : Text} (h : Laid P key w u p) (hq : Quiet w w') : Laid P key w' u p :=
  h.stays (hq.stays p) fun g r hr _ => by rw [← hr, hq.1]

end

/-! ### A transaction that packs or compacts -/

section
variable {K : Type} {P : Prims K} {key : K} {w w' : World}

/-- Every entry is a range of the new container `pk`; the old one, if any, is gone; the rest
stays. -/
structure Relaid (P : Prims K) (key : K) (u pk : Text) (old : Option Text) (ers : List Ranged)
    (w w' : World) : Prop where
  fresh : rowOf w.db pk = none
  container : ∃ c plain, rowOf w'.db pk = some c ∧ c.userId = u ∧ c.packId = none ∧
    isContainer c = true ∧ ownBytes P key w' c = .ok plain ∧
    ∀ er ∈ ers, er.2.1 + er.2.2 ≤ plain.length ∧ (plain.drop er.2.1).take er.2.2 = er.1.data
  apart : ers.Pairwise fun a b => a.2.1 + a.2.2 ≤ b.2.1
  ids : (ers.map fun er => er.1.fileId).Nodup
  rows : ∀ er ∈ ers, ∃ r, rowOf w.db er.1.fileId = some r ∧ r.userId = u ∧ r.packId = old ∧
    rowOf w'.db er.1.fileId = some (placed pk er.2 r)
  gone : ∀ p, old = some p → rowOf w'.db p = none
  rest : ∀ g, g ∉ ers.map (fun er => er.1.fileId) → g ≠ pk → old ≠ some g → Stays w w' g

/-- The entries read as their data, nothing is stored in their chunks but themselves, and every
member of the old container is among them. -/
structure Carries (P : Prims K) (key : K) (u : Text) (old : Option Text) (ers : List Ranged)
    (w : World) : Prop where
  reads : ∀ er ∈ ers, pulled P key w u er.1.fileId = .ok er.1.data
  leaf : ∀ er ∈ ers, ∀ g r, rowOf w.db g = some r → r.packId ≠ some er.1.fileId
  members : ∀ p, old = some p → ∀ g r, rowOf w.db g = some r → r.packId = some p →
    g ∈ ers.map fun er => er.1.fileId
  hidden : ∀ p c, old = some p → rowOf w.db p = some c → isContainer c = true

theorem Relaid.became {u pk : Text} {old : Option Text} {ers : List Ranged}
    (h : Relaid P key u pk old ers w w') (hc : Carries P key u old ers w) (hwf : WellFormed P key w)
    {g : Text} {r : FileRec} (hr : rowOf w.db g = some r) : Became P key w w' g r := by
  by_cases hin : g ∈ ers.map fun er => er.1.fileId
  · obtain ⟨er, her, rfl⟩ := List.mem_map.mp hin
    obtain ⟨r₀, hr₀, hu, -, hnew⟩ := h.rows er her
    obtain rfl : r = r₀ := Option.some.inj (hr.symm.trans hr₀)
    obtain ⟨c, plain, hcrow, hcu, hown, hhidden, hplain, hslices⟩ := h.container
    obtain ⟨hinside, hslice⟩ := hslices er her
    exact .moved pk er.2 c plain er.1.data hnew hcrow (hcu.trans hu.symm) hhidden hown hplain hinside
      hslice (hu ▸ hc.reads er her)
  · by_cases hold : old = some g
    · exact .dropped (hc.hidden g r hold hr) (h.gone g hold)
    · have hne : g ≠ pk := by
        rintro rfl
        rw [h.fresh] at hr
        cases hr
      refine .same (h.rest g hin hne hold) fun p hp => ?_
      -- the container of a row that stays is no entry, not the new one and not the old one
      obtain ⟨c, hcrow, -⟩ := hwf g r p hr hp
      refine h.rest p (fun hpin => ?_) (fun heq => ?_) fun holdp => ?_
      · obtain ⟨er, her, rfl⟩ := List.mem_map.mp hpin
        exact hc.leaf er her g r hr hp
      · rw [heq, h.fresh] at hcrow
        cases hcrow
      · exact hin (hc.members p holdp g r hr hp)

/-- A row that is new is the new container. -/
theorem Relaid.new {u pk : Text} {old : Option Text} {ers : List Ranged}
    (h : Relaid P key u pk old ers w w') {g : Text} {r' : FileRec} (hr' : rowOf w'.db g = some r') :
    (∃ r, rowOf w.db g = some r) ∨ isContainer r' = true ∧ r'.packId = none := by
  by_cases hin : g ∈ ers.map fun er => er.1.fileId
  · obtain ⟨er, her, rfl⟩ := List.mem_map.mp hin
    obtain ⟨r, hr, -⟩ := h.rows er her
    exact .inl ⟨r, hr⟩
  · by_cases hold : old = some g
    · rw [h.gone g hold] at hr'
      cases hr'
    · by_cases hpk : g = pk
      · obtain ⟨c, plain, hcrow, -, hown, hhidden, -⟩ := h.container
        rw [hpk, hcrow] at hr'
        cases hr'
        exact .inr ⟨hhidden, hown⟩
      · exact .inl ⟨r', by rw [← (h.rest g hin hpk hold).1, hr']⟩

theorem Relaid.preserved {u pk : Text} {old : Option Text} {ers : List Ranged}
    (h : Relaid P key u pk old ers w w') (hc : Carries P key u old ers w) (hwf : WellFormed P key w) :
    Preserved P key w w' :=
  preserved_of_became hwf (fun _ _ hr => h.became hc hwf hr) fun _ _ hr' => h.new hr'

/-- A member of a container after the transaction is an entry in the new one, or was there. -/
theorem Relaid.member {u pk : Text} {old : Option Text} {ers : List Ranged}
    (h : Relaid P key u pk old ers w w') {g p : Text} {r' : FileRec} (hr' : rowOf w'.db g = some r')
    (hp : r'.packId = some p) :
    (p = pk ∧ ∃ er ∈ ers, er.1.fileId = g ∧ HasRange r' er.2) ∨
      rowOf w.db g = some r' := by
  by_cases hin : g ∈ ers.map fun er => er.1.fileId
  · obtain ⟨er, her, rfl⟩ := List.mem_map.mp hin
    obtain ⟨r, -, -, -, hnew⟩ := h.rows er her
    rw [hnew] at hr'
    cases hr'
    cases hp
    exact .inl ⟨rfl, er, her, rfl, rfl, rfl⟩
  · by_cases hold : old = some g
    · rw [h.gone g hold] at hr'
      cases hr'
    · by_cases hpk : g = pk
      · obtain ⟨c, plain, hcrow, -, hown, -⟩ := h.container
        rw [hpk, hcrow] at hr'
        cases hr'
        rw [hown] at hp
        cases hp
      · exact .inr (by rw [← (h.rest g hin hpk hold).1, hr'])

theorem HasRange.unique {r : FileRec} {a b : ℕ × ℕ} (h : HasRange r a) (h' : HasRange r b) : a = b := by
  have h₁ := Option.some.inj (h.1.symm.trans h'.1)
  have h₂ := Option.some.inj (h.2.symm.trans h'.2)
  exact Prod.ext (Int.ofNat.inj h₁) (Int.ofNat.inj h₂)

/-- The new container is laid out. -/
theorem Relaid.laid {u pk : Text} {old : Option Text} {ers : List Ranged}
    (h : Relaid P key u pk old ers w w') (hwf : WellFormed P key w) : Laid P key w' u pk := by
  have hentry : ∀ g r, rowOf w'.db g = some r → r.packId = some pk →
      ∃ er ∈ ers, er.1.fileId = g ∧ HasRange r er.2 := by
    intro g r hr hp
    rcases h.member hr hp with ⟨-, hentry⟩ | hold
    · exact hentry
    · -- nothing named the new container before
      obtain ⟨c, hc, -⟩ := hwf g r pk hold hp
      rw [h.fresh] at hc
      cases hc
  obtain ⟨c, plain, hcrow, hcu, -, hhidden, hplain, hslices⟩ := h.container
  refine ⟨⟨c, plain, hcrow, hcu, hhidden, hplain, fun g r hr hp => ?_⟩,
    fun g g' r r' a b hr hr' hne hp hp' ha hb => ?_⟩
  · obtain ⟨er, her, -, hrange⟩ := hentry g r hr hp
    exact ⟨er.2, hrange, (hslices er her).1⟩
  · obtain ⟨er, her, rfl, hrange⟩ := hentry g r hr hp
    obtain ⟨er', her', rfl, hrange'⟩ := hentry g' r' hr' hp'
    rw [ha.unique hrange, hb.unique hrange']
    have hdiff : er ≠ er' := fun heq => hne (by rw [heq])
    have hsymm : Std.Symm fun a b : Ranged => a.2.1 + a.2.2 ≤ b.2.1 ∨ b.2.1 + b.2.2 ≤ a.2.1 :=
      ⟨fun _ _ hab => hab.symm⟩
    have hpair : ers.Pairwise fun a b => a.2.1 + a.2.2 ≤ b.2.1 ∨ b.2.1 + b.2.2 ≤ a.2.1 :=
      h.apart.imp .inl
    exact hpair.forall her her' hdiff

/-- Moved entries, the container they moved to, and the old one going make a relaid manifest. -/
theorem relaid_of_moved {w₁ w₂ : World} {u pk : Text} {old : Option Text} {es : List PackEntry}
    {built : Bytes × List (ℕ × ℕ)} (hb : buildPack es = .ok built)
    (hm : Moved u pk old (es.zip built.2) w w₁) (hi : Inserted P key u pk built.1 w₁ w₂)
    (hold : ∀ p, old = some p → p ≠ pk ∧ p ∉ (es.zip built.2).map fun er => er.1.fileId)
    (hgone : ∀ p, old = some p → rowOf w'.db p = none)
    (hrest : ∀ g, old ≠ some g → Stays w₂ w' g) : Relaid P key u pk old (es.zip built.2) w w' := by
  obtain ⟨-, hapart, hslices⟩ := buildPack_ok hb
  obtain ⟨c, hc, hcu, hown, hhidden, hplain⟩ := hi.row
  have hpk : old ≠ some pk := fun heq => (hold pk heq).1 rfl
  have hnot : pk ∉ (es.zip built.2).map fun er => er.1.fileId := by
    intro hin
    obtain ⟨er, her, hid⟩ := List.mem_map.mp hin
    obtain ⟨r, -, -, -, hnew⟩ := hm.rows er her
    rw [hid, hi.fresh] at hnew
    cases hnew
  have hid : ∀ er ∈ es.zip built.2, er.1.fileId ∈ (es.zip built.2).map fun er => er.1.fileId :=
    fun er her => List.mem_map_of_mem her
  refine ⟨(hm.rest pk hnot).1.symm.trans hi.fresh, ⟨c, built.1, ?_, hcu, hown, hhidden, ?_, hslices⟩,
    hapart, hm.ids, fun er her => ?_, hgone, fun g hg hne hng => ?_⟩
  · exact (hrest pk hpk).1.trans hc
  · rw [ownBytes_same ((rowOf_some hc).2 ▸ (hrest pk hpk).2)]
    exact hplain
  · obtain ⟨r, hr, hu, hq, hnew⟩ := hm.rows er her
    refine ⟨r, hr, hu, hq, ?_⟩
    have hne : er.1.fileId ≠ pk := fun heq => hnot (heq ▸ hid er her)
    have hno : old ≠ some er.1.fileId := fun heq => (hold _ heq).2 (hid er her)
    rw [(hrest _ hno).1, (hi.rest _ hne).1, hnew]
  · obtain ⟨hrow, hsame⟩ := hm.rest g hg
    obtain ⟨hrow₁, hsame₁⟩ := hi.rest g hne
    obtain ⟨hrow₂, hsame₂⟩ := hrest g hng
    exact ⟨hrow₂.trans (hrow₁.trans hrow), (hsame.trans hsame₁).trans hsame₂⟩

theorem packFilesTx_relaid (hP : Restores P) {u pk : Text} {es : List PackEntry}
    {built : Bytes × List (ℕ × ℕ)} {now : Time} {r : ℤ × List RemoteShard × ℤ}
    (hb : buildPack es = .ok built) (hu : Unused P {pk} w.db)
    (h : packFilesTx P key u pk es built.1 built.2 now w = (.ok r, w')) :
    Relaid P key u pk none (es.zip built.2) w w' := by
  rw [packFilesTx] at h
  obtain ⟨freed, w₁, hall, h₁⟩ := bind_ok h
  obtain ⟨stored, w₂, hrow, h₂⟩ := bind_ok h₁
  obtain ⟨-, rfl⟩ := pure_ok h₂
  have hfreed := collect_freed _ (fun _ _ _ _ h => packMember_freed h) hall
  have hu₁ : Unused P {pk} w₁.db := fun s hs => hu s (hfreed.rows s hs)
  have hmoved : Moved u pk none (es.zip built.2) w w₁ :=
    collect_moved (Option.some_ne_none pk).symm (fun _ _ _ _ h => packMember_moved h) hall
  exact relaid_of_moved hb hmoved (insertPackRow_inserted hP hu₁ hrow) (fun _ h => by cases h)
    (fun _ h => by cases h) fun g _ => ⟨rfl, ownSame_refl g w'⟩

/-- What a compaction that came through did: the old container was empty and went, or its
members are laid out anew. -/
inductive Compacted (P : Prims K) (key : K) (u old : Text) (survivors : List PackEntry) (new : Text)
    (w w' : World) : Prop
  | emptied (dropped : Dropped old w w')
      (members : ∀ g r, rowOf w.db g = some r → r.packId ≠ some old)
  | moved (ranges : List (ℕ × ℕ)) (ids : (survivors.zip ranges).map Prod.fst = survivors)
      (relaid : Relaid P key u new (some old) (survivors.zip ranges) w w')
      (members : ∀ g r, rowOf w.db g = some r → r.packId = some old →
        g ∈ survivors.map PackEntry.fileId)

theorem checkCarried_ok {u old : Text} {survivors : List PackEntry} {db : Db}
    (h : checkCarried old survivors (packMembers db u old) = .ok ()) {g : Text} {r : FileRec}
    (hr : rowOf db g = some r) (hu : r.userId = u) (hp : r.packId = some old) :
    g ∈ survivors.map PackEntry.fileId := by
  rw [checkCarried] at h
  split at h
  · cases h
  · next hnone =>
    obtain ⟨hmem, hid⟩ := rowOf_some hr
    have hin : r.view ∈ packMembers db u old := by
      rw [packMembers, List.mem_insertionSort]
      refine List.mem_map.mpr ⟨r, List.mem_filter.mpr ⟨hmem, ?_⟩, rfl⟩
      rw [decide_eq_true hu, decide_eq_true hp]
      rfl
    have hcarried := List.find?_eq_none.mp hnone r.view hin
    rw [decide_eq_true_eq, not_not] at hcarried
    exact hid ▸ hcarried

/-- What the transaction of a compaction that came through did, step by step: the container was
empty and went, or its members moved to a new one and it went then. -/
inductive CompactSteps (P : Prims K) (key : K) (u old : Text) (survivors : List PackEntry) (new : Text)
    (w w' : World) : Prop
  | emptied (none : survivors = []) (dropped : Dropped old w w')
  | moved (built : Bytes × List (ℕ × ℕ)) (w₁ w₂ : World) (apart : old ≠ new)
      (packed : buildPack survivors = .ok built)
      (members : Moved u new (some old) (survivors.zip built.2) w w₁)
      (inserted : Inserted P key u new built.1 w₁ w₂) (dropped : Dropped old w₂ w')

theorem compactPackTx_steps (hP : Restores P) {u old new : Text} {survivors : List PackEntry}
    {now : Time} {r : FileRow × Option (ℕ × ℤ) × List RemoteShard} (hu : Unused P {new} w.db)
    (h : compactPackTx P key u old survivors new now w = (.ok r, w')) :
    (∃ c, rowOf w.db old = some c ∧ c.userId = u) ∧
      (∀ g q, rowOf w.db g = some q → q.userId = u → q.packId = some old →
        g ∈ survivors.map PackEntry.fileId) ∧
      CompactSteps P key u old survivors new w w' := by
  rw [compactPackTx] at h
  obtain ⟨_, w₁, hq, h₁⟩ := bind_ok h
  obtain ⟨rfl, hdb₁, hst₁⟩ := query_ok hq
  obtain ⟨v, w₂, ho, h₂⟩ := bind_ok h₁
  obtain ⟨hrow, rfl⟩ := orThrow_ok ho
  obtain ⟨c, hc, hcu, rfl⟩ := rowOf_getFile hrow
  split at h₂
  · obtain ⟨members, w₃, hq', h₃⟩ := bind_ok h₂
    obtain ⟨rfl, hdb₃, hst₃⟩ := query_ok hq'
    obtain ⟨_, w₄, ho', h₄⟩ := bind_ok h₃
    obtain ⟨hcheck, rfl⟩ := ofOutcome_ok ho'
    have hdb : w₄.db = w.db := hdb₃.trans hdb₁
    have hquiet : ∀ g, Stays w w₄ g := fun g =>
      ⟨by rw [hdb], ownSame_of_store hdb fun _ _ => by rw [hst₃, hst₁]⟩
    rw [hdb₁] at hcheck
    refine ⟨⟨c, hc, hcu⟩, fun g q hq hqu hqp => checkCarried_ok hcheck hq hqu hqp, ?_⟩
    split at h₄
    · next hempty =>
      obtain ⟨frags, w₅, hpurge, h₅⟩ := bind_ok h₄
      obtain ⟨-, rfl⟩ := pure_ok h₅
      obtain ⟨hgone, hrest⟩ := purgeFileRow_dropped ((hquiet old).1.trans hc) hcu hpurge
      refine .emptied (List.isEmpty_iff.mp hempty) ⟨hgone, fun g hg => ?_⟩
      exact ⟨(hrest g hg).1.trans (hquiet g).1, (hquiet g).2.trans (hrest g hg).2⟩
    · obtain ⟨built, w₅, ho'', h₅⟩ := bind_ok h₄
      obtain ⟨hb, rfl⟩ := ofOutcome_ok ho''
      obtain ⟨us, w₆, hall, h₆⟩ := bind_ok h₅
      obtain ⟨stored, w₇, hins, h₇⟩ := bind_ok h₆
      obtain ⟨frags, w₈, hpurge, h₈⟩ := bind_ok h₇
      obtain ⟨-, rfl⟩ := pure_ok h₈
      have hfreed := collect_freed (fun _ => []) (fun _ _ _ _ h => moveMember_freed h) hall
      have hu₆ : Unused P {new} w₆.db := fun s hs => hu s (hdb ▸ hfreed.rows s hs)
      have hinserted := insertPackRow_inserted hP hu₆ hins
      have hone : ∀ er w b w', moveMember u old new er w = (.ok b, w') → MovedOne u new (some old) er w w' :=
        fun _ _ _ _ h => moveMember_moved h
      -- the old container has a row still where the new one gets its own
      obtain ⟨q, hq, hqu⟩ := collect_rows hone hall old c (hdb ▸ hc) hcu
      have hne : old ≠ new := by
        rintro rfl
        rw [hinserted.fresh] at hq
        cases hq
      have hq₇ : rowOf w₇.db old = some q := (hinserted.rest old hne).1.trans hq
      have hmoved := collect_moved (fun heq => hne (Option.some.inj heq)) hone hall
      have hmoved' : Moved u new (some old) (survivors.zip built.2) w w₆ := by
        refine ⟨hmoved.ids, fun er her => ?_, fun g hg => ?_⟩
        · obtain ⟨q, hq, hrest⟩ := hmoved.rows er her
          exact ⟨q, hdb ▸ hq, hrest⟩
        · obtain ⟨hrow, hsame⟩ := hmoved.rest g hg
          exact ⟨hrow.trans (hquiet g).1, (hquiet g).2.trans hsame⟩
      exact .moved built w₆ w₇ hne hb hmoved' hinserted (purgeFileRow_dropped hq₇ hqu hpurge)
  · cases h₂

theorem compactPackTx_compacted (hP : Restores P) (hwf : WellFormed P key w) {u old new : Text}
    {survivors : List PackEntry} {now : Time} {r : FileRow × Option (ℕ × ℤ) × List RemoteShard}
    (hu : Unused P {new} w.db)
    (h : compactPackTx P key u old survivors new now w = (.ok r, w')) :
    Compacted P key u old survivors new w w' := by
  obtain ⟨⟨c, hc, hcu⟩, hmembers, hsteps⟩ := compactPackTx_steps hP hu h
  have hcarried : ∀ g q, rowOf w.db g = some q → q.packId = some old →
      g ∈ survivors.map PackEntry.fileId := by
    intro g q hq hqp
    -- a member belongs to the user of its container
    obtain ⟨c', hc', hqu, -⟩ := hwf g q old hq hqp
    rw [hc] at hc'
    cases hc'
    exact hmembers g q hq (hqu.symm.trans hcu) hqp
  cases hsteps with
  | emptied hempty hdropped =>
    refine .emptied hdropped fun g q hq hqp => ?_
    have hin := hcarried g q hq hqp
    rw [hempty] at hin
    cases hin
  | moved built w₁ w₂ hne hb hmoved hinserted hdropped =>
    -- a container that is among its own members would be a member itself
    have hnot : old ∉ (survivors.zip built.2).map fun er => er.1.fileId := by
      intro hin
      obtain ⟨er, her, hid⟩ := List.mem_map.mp hin
      obtain ⟨q, hq, -, hqp, -⟩ := hmoved.rows er her
      rw [hid] at hq
      obtain ⟨c', hc', -, -, hown, -⟩ := hwf old q old hq hqp
      rw [hq] at hc'
      cases hc'
      rw [hqp] at hown
      cases hown
    refine .moved built.2 (buildPack_ok hb).1 ?_ hcarried
    refine relaid_of_moved hb hmoved hinserted ?_ ?_ fun g hg => hdropped.rest g fun heq => hg (by rw [heq])
    · rintro p ⟨⟩
      exact ⟨hne, hnot⟩
    · rintro p ⟨⟩
      exact hdropped.gone

end

end P2pnas.Store.Repacking
