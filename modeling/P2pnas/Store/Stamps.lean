import P2pnas.Lib.Rfc3339
import P2pnas.Store.Manifest

/-!
# Stamps are compared as texts (`manifest.rs:616-658`, `service.rs:514-527`)

The manifest keeps its stamps as the texts that `to_rfc3339` writes, and the statements of the
retention compare these texts byte by byte. The tables of the model keep instants. Here both are put
side by side: in the years 0 to 9999 the statements select the same rows.
-/

namespace P2pnas.Store.Stamps
open P2pnas.Lib.Strings P2pnas.Lib.Rfc3339 P2pnas.Store.Manifest

/-- From the first moment of year 0 to the Unix epoch. -/
def EPOCH : ℤ := ((yearStart 1970 * 24 * 60 * 60 * 1000000000 : ℕ) : ℤ)

/-- `DateTime::<Utc>::to_rfc3339`. -/
def toRfc3339 (t : Time) : Text := stampText (t + EPOCH).toNat

/-- The instant lies in the years 0 to 9999. -/
def InYears (t : Time) : Prop := 0 ≤ t + EPOCH ∧ t + EPOCH < (SPAN : ℤ)

instance (t : Time) : Decidable (InYears t) := inferInstanceAs (Decidable (_ ∧ _))

/-! ### The statements on texts -/

/-- `stamp IS NOT NULL AND stamp < ?1`. -/
def beforeText (stamp : Option Time) (cutoff : Text) : Bool :=
  match stamp with
  | some t => decide (utf8 (toRfc3339 t) < utf8 cutoff)
  | none => false

def trashedBeforeText (db : Db) (cutoff : Text) : List PurgeCandidate :=
  (db.files.filter fun r => beforeText r.deletedAt cutoff).map FileRec.candidate

def supersededBeforeText (db : Db) (cutoff : Text) : List PurgeCandidate :=
  (db.files.filter fun r => beforeText r.supersededAt cutoff).map FileRec.candidate

/-- `ORDER BY created_at DESC, file_id DESC`. -/
def newerText (a b : FileRec) : Bool :=
  decide (utf8 (toRfc3339 b.createdAt) < utf8 (toRfc3339 a.createdAt)) ||
    (toRfc3339 a.createdAt = toRfc3339 b.createdAt && !textLe a.fileId b.fileId)

def rowNumberText (db : Db) (r : FileRec) : ℕ :=
  db.files.countP (fun q => q.supersededAt.isSome && sameLineage q r && newerText q r) + 1

def supersededBeyondText (db : Db) (keep : ℤ) : List PurgeCandidate :=
  (db.files.filter fun r => r.supersededAt.isSome && keep < (rowNumberText db r : ℤ)).map
    FileRec.candidate

/-! ### They select what the instants select -/

section
variable {t t' : Time}

theorem toNat_lt (h : InYears t) : (t + EPOCH).toNat < SPAN := (Int.toNat_lt h.1).mpr h.2

theorem below_iff (h : InYears t) (h' : InYears t') : Below (toRfc3339 t) (toRfc3339 t') ↔ t < t' := by
  have hshift : (t + EPOCH).toNat < (t' + EPOCH).toNat ↔ t + EPOCH < t' + EPOCH := by
    rw [Int.toNat_lt h.1, Int.toNat_of_nonneg h'.1]
  rw [toRfc3339, toRfc3339, stampText_lt_iff (toNat_lt h) (toNat_lt h'), hshift]
  exact Int.add_lt_add_iff_right EPOCH

theorem toRfc3339_inj (h : InYears t) (h' : InYears t') : toRfc3339 t = toRfc3339 t' ↔ t = t' := by
  constructor
  · intro heq
    have hnat : (t + EPOCH).toNat = (t' + EPOCH).toNat := stampText_inj (toNat_lt h) (toNat_lt h') heq
    have hint : t + EPOCH = t' + EPOCH := by
      rw [← Int.toNat_of_nonneg h.1, ← Int.toNat_of_nonneg h'.1, hnat]
    exact add_right_cancel hint
  · rintro rfl
    rfl

/-- All stamps of the row lie in those years. -/
structure Stamped (r : FileRec) : Prop where
  created : InYears r.createdAt
  deleted : ∀ t ∈ r.deletedAt, InYears t
  superseded : ∀ t ∈ r.supersededAt, InYears t

theorem beforeText_eq {stamp : Option Time} {cutoff : Time} (h : ∀ t ∈ stamp, InYears t)
    (hc : InYears cutoff) : beforeText stamp (toRfc3339 cutoff) = before stamp cutoff := by
  cases stamp with
  | none => rfl
  | some t =>
    have hiff : utf8 (toRfc3339 t) < utf8 (toRfc3339 cutoff) ↔ t < cutoff := below_iff (h t rfl) hc
    change decide (utf8 (toRfc3339 t) < utf8 (toRfc3339 cutoff)) = decide (t < cutoff)
    rw [decide_eq_decide]
    exact hiff

theorem newerText_eq {a b : FileRec} (ha : Stamped a) (hb : Stamped b) : newerText a b = newer a b := by
  have hlt : decide (utf8 (toRfc3339 b.createdAt) < utf8 (toRfc3339 a.createdAt)) =
      decide (b.createdAt < a.createdAt) := decide_eq_decide.mpr (below_iff hb.created ha.created)
  have heq : decide (toRfc3339 a.createdAt = toRfc3339 b.createdAt) =
      decide (a.createdAt = b.createdAt) := decide_eq_decide.mpr (toRfc3339_inj ha.created hb.created)
  rw [newerText, newer, hlt, heq]

theorem rowNumberText_eq {db : Db} (h : ∀ r ∈ db.files, Stamped r) {r : FileRec} (hr : r ∈ db.files) :
    rowNumberText db r = rowNumber db r := by
  have hsame : ∀ q ∈ db.files, (q.supersededAt.isSome && sameLineage q r && newerText q r) =
      (q.supersededAt.isSome && sameLineage q r && newer q r) := by
    intro q hq
    rw [newerText_eq (h q hq) (h r hr)]
  rw [rowNumberText, rowNumber, List.countP_congr fun q hq => by rw [hsame q hq]]

end

/-- Stamps of the years 0 to 9999 compare byte by byte as their instants compare in time, so a cutoff
selects the rows older than it, and versions are ranked by age. -/
theorem stamps_sort :
    (∀ t t', InYears t → InYears t' → (utf8 (toRfc3339 t) < utf8 (toRfc3339 t') ↔ t < t')) ∧
      ∀ db : Db, (∀ r ∈ db.files, Stamped r) →
        (∀ cutoff, InYears cutoff → trashedBeforeText db (toRfc3339 cutoff) = trashedBefore db cutoff ∧
          supersededBeforeText db (toRfc3339 cutoff) = supersededBefore db cutoff) ∧
        (∀ a ∈ db.files, ∀ b ∈ db.files, newerText a b = newer a b) ∧
        ∀ keep, supersededBeyondText db keep = supersededBeyond db keep := by
  refine ⟨fun t t' h h' => below_iff h h', fun db hdb => ⟨fun cutoff hc => ⟨?_, ?_⟩, ?_, fun keep => ?_⟩⟩
  · have hsame : db.files.filter (fun r => beforeText r.deletedAt (toRfc3339 cutoff)) =
        db.files.filter fun r => before r.deletedAt cutoff :=
      List.filter_congr fun r hr => beforeText_eq (hdb r hr).deleted hc
    rw [trashedBeforeText, trashedBefore, hsame]
  · have hsame : db.files.filter (fun r => beforeText r.supersededAt (toRfc3339 cutoff)) =
        db.files.filter fun r => before r.supersededAt cutoff :=
      List.filter_congr fun r hr => beforeText_eq (hdb r hr).superseded hc
    rw [supersededBeforeText, supersededBefore, hsame]
  · exact fun a ha b hb => newerText_eq (hdb a ha) (hdb b hb)
  · have hsame : db.files.filter
          (fun r => r.supersededAt.isSome && decide (keep < (rowNumberText db r : ℤ))) =
        db.files.filter fun r => r.supersededAt.isSome && decide (keep < (rowNumber db r : ℤ)) :=
      List.filter_congr fun r hr => by rw [rowNumberText_eq hdb hr]
    rw [supersededBeyondText, supersededBeyond, hsame]

/-- A whole second, and half a second later. -/
theorem halfSecond_sorts : toRfc3339 0 = "1970-01-01T00:00:00+00:00".toList ∧
    toRfc3339 500000000 = "1970-01-01T00:00:00.500+00:00".toList ∧
    utf8 (toRfc3339 0) < utf8 (toRfc3339 500000000) := by
  have hfirst : InYears 0 := by decide +kernel
  have hnext : InYears 500000000 := by decide +kernel
  have hsort := stamps_sort.1 0 500000000 hfirst hnext
  refine ⟨by decide +kernel, by decide +kernel, ?_⟩
  exact hsort.mpr (by decide)

end P2pnas.Store.Stamps
