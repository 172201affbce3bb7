import Mathlib.Data.List.TakeWhile
import P2pnas.Lib.Strings

/-!
# Paths as lists of names

A text with a separator is a list of names when no name is empty and none contains the
separator. Such texts are the ones that cutting at the separator and joining again, trimming
the ends and stripping a parent directory all treat alike.
-/

namespace P2pnas.Lib.Paths
open P2pnas.Lib.Strings

variable {c : Char}

/-- A segment that is neither empty nor cut further. -/
structure IsName (c : Char) (s : Text) : Prop where
  nonempty : s ≠ []
  uncut : c ∉ s

/-- The names with the separator between them; the empty text for no name. -/
def joinOn (c : Char) : List Text → Text
  | [] => []
  | [s] => s
  | s :: t :: ss => s ++ c :: joinOn c (t :: ss)

/-- No segment of the text is empty. -/
def Plain (c : Char) (p : Text) : Prop := ∀ s ∈ splitOn c p, s ≠ []

instance (c : Char) (p : Text) : Decidable (Plain c p) :=
  inferInstanceAs (Decidable (∀ s ∈ splitOn c p, s ≠ []))

/-! ### Cutting and joining -/

theorem splitOn_ne_nil (p : Text) : splitOn c p ≠ [] := by
  cases p with
  | nil => exact List.cons_ne_nil _ _
  | cons d p =>
    rw [splitOn]
    split
    · exact List.cons_ne_nil _ _
    · split
      · exact List.cons_ne_nil _ _
      · exact List.cons_ne_nil _ _

theorem splitOn_sep (p : Text) : splitOn c (c :: p) = [] :: splitOn c p := by
  rw [splitOn, if_pos rfl]

theorem splitOn_other {d : Char} (h : d ≠ c) {p s : Text} {ss : List Text} (hp : splitOn c p = s :: ss) :
    splitOn c (d :: p) = (d :: s) :: ss := by
  rw [splitOn, if_neg h, hp]

theorem splitOn_uncut (p : Text) : ∀ s ∈ splitOn c p, c ∉ s := by
  induction p with
  | nil =>
    intro s hs
    rw [List.mem_singleton.mp hs]
    exact List.not_mem_nil
  | cons d p ih =>
    by_cases h : d = c
    · subst h
      rw [splitOn_sep]
      intro s hs
      rcases List.mem_cons.mp hs with rfl | hs
      · exact List.not_mem_nil
      · exact ih s hs
    · obtain ⟨s, ss, hp⟩ := List.exists_cons_of_ne_nil (splitOn_ne_nil (c := c) p)
      rw [splitOn_other h hp]
      rw [hp] at ih
      intro t ht
      rcases List.mem_cons.mp ht with rfl | ht
      · intro hm
        rcases List.mem_cons.mp hm with he | hm
        · exact h he.symm
        · exact ih s (List.mem_cons_self ..) hm
      · exact ih t (List.mem_cons_of_mem _ ht)

theorem joinOn_cons {s : Text} {ss : List Text} (h : ss ≠ []) :
    joinOn c (s :: ss) = s ++ c :: joinOn c ss := by
  cases ss with
  | nil => exact absurd rfl h
  | cons t ss => rfl

theorem joinOn_cons_char (d : Char) (s : Text) (ss : List Text) :
    joinOn c ((d :: s) :: ss) = d :: joinOn c (s :: ss) := by
  cases ss with
  | nil => rfl
  | cons t ss => rfl

theorem joinOn_splitOn (p : Text) : joinOn c (splitOn c p) = p := by
  induction p with
  | nil => rfl
  | cons d p ih =>
    by_cases h : d = c
    · subst h
      rw [splitOn_sep, joinOn_cons (splitOn_ne_nil p), ih]
      rfl
    · obtain ⟨s, ss, hp⟩ := List.exists_cons_of_ne_nil (splitOn_ne_nil (c := c) p)
      rw [splitOn_other h hp, joinOn_cons_char, ← hp, ih]

theorem splitOn_of_uncut {s : Text} (h : c ∉ s) : splitOn c s = [s] := by
  induction s with
  | nil => rfl
  | cons d s ih =>
    obtain ⟨hd, hs⟩ := List.ne_and_not_mem_of_not_mem_cons h
    exact splitOn_other (Ne.symm hd) (ih hs)

/-- A separator ends a segment. -/
theorem splitOn_append (q p : Text) : splitOn c (q ++ c :: p) = splitOn c q ++ splitOn c p := by
  induction q with
  | nil => exact splitOn_sep p
  | cons d q ih =>
    by_cases h : d = c
    · subst h
      rw [List.cons_append, splitOn_sep, splitOn_sep, ih, List.cons_append]
    · obtain ⟨s, ss, hq⟩ := List.exists_cons_of_ne_nil (splitOn_ne_nil (c := c) q)
      rw [hq, List.cons_append] at ih
      rw [List.cons_append, splitOn_other h ih, splitOn_other h hq, List.cons_append]

theorem splitOn_joinOn {segs : List Text} (h : ∀ s ∈ segs, IsName c s) (hne : segs ≠ []) :
    splitOn c (joinOn c segs) = segs := by
  induction segs with
  | nil => exact absurd rfl hne
  | cons s segs ih =>
    have hs := (h s (List.mem_cons_self ..)).uncut
    by_cases hnil : segs = []
    · subst hnil
      exact splitOn_of_uncut hs
    · rw [joinOn_cons hnil, splitOn_append, splitOn_of_uncut hs,
        ih (fun t ht => h t (List.mem_cons_of_mem _ ht)) hnil, List.singleton_append]

theorem Plain.names {p : Text} (h : Plain c p) : ∀ s ∈ splitOn c p, IsName c s :=
  fun s hs => ⟨h s hs, splitOn_uncut p s hs⟩

theorem joinOn_ne_nil {segs : List Text} (h : ∀ s ∈ segs, IsName c s) (hne : segs ≠ []) :
    joinOn c segs ≠ [] := by
  cases segs with
  | nil => exact absurd rfl hne
  | cons s segs =>
    intro hnil
    obtain ⟨d, t, rfl⟩ := List.exists_cons_of_ne_nil (h s (List.mem_cons_self ..)).nonempty
    rw [joinOn_cons_char] at hnil
    cases hnil

theorem joinOn_inj {segs segs' : List Text} (h : ∀ s ∈ segs, IsName c s) (h' : ∀ s ∈ segs', IsName c s)
    (he : joinOn c segs = joinOn c segs') : segs = segs' := by
  by_cases hne : segs = []
  · by_cases hne' : segs' = []
    · rw [hne, hne']
    · exact absurd (he.symm.trans (by rw [hne]; rfl)) (joinOn_ne_nil h' hne')
  · by_cases hne' : segs' = []
    · exact absurd (he.trans (by rw [hne']; rfl)) (joinOn_ne_nil h hne)
    · rw [← splitOn_joinOn h hne, he, splitOn_joinOn h' hne']

/-! ### Directories and what is below them -/

/-- `dir` and what follows it, the separator between them unless `dir` is the root. -/
def under (c : Char) (dir rel : Text) : Text := if dir.isEmpty then rel else dir ++ c :: rel

/-- `path.strip_prefix(dir)` and then the separator; the whole path below the root. -/
def relTo (c : Char) (dir path : Text) : Option Text :=
  if dir.isEmpty then some path
  else if (dir ++ [c]).isPrefixOf path then some (path.drop (dir.length + 1)) else none

theorem relTo_eq_some {dir path rel : Text} : relTo c dir path = some rel ↔ path = under c dir rel := by
  unfold relTo under
  split
  · exact Option.some_inj
  · constructor
    · intro h
      split at h
      · next hp =>
        obtain ⟨rest, rfl⟩ := List.isPrefixOf_iff_prefix.mp hp
        have hd : (dir ++ [c] ++ rest).drop (dir.length + 1) = rest := by
          rw [List.drop_left' (by simp)]
        rw [← Option.some.inj h, hd, List.append_assoc]
        rfl
      · cases h
    · rintro rfl
      have hp : (dir ++ [c]).isPrefixOf (dir ++ c :: rel) = true :=
        List.isPrefixOf_iff_prefix.mpr ⟨rel, by rw [List.append_assoc]; rfl⟩
      have hd : (dir ++ c :: rel).drop (dir.length + 1) = rel := by
        rw [List.append_cons, List.drop_left' (by simp)]
      rw [if_pos hp, hd]

theorem under_joinOn (segs : List Text) (hs : ∀ s ∈ segs, IsName c s) {rest : List Text} (hne : rest ≠ []) :
    under c (joinOn c segs) (joinOn c rest) = joinOn c (segs ++ rest) := by
  unfold under
  induction segs with
  | nil => rfl
  | cons s segs ih =>
    have hnon : (joinOn c (s :: segs)).isEmpty = false := by
      rw [List.isEmpty_eq_false_iff]
      exact joinOn_ne_nil hs (List.cons_ne_nil _ _)
    rw [hnon, if_neg Bool.false_ne_true, List.cons_append]
    by_cases hnil : segs = []
    · subst hnil
      rw [List.nil_append, joinOn_cons hne]
      rfl
    · have htail := ih fun t ht => hs t (List.mem_cons_of_mem _ ht)
      have hnon' : (joinOn c segs).isEmpty = false := by
        rw [List.isEmpty_eq_false_iff]
        exact joinOn_ne_nil (fun t ht => hs t (List.mem_cons_of_mem _ ht)) hnil
      rw [hnon', if_neg Bool.false_ne_true] at htail
      rw [joinOn_cons hnil, List.append_assoc, List.cons_append, htail,
        joinOn_cons (List.append_ne_nil_of_left_ne_nil hnil _)]

theorem splitOn_under {segs : List Text} (h : ∀ s ∈ segs, IsName c s) (rel : Text) :
    splitOn c (under c (joinOn c segs) rel) = segs ++ splitOn c rel := by
  unfold under
  by_cases hne : segs = []
  · subst hne
    rfl
  · have hnon : (joinOn c segs).isEmpty = false := by
      rw [List.isEmpty_eq_false_iff]
      exact joinOn_ne_nil h hne
    rw [hnon, if_neg Bool.false_ne_true, splitOn_append, splitOn_joinOn h hne]

/-- `rel.split_once(c)`. -/
def splitOnce (c : Char) (rel : Text) : Option (Text × Text) :=
  if c ∈ rel then some (rel.takeWhile (· ≠ c), (rel.dropWhile (· ≠ c)).tail) else none

theorem splitOnce_none {rel : Text} : splitOnce c rel = none ↔ c ∉ rel := by
  unfold splitOnce
  split
  · next h => simp [h]
  · next h => simp [h]

theorem splitOnce_append {s : Text} (h : c ∉ s) (p : Text) : splitOnce c (s ++ c :: p) = some (s, p) := by
  have hall : ∀ d ∈ s, decide (d ≠ c) = true := by
    intro d hd
    rw [decide_eq_true_eq]
    rintro rfl
    exact h hd
  unfold splitOnce
  rw [if_pos (by simp), List.takeWhile_append_of_pos hall, List.dropWhile_append_of_pos hall]
  simp

theorem splitOnce_some {rel s p : Text} (h : splitOnce c rel = some (s, p)) : c ∉ s ∧ rel = s ++ c :: p := by
  have hmem : c ∈ rel := by
    by_contra hno
    rw [splitOnce_none.mpr hno] at h
    cases h
  have hcut := splitOn_uncut (c := c) rel
  obtain ⟨s', ss, hs⟩ := List.exists_cons_of_ne_nil (splitOn_ne_nil (c := c) rel)
  have hjoin := joinOn_splitOn (c := c) rel
  rw [hs] at hcut hjoin
  have hunc := hcut s' (List.mem_cons_self ..)
  cases ss with
  | nil =>
    rw [← hjoin] at hmem
    exact absurd hmem hunc
  | cons t ss =>
    rw [joinOn_cons (List.cons_ne_nil _ _)] at hjoin
    rw [← hjoin, splitOnce_append hunc] at h
    obtain ⟨rfl, rfl⟩ := Prod.mk.inj (Option.some.inj h)
    exact ⟨hunc, hjoin.symm⟩

/-! ### The ends of a path -/

theorem trimMatches_eq_self {p : Text} (hhead : ∀ d q, p = d :: q → d ≠ c) (hlast : ∀ d q, p = q ++ [d] → d ≠ c) :
    trimMatches c p = p := by
  have hdrop : p.dropWhile (· = c) = p := by
    cases p with
    | nil => rfl
    | cons d q =>
      rw [List.dropWhile_cons_of_neg]
      rw [decide_eq_true_eq]
      exact hhead d q rfl
  unfold trimMatches
  rw [hdrop]
  have hrev : p.reverse.dropWhile (· = c) = p.reverse := by
    cases hp : p.reverse with
    | nil => rfl
    | cons d q =>
      rw [List.dropWhile_cons_of_neg]
      rw [decide_eq_true_eq]
      refine hlast d q.reverse ?_
      rw [← List.reverse_reverse p, hp, List.reverse_cons]
  rw [hrev, List.reverse_reverse]

theorem dropWhile_head {s q : Text} {d : Char} (h : s.dropWhile (· = c) = d :: q) : d ≠ c := by
  have hne : s.dropWhile (· = c) ≠ [] := by
    rw [h]
    exact List.cons_ne_nil _ _
  have hhead := List.head_dropWhile_not (· = c) hne
  simp only [h, List.head_cons, decide_eq_false_iff_not] at hhead
  exact hhead

theorem trimMatches_last {s q : Text} {d : Char} (h : trimMatches c s = q ++ [d]) : d ≠ c := by
  have hrev := congrArg List.reverse h
  rw [trimMatches, List.reverse_reverse, List.reverse_append] at hrev
  exact dropWhile_head hrev

theorem trimMatches_head {s q : Text} {d : Char} (h : trimMatches c s = d :: q) : d ≠ c := by
  have hsuf : (s.dropWhile (· = c)).reverse.dropWhile (· = c) <:+ (s.dropWhile (· = c)).reverse :=
    List.dropWhile_suffix _
  have hpre : trimMatches c s <+: s.dropWhile (· = c) := by
    have hr := List.reverse_prefix.mpr hsuf
    rwa [List.reverse_reverse] at hr
  obtain ⟨t, ht⟩ := hpre
  rw [h, List.cons_append] at ht
  exact dropWhile_head ht.symm

theorem plain_joinOn {segs : List Text} (h : ∀ s ∈ segs, IsName c s) (hne : segs ≠ []) :
    Plain c (joinOn c segs) := by
  intro s hs
  rw [splitOn_joinOn h hne] at hs
  exact (h s hs).nonempty

theorem Plain.head {p : Text} (h : Plain c p) (d : Char) (q : Text) (hp : p = d :: q) : d ≠ c := by
  rintro rfl
  rw [hp] at h
  exact h [] (by rw [splitOn_sep]; exact List.mem_cons_self ..) rfl

theorem Plain.last {p : Text} (h : Plain c p) (d : Char) (q : Text) (hp : p = q ++ [d]) : d ≠ c := by
  rintro rfl
  rw [hp] at h
  exact h [] (by rw [splitOn_append]; exact List.mem_append_right _ (List.mem_cons_self ..)) rfl

/-- Trimming takes nothing off a plain path. -/
theorem Plain.trim {p : Text} (h : Plain c p) : trimMatches c p = p := trimMatches_eq_self h.head h.last

end P2pnas.Lib.Paths
