import Mathlib.Data.List.Induction
import Mathlib.Data.List.Sort

/-!
# A bounded buffer of the items with the smallest keys

A heap hands out an item with the greatest key; which one of several is its own affair. The buffer
takes every item until it is full; then it swaps an item with the greatest key for a smaller one,
and either way passes one item over. What it keeps and what it passed over are the items seen, and
no kept item is above one passed over.
-/

namespace P2pnas.Lib.TopK

variable {α κ : Type} [LinearOrder κ] {key : α → κ}

/-- A priority queue: `pop` takes out an item with the greatest key. -/
structure MaxHeap (key : α → κ) where
  pop : List α → Option (α × List α)
  some_of_ne_nil : ∀ heap, heap ≠ [] → (pop heap).isSome = true
  perm : ∀ heap x rest, pop heap = some (x, rest) → (x :: rest).Perm heap
  greatest : ∀ heap x rest, pop heap = some (x, rest) → ∀ y ∈ heap, key y ≤ key x

/-- The first of the greatest items of a list, and the others. -/
def takeGreatest (key : α → κ) : List α → Option (α × List α)
  | [] => none
  | x :: xs =>
    match takeGreatest key xs with
    | none => some (x, xs)
    | some (y, rest) => if key x < key y then some (y, x :: rest) else some (x, xs)

theorem takeGreatest_none {heap : List α} (h : takeGreatest key heap = none) : heap = [] := by
  cases heap with
  | nil => rfl
  | cons x xs =>
    rw [takeGreatest] at h
    cases hxs : takeGreatest key xs with
    | none =>
      rw [hxs] at h
      cases h
    | some r =>
      rw [hxs] at h
      dsimp only at h
      split at h <;> cases h

theorem takeGreatest_spec : ∀ (heap : List α) (x : α) (rest : List α),
    takeGreatest key heap = some (x, rest) → (x :: rest).Perm heap ∧ ∀ y ∈ heap, key y ≤ key x := by
  intro heap
  induction heap with
  | nil => exact nofun
  | cons z zs ih =>
    intro x rest h
    rw [takeGreatest] at h
    cases hzs : takeGreatest key zs with
    | none =>
      have hnil : zs = [] := takeGreatest_none hzs
      rw [hzs] at h
      cases h
      refine ⟨.refl _, fun y hy => ?_⟩
      rw [hnil, List.mem_singleton] at hy
      rw [hy]
    | some r =>
      obtain ⟨hperm, hgreatest⟩ := ih r.1 r.2 hzs
      rw [hzs] at h
      dsimp only at h
      split at h
      · next hlt =>
        cases h
        refine ⟨(List.Perm.swap z r.1 r.2).trans (hperm.cons z), fun y hy => ?_⟩
        rcases List.mem_cons.mp hy with rfl | hy
        · exact hlt.le
        · exact hgreatest y hy
      · next hle =>
        cases h
        refine ⟨.refl _, fun y hy => ?_⟩
        rcases List.mem_cons.mp hy with rfl | hy
        · exact le_rfl
        · exact (hgreatest y hy).trans (not_lt.mp hle)

/-- A list as a heap. -/
def listHeap (key : α → κ) : MaxHeap key where
  pop := takeGreatest key
  some_of_ne_nil := fun _ hne => Option.isSome_iff_ne_none.mpr fun h => hne (takeGreatest_none h)
  perm := fun heap x rest h => (takeGreatest_spec heap x rest h).1
  greatest := fun heap x rest h => (takeGreatest_spec heap x rest h).2

/-- The items of a heap, the greatest last. -/
def drain (h : MaxHeap key) : ℕ → List α → List α
  | 0, _ => []
  | n + 1, heap =>
    match h.pop heap with
    | none => []
    | some (x, rest) => drain h n rest ++ [x]

theorem drain_sorted (h : MaxHeap key) {n : ℕ} {heap : List α} (hn : heap.length = n) :
    (drain h n heap).Perm heap ∧ ((drain h n heap).map key).Pairwise (· ≤ ·) := by
  induction n generalizing heap with
  | zero =>
    rw [List.length_eq_zero_iff.mp hn]
    exact ⟨.refl _, .nil⟩
  | succ n ih =>
    have hne : heap ≠ [] := by
      rintro rfl
      cases hn
    rw [drain]
    cases hpop : h.pop heap with
    | none =>
      have hsome := h.some_of_ne_nil heap hne
      rw [hpop] at hsome
      cases hsome
    | some r =>
      obtain ⟨x, rest⟩ := r
      have hperm := h.perm heap x rest hpop
      have hlen : rest.length = n := by
        have := hperm.length_eq
        rw [List.length_cons] at this
        omega
      obtain ⟨hdrain, hsorted⟩ := ih hlen
      refine ⟨?_, ?_⟩
      · exact (List.perm_append_singleton x _).trans ((hdrain.cons x).trans hperm)
      · rw [List.map_append, List.map_singleton, List.pairwise_append]
        refine ⟨hsorted, List.pairwise_singleton _ _, fun a ha b hb => ?_⟩
        obtain ⟨y, hy, rfl⟩ := List.mem_map.mp ha
        rw [List.mem_singleton.mp hb]
        exact h.greatest heap x rest hpop y (hperm.subset (List.mem_cons_of_mem x (hdrain.subset hy)))

/-! ### The buffer -/

/-- A buffer of at most `cap` items and the number passed over. -/
structure Buffer (α : Type) where
  kept : List α
  passed : ℕ

def offer (h : MaxHeap key) (cap : ℕ) (b : Buffer α) (x : α) : Buffer α :=
  if b.kept.length < cap then { b with kept := x :: b.kept }
  else
    match h.pop b.kept with
    | some (worst, rest) =>
      { kept := if key x < key worst then x :: rest else b.kept
        passed := b.passed + 1 }
    | none => { b with passed := b.passed + 1 }

/-- What the buffer is after the items `seen`, of which it passed over `over'`. -/
structure Kept (key : α → κ) (cap : ℕ) (seen over' : List α) (b : Buffer α) : Prop where
  perm : (b.kept ++ over').Perm seen
  count : over'.length = b.passed
  bounded : b.kept.length ≤ cap
  full : over' ≠ [] → b.kept.length = cap
  least : ∀ x ∈ b.kept, ∀ y ∈ over', key x ≤ key y

/-- The items passed over after one more. -/
theorem Kept.offer {cap : ℕ} {seen over' : List α} {b : Buffer α} (h : MaxHeap key)
    (hb : Kept key cap seen over' b) (x : α) :
    ∃ over'', Kept key cap (seen ++ [x]) over'' (offer h cap b x) := by
  rw [TopK.offer]
  split
  · next hroom =>
    have hnone : over' = [] := by
      by_contra hne
      have := hb.full hne
      omega
    subst hnone
    refine ⟨[], ?_, hb.count, hroom, nofun, fun y _ z hz => absurd hz List.not_mem_nil⟩
    rw [List.append_nil]
    have hperm := hb.perm
    rw [List.append_nil] at hperm
    exact (hperm.cons x).trans (List.perm_append_singleton x seen).symm
  · next hroom =>
    have hfull : b.kept.length = cap := Nat.le_antisymm hb.bounded (Nat.not_lt.mp hroom)
    -- passing over the item itself
    have hpass : (∀ y ∈ b.kept, key y ≤ key x) → Kept key cap (seen ++ [x]) (over' ++ [x])
        { b with passed := b.passed + 1 } := by
      intro hle
      refine ⟨?_, ?_, hb.bounded, fun _ => hfull, fun y hy z hz => ?_⟩
      · rw [← List.append_assoc]
        exact hb.perm.append_right [x]
      · rw [List.length_append, hb.count, List.length_singleton]
      · rcases List.mem_append.mp hz with hz | hz
        · exact hb.least y hy z hz
        · rw [List.mem_singleton.mp hz]
          exact hle y hy
    cases hpop : h.pop b.kept with
    | none =>
      refine ⟨over' ++ [x], hpass fun y hy => ?_⟩
      have hsome := h.some_of_ne_nil b.kept (List.ne_nil_of_mem hy)
      rw [hpop] at hsome
      cases hsome
    | some r =>
      obtain ⟨worst, rest⟩ := r
      have hgreatest := h.greatest b.kept worst rest hpop
      have hperm := h.perm b.kept worst rest hpop
      dsimp only
      split
      · next hlt =>
        refine ⟨over' ++ [worst], ?_, ?_, ?_, fun _ => ?_, fun y hy z hz => ?_⟩
        · -- the item takes the place of the one it swaps out
          have hswap : (x :: rest ++ (over' ++ [worst])).Perm (x :: ((worst :: rest) ++ over')) := by
            rw [List.cons_append, List.cons_append, ← List.append_assoc]
            exact (List.perm_append_singleton worst (rest ++ over')).cons x
          have hseen := ((hperm.append_right over').trans hb.perm).cons x
          exact hswap.trans (hseen.trans (List.perm_append_singleton x seen).symm)
        · rw [List.length_append, hb.count, List.length_singleton]
        · rw [← hperm.length_eq, List.length_cons] at hfull
          rw [List.length_cons]
          omega
        · rw [← hperm.length_eq, List.length_cons] at hfull
          rw [List.length_cons]
          exact hfull
        · have hkeep : ∀ y ∈ x :: rest, key y ≤ key worst := by
            intro y hy
            rcases List.mem_cons.mp hy with rfl | hy
            · exact hlt.le
            · exact hgreatest y (hperm.subset (List.mem_cons_of_mem worst hy))
          rcases List.mem_append.mp hz with hz | hz
          · have hworst := hb.least worst (hperm.subset (List.mem_cons_self ..)) z hz
            exact (hkeep y hy).trans hworst
          · rw [List.mem_singleton.mp hz]
            exact hkeep y hy
      · next hle =>
        exact ⟨over' ++ [x], hpass fun y hy => (hgreatest y hy).trans (not_lt.mp hle)⟩

theorem foldl_kept (h : MaxHeap key) (cap : ℕ) (xs : List α) :
    ∃ over', Kept key cap xs over' (xs.foldl (offer h cap) ⟨[], 0⟩) := by
  induction xs using List.reverseRecOn with
  | nil => exact ⟨[], .refl _, rfl, Nat.zero_le _, nofun, fun x hx => absurd hx List.not_mem_nil⟩
  | append_singleton xs x ih =>
    obtain ⟨over', hkept⟩ := ih
    rw [List.foldl_append]
    exact hkept.offer h x

section
variable {cap : ℕ} {seen over' : List α} {b : Buffer α}

theorem Kept.length_eq (h : Kept key cap seen over' b) :
    b.kept.length = min seen.length cap ∧ b.passed = seen.length - min seen.length cap := by
  have hlen := h.perm.length_eq
  rw [List.length_append, h.count] at hlen
  have hbounded := h.bounded
  by_cases hnone : over' = []
  · have hzero : b.passed = 0 := by rw [← h.count, hnone]; rfl
    omega
  · have hfull := h.full hnone
    omega

/-- The keys kept are the smallest ones seen. -/
theorem Kept.keys (h : Kept key cap seen over' b) :
    (b.kept.map key).insertionSort (· ≤ ·) =
      ((seen.map key).insertionSort (· ≤ ·)).take b.kept.length := by
  have hsplit : (seen.map key).insertionSort (· ≤ ·) =
      (b.kept.map key).insertionSort (· ≤ ·) ++ (over'.map key).insertionSort (· ≤ ·) := by
    refine List.Perm.eq_of_pairwise' (List.pairwise_insertionSort _ _) ?_ ?_
    · refine List.pairwise_append.mpr ⟨List.pairwise_insertionSort _ _,
        List.pairwise_insertionSort _ _, fun a ha c hc => ?_⟩
      obtain ⟨x, hx, rfl⟩ := List.mem_map.mp ((List.perm_insertionSort _ _).subset ha)
      obtain ⟨y, hy, rfl⟩ := List.mem_map.mp ((List.perm_insertionSort _ _).subset hc)
      exact h.least x hx y hy
    · have hseen : ((seen.map key).insertionSort (· ≤ ·)).Perm ((b.kept ++ over').map key) :=
        (List.perm_insertionSort _ _).trans (h.perm.map key).symm
      have hparts : ((b.kept ++ over').map key).Perm
          ((b.kept.map key).insertionSort (· ≤ ·) ++ (over'.map key).insertionSort (· ≤ ·)) := by
        rw [List.map_append]
        exact (List.perm_insertionSort _ _).symm.append (List.perm_insertionSort _ _).symm
      exact hseen.trans hparts
  rw [hsplit, List.take_left' (by rw [List.length_insertionSort, List.length_map])]

end

end P2pnas.Lib.TopK
