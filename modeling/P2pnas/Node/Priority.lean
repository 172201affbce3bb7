import P2pnas.Lib.TopK
import P2pnas.Node.Repair

/-!
# Which chunks a pass repairs (`repair.rs:144-163, 313-340`)

The sweep only assesses; the degraded chunks wait in a heap ordered by margin alone, so its top is
the chunk that can best wait for the next pass. The order among chunks of one margin is up to the
heap.
-/

namespace P2pnas.Node.Priority
open P2pnas.Lib.TopK P2pnas.Node.Repair

def MAX_PENDING_REPAIRS : ℕ := 4096

/-- `BinaryHeap<ByMargin>`. -/
abbrev Heap := MaxHeap Degraded.margin

/-- The chunks waiting, and `chunks_deferred` of the report. -/
abbrev Waiting := Buffer Degraded

/-- `push_pending`. -/
def pushPending (h : Heap) (pending : Waiting) (d : Degraded) : Waiting :=
  if pending.kept.length < MAX_PENDING_REPAIRS then { pending with kept := d :: pending.kept }
  else
    -- swap out the least endangered chunk if this one is worse
    match h.pop pending.kept with
    | some (worst, rest) =>
      { kept := if d.margin < worst.margin then d :: rest else pending.kept
        passed := pending.passed + 1 }
    | none => { pending with passed := pending.passed + 1 }

theorem pushPending_offer (h : Heap) : pushPending h = offer h MAX_PENDING_REPAIRS := by
  funext pending d
  rw [pushPending, offer]
  cases h.pop pending.kept with
  | none => rfl
  | some r => rfl

/-- The chunks a sweep leaves for repair, out of those it found degraded. -/
def pendingOf (h : Heap) (found : List Degraded) : Waiting := found.foldl (pushPending h) ⟨[], 0⟩

/-- `into_sorted_vec`. -/
def intoSortedVec (h : Heap) (pending : List Degraded) : List Degraded :=
  drain h pending.length pending

/-- The buffer keeps as many chunks as it can hold, those with the smallest margins, each of them
one that was found; the others are deferred. Repair takes the kept ones by ascending margin. -/
theorem pendingOf_keeps_smallest (h : Heap) (found : List Degraded) :
    (pendingOf h found).kept.length = min found.length MAX_PENDING_REPAIRS ∧
      (pendingOf h found).passed = found.length - min found.length MAX_PENDING_REPAIRS ∧
      (∃ deferred, ((pendingOf h found).kept ++ deferred).Perm found) ∧
      ((pendingOf h found).kept.map Degraded.margin).insertionSort (· ≤ ·) =
        ((found.map Degraded.margin).insertionSort (· ≤ ·)).take
          (min found.length MAX_PENDING_REPAIRS) ∧
      (intoSortedVec h (pendingOf h found).kept).Perm (pendingOf h found).kept ∧
      ((intoSortedVec h (pendingOf h found).kept).map Degraded.margin).Pairwise (· ≤ ·) := by
  obtain ⟨deferred, hkept⟩ := foldl_kept h MAX_PENDING_REPAIRS found
  rw [← pushPending_offer, ← pendingOf] at hkept
  obtain ⟨hlen, hpassed⟩ := hkept.length_eq
  have hkeys := hkept.keys
  rw [hlen] at hkeys
  obtain ⟨hperm, hsorted⟩ := @drain_sorted _ _ _ _ h _ (pendingOf h found).kept rfl
  exact ⟨hlen, hpassed, ⟨deferred, hkept.perm⟩, hkeys, hperm, hsorted⟩

/-- Repairs run least margin first. -/
example : (intoSortedVec (listHeap Degraded.margin) (pendingOf (listHeap Degraded.margin)
    ([3, 0, 2, 1].map fun margin => ⟨margin, ⟨[], [], 0, [], false, 0, 0, 0⟩, [], [], []⟩)).kept).map
    Degraded.margin = [0, 1, 2, 3] := by decide

end P2pnas.Node.Priority
