/-
  Comparing a buffer with the identity filling, in which slot `k` holds the
  value `k`.
-/

namespace Quicksort

/-- The first slot `k` whose value is not `k`. A negative value is wrong in every slot. -/
def firstMismatch (xs : Array Int32) : Option Nat :=
  (List.range xs.size).find? fun k => xs[k]?.map Int32.toInt ≠ some (k : Int)

theorem firstMismatch_eq_none_iff {xs : Array Int32} :
    firstMismatch xs = none ↔ ∀ k (h : k < xs.size), xs[k].toInt = k := by
  simp only [firstMismatch, List.find?_eq_none, List.mem_range, decide_not, Bool.not_eq_true',
    decide_eq_false_iff_not, Classical.not_not]
  refine forall_congr' fun k => forall_congr' fun h => ?_
  simp [Array.getElem?_eq_getElem h]

theorem firstMismatch_eq_some_iff {xs : Array Int32} {k : Nat} :
    firstMismatch xs = some k ↔
      ∃ h : k < xs.size, xs[k].toInt ≠ k ∧ ∀ j (hj : j < k), xs[j].toInt = j := by
  simp only [firstMismatch, List.find?_range_eq_some, List.mem_range]
  constructor
  · intro ⟨hk, h, hlt⟩
    refine ⟨h, by simpa [Array.getElem?_eq_getElem h] using hk, fun j hj => ?_⟩
    simpa [Array.getElem?_eq_getElem (Nat.lt_trans hj h)] using hlt j hj
  · intro ⟨h, hk, hlt⟩
    refine ⟨by simpa [Array.getElem?_eq_getElem h] using hk, h, fun j hj => ?_⟩
    simpa [Array.getElem?_eq_getElem (Nat.lt_trans hj h)] using hlt j hj

end Quicksort
