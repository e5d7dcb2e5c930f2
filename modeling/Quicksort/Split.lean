import Quicksort.Partition.Basic
import Quicksort.Pivot

/-
  Splitting a segment: pick a pivot, bring it to the front, partition.
-/

namespace Quicksort

variable {n : Nat}

/-- Splits the segment around the pivot that a rule picks. What is left to sort are the two
sides of the cut. -/
def split (rule : PivotRule) (s : Segment n) (h : 2 ≤ s.size) (st : State n) :
    Cut s × State n :=
  partition s (Nat.zero_lt_of_lt h) (placePivot rule s st)

end Quicksort
