/-
  The work done by a sort: how many values were compared, how many exchanges
  were made, how many segments were partitioned, and how deep the segments
  were nested.

  The counters are natural numbers. A sort of fewer than `2 ^ 32` slots that
  starts from zero keeps them below `2 ^ 64` at every moment
  (`comparisons_of_sort`), so there counters of 64 bits show the same numbers.
  Where such counters do wrap, because they started near their end, they still
  go up by the work of the sort (`words_sortSegment`).

  A tally is only ever written to, so no decision of the sort can depend on it.
-/

namespace Quicksort

/-- Work counters. -/
structure Tally where
  comparisons : Nat := 0
  swaps : Nat := 0
  partitions : Nat := 0
  /-- The deepest nesting of segments so far; an unsorted whole has depth 1. -/
  maxDepth : Nat := 0
  deriving DecidableEq, Repr, Inhabited

namespace Tally

def addComparisons (t : Tally) (k : Nat) : Tally := { t with comparisons := t.comparisons + k }

def addSwap (t : Tally) : Tally := { t with swaps := t.swaps + 1 }

def addPartition (t : Tally) : Tally := { t with partitions := t.partitions + 1 }

/-- Records that a segment is worked on at the given depth. -/
def reach (t : Tally) (depth : Nat) : Tally := { t with maxDepth := max t.maxDepth depth }

end Tally

end Quicksort
