import Quicksort.Partition.Scan
import Quicksort.Session

/-
  Partition of a segment around the value in its first slot.

  The scan leaves the pivot where it is and brings every value that is at most
  the pivot to the left of the right cursor's slot; then the pivot is exchanged
  into that slot. So the pivot's slot cuts the segment in two: no value left of
  it is greater than the pivot, and every value right of it is.
-/

namespace Quicksort

variable {n : Nat}

/-- Partitions the segment around its first value and returns where that value ends up. -/
def partition (s : Segment n) (h : 0 < s.size) (st : State n) : Cut s × State n :=
  let ⟨xs, tally, generator⟩ := st
  let c := (Scan.start xs s h tally.addPartition).run
  let cut : Cut s := ⟨c.right, c.right_mem⟩
  if c.right = s.lo then
    (cut, { buffer := c.buffer, session := { tally := c.tally, generator } })
  else
    (cut,
      { buffer := c.buffer.swap s.lo c.right (s.lo_lt h) (Segment.lt_of_mem c.right_mem)
        session := { tally := c.tally.addSwap, generator } })

end Quicksort
