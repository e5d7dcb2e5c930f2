import Quicksort.Partition.Cursor
import Quicksort.Tally

/-
  The partition scan: two cursors that close in on a segment from its ends.

  In one round both cursors move, and if they have not met the two values under
  them are exchanged. The scan is over when the left cursor is no longer left of
  the right one.

  A scan carries the fact that as long as it is not over, the value under the
  left cursor is at most the pivot: it is the pivot itself at first, and the
  value that an exchange put there later. So the left cursor moves in every
  round, and the scan ends.
-/

namespace Quicksort

variable {n : Nat} {s : Segment n} {pivot : Int32}

/-- The buffer, the two cursors inside the segment `s`, and the work so far. -/
structure Scan (s : Segment n) (pivot : Int32) where
  buffer : Vector Int32 n
  left : Nat
  right : Nat
  tally : Tally
  left_mem : left ∈ s
  right_mem : right ∈ s
  left_le_pivot : left < right → buffer.get ⟨left, Segment.lt_of_mem left_mem⟩ ≤ pivot

namespace Scan

/-- The cursors at the two ends of a segment whose first value is the pivot. -/
def start (xs : Vector Int32 n) (s : Segment n) (h : 0 < s.size) (t : Tally) :
    Scan s (xs.get ⟨s.lo, s.lo_lt h⟩) where
  buffer := xs
  left := s.lo
  right := s.hi - 1
  tally := t
  left_mem := Segment.lo_mem h
  right_mem := Segment.hi_sub_one_mem h
  left_le_pivot _ := Int32.le_refl _

/-- The scan is over: the cursors have met. -/
def Over (c : Scan s pivot) : Prop := c.right ≤ c.left

instance (c : Scan s pivot) : Decidable c.Over := inferInstanceAs (Decidable (c.right ≤ c.left))

theorem last_lt (c : Scan s pivot) : s.hi - 1 < n := by
  have := c.left_mem.2
  have := s.hi_le
  omega

theorem left_le_last (c : Scan s pivot) : c.left ≤ s.hi - 1 :=
  Nat.le_sub_one_of_lt c.left_mem.2

/-- Where the left cursor stops in this round, and the comparisons up to then. -/
def leftStop (c : Scan s pivot) : Nat × Nat :=
  climb c.buffer pivot (s.hi - 1) c.last_lt c.left c.tally.comparisons c.left_le_last

/-- Where the right cursor stops in this round, and the comparisons up to then, if `count`
of them were made before it moved. -/
def rightStop (c : Scan s pivot) (count : Nat) : Nat × Nat :=
  descend c.buffer pivot s.lo c.right count (Segment.lt_of_mem c.right_mem)

theorem leftStop_mem (c : Scan s pivot) : c.leftStop.1 ∈ s :=
  ⟨Nat.le_trans c.left_mem.1 le_climb,
    Nat.lt_of_le_of_lt climb_le (Nat.sub_one_lt_of_lt c.left_mem.2)⟩

theorem rightStop_mem (c : Scan s pivot) (count : Nat) : (c.rightStop count).1 ∈ s :=
  ⟨le_descend c.right_mem.1, Nat.lt_of_le_of_lt descend_le c.right_mem.2⟩

/-- The left cursor moves in every round. -/
theorem left_lt_leftStop (c : Scan s pivot) (h : ¬ c.Over) : c.left < c.leftStop.1 := by
  have hlt : c.left < c.right := Nat.lt_of_not_le h
  exact lt_climb (Nat.lt_of_lt_of_le hlt (Nat.le_sub_one_of_lt c.right_mem.2))
    (c.left_le_pivot hlt)

/-- One round: both cursors move, then the values under them change places unless the
cursors have met. -/
def round (c : Scan s pivot) : Scan s pivot :=
  let up := c.leftStop
  let down := c.rightStop up.2
  have hup : up.1 ∈ s := c.leftStop_mem
  have hdown : down.1 ∈ s := c.rightStop_mem up.2
  have hi : up.1 < n := Segment.lt_of_mem hup
  have hj : down.1 < n := Segment.lt_of_mem hdown
  if h : up.1 < down.1 then
    { buffer := c.buffer.swap up.1 down.1 hi hj
      left := up.1
      right := down.1
      tally := { c.tally with comparisons := down.2, swaps := c.tally.swaps + 1 }
      left_mem := hup
      right_mem := hdown
      left_le_pivot := fun _ => by
        change (c.buffer.swap up.1 down.1 hi hj)[up.1] ≤ pivot
        rw [Vector.getElem_swap_left]
        exact getElem_descend_le hj rfl (Nat.lt_of_le_of_lt hup.1 h) }
  else
    { buffer := c.buffer
      left := up.1
      right := down.1
      tally := { c.tally with comparisons := down.2 }
      left_mem := hup
      right_mem := hdown
      left_le_pivot := fun hlt => absurd hlt h }

theorem left_round (c : Scan s pivot) : c.round.left = c.leftStop.1 := by
  simp only [round]
  split <;> rfl

def run (c : Scan s pivot) : Scan s pivot :=
  if c.Over then c else c.round.run
termination_by s.hi - c.left
decreasing_by
  rename_i h
  have := c.left_lt_leftStop h
  have := c.round.left_mem.2
  rw [left_round] at *
  omega

end Scan

end Quicksort
