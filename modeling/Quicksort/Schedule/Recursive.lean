import Quicksort.Split

/-
  The two recursive schedules.

  `sortLeftFirst` nests both sides one deeper. `sortSmallerFirst` nests only the
  smaller side and goes on with the larger at the same depth; of two sides of
  equal size the right one is nested. Segments of fewer than two values are left
  alone and reach no depth. The size of the segment decreases in every call.
-/

namespace Quicksort

variable {n : Nat}

/-- Sorts the left side, then the right side. -/
def sortLeftFirst (rule : PivotRule) (depth : Nat) (s : Segment n) (st : State n) : State n :=
  if h : 2 ≤ s.size then
    let (cut, st) := split rule s h (st.reach depth)
    let st := sortLeftFirst rule (depth + 1) cut.left st
    sortLeftFirst rule (depth + 1) cut.right st
  else st
termination_by s.size
decreasing_by
  · exact cut.size_left_lt
  · exact cut.size_right_lt

/-- Sorts the smaller side, then the larger. -/
def sortSmallerFirst (rule : PivotRule) (depth : Nat) (s : Segment n) (st : State n) : State n :=
  if h : 2 ≤ s.size then
    let (cut, st) := split rule s h (st.reach depth)
    if cut.left.size < cut.right.size then
      let st := sortSmallerFirst rule (depth + 1) cut.left st
      sortSmallerFirst rule depth cut.right st
    else
      let st := sortSmallerFirst rule (depth + 1) cut.right st
      sortSmallerFirst rule depth cut.left st
  else st
termination_by s.size
decreasing_by
  · exact cut.size_left_lt
  · exact cut.size_right_lt
  · exact cut.size_right_lt
  · exact cut.size_left_lt

end Quicksort
