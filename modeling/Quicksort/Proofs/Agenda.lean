import Quicksort.Sort

/-
  The explicit stack does what the recursion does.

  A waiting segment is one that the recursion would come back to: with `k`
  segments waiting below it, it is sorted at depth `k + 1`. So an agenda stands
  for a list of recursive sorts still to be made, the current segment first and
  then the waiting ones from the front (`Agenda.drain`). Every step of the agenda
  keeps what that list of sorts leads to (`Agenda.drain_step`), which gives the
  same buffer, the same counters, the same depth and the same draws in the end.
-/

namespace Quicksort

variable {n : Nat} {rule : PivotRule} {depth : Nat} {s : Segment n} {st st' : State n} {cut : Cut s}

/-! ## Recursive sorts, unfolded once -/

theorem sortSmallerFirst_of_lt_two (h : ¬ 2 ≤ s.size) :
    sortSmallerFirst rule depth s st = st := by
  rw [sortSmallerFirst, dif_neg h]

theorem sortSmallerFirst_of_left_smaller (h : 2 ≤ s.size)
    (hs : split rule s h (st.reach depth) = (cut, st')) (hlt : cut.left.size < cut.right.size) :
    sortSmallerFirst rule depth s st =
      sortSmallerFirst rule depth cut.right (sortSmallerFirst rule (depth + 1) cut.left st') := by
  rw [sortSmallerFirst, dif_pos h, hs]
  exact if_pos hlt

theorem sortSmallerFirst_of_right_smaller (h : 2 ≤ s.size)
    (hs : split rule s h (st.reach depth) = (cut, st')) (hge : ¬ cut.left.size < cut.right.size) :
    sortSmallerFirst rule depth s st =
      sortSmallerFirst rule depth cut.left (sortSmallerFirst rule (depth + 1) cut.right st') := by
  rw [sortSmallerFirst, dif_pos h, hs]
  exact if_neg hge

/-! ## The agenda -/

namespace Agenda

/-- Sorts the segments of a stack from the front, each one level less deep than the one
before it. -/
def drain (rule : PivotRule) : List (Segment n) → State n → State n
  | [], st => st
  | s :: rest, st => drain rule rest (sortSmallerFirst rule (rest.length + 1) s st)

/-- What an agenda still has to do leads to the same state after a step. -/
theorem drain_step (rule : PivotRule) (a : Agenda n) (hd : ¬ a.Done) :
    drain rule ((a.step rule).current :: (a.step rule).pending) (a.step rule).state =
      drain rule (a.current :: a.pending) a.state := by
  obtain ⟨st, s, pending⟩ := a
  -- A split opens the first recursive sort; any other step finishes one that does nothing.
  by_cases h : 2 ≤ s.size
  · obtain ⟨cut, st', hs⟩ :
        ∃ cut st', split rule s h (st.reach (pending.length + 1)) = (cut, st') := ⟨_, _, rfl⟩
    simp only [step, dif_pos h, hs, descendInto]
    by_cases hlt : cut.left.size < cut.right.size
    · rw [if_pos hlt]
      simp only [drain, List.length_cons]
      rw [sortSmallerFirst_of_left_smaller h hs hlt]
    · rw [if_neg hlt]
      simp only [drain, List.length_cons]
      rw [sortSmallerFirst_of_right_smaller h hs hlt]
  · cases pending with
    | nil => exact absurd ⟨Nat.lt_of_not_le h, rfl⟩ hd
    | cons next rest =>
      simp only [step, dif_neg h, drain]
      rw [sortSmallerFirst_of_lt_two h]

theorem run_eq_drain (rule : PivotRule) (a : Agenda n) :
    a.run rule = drain rule (a.current :: a.pending) a.state := by
  fun_induction Agenda.run rule a with
  | case1 a hd =>
    obtain ⟨hsize, hp⟩ := hd
    rw [hp, drain, drain, sortSmallerFirst_of_lt_two (Nat.not_le.mpr hsize)]
  | case2 a hd ih => rw [ih, drain_step rule a hd]

end Agenda

theorem sortWorkStack_eq (rule : PivotRule) (s : Segment n) (st : State n) :
    sortWorkStack rule s st = sortSmallerFirst rule 1 s st := by
  rw [sortWorkStack, Agenda.run_eq_drain]
  rfl

/-- Sorting with an explicit stack is sorting the smaller side first by recursion: from every
state both end in the same state, with the same buffer, the same tally and the same
generator. -/
theorem sortSegment_workStack_eq_smallerFirst (rule : PivotRule) (s : Segment n) (st : State n) :
    sortSegment { pivot := rule, schedule := .workStack } s st =
      sortSegment { pivot := rule, schedule := .smallerFirst } s st := by
  simp only [sortSegment]
  exact sortWorkStack_eq rule s st

end Quicksort
