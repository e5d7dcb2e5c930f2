import Quicksort.Range
import Quicksort.Schedule.Recursive
import Quicksort.Schedule.Stack

/-
  Sorting in ascending order: a segment of a state, a range of a buffer, or a
  whole buffer.

  `sortSegment` goes on with the session it is given. `sortWith`, `sort` and
  `sortAll` start a fresh one, so what they return depends on their arguments
  alone. A range is checked before the buffer is touched.
-/

namespace Quicksort

variable {n : Nat}

/-- Sorts a segment and leaves every other slot as it is. -/
def sortSegment (cfg : Config) (s : Segment n) (st : State n) : State n :=
  match cfg.schedule with
  | .leftFirst => sortLeftFirst cfg.pivot 1 s st
  | .smallerFirst => sortSmallerFirst cfg.pivot 1 s st
  | .workStack => sortWorkStack cfg.pivot s st

theorem sortSegment_of_size_lt_two (cfg : Config) {s : Segment n} (st : State n)
    (h : s.size < 2) : sortSegment cfg s st = st := by
  have hn : ¬ 2 ≤ s.size := Nat.not_le.mpr h
  simp only [sortSegment]
  split
  · rw [sortLeftFirst, dif_neg hn]
  · rw [sortSmallerFirst, dif_neg hn]
  · rw [sortWorkStack, Agenda.run, if_pos ⟨h, rfl⟩]

/-- A buffer after a sort, and the work that it took. -/
structure Outcome where
  buffer : Array Int32
  tally : Tally
  deriving DecidableEq, Repr

/-- Sorts a segment of a buffer in a fresh session. -/
def sortFresh (cfg : Config) (xs : Array Int32) (s : Segment xs.size) : Outcome :=
  let st := sortSegment cfg s { buffer := xs.toVector, session := .fresh }
  { buffer := st.buffer.toArray, tally := st.session.tally }

/-- Sorts the slots from `first` to `last`, both included. -/
def sortWith (cfg : Config) (xs : Array Int32) (first last : Nat) : Except RangeError Outcome :=
  (Segment.ofRange xs.size first last).map (sortFresh cfg xs)

/-- Sorts the slots from `first` to `last`, both included, with the default configuration. -/
def sort (xs : Array Int32) (first last : Nat) : Except RangeError (Array Int32) :=
  (sortWith {} xs first last).map Outcome.buffer

def sortAll (cfg : Config) (xs : Array Int32) : Outcome :=
  sortFresh cfg xs (.whole xs.size)

end Quicksort
