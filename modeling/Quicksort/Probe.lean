import Quicksort.Sort

/-
  Probes: the single steps of the sort, taken one after the other on segments of
  one buffer and in one session.

  A median and a partition need a value, and a split needs two. In a shorter
  segment such a probe finds nothing and changes nothing.
-/

namespace Quicksort

variable {n : Nat}

/-- A step of the sort. -/
inductive Probe where
  /-- Finds the median of the values in the first, middle and last slot. -/
  | median
  /-- Picks a pivot and brings it to the first slot. -/
  | placePivot (rule : PivotRule)
  /-- Partitions around the value in the first slot. -/
  | partition
  /-- Picks a pivot and partitions around it. -/
  | split (rule : PivotRule)
  /-- Sorts the segment. -/
  | sort (cfg : Config)
  deriving DecidableEq, Repr

/-- What a probe finds in a segment, the state apart. -/
inductive Finding where
  | nothing
  /-- A slot, counted from the start of the segment. -/
  | offset (k : Nat)
  /-- The values on the two sides of a cut. -/
  | sides (left right : List Int32)
  deriving DecidableEq, Repr

def Probe.run (p : Probe) (s : Segment n) (st : State n) : Finding × State n :=
  match p with
  | placePivot rule => (.nothing, Quicksort.placePivot rule s st)
  | sort cfg => (.nothing, sortSegment cfg s st)
  | median =>
    if h : 0 < s.size then
      let (k, tally) := medianOffset st.buffer s h st.session.tally
      (.offset k, { st with session := { st.session with tally } })
    else (.nothing, st)
  | partition =>
    if h : 0 < s.size then
      let (cut, st) := Quicksort.partition s h st
      (.offset cut.offset, st)
    else (.nothing, st)
  | split rule =>
    if h : 2 ≤ s.size then
      let (cut, st) := Quicksort.split rule s h st
      (.sides (slice st.buffer cut.left) (slice st.buffer cut.right), st)
    else (.nothing, st)

/-- A step of an experiment: a probe of a segment, or a new session. -/
inductive Experiment.Step (n : Nat) where
  | probe (p : Probe) (s : Segment n)
  | renew
  deriving DecidableEq, Repr

namespace Experiment

/-- Takes one step. A new session leaves the buffer as it is. -/
def Step.run (step : Step n) (st : State n) : Finding × State n :=
  match step with
  | probe p s => p.run s st
  | renew => (.nothing, { st with session := .fresh })

/-- What each step finds, with the state after it. -/
def run : List (Step n) → State n → List (Finding × State n)
  | [], _ => []
  | step :: steps, st =>
    let (finding, st) := step.run st
    (finding, st) :: run steps st

end Experiment

end Quicksort
