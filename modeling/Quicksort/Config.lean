/-
  What a caller chooses: how the pivot of a segment is picked, and in which
  order the two sides of a partition are worked on.
-/

namespace Quicksort

/-- How the pivot of a segment is picked. -/
inductive PivotRule where
  /-- The value in the first slot. -/
  | firstSlot
  /-- The median of the values in the first, middle and last slot. -/
  | medianOfThree
  /-- The value in a slot drawn at random. -/
  | random
  deriving DecidableEq, Repr

/-- In which order the two sides of a partition are worked on. -/
inductive Schedule where
  /-- The left side, then the right side, each nested one deeper. -/
  | leftFirst
  /-- The smaller side nested one deeper, then the larger at the same depth. -/
  | smallerFirst
  /-- As `smallerFirst`, with the sides that still wait on an explicit stack. -/
  | workStack
  deriving DecidableEq, Repr

namespace PivotRule

def label : PivotRule → String
  | firstSlot => "first_element"
  | medianOfThree => "median_of_three"
  | random => "random"

def all : List PivotRule := [firstSlot, medianOfThree, random]

def ofLabel? (label : String) : Option PivotRule := all.find? (·.label == label)

theorem ofLabel?_label (r : PivotRule) : ofLabel? r.label = some r := by
  cases r <;> decide

end PivotRule

namespace Schedule

def label : Schedule → String
  | leftFirst => "two_way"
  | smallerFirst => "smaller_first"
  | workStack => "work_stack"

def all : List Schedule := [leftFirst, smallerFirst, workStack]

def ofLabel? (label : String) : Option Schedule := all.find? (·.label == label)

theorem ofLabel?_label (s : Schedule) : ofLabel? s.label = some s := by
  cases s <;> decide

end Schedule

/-- A pivot rule and a schedule. The default nests at most logarithmically deep. -/
structure Config where
  pivot : PivotRule := .firstSlot
  schedule : Schedule := .smallerFirst
  deriving DecidableEq, Repr, Inhabited

namespace Config

/-- The pivot rule's label and the schedule's, joined by a slash. -/
def name (cfg : Config) : String := cfg.pivot.label ++ "/" ++ cfg.schedule.label

/-- Every combination, by pivot rule first. -/
def all : List Config :=
  PivotRule.all.flatMap fun pivot => Schedule.all.map fun schedule => { pivot, schedule }

theorem mem_all (cfg : Config) : cfg ∈ all := by
  obtain ⟨pivot, schedule⟩ := cfg
  cases pivot <;> cases schedule <;> decide

end Config

end Quicksort
