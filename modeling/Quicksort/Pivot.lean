import Quicksort.Config
import Quicksort.Session

/-
  Picking the pivot of a segment and bringing it to the first slot.

  A pivot is picked as an offset from the start of the segment. The median of
  three compares the values in the first, middle and last slot, which are all
  the same slot in a segment of one; its first comparisons are always two, and
  a third is made where they leave two candidates. Below three values the
  median rule keeps the first slot and compares nothing.
-/

namespace Quicksort

variable {n : Nat}

/-- The offset of a median of the values in the first, middle and last slot. -/
def medianOffset (xs : Vector Int32 n) (s : Segment n) (h : 0 < s.size) (t : Tally) :
    Fin s.size × Tally :=
  let a : Fin s.size := ⟨0, h⟩
  let b : Fin s.size := ⟨s.size / 2, Nat.div_lt_self h (by decide)⟩
  let c : Fin s.size := ⟨s.size - 1, Nat.sub_one_lt_of_lt h⟩
  let value (k : Fin s.size) : Int32 := xs.get ⟨s.lo + k, s.lo_add_lt k⟩
  if value a < value b then
    if value b < value c then (b, t.addComparisons 2)
    else if value a < value c then (c, t.addComparisons 3)
    else (a, t.addComparisons 3)
  else
    if value a < value c then (a, t.addComparisons 2)
    else if value b < value c then (c, t.addComparisons 3)
    else (b, t.addComparisons 3)

/-- The offset that a rule picks in a segment that is not empty. -/
def pivotOffset (rule : PivotRule) (xs : Vector Int32 n) (s : Segment n) (h : 0 < s.size)
    (se : Session) : Fin s.size × Session :=
  match rule with
  | .firstSlot => (⟨0, h⟩, se)
  | .medianOfThree =>
    if s.size < 3 then (⟨0, h⟩, se)
    else
      let (k, tally) := medianOffset xs s h se.tally
      (k, { se with tally })
  | .random =>
    let (k, generator) := se.generator.belowFin s.size h
    (k, { se with generator })

/-- Brings the pivot that a rule picks to the first slot. An empty segment has none. -/
def placePivot (rule : PivotRule) (s : Segment n) (st : State n) : State n :=
  if h : 0 < s.size then
    let ⟨xs, se⟩ := st
    let (k, se) := pivotOffset rule xs s h se
    if k.val = 0 then { buffer := xs, session := se }
    else
      { buffer := xs.swap s.lo (s.lo + k) (s.lo_lt h) (s.lo_add_lt k)
        session := { se with tally := se.tally.addSwap } }
  else st

end Quicksort
