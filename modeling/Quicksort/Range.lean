import Quicksort.Segment

/-
  Ranges of slots as callers give them: a first and a last slot, both included.

  A range whose last slot comes before its first is empty and fits every
  buffer. Any other range fits if its last slot is a slot of the buffer.
-/

namespace Quicksort

/-- The range does not fit into the buffer. -/
structure RangeError where
  first : Nat
  last : Nat
  /-- The length of the buffer. -/
  length : Nat
  deriving DecidableEq, Repr

def RangeError.message (e : RangeError) : String :=
  s!"Range [{e.first}, {e.last}] out of bounds for buffer of length {e.length}"

namespace Segment

/-- The slots from `first` to `last` of a buffer of length `n`. All empty ranges are the
same segment. -/
def ofRange (n first last : Nat) : Except RangeError (Segment n) :=
  if hle : first ≤ last then
    if hlt : last < n then .ok { lo := first, hi := last + 1 }
    else .error { first, last, length := n }
  else .ok { lo := 0, hi := 0 }

/-- A range is refused exactly if it is not empty and ends outside the buffer, and the error
names the range and the length. -/
theorem ofRange_eq_error_iff {n first last : Nat} {e : RangeError} :
    ofRange n first last = .error e ↔ first ≤ last ∧ n ≤ last ∧ e = ⟨first, last, n⟩ := by
  by_cases hle : first ≤ last
  · by_cases hlt : last < n
    · simp [ofRange, hle, hlt, Nat.not_le.mpr hlt]
    · simp [ofRange, hle, hlt, Nat.le_of_not_lt hlt, eq_comm]
  · simp [ofRange, hle]

theorem ofRange_of_le {n first last : Nat} (hle : first ≤ last) (hlt : last < n) :
    ofRange n first last = .ok { lo := first, hi := last + 1 } := by
  simp [ofRange, hle, hlt]

theorem size_lt_two_of_ofRange {n first last : Nat} {s : Segment n}
    (h : ofRange n first last = .ok s) (hle : last ≤ first) : s.size < 2 := by
  simp only [ofRange] at h
  split at h
  · split at h
    · cases h
      simp only [size]
      omega
    · cases h
  · cases h
    exact Nat.zero_lt_two

end Segment

end Quicksort
