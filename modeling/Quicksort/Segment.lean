/-
  Segments: half-open ranges of slots of a buffer.

  The sort works in place on one buffer and never copies a part of it, so a
  part is named by its bounds. The bounds are in order and inside the buffer by
  construction, which makes every slot of a segment a valid index.

  `slice` is the view through which statements about a segment are made: the
  values that stand in it, from left to right. `Cut` is a slot of a segment
  together with the two segments on its sides.
-/

namespace Quicksort

/-- The slots `lo, …, hi - 1` of a buffer of length `n`. -/
structure Segment (n : Nat) where
  lo : Nat
  hi : Nat
  lo_le_hi : lo ≤ hi := by omega
  hi_le : hi ≤ n := by omega
  deriving DecidableEq, Repr

namespace Segment

variable {n : Nat}

def size (s : Segment n) : Nat := s.hi - s.lo

def whole (n : Nat) : Segment n where
  lo := 0
  hi := n

/-- The segment with the given bounds, if they are in order and inside the buffer. -/
def ofBounds? (n lo hi : Nat) : Option (Segment n) :=
  if h : lo ≤ hi ∧ hi ≤ n then some { lo, hi, lo_le_hi := h.1, hi_le := h.2 } else none

instance : Membership Nat (Segment n) where
  mem s k := s.lo ≤ k ∧ k < s.hi

instance (k : Nat) (s : Segment n) : Decidable (k ∈ s) :=
  inferInstanceAs (Decidable (s.lo ≤ k ∧ k < s.hi))

theorem mem_iff {k : Nat} {s : Segment n} : k ∈ s ↔ s.lo ≤ k ∧ k < s.hi := Iff.rfl

theorem lt_of_mem {k : Nat} {s : Segment n} (h : k ∈ s) : k < n :=
  Nat.lt_of_lt_of_le h.2 s.hi_le

@[simp] theorem size_whole : (whole n).size = n := rfl

theorem lo_add_size (s : Segment n) : s.lo + s.size = s.hi := by
  have := s.lo_le_hi
  simp only [size]; omega

theorem lo_add_lt (s : Segment n) (k : Fin s.size) : s.lo + k < n := by
  have := k.isLt
  have := s.lo_add_size
  have := s.hi_le
  omega

theorem lo_mem {s : Segment n} (h : 0 < s.size) : s.lo ∈ s :=
  ⟨Nat.le_refl _, Nat.lt_of_sub_pos h⟩

theorem hi_sub_one_mem {s : Segment n} (h : 0 < s.size) : s.hi - 1 ∈ s :=
  have hlt : s.lo < s.hi := Nat.lt_of_sub_pos h
  ⟨Nat.le_sub_one_of_lt hlt, Nat.sub_one_lt_of_lt hlt⟩

theorem lo_lt (s : Segment n) (h : 0 < s.size) : s.lo < n := s.lo_add_lt ⟨0, h⟩

end Segment

/-- The values that stand in a segment, from left to right. -/
def slice {n : Nat} (xs : Vector Int32 n) (s : Segment n) : List Int32 :=
  (xs.toList.drop s.lo).take s.size

@[simp] theorem length_slice {n : Nat} (xs : Vector Int32 n) (s : Segment n) :
    (slice xs s).length = s.size := by
  have := s.lo_le_hi
  have := s.hi_le
  simp only [slice, Segment.size, List.length_take, List.length_drop, Vector.length_toList]
  omega

@[simp] theorem slice_whole {n : Nat} (xs : Vector Int32 n) :
    slice xs (Segment.whole n) = xs.toList := by
  simp [slice, Segment.whole, Segment.size, List.take_of_length_le]

/-- A slot of a segment, and with it the segments left and right of that slot. -/
structure Cut {n : Nat} (s : Segment n) where
  slot : Nat
  mem : slot ∈ s

namespace Cut

variable {n : Nat} {s : Segment n}

def left (c : Cut s) : Segment n where
  lo := s.lo
  hi := c.slot
  lo_le_hi := c.mem.1
  hi_le := Nat.le_trans (Nat.le_of_lt c.mem.2) s.hi_le

def right (c : Cut s) : Segment n where
  lo := c.slot + 1
  hi := s.hi
  lo_le_hi := c.mem.2
  hi_le := s.hi_le

/-- The position of the cut counted from the start of the segment. -/
def offset (c : Cut s) : Nat := c.slot - s.lo

/-- Only the slot itself is lost. -/
theorem size_left_add_size_right (c : Cut s) : c.left.size + c.right.size + 1 = s.size := by
  have := c.mem.1
  have := c.mem.2
  simp only [left, right, Segment.size]
  omega

theorem size_left_lt (c : Cut s) : c.left.size < s.size := by
  have := c.size_left_add_size_right
  omega

theorem size_right_lt (c : Cut s) : c.right.size < s.size := by
  have := c.size_left_add_size_right
  omega

end Cut

end Quicksort
