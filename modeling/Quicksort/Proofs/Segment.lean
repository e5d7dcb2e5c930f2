import Quicksort.Segment

/-
  Slots and slices.

  The sides of a cut lie in its segment and have no slot in common
  (`Cut.not_mem_right_of_mem_left`). What a slice holds can be said slot by
  slot: `pairwise_slice_iff` for its order and `slice_eq_iff` for its values. A
  buffer is what stands before a segment, its slice, and what stands after it
  (`toList_eq_append`).
-/

namespace Quicksort

variable {n : Nat} {s : Segment n}

attribute [ext] Cut

namespace Cut

variable {c : Cut s} {k : Nat}

theorem mem_of_mem_left (h : k ∈ c.left) : k ∈ s :=
  ⟨h.1, Nat.lt_trans h.2 c.mem.2⟩

theorem mem_of_mem_right (h : k ∈ c.right) : k ∈ s :=
  ⟨Nat.le_trans c.mem.1 (Nat.le_of_succ_le h.1), h.2⟩

theorem not_mem_right_of_mem_left (h : k ∈ c.left) : k ∉ c.right :=
  fun h' => Nat.lt_asymm h.2 h'.1

theorem slot_not_mem_left : c.slot ∉ c.left :=
  fun h => Nat.lt_irrefl _ h.2

theorem slot_not_mem_right : c.slot ∉ c.right :=
  fun h => Nat.lt_irrefl _ h.1

def index (c : Cut s) : Fin n := ⟨c.slot, Segment.lt_of_mem c.mem⟩

@[simp] theorem val_index : (c.index : Nat) = c.slot := rfl

end Cut

theorem Segment.lo_add_mem (s : Segment n) (k : Fin s.size) : s.lo + k ∈ s :=
  ⟨Nat.le_add_right .., by have := k.isLt; have := s.lo_add_size; omega⟩

theorem Segment.eq_of_mem_of_size_lt_two {i j : Nat} (h : s.size < 2) (hi : i ∈ s) (hj : j ∈ s) :
    i = j := by
  have := hi.1
  have := hi.2
  have := hj.1
  have := hj.2
  simp only [Segment.size] at h
  omega

section Slice

variable {xs ys : Vector Int32 n}

theorem get_eq (xs : Vector Int32 n) (k : Fin n) : xs.get k = xs[k.val] := rfl

theorem swap_self (xs : Vector Int32 n) {i : Nat} (hi : i < n) : xs.swap i i hi hi = xs := by
  ext k hk
  rw [Vector.getElem_swap]
  split
  next heq => simp only [heq]
  next => rfl

theorem get_swap_of_ne (xs : Vector Int32 n) {i j k : Fin n} (hki : k ≠ i) (hkj : k ≠ j) :
    (xs.swap i j).get k = xs.get k :=
  Vector.getElem_swap_of_ne (fun he => hki (Fin.ext he)) (fun he => hkj (Fin.ext he))

theorem getElem_slice (xs : Vector Int32 n) (s : Segment n) {i : Nat}
    (h : i < (slice xs s).length) :
    (slice xs s)[i] = xs.get ⟨s.lo + i, s.lo_add_lt ⟨i, by simpa using h⟩⟩ := by
  simp [slice, get_eq, List.getElem_take, List.getElem_drop]

theorem size_of_slice {l : List Int32} (h : slice xs s = l) : s.size = l.length := by
  rw [← h, length_slice]

theorem slice_eq_cons (xs : Vector Int32 n) (h : 0 < s.size) :
    slice xs s = xs.get ⟨s.lo, s.lo_lt h⟩ :: (slice xs s).tail := by
  have hlength : 0 < (slice xs s).length := by simpa using h
  have hhead : (slice xs s)[0] = xs.get ⟨s.lo, s.lo_lt h⟩ := getElem_slice xs s hlength
  rw [← hhead, List.getElem_zero, List.cons_head_tail]

theorem slice_eq_ofFn (xs : Vector Int32 n) (s : Segment n) :
    slice xs s = List.ofFn fun k : Fin s.size => xs.get ⟨s.lo + k, s.lo_add_lt k⟩ := by
  apply List.ext_getElem (by simp)
  intro i hi _
  rw [getElem_slice xs s hi, List.getElem_ofFn]

theorem exists_of_mem_slice {x : Int32} (h : x ∈ slice xs s) :
    ∃ k : Fin n, ↑k ∈ s ∧ xs.get k = x := by
  obtain ⟨i, hi, rfl⟩ := List.getElem_of_mem h
  have hlt : i < s.size := by simpa using hi
  exact ⟨⟨s.lo + i, s.lo_add_lt ⟨i, hlt⟩⟩, s.lo_add_mem ⟨i, hlt⟩, (getElem_slice xs s hi).symm⟩

theorem getElem?_slice (xs : Vector Int32 n) {k : Fin n} (hk : ↑k ∈ s) :
    (slice xs s)[k - s.lo]? = some (xs.get k) := by
  have hsize := s.lo_add_size
  have hlt : k - s.lo < (slice xs s).length := by
    have hlo := hk.1
    have hhi := hk.2
    rw [length_slice]
    omega
  rw [List.getElem?_eq_getElem hlt, getElem_slice xs s hlt]
  exact congrArg (fun k => some (xs.get k)) (Fin.ext (Nat.add_sub_cancel' hk.1))

theorem get_mem_slice {k : Fin n} (hk : ↑k ∈ s) : xs.get k ∈ slice xs s :=
  List.mem_of_getElem? (getElem?_slice xs hk)

theorem slice_eq_append_cons (xs : Vector Int32 n) (c : Cut s) :
    slice xs s = slice xs c.left ++ xs.get c.index :: slice xs c.right := by
  have hsize : s.size = c.left.size + (c.right.size + 1) := c.size_left_add_size_right.symm
  have hslot : c.slot < xs.toList.length := by
    simpa using Segment.lt_of_mem c.mem
  have hdrop : (xs.toList.drop s.lo).drop c.left.size = xs.toList.drop c.slot := by
    rw [List.drop_drop]
    exact congrArg (xs.toList.drop ·) c.left.lo_add_size
  rw [slice, hsize, List.take_add, hdrop, List.drop_eq_getElem_cons hslot, List.take_succ_cons]
  rfl

theorem toList_eq_append (xs : Vector Int32 n) (s : Segment n) :
    xs.toList = xs.toList.take s.lo ++ (slice xs s ++ xs.toList.drop s.hi) := by
  have hdrop : xs.toList.drop s.hi = (xs.toList.drop s.lo).drop s.size := by
    rw [List.drop_drop, s.lo_add_size]
  rw [hdrop, slice, List.take_append_drop, List.take_append_drop]

theorem slice_eq_iff : slice xs s = slice ys s ↔ ∀ k : Fin n, ↑k ∈ s → xs.get k = ys.get k := by
  constructor
  · intro h k hk
    have hlt : k - s.lo < s.size := Nat.sub_lt_sub_right hk.1 hk.2
    have hx := getElem_slice xs s (i := k - s.lo) (by simpa using hlt)
    have hy := getElem_slice ys s (i := k - s.lo) (by simpa using hlt)
    have he : (⟨s.lo + (k - s.lo), s.lo_add_lt ⟨k - s.lo, hlt⟩⟩ : Fin n) = k :=
      Fin.ext (Nat.add_sub_cancel' hk.1)
    rw [he] at hx hy
    rw [← hx, ← hy]
    simp only [h]
  · intro h
    apply List.ext_getElem (by simp)
    intro i hi hi'
    rw [getElem_slice xs s hi, getElem_slice ys s hi']
    have hlt : i < s.size := by simpa using hi
    exact h _ ⟨Nat.le_add_right .., by have := s.lo_add_size; simp only; omega⟩

theorem pairwise_slice_iff :
    (slice xs s).Pairwise (· ≤ ·) ↔
      ∀ i j : Fin n, ↑i ∈ s → ↑j ∈ s → i ≤ j → xs.get i ≤ xs.get j := by
  rw [List.pairwise_iff_getElem]
  constructor
  · intro h i j hi hj hij
    rcases Nat.lt_or_eq_of_le hij with hlt | heq
    · have hi' := hi.1
      have hj' := hj.2
      have hsize := s.lo_add_size
      have hpair := h (i - s.lo) (j - s.lo) (by simp; omega) (by simp; omega) (by omega)
      rw [getElem_slice, getElem_slice] at hpair
      simpa [Nat.add_sub_cancel' hi.1, Nat.add_sub_cancel' hj.1] using hpair
    · -- The list speaks of two different places, the slots may be one.
      rw [Fin.ext heq]
      exact Int32.le_refl _
  · intro h i j hi hj hij
    rw [getElem_slice xs s hi, getElem_slice xs s hj]
    rw [length_slice] at hi hj
    have hsize := s.lo_add_size
    refine h _ _ ⟨?_, ?_⟩ ⟨?_, ?_⟩ ?_ <;> simp only [Fin.mk_le_mk] <;> omega

end Slice

end Quicksort
