import Quicksort.Proofs.Cost

/-
  Which pivot a split chooses, and what the split leaves.

  The rules differ in the slot that they choose (`PivotRule.Picks`): the first
  one; the middle one of three values, where of equal values any may be the
  middle one (`medianOffset_isMedian`); or one that is drawn from all of them.
  From there on they agree. The chosen value is brought to the first slot
  (`buffer_placePivot`) and divides the segment: smaller and equal values left
  of it, greater ones right of it (`split_divides_at_choice`).
-/

namespace Quicksort

variable {n : Nat} {s : Segment n} {xs : Vector Int32 n}

/-! ## The choice -/

theorem Segment.half_size_lt (s : Segment n) (h : 0 < s.size) : s.size / 2 < s.size :=
  Nat.div_lt_self h Nat.one_lt_two

theorem Segment.size_sub_one_lt (s : Segment n) (h : 0 < s.size) : s.size - 1 < s.size :=
  Nat.sub_one_lt_of_lt h

/-- The value at offset `k` of the segment is a median of the values in the first, the middle
and the last slot: one of the two other values is at most it, and the other is at least it. -/
def IsMedian (s : Segment n) (h : 0 < s.size) (xs : Vector Int32 n) (k : Fin s.size) : Prop :=
  ∃ i j : Fin s.size,
    [i, k, j].Perm
      [⟨0, h⟩, ⟨s.size / 2, s.half_size_lt h⟩, ⟨s.size - 1, s.size_sub_one_lt h⟩] ∧
    xs.get ⟨s.lo + i, s.lo_add_lt i⟩ ≤ xs.get ⟨s.lo + k, s.lo_add_lt k⟩ ∧
    xs.get ⟨s.lo + k, s.lo_add_lt k⟩ ≤ xs.get ⟨s.lo + j, s.lo_add_lt j⟩

/-- What is asked of the offset `k` that a rule picks from a segment, with the generator `g` to
draw from. A random offset is the bounded draw, that is the upper half of the product of the
size with a 64-bit number. -/
def PivotRule.Picks (rule : PivotRule) (s : Segment n) (h : 0 < s.size) (xs : Vector Int32 n)
    (g : Generator) (k : Fin s.size) : Prop :=
  match rule with
  | .firstSlot => k.val = 0
  | .medianOfThree => if s.size < 3 then k.val = 0 else IsMedian s h xs k
  | .random =>
    k.val = (g.below s.size).1 ∧
      (s.size < UInt32.size →
        k.val = (g.next.1.toNat * UInt32.size + g.next.2.next.1.toNat) * s.size /
          UInt32.size / UInt32.size)

theorem medianOffset_isMedian (h : 0 < s.size) (xs : Vector Int32 n) (t : Tally) :
    IsMedian s h xs (medianOffset xs s h t).1 := by
  let a : Fin s.size := ⟨0, h⟩
  let b : Fin s.size := ⟨s.size / 2, s.half_size_lt h⟩
  let c : Fin s.size := ⟨s.size - 1, s.size_sub_one_lt h⟩
  have hacb : [a, c, b].Perm [a, b, c] := .cons a (.swap b c [])
  have hcab : [c, a, b].Perm [a, b, c] := .trans (.swap a c [b]) hacb
  have hbac : [b, a, c].Perm [a, b, c] := .swap a b [c]
  have hbca : [b, c, a].Perm [a, b, c] := .trans (.cons b (.swap a c [])) hbac
  have hcba : [c, b, a].Perm [a, b, c] := .trans (.swap b c [a]) hbca
  -- One case for each leaf of the decision, with the order that its comparisons leave.
  unfold medianOffset
  dsimp only
  split
  next hab =>
    split
    next hbc => exact ⟨a, c, .refl _, Int32.le_of_lt hab, Int32.le_of_lt hbc⟩
    next hcb =>
      split
      next hac => exact ⟨a, b, hacb, Int32.le_of_lt hac, Int32.not_lt.mp hcb⟩
      next hca => exact ⟨c, b, hcab, Int32.not_lt.mp hca, Int32.le_of_lt hab⟩
  next hba =>
    split
    next hac => exact ⟨b, c, hbac, Int32.not_lt.mp hba, Int32.le_of_lt hac⟩
    next hca =>
      split
      next hbc => exact ⟨b, a, hbca, Int32.le_of_lt hbc, Int32.not_lt.mp hca⟩
      next hcb => exact ⟨c, a, hcba, Int32.not_lt.mp hcb, Int32.not_lt.mp hba⟩

theorem pivotOffset_picks (rule : PivotRule) (h : 0 < s.size) (xs : Vector Int32 n)
    (se : Session) : rule.Picks s h xs se.generator (pivotOffset rule xs s h se).1 := by
  cases rule with
  | firstSlot => rfl
  | medianOfThree =>
    by_cases hsize : s.size < 3
    · simp only [PivotRule.Picks, pivotOffset, if_pos hsize]
    · simp only [PivotRule.Picks, pivotOffset, if_neg hsize]
      exact medianOffset_isMedian h xs se.tally
  | random =>
    refine ⟨rfl, ?_⟩
    intro hsize
    exact se.generator.below_eq h (Nat.le_of_lt hsize)

/-! ## The split -/

theorem buffer_placePivot (rule : PivotRule) (h : 0 < s.size) (st : State n) {k : Fin s.size}
    (hk : (pivotOffset rule st.buffer s h st.session).1 = k) :
    (placePivot rule s st).buffer =
      st.buffer.swap s.lo (s.lo + k) (s.lo_lt h) (s.lo_add_lt k) := by
  subst hk
  simp only [placePivot, dif_pos h]
  split
  next hfirst =>
    simp only [hfirst, Nat.add_zero]
    exact (swap_self st.buffer _).symm
  next => rfl

theorem get_index_split (rule : PivotRule) (h : 2 ≤ s.size) (st : State n) {k : Fin s.size}
    (hk : (pivotOffset rule st.buffer s (Nat.zero_lt_of_lt h) st.session).1 = k) :
    (split rule s h st).2.buffer.get (split rule s h st).1.index =
      st.buffer.get ⟨s.lo + k, s.lo_add_lt k⟩ := by
  have hpos : 0 < s.size := Nat.zero_lt_of_lt h
  calc (split rule s h st).2.buffer.get (split rule s h st).1.index
      = (placePivot rule s st).buffer.get ⟨s.lo, s.lo_lt hpos⟩ := get_index_partition hpos _
    _ = st.buffer.get ⟨s.lo + k, s.lo_add_lt k⟩ := by
      rw [buffer_placePivot rule hpos st hk]
      exact Vector.getElem_swap_left ..

/-- Every split of at least two values. The pivot is the value `p` at an offset that the rule may
pick. The segment keeps its values and afterwards consists of the left side, the pivot and the
right side; no value on the left is greater than the pivot and every value on the right is. No
slot outside the segment changes, the generator moves only to draw a random pivot, and one
partition is counted at no new depth. -/
theorem split_divides_at_choice (rule : PivotRule) (s : Segment n) (h : 2 ≤ s.size)
    (st : State n) :
    let hpos := Nat.zero_lt_of_lt h
    let k := (pivotOffset rule st.buffer s hpos st.session).1
    let p := st.buffer.get ⟨s.lo + k, s.lo_add_lt k⟩
    let c := (split rule s h st).1
    let st' := (split rule s h st).2
    rule.Picks s hpos st.buffer st.session.generator k ∧
      (slice st'.buffer s).Perm (slice st.buffer s) ∧
      slice st'.buffer s = slice st'.buffer c.left ++ p :: slice st'.buffer c.right ∧
      (slice st'.buffer c.left).length + 1 + (slice st'.buffer c.right).length = s.size ∧
      (∀ x ∈ slice st'.buffer c.left, x ≤ p) ∧ (∀ x ∈ slice st'.buffer c.right, p < x) ∧
      (∀ j : Fin n, ↑j ∉ s → st'.buffer.get j = st.buffer.get j) ∧
      st'.session.generator = rule.advance s.size st.session.generator ∧
      st'.session.tally.partitions = st.session.tally.partitions + 1 ∧
      st'.session.tally.maxDepth = st.session.tally.maxDepth := by
  intro hpos k p c st'
  have hpivot : st'.buffer.get c.index = p := get_index_split rule h st rfl
  have hdivided : Divided c st'.buffer := divided_split rule h st
  have hsize := c.size_left_add_size_right
  obtain ⟨σ, hσ⟩ := split_rearranges rule h st
  obtain ⟨w, hw, ht⟩ := split_work (Prod.mk.eta (p := split rule s h st)).symm
  refine ⟨pivotOffset_picks rule hpos st.buffer st.session, hσ.perm_slice, ?_, ?_, ?_, ?_, ?_,
    generator_split rule h st, ?_, ?_⟩
  · rw [← hpivot]
    exact slice_eq_append_cons st'.buffer c
  · rw [length_slice, length_slice]
    omega
  · intro x hx
    rw [← hpivot]
    exact hdivided.le_of_mem_left hx
  · intro x hx
    rw [← hpivot]
    exact hdivided.lt_of_mem_right hx
  · intro j hj
    exact hσ.frame hj
  · rw [ht, Tally.partitions_add, hw.partitions_eq]
  · rw [ht, Tally.maxDepth_add, hw.maxDepth_eq]
    exact Nat.max_zero _

/-- The median of 7, 9 and 7 is the 7 in the first slot. -/
theorem split_divides_at_choice_ties :
    2 ≤ (Segment.whole 5).size ∧
      (split .medianOfThree (.whole 5) (by decide) ⟨#v[7, 2, 9, 8, 7], .fresh⟩).2.buffer.toList =
        slice (split .medianOfThree (.whole 5) (by decide) ⟨#v[7, 2, 9, 8, 7], .fresh⟩).2.buffer
            (split .medianOfThree (.whole 5) (by decide) ⟨#v[7, 2, 9, 8, 7], .fresh⟩).1.left ++
          7 :: slice (split .medianOfThree (.whole 5) (by decide)
              ⟨#v[7, 2, 9, 8, 7], .fresh⟩).2.buffer
            (split .medianOfThree (.whole 5) (by decide) ⟨#v[7, 2, 9, 8, 7], .fresh⟩).1.right := by
  obtain ⟨-, -, hslice, -⟩ := split_divides_at_choice .medianOfThree (.whole 5) (by decide)
    ⟨#v[7, 2, 9, 8, 7], .fresh⟩
  refine ⟨by decide, ?_⟩
  rw [slice_whole] at hslice
  exact hslice

end Quicksort
