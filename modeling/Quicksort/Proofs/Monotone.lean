import Quicksort.Proofs.Arrangement
import Quicksort.Proofs.Comparisons

/-
  Sorting values that are in order, with the pivot in the first slot.

  Where the first value is the greatest or the smallest, a split leaves one side
  empty. If that happens in every split, the sort is a chain (`Outline.Chain`). It
  makes one split for each slot but the last and meets the worst case of
  comparisons (`Outline.Chain.tally_eq`); with both sides nested every split is
  one deeper than the one before it, and with only the smaller side nested, none.

  Ascending values are left where they are (`HasOutline.chain_of_ascending`). Of
  descending values the last one, the smallest, comes to the front in exchange for
  the pivot. The next split leaves everything in place, and descending values are
  left again, two fewer. So every other split makes an exchange
  (`HasOutline.chain_of_descending`).
-/

namespace Quicksort

variable {n : Nat} {s : Segment n} {xs : Vector Int32 n} {o : Outline}

/-! ## Chains of splits -/

theorem twiceWorst_of_lt_two {k : Nat} (h : k < 2) : twiceWorst k = 0 := by
  rw [twiceWorst, Nat.sub_eq_zero_of_le (Nat.le_of_lt_succ h), Nat.zero_mul]

namespace Outline

/-- Every split leaves one side empty, and its scan exchanges nothing. Of the splits, `swaps`
have a left side that is not empty, and the pivot is exchanged into place. -/
inductive Chain : Nat → Outline → Prop
  | leaf {size : Nat} (h : size < 2) : Chain 0 (.leaf size)
  | left {swaps : Nat} {l : Outline} (h : 0 < l.size) (hl : Chain swaps l) :
      Chain (swaps + 1) (.node (partitionWork l.size 0 0) l (.leaf 0))
  | right {swaps : Nat} {r : Outline} (h : 0 < r.size) (hr : Chain swaps r) :
      Chain swaps (.node (partitionWork 0 r.size 0) (.leaf 0) r)

namespace Chain

variable {swaps : Nat}

theorem swaps_eq (h : o.Chain swaps) : o.work.swaps = swaps := by
  induction h with
  | leaf h => rfl
  | left h hl ih =>
    simp only [work, Tally.swaps_add, Tally.swaps_zero, partitionWork, if_neg (Nat.ne_of_gt h), ih]
    omega
  | right h hr ih =>
    simp only [work, Tally.swaps_add, Tally.swaps_zero, partitionWork, if_true, ih]
    omega

theorem partitions_eq (h : o.Chain swaps) : o.work.partitions = o.size - 1 := by
  induction h with
  | leaf h => exact (Nat.sub_eq_zero_of_le (Nat.le_of_lt_succ h)).symm
  | left h hl ih | right h hr ih =>
    simp only [work, size, Tally.partitions_add, Tally.partitions_zero, partitionWork, ih]
    omega

theorem comparisons_eq (h : o.Chain swaps) : 2 * o.work.comparisons = twiceWorst o.size := by
  induction h with
  | leaf h => exact (twiceWorst_of_lt_two h).symm
  | @left _ l h hl ih =>
    have hworst := twiceWorst_succ l.size h
    simp only [work, size, Tally.comparisons_add, Tally.comparisons_zero, partitionWork]
    simp only [Nat.add_zero, or_true, if_true]
    omega
  | @right _ r h hr ih =>
    have hworst := twiceWorst_succ r.size h
    simp only [work, size, Tally.comparisons_add, Tally.comparisons_zero, partitionWork]
    simp only [Nat.zero_add, true_or, if_true]
    omega

theorem depthLeftFirst_eq (h : o.Chain swaps) (d : Nat) :
    o.depthLeftFirst (d + 1) = if 2 ≤ o.size then d + (o.size - 1) else 0 := by
  induction h generalizing d with
  | leaf h => exact (if_neg (Nat.not_le.mpr h)).symm
  | left h hl ih | right h hr ih =>
    rw [if_pos (by simp only [size]; omega)]
    simp only [depthLeftFirst, size, ih]
    split_ifs <;> omega

theorem depthSmallerFirst_eq (h : o.Chain swaps) (d : Nat) :
    o.depthSmallerFirst d = if 2 ≤ o.size then d else 0 := by
  induction h with
  | leaf h => exact (if_neg (Nat.not_le.mpr h)).symm
  | @left _ l h hl ih =>
    have hside : ¬ l.size < (Outline.leaf 0).size := Nat.not_lt_zero _
    rw [if_pos (by simp only [size]; omega), depthSmallerFirst, if_neg hside, ih, depthSmallerFirst]
    split_ifs <;> omega
  | @right _ r h hr ih =>
    have hside : (Outline.leaf 0).size < r.size := h
    rw [if_pos (by simp only [size]; omega), depthSmallerFirst, if_pos hside, ih, depthSmallerFirst]
    split_ifs <;> omega

theorem tally_eq (h : o.Chain swaps) (hsize : 2 ≤ o.size) (schedule : Schedule) :
    { o.work with maxDepth := o.deepest schedule } =
      { comparisons := (o.size - 1) * (o.size + 4) / 2
        swaps := swaps
        partitions := o.size - 1
        maxDepth := if schedule = .leftFirst then o.size - 1 else 1 : Tally } := by
  ext
  case comparisons =>
    have hworst := h.comparisons_eq
    rw [twiceWorst] at hworst
    simp only
    omega
  case swaps => exact h.swaps_eq
  case partitions => exact h.partitions_eq
  case maxDepth =>
    cases schedule with
    | leftFirst =>
      have hdepth := h.depthLeftFirst_eq 0
      rw [if_pos hsize, Nat.zero_add, Nat.zero_add] at hdepth
      exact hdepth
    | smallerFirst | workStack =>
      have hdepth := h.depthSmallerFirst_eq 1
      rw [if_pos hsize] at hdepth
      exact hdepth

end Chain

end Outline

/-! ## The pivot in the first slot -/

theorem placePivot_firstSlot (s : Segment n) (st : State n) : placePivot .firstSlot s st = st := by
  simp [placePivot, pivotOffset]

namespace HasOutline

section

variable {h : 2 ≤ s.size} {g : Generator} {c : Cut s} {st : State n} {l r : Outline}
  {p : Int32} {low high : List Int32} {swaps : Nat}

theorem chain_of_max (h : 2 ≤ s.size) (hs : split .firstSlot s h ⟨xs, ⟨0, g⟩⟩ = (c, st))
    (hx : slice xs s = p :: low) (hlow : ∀ x ∈ low, x < p)
    (hl : HasOutline .firstSlot c.left st.buffer l)
    (hr : HasOutline .firstSlot c.right st.buffer r)
    (hchain : slice st.buffer c.left = lastToFront low → l.Chain swaps) :
    (Outline.node st.session.tally l r).Chain (swaps + 1) := by
  rw [split, placePivot_firstSlot] at hs
  have hdivided : slice xs s = p :: (low ++ []) := by rw [hx, List.append_nil]
  obtain ⟨hleft, hright, hwork⟩ := partition_of_divided h hs hdivided
    (fun x hx => Int32.le_of_lt (hlow x hx)) (by simp)
  have hempty : c.right.size = 0 := size_of_slice hright
  have hlength : l.size = low.length := by
    rw [hl.size_eq, size_of_slice hleft, length_lastToFront]
  have hfull : 0 < l.size := by
    have hall := c.size_left_add_size_right
    rw [hl.size_eq]
    omega
  rw [hr.eq_leaf (by omega), hempty, hwork, zero_add, ← hlength]
  exact .left hfull (hchain hleft)

theorem chain_of_min (h : 2 ≤ s.size) (hs : split .firstSlot s h ⟨xs, ⟨0, g⟩⟩ = (c, st))
    (hx : slice xs s = p :: high) (hhigh : ∀ x ∈ high, p < x)
    (hl : HasOutline .firstSlot c.left st.buffer l)
    (hr : HasOutline .firstSlot c.right st.buffer r)
    (hchain : slice st.buffer c.right = high → r.Chain swaps) :
    (Outline.node st.session.tally l r).Chain swaps := by
  rw [split, placePivot_firstSlot] at hs
  have hdivided : slice xs s = p :: ([] ++ high) := hx
  obtain ⟨hleft, hright, hwork⟩ := partition_of_divided h hs hdivided (by simp) hhigh
  have hempty : c.left.size = 0 := size_of_slice hleft
  have hlength : r.size = high.length := by rw [hr.size_eq, size_of_slice hright]
  have hfull : 0 < r.size := by
    have hall := c.size_left_add_size_right
    rw [hr.size_eq]
    omega
  rw [hl.eq_leaf (by omega), hempty, hwork, zero_add, ← hlength]
  exact .right hfull (hchain hright)

end

theorem chain_of_ascending (h : HasOutline .firstSlot s xs o) (ha : (slice xs s).Pairwise (· < ·)) :
    o.Chain 0 := by
  generalize hrule : PivotRule.firstSlot = rule at h
  induction h with
  | leaf h => exact .leaf h
  | @node s xs c st l r h g hs hl hr ihl ihr =>
    subst hrule
    have hx := slice_eq_cons xs (Nat.zero_lt_of_lt h)
    rw [hx, List.pairwise_cons] at ha
    apply chain_of_min h hs hx ha.1 hl hr
    intro hright
    exact ihr (hright ▸ ha.2)

/-- Descending values, and descending values of which the last one has come to the front. -/
theorem chain_of_descending (h : HasOutline .firstSlot s xs o) {d : List Int32}
    (hd : d.Pairwise (· > ·)) :
    (slice xs s = d → o.Chain (d.length / 2)) ∧
      (slice xs s = lastToFront d → o.Chain ((d.length - 1) / 2)) := by
  generalize hrule : PivotRule.firstSlot = rule at h
  induction h generalizing d with
  | @leaf s xs h =>
    have hleaf : (Outline.leaf s.size).Chain 0 := .leaf h
    constructor
    · intro hx
      rw [← size_of_slice hx, Nat.div_eq_of_lt h]
      exact hleaf
    · intro hx
      rw [← length_lastToFront, ← size_of_slice hx, Nat.div_eq_of_lt (by omega)]
      exact hleaf
  | @node s xs c st l r h g hs hl hr ihl ihr =>
    subst hrule
    have hsize : 2 ≤ (slice xs s).length := by rwa [length_slice]
    -- The two shapes take turns: each split leaves a side of the other one.
    constructor
    · intro hx
      cases d with
      | nil => simp [hx] at hsize
      | cons p low =>
        rw [List.pairwise_cons] at hd
        rw [hx, List.length_cons] at hsize
        have hchain := chain_of_max h hs hx hd.1 hl hr (ihl hd.2).2
        rw [List.length_cons, show (low.length + 1) / 2 = (low.length - 1) / 2 + 1 by omega]
        exact hchain
    · intro hx
      rcases List.eq_nil_or_concat d with rfl | ⟨high, p, rfl⟩
      · simp [hx] at hsize
      · rw [List.concat_eq_append] at hx hd ⊢
        rw [lastToFront_append] at hx
        obtain ⟨hhigh, -, hp⟩ := List.pairwise_append.mp hd
        have hchain := chain_of_min h hs hx (fun x hx => hp x hx p (by simp)) hl hr (ihr hhigh).1
        rw [List.length_append, List.length_singleton, Nat.add_sub_cancel]
        exact hchain

end HasOutline

/-- Sorting a whole buffer of descending or ascending values with the pivot in the first slot.
All but one of the slots are split off one by one, with the most comparisons that sorts with this
pivot make. Descending values take an exchange in every other split and ascending values none. With
both sides nested the depth is the number of splits; with only the smaller side nested it is one. -/
theorem cost_of_monotone (xs : Array Int32) (h : 2 ≤ xs.size) (schedule : Schedule) :
    (xs.toList.Pairwise (· > ·) → (sortAll ⟨.firstSlot, schedule⟩ xs).tally =
      { comparisons := (xs.size - 1) * (xs.size + 4) / 2
        swaps := xs.size / 2
        partitions := xs.size - 1
        maxDepth := if schedule = .leftFirst then xs.size - 1 else 1 }) ∧
    (xs.toList.Pairwise (· < ·) → (sortAll ⟨.firstSlot, schedule⟩ xs).tally =
      { comparisons := (xs.size - 1) * (xs.size + 4) / 2
        swaps := 0
        partitions := xs.size - 1
        maxDepth := if schedule = .leftFirst then xs.size - 1 else 1 }) := by
  obtain ⟨o, ho, ht⟩ := sortAll_outline ⟨.firstSlot, schedule⟩ xs
  have hslice : slice xs.toVector (.whole xs.size) = xs.toList := slice_whole xs.toVector
  have hsize : o.size = xs.size := ho.size_eq
  rw [ht, ← hsize]
  rw [← hsize] at h
  constructor
  · intro hd
    have hchain : o.Chain (o.size / 2) := by
      have hlength : xs.toList.length = o.size := by rw [Array.length_toList, hsize]
      rw [← hlength]
      exact (ho.chain_of_descending hd).1 hslice
    exact hchain.tally_eq h schedule
  · intro ha
    have hchain : o.Chain 0 := ho.chain_of_ascending (hslice ▸ ha)
    exact hchain.tally_eq h schedule

/-- Five values either way. -/
theorem cost_of_monotone_five :
    2 ≤ (#[9, 7, 5, 3, 1] : Array Int32).size ∧ [9, 7, 5, 3, (1 : Int32)].Pairwise (· > ·) ∧
      (sortAll ⟨.firstSlot, .leftFirst⟩ #[9, 7, 5, 3, 1]).tally = ⟨18, 2, 4, 4⟩ ∧
      [1, 3, 5, 7, (9 : Int32)].Pairwise (· < ·) ∧
      (sortAll ⟨.firstSlot, .workStack⟩ #[1, 3, 5, 7, 9]).tally = ⟨18, 0, 4, 1⟩ := by
  have hdown := (cost_of_monotone #[9, 7, 5, 3, 1] (by decide) .leftFirst).1 (by decide)
  have hup := (cost_of_monotone #[1, 3, 5, 7, 9] (by decide) .workStack).2 (by decide)
  exact ⟨by decide, by decide, hdown, by decide, hup⟩

end Quicksort
