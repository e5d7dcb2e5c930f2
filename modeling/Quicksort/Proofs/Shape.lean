import Mathlib.Data.Nat.Log
import Mathlib.Tactic.Ring
import Quicksort.Proofs.Cost

/-
  How many splits a sort makes, and how deep they nest.

  Every split takes one slot out of the sort, its pivot's, and what is left in
  the end are segments of one slot or none. So an outline has one split less
  than slots at the most, and at least half as many (`Outline.Costed.partitions_le`,
  `Outline.Costed.le_partitions`). If both sides of a split are nested, `d` levels
  have room for `2 ^ (d + 1) - 1` slots (`Outline.Costed.size_le_two_pow`), and
  every level takes a split (`Outline.Costed.depthLeftFirst_le`).
-/

namespace Quicksort

variable {rule : PivotRule} {o : Outline}

namespace Outline.Costed

theorem partitions_le (h : o.Costed rule) : o.work.partitions ≤ o.size - 1 := by
  induction h with
  | leaf h => exact Nat.zero_le _
  | node h hw hl hr ihl ihr =>
    simp only [work, size, Tally.partitions_add, hw.partitions_eq]
    omega

theorem le_partitions (h : o.Costed rule) : o.size ≤ 2 * o.work.partitions + 1 := by
  induction h with
  | leaf h => exact Nat.le_of_lt_succ h
  | node h hw hl hr ihl ihr =>
    simp only [work, size, Tally.partitions_add, hw.partitions_eq]
    omega

/-- The levels from `d + 1` down to the deepest have room for all the slots. -/
theorem size_le_two_pow (h : o.Costed rule) (d : Nat) :
    2 ^ d * (o.size + 1) ≤ 2 ^ (max (o.depthLeftFirst (d + 1)) d + 1) := by
  induction h generalizing d with
  | @leaf size h =>
    calc 2 ^ d * (size + 1)
        ≤ 2 ^ d * 2 := Nat.mul_le_mul_left _ h
      _ = 2 ^ (d + 1) := (Nat.pow_succ ..).symm
      _ ≤ _ := Nat.pow_le_pow_right (by decide) (Nat.succ_le_succ (Nat.le_max_right ..))
  | @node w l r h hw hl hr ihl ihr =>
    have hdepth : (Outline.node w l r).depthLeftFirst (d + 1) =
      max (d + 1) (max (l.depthLeftFirst (d + 2)) (r.depthLeftFirst (d + 2))) := rfl
    generalize (Outline.node w l r).depthLeftFirst (d + 1) = deepest at *
    -- Both sides start one level further down and reach no deeper than the whole.
    have hside {side : Outline} (hle : side.depthLeftFirst (d + 2) ≤ deepest)
        (ih : 2 ^ (d + 1) * (side.size + 1) ≤ 2 ^ (max (side.depthLeftFirst (d + 2)) (d + 1) + 1)) :
        2 ^ (d + 1) * (side.size + 1) ≤ 2 ^ (max deepest d + 1) := by
      apply Nat.le_trans ih
      apply Nat.pow_le_pow_right (by decide)
      omega
    have hl' := hside (by omega) (ihl (d + 1))
    have hr' := hside (by omega) (ihr (d + 1))
    have hsum : 2 * (2 ^ d * (l.size + r.size + 1 + 1)) ≤ 2 * 2 ^ (max deepest d + 1) := by
      calc 2 * (2 ^ d * (l.size + r.size + 1 + 1))
          = 2 ^ (d + 1) * (l.size + 1) + 2 ^ (d + 1) * (r.size + 1) := by ring
        _ ≤ 2 * 2 ^ (max deepest d + 1) := by omega
    exact Nat.le_of_mul_le_mul_left hsum (by decide)

theorem log_size_le_depthLeftFirst (h : o.Costed rule) :
    Nat.log 2 o.size ≤ o.depthLeftFirst 1 := by
  have hpow : o.size + 1 ≤ 2 ^ (o.depthLeftFirst 1 + 1) := by
    simpa using h.size_le_two_pow 0
  apply Nat.le_of_lt_succ
  exact Nat.log_lt_of_lt_pow' (Nat.succ_ne_zero _) hpow

theorem depthLeftFirst_le (h : o.Costed rule) (d : Nat) :
    o.depthLeftFirst (d + 1) ≤ d + o.work.partitions := by
  induction h generalizing d with
  | leaf h => exact Nat.zero_le _
  | node h hw hl hr ihl ihr =>
    have hl' := ihl (d + 1)
    have hr' := ihr (d + 1)
    simp only [depthLeftFirst, work, Tally.partitions_add, hw.partitions_eq]
    omega

end Outline.Costed

variable {n : Nat}

/-- A sort of `k` slots makes between `k / 2` and `k - 1` splits, whatever the pivots and the
schedule. If both sides are nested, the depth lies between the logarithm of `k` and the number
of splits. -/
theorem shape_of_sort (rule : PivotRule) (s : Segment n) (xs : Vector Int32 n) (g : Generator) :
    (∀ schedule, s.size / 2 ≤ (sortWork ⟨rule, schedule⟩ s xs g).partitions ∧
      (sortWork ⟨rule, schedule⟩ s xs g).partitions ≤ s.size - 1) ∧
    Nat.log 2 s.size ≤ (sortWork ⟨rule, .leftFirst⟩ s xs g).maxDepth ∧
    (sortWork ⟨rule, .leftFirst⟩ s xs g).maxDepth ≤
      (sortWork ⟨rule, .leftFirst⟩ s xs g).partitions := by
  refine ⟨?_, ?_⟩
  · intro schedule
    obtain ⟨o, ho, hsize, ht⟩ := sortWork_costed ⟨rule, schedule⟩ s xs g
    have hle := ho.partitions_le
    have hge := ho.le_partitions
    rw [ht, ← hsize]
    simp only
    omega
  · obtain ⟨o, ho, hsize, ht⟩ := sortWork_costed ⟨rule, .leftFirst⟩ s xs g
    have hle : o.depthLeftFirst 1 ≤ o.work.partitions := by
      simpa using ho.depthLeftFirst_le 0
    rw [ht, ← hsize]
    exact ⟨ho.log_size_le_depthLeftFirst, hle⟩

end Quicksort
