import Mathlib.Data.Nat.Log
import Quicksort.Proofs.Cost

/-
  Few exchanges, whatever the pivots.

  The scan of a partition makes at most as many exchanges as the smaller side
  has slots. Charge them to those slots, one each: a slot that is charged lies
  in a side of at most half the size, so it is charged at most as often as the
  size can be halved. This gives the logarithm in `Outline.Costed.swaps_le` even
  where the comparisons are quadratic. What is left are the exchanges that bring
  a pivot to the first slot and from there to its place, one or two for a split.
-/

namespace Quicksort

/-- Charging the smaller side once keeps every slot within its logarithm. -/
theorem mul_log_add_min_le (a b : Nat) :
    a * Nat.log 2 a + b * Nat.log 2 b + min a b ≤ (a + b + 1) * Nat.log 2 (a + b + 1) := by
  -- The two sides play the same part, so let `a` be the smaller.
  wlog hab : a ≤ b generalizing a b
  · have h := this b a (Nat.le_of_not_le hab)
    rw [Nat.add_comm a b, Nat.min_comm a b]
    omega
  rw [Nat.min_eq_left hab]
  have hb : Nat.log 2 b ≤ Nat.log 2 (a + b + 1) := Nat.log_mono_right (by omega)
  rcases Nat.eq_zero_or_pos a with rfl | hpos
  · calc 0 * Nat.log 2 0 + b * Nat.log 2 b + 0
        = b * Nat.log 2 b := by rw [Nat.zero_mul, Nat.zero_add, Nat.add_zero]
      _ ≤ (0 + b + 1) * Nat.log 2 (0 + b + 1) := Nat.mul_le_mul (by omega) hb
  · have ha : Nat.log 2 a + 1 ≤ Nat.log 2 (a + b + 1) := by
      rw [← Nat.log_mul_base (by decide) (Nat.ne_of_gt hpos)]
      exact Nat.log_mono_right (by omega)
    calc a * Nat.log 2 a + b * Nat.log 2 b + a
        = a * (Nat.log 2 a + 1) + b * Nat.log 2 b := by rw [Nat.mul_succ]; omega
      _ ≤ a * Nat.log 2 (a + b + 1) + b * Nat.log 2 (a + b + 1) :=
          Nat.add_le_add (Nat.mul_le_mul_left a ha) (Nat.mul_le_mul_left b hb)
      _ = (a + b) * Nat.log 2 (a + b + 1) := (Nat.add_mul ..).symm
      _ ≤ (a + b + 1) * Nat.log 2 (a + b + 1) := Nat.mul_le_mul_right _ (Nat.le_succ _)

theorem Outline.Costed.swaps_le {rule : PivotRule} {o : Outline} (h : o.Costed rule) :
    o.work.swaps ≤ o.size * Nat.log 2 o.size + (1 + rule.pickSwaps) * o.work.partitions := by
  induction h with
  | leaf h => exact Nat.zero_le _
  | @node w l r h hw hl hr ihl ihr =>
    have hcharge := mul_log_add_min_le l.size r.size
    have hsplit := hw.swaps_le
    simp only [work, size, Tally.swaps_add, Tally.partitions_add, hw.partitions_eq]
    rw [Nat.mul_add, Nat.mul_add, Nat.mul_one]
    omega

variable {n : Nat}

/-- A sort of `k` slots makes at most `k * log k` exchanges in its scans, and one more for each
split, or two if the pivot is not in the first slot from the start. -/
theorem swaps_of_sort (cfg : Config) (s : Segment n) (xs : Vector Int32 n) (g : Generator) :
    (sortWork cfg s xs g).swaps ≤ s.size * Nat.log 2 s.size +
      (if cfg.pivot = .firstSlot then 1 else 2) * (sortWork cfg s xs g).partitions := by
  obtain ⟨o, ho, hsize, ht⟩ := sortWork_costed cfg s xs g
  have hperSplit : 1 + cfg.pivot.pickSwaps = if cfg.pivot = .firstSlot then 1 else 2 := by
    cases cfg.pivot <;> rfl
  rw [ht, ← hsize, ← hperSplit]
  exact ho.swaps_le

end Quicksort
