import Mathlib.Tactic.Ring
import Quicksort.Proofs.Counters
import Quicksort.Proofs.Shape
import Quicksort.Proofs.Swaps

/-
  The most comparisons that a sort makes.

  A balanced split costs more than a lopsided one of the same size, because each
  exchange of the scan is followed by two more comparisons. But lopsided splits
  nest deeper, and that costs more in the end: the worst case of a whole exceeds
  that of two sides by the product of their sizes, and an exchange takes up a
  slot on either side (`twiceWorst_add_le`). With an empty side the bound is met
  exactly (`twiceWorst_succ`). Medians cost three comparisons for each split of
  three slots or more (`PivotRule.pickBudget_add_le`).

  The worst case is quadratic with a small factor, so buffers that 32 bits can
  index leave room in 64-bit counters, at every moment of a sort
  (`comparisons_of_sort`).
-/

namespace Quicksort

/-- Twice the most comparisons that the partitions of a sort of `size` slots make. -/
def twiceWorst (size : Nat) : Nat := (size - 1) * (size + 4)

theorem twiceWorst_succ (k : Nat) (h : 0 < k) :
    2 * (k + 2) + twiceWorst k = twiceWorst (k + 1) := by
  obtain ⟨m, rfl⟩ : ∃ m, k = m + 1 := ⟨k - 1, by omega⟩
  simp only [twiceWorst, Nat.add_sub_cancel]
  ring

/-- Two sides share out the exchanges of the scan, but the worst case of the whole grows by
the product of their sizes. -/
theorem twiceWorst_add_lt (a b : Nat) (ha : 0 < a) (hb : 0 < b) :
    2 * (a + b + 3 + 2 * min a b) + (twiceWorst a + twiceWorst b) ≤ twiceWorst (a + b + 1) := by
  wlog hab : a ≤ b generalizing a b
  · have h := this b a hb ha (Nat.le_of_not_le hab)
    rw [Nat.add_comm a b, Nat.min_comm a b]
    omega
  obtain ⟨x, rfl⟩ : ∃ x, a = x + 1 := ⟨a - 1, by omega⟩
  obtain ⟨y, rfl⟩ : ∃ y, b = y + 1 := ⟨b - 1, by omega⟩
  rw [Nat.min_eq_left hab]
  simp only [twiceWorst, Nat.add_sub_cancel]
  have hx : 2 * x ≤ x + y := by omega
  calc 2 * (x + 1 + (y + 1) + 3 + 2 * (x + 1)) + (x * (x + 1 + 4) + y * (y + 1 + 4))
      = x * x + y * y + 7 * x + 7 * y + 14 + 2 * (2 * x) := by ring
    _ ≤ x * x + y * y + 7 * x + 7 * y + 14 + 2 * (x + y) + 2 * (x * y) := by omega
    _ = (x + 1 + (y + 1)) * (x + 1 + (y + 1) + 1 + 4) := by ring

theorem twiceWorst_add_le (a b : Nat) (h : 2 ≤ a + b + 1) :
    2 * (a + b + 3 + 2 * min a b - if a = 0 ∨ b = 0 then 1 else 0) +
      (twiceWorst a + twiceWorst b) ≤ twiceWorst (a + b + 1) := by
  -- An empty side leaves no slack. Two sides make room by the product of their sizes.
  rcases Nat.eq_zero_or_pos a with rfl | ha
  · rw [if_pos (.inl rfl), Nat.zero_min, Nat.zero_add, ← twiceWorst_succ b (by omega)]
    exact Nat.le_of_eq (congrArg _ (Nat.zero_add _))
  · rcases Nat.eq_zero_or_pos b with rfl | hb
    · rw [if_pos (.inr rfl), Nat.min_zero, Nat.add_zero, ← twiceWorst_succ a ha]
      exact Nat.le_refl _
    · rw [if_neg (by omega)]
      exact twiceWorst_add_lt a b ha hb

/-- The most comparisons that the picks of a rule make in a sort of `size` slots. -/
def PivotRule.pickBudget (rule : PivotRule) (size : Nat) : Nat :=
  if rule = .medianOfThree then 3 * (size - 2) else 0

theorem PivotRule.pickBudget_add_le (rule : PivotRule) (a b : Nat) (h : 2 ≤ a + b + 1) :
    rule.pickComparisons (a + b + 1) + rule.pickBudget a + rule.pickBudget b ≤
      rule.pickBudget (a + b + 1) := by
  cases rule with
  | firstSlot | random => exact Nat.le_refl 0
  | medianOfThree =>
    simp only [pickComparisons, pickBudget, if_true]
    split_ifs <;> omega

theorem Outline.Costed.comparisons_le {rule : PivotRule} {o : Outline} (h : o.Costed rule) :
    2 * o.work.comparisons ≤ twiceWorst o.size + 2 * rule.pickBudget o.size := by
  induction h with
  | leaf h => exact Nat.zero_le _
  | @node w l r h hw hl hr ihl ihr =>
    have hpick := rule.pickBudget_add_le l.size r.size h
    simp only [work, size, Tally.comparisons_add]
    have hsplit := hw.comparisons_le
    have hworst := twiceWorst_add_le l.size r.size h
    omega

variable {n : Nat}

theorem sortWork_lt (cfg : Config) (s : Segment n) (xs : Vector Int32 n) (g : Generator)
    (h : s.size < UInt32.size) :
    (sortWork cfg s xs g).comparisons < UInt64.size ∧ (sortWork cfg s xs g).swaps < UInt64.size ∧
      (sortWork cfg s xs g).partitions < UInt64.size := by
  obtain ⟨o, ho, hsize, ht⟩ := sortWork_costed cfg s xs g
  rw [← hsize] at h
  rw [ht]
  have hpartitions := ho.partitions_le
  have hcomparisons := ho.comparisons_le
  have hswaps := ho.swaps_le
  have hworst : twiceWorst o.size ≤ (UInt32.size - 2) * (UInt32.size + 3) :=
    Nat.mul_le_mul (by omega) (by omega)
  have hbudget : cfg.pivot.pickBudget o.size ≤ 3 * o.size := by
    simp only [PivotRule.pickBudget]
    split <;> omega
  have hlog : o.size * Nat.log 2 o.size ≤ o.size * 32 :=
    Nat.mul_le_mul_left _ (Nat.le_of_lt (Nat.log_lt_of_lt_pow' (by decide) h))
  have hplace : (1 + cfg.pivot.pickSwaps) * o.work.partitions ≤ 2 * o.work.partitions := by
    apply Nat.mul_le_mul_right
    cases cfg.pivot <;> decide
  simp only [UInt32.size, UInt64.size] at *
  refine ⟨?_, ?_, ?_⟩ <;> omega

/-- The most comparisons of a sort of `k` slots, whatever the buffer, the schedule and the
draws. With fewer than `2 ^ 32` slots no counter of 64 bits overflows at any moment. -/
theorem comparisons_of_sort (cfg : Config) (s : Segment n) (xs : Vector Int32 n)
    (g : Generator) :
    (sortWork cfg s xs g).comparisons ≤ (s.size - 1) * (s.size + 4) / 2 +
      (if cfg.pivot = .medianOfThree then 3 * (s.size - 2) else 0) ∧
    (s.size < UInt32.size → ∀ t, Shows cfg s ⟨xs, ⟨{}, g⟩⟩ t →
      t.comparisons < UInt64.size ∧ t.swaps < UInt64.size ∧ t.partitions < UInt64.size) := by
  refine ⟨?_, ?_⟩
  · obtain ⟨o, ho, hsize, ht⟩ := sortWork_costed cfg s xs g
    have hle := ho.comparisons_le
    rw [ht, ← hsize]
    simp only [twiceWorst, PivotRule.pickBudget] at hle ⊢
    omega
  · intro h t hshows
    obtain ⟨hcomparisons, hswaps, hpartitions, -⟩ := hshows.atMost
    obtain ⟨hc, hs, hp⟩ := sortWork_lt cfg s xs g h
    exact ⟨Nat.lt_of_le_of_lt hcomparisons hc, Nat.lt_of_le_of_lt hswaps hs,
      Nat.lt_of_le_of_lt hpartitions hp⟩

/-- Two values in the wrong order, when their only split is done. -/
theorem comparisons_of_sort_two :
    let cfg : Config := ⟨.firstSlot, .leftFirst⟩
    let t : Tally := ⟨3, 1, 1, 1⟩
    Shows cfg (.whole 2) ⟨#v[2, 1], ⟨{}, .ofSeed 0⟩⟩ t ∧ 2 < UInt32.size ∧
      t.comparisons < UInt64.size ∧ t.swaps < UInt64.size ∧ t.partitions < UInt64.size := by
  intro cfg t
  have hshows : Shows cfg (.whole 2) ⟨#v[2, 1], ⟨{}, .ofSeed 0⟩⟩ t := by
    have htally : (split .firstSlot (.whole 2) (by decide)
        (State.reach ⟨#v[2, 1], ⟨{}, .ofSeed 0⟩⟩ 1)).2.session.tally = t := by decide +kernel
    rw [← htally]
    exact .split (by decide) .done
  exact ⟨hshows, by decide,
    (comparisons_of_sort cfg (.whole 2) #v[2, 1] (.ofSeed 0)).2 (by decide) t hshows⟩

end Quicksort
