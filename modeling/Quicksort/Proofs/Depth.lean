import Mathlib.Data.Nat.Log
import Mathlib.Order.MinMax
import Quicksort.Proofs.Outline

/-
  Logarithmic depth, whatever the pivots.

  If only the smaller side of a split is nested, each level of nesting halves
  the size. The larger side may be almost as large as the segment, but it is
  sorted at the depth of the segment itself. So bad pivots make a sort slow, and
  never deep.

  What is proved: every depth `e` that is reached in a segment at depth `d`
  satisfies `3 * 2 ^ e ≤ 2 ^ d * (size + 1)`
  (`HasOutline.le_of_le_depthSmallerFirst`), for every outline, whichever draws
  it comes from. The depth of a sort follows (`maxDepth_logarithmic`).
-/

namespace Quicksort

variable {n : Nat} {rule : PivotRule} {s : Segment n} {xs : Vector Int32 n} {o : Outline}

/-- A side of at most half the size, nested one deeper, stays within the bound. -/
theorem two_pow_succ_mul_le {k m : Nat} (d : Nat) (h : 2 * (k + 1) ≤ m + 1) :
    2 ^ (d + 1) * (k + 1) ≤ 2 ^ d * (m + 1) := by
  calc 2 ^ (d + 1) * (k + 1)
      = 2 ^ d * (2 * (k + 1)) := by rw [Nat.pow_succ, Nat.mul_assoc]
    _ ≤ 2 ^ d * (m + 1) := Nat.mul_le_mul_left _ h

namespace HasOutline

theorem le_depthSmallerFirst (h : HasOutline rule s xs o) (hs : 2 ≤ s.size) (d : Nat) :
    d ≤ o.depthSmallerFirst d := by
  cases h with
  | leaf h => exact absurd h (Nat.not_lt.mpr hs)
  | node h g hs hl hr =>
    rw [Outline.depthSmallerFirst]
    split
    · exact Nat.le_max_left ..
    · exact Nat.le_max_left ..

theorem le_of_le_depthSmallerFirst (h : HasOutline rule s xs o) {d e : Nat} (he : 0 < e)
    (hd : e ≤ o.depthSmallerFirst d) : 3 * 2 ^ e ≤ 2 ^ d * (s.size + 1) := by
  induction h generalizing d with
  | leaf h => exact absurd hd (Nat.not_le.mpr he)
  | @node s xs c st l r h g hs hl hr ihl ihr =>
    have hsize := c.size_left_add_size_right
    -- The split itself, then a side that is nested, then one that is not.
    have hsplit (hed : e ≤ d) : 3 * 2 ^ e ≤ 2 ^ d * (s.size + 1) := by
      rw [Nat.mul_comm]
      exact Nat.mul_le_mul (Nat.pow_le_pow_right (by decide) hed) (Nat.succ_le_succ h)
    have hnested {k : Nat} (hk : 2 * (k + 1) ≤ s.size + 1)
        (hek : 3 * 2 ^ e ≤ 2 ^ (d + 1) * (k + 1)) : 3 * 2 ^ e ≤ 2 ^ d * (s.size + 1) :=
      Nat.le_trans hek (two_pow_succ_mul_le d hk)
    have hlevel {k : Nat} (hk : k ≤ s.size) (hek : 3 * 2 ^ e ≤ 2 ^ d * (k + 1)) :
        3 * 2 ^ e ≤ 2 ^ d * (s.size + 1) :=
      Nat.le_trans hek (Nat.mul_le_mul_left _ (Nat.succ_le_succ hk))
    rw [Outline.depthSmallerFirst, hl.size_eq, hr.size_eq] at hd
    by_cases hlt : c.left.size < c.right.size
    · rw [if_pos hlt, le_max_iff, le_max_iff] at hd
      rcases hd with hd | hd | hd
      · exact hsplit hd
      · exact hnested (by omega) (ihl hd)
      · exact hlevel (by omega) (ihr hd)
    · rw [if_neg hlt, le_max_iff, le_max_iff] at hd
      rcases hd with hd | hd | hd
      · exact hsplit hd
      · exact hlevel (by omega) (ihl hd)
      · exact hnested (by omega) (ihr hd)

end HasOutline

theorem Outline.deepest_of_ne_leftFirst {schedule : Schedule} (h : schedule ≠ .leftFirst)
    (o : Outline) : o.deepest schedule = o.depthSmallerFirst 1 := by
  cases schedule with
  | leftFirst => exact absurd rfl h
  | smallerFirst | workStack => rfl

/-- A schedule that nests only the smaller sides reaches at most logarithmic depth, for every
pivot rule, every buffer and every generator. -/
theorem maxDepth_logarithmic (cfg : Config) (hcfg : cfg.schedule ≠ .leftFirst)
    (s : Segment n) (hs : 2 ≤ s.size) (xs : Vector Int32 n) (g : Generator) :
    let depth := (sortSegment cfg s ⟨xs, ⟨{}, g⟩⟩).session.tally.maxDepth
    1 ≤ depth ∧ 3 * 2 ^ depth ≤ 2 * (s.size + 1) ∧ depth ≤ Nat.log 2 s.size := by
  intro depth
  obtain ⟨o, ho, htally⟩ := sortSegment_outline_of_zero cfg s xs g
  have hdepth : depth = o.depthSmallerFirst 1 := by
    show (sortSegment cfg s ⟨xs, ⟨{}, g⟩⟩).session.tally.maxDepth = _
    rw [htally]
    exact o.deepest_of_ne_leftFirst hcfg
  have hpos : 1 ≤ depth := by
    rw [hdepth]
    exact ho.le_depthSmallerFirst hs 1
  have hbound : 3 * 2 ^ depth ≤ 2 * (s.size + 1) :=
    ho.le_of_le_depthSmallerFirst hpos (Nat.le_of_eq hdepth)
  refine ⟨hpos, hbound, ?_⟩
  apply Nat.le_log_of_pow_le (by decide)
  omega

/-- Five values in descending order, where each pivot is the greatest that is left. -/
theorem maxDepth_logarithmic_descending :
    let depth := (sortSegment { pivot := .firstSlot, schedule := .workStack } (.whole 5)
      ⟨#v[5, 4, 3, 2, 1], ⟨{}, .ofSeed 0⟩⟩).session.tally.maxDepth
    1 ≤ depth ∧ 3 * 2 ^ depth ≤ 2 * (5 + 1) ∧ depth ≤ Nat.log 2 5 :=
  maxDepth_logarithmic { pivot := .firstSlot, schedule := .workStack } (by decide) (.whole 5)
    (by decide) #v[5, 4, 3, 2, 1] (.ofSeed 0)

end Quicksort
