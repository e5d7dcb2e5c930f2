import Mathlib.Order.MinMax
import Quicksort.Proofs.Outline

/-
  The schedule does not change the work.

  If no pivot is drawn at random, a segment has one outline, so every schedule
  makes the same splits, only in another order. The counters are sums over the
  outline and come out the same. Nesting only the smaller sides is never deeper
  than nesting both (`Outline.depthSmallerFirst_le`). No schedule touches the
  generator (`generator_sortSegment`).
-/

namespace Quicksort

variable {n : Nat} {rule : PivotRule} {s : Segment n}

/-- The counters of `t` are those of `u`, and its depth is not greater. -/
structure Tally.NoDeeper (t u : Tally) : Prop where
  comparisons : t.comparisons = u.comparisons
  swaps : t.swaps = u.swaps
  partitions : t.partitions = u.partitions
  maxDepth : t.maxDepth ≤ u.maxDepth

theorem Tally.NoDeeper.of_depth_le (t w : Tally) {d e : Nat} (h : d ≤ e) :
    (t + (w + { maxDepth := d })).NoDeeper (t + (w + { maxDepth := e })) where
  comparisons := rfl
  swaps := rfl
  partitions := rfl
  maxDepth := by
    simp only [Tally.maxDepth_add]
    exact max_le_max_left _ (max_le_max_left _ h)

namespace Outline

theorem depthSmallerFirst_le (o : Outline) {d e : Nat} (h : d ≤ e) :
    o.depthSmallerFirst d ≤ o.depthLeftFirst e := by
  induction o generalizing d e with
  | leaf size => exact Nat.le_refl 0
  | node work left right ihl ihr =>
    -- The side that is not nested gains a level on the right of the inequality.
    have hstep : d + 1 ≤ e + 1 := Nat.succ_le_succ h
    have hstay : d ≤ e + 1 := Nat.le_succ_of_le h
    rw [depthSmallerFirst, depthLeftFirst]
    by_cases hlt : left.size < right.size
    · rw [if_pos hlt]
      exact max_le_max h (max_le_max (ihl hstep) (ihr hstay))
    · rw [if_neg hlt]
      exact max_le_max h (max_le_max (ihl hstay) (ihr hstep))

theorem deepest_le_leftFirst (schedule : Schedule) (o : Outline) :
    o.deepest schedule ≤ o.deepest .leftFirst := by
  cases schedule with
  | leftFirst => exact Nat.le_refl _
  | smallerFirst | workStack => exact o.depthSmallerFirst_le (Nat.le_refl 1)

end Outline

/-! ## The generator -/

theorem generator_of_split {c : Cut s} {h : 2 ≤ s.size} {depth : Nat} {st st' : State n}
    (hrule : rule ≠ .random) (hs : split rule s h (st.reach depth) = (c, st')) :
    st'.session.generator = st.session.generator := by
  have hg := generator_split rule h (st.reach depth)
  rw [hs, PivotRule.advance_of_ne_random hrule] at hg
  exact hg

theorem generator_sortLeftFirst (hrule : rule ≠ .random) (depth : Nat) (s : Segment n)
    (st : State n) :
    (sortLeftFirst rule depth s st).session.generator = st.session.generator := by
  fun_induction sortLeftFirst rule depth s st with
  | case1 depth s st h c st' hs st'' ihl ihr =>
    rw [ihr, ihl, generator_of_split hrule hs]
  | case2 => rfl

theorem generator_sortSmallerFirst (hrule : rule ≠ .random) (depth : Nat) (s : Segment n)
    (st : State n) :
    (sortSmallerFirst rule depth s st).session.generator = st.session.generator := by
  fun_induction sortSmallerFirst rule depth s st with
  | case1 depth s st h c st' hs hlt st'' ihl ihr =>
    rw [ihr, ihl, generator_of_split hrule hs]
  | case2 depth s st h c st' hs hge st'' ihr ihl =>
    rw [ihl, ihr, generator_of_split hrule hs]
  | case3 => rfl

theorem generator_sortSegment (hrule : rule ≠ .random) (schedule : Schedule) (s : Segment n)
    (st : State n) :
    (sortSegment ⟨rule, schedule⟩ s st).session.generator = st.session.generator := by
  cases schedule with
  | leftFirst => exact generator_sortLeftFirst hrule 1 s st
  | smallerFirst => exact generator_sortSmallerFirst hrule 1 s st
  | workStack =>
    simp only [sortSegment, sortWorkStack_eq]
    exact generator_sortSmallerFirst hrule 1 s st

/-! ## The counters -/

theorem noDeeper_sortSegment (hrule : rule ≠ .random) (schedule : Schedule) (s : Segment n)
    (st : State n) :
    (sortSegment ⟨rule, schedule⟩ s st).session.tally.NoDeeper
      (sortSegment ⟨rule, .leftFirst⟩ s st).session.tally := by
  obtain ⟨o, ho, htally⟩ := sortSegment_outline ⟨rule, schedule⟩ s st
  obtain ⟨o', ho', htally'⟩ := sortSegment_outline ⟨rule, .leftFirst⟩ s st
  obtain rfl : o = o' := ho.unique hrule ho'
  rw [htally, htally']
  exact .of_depth_le _ _ (o.deepest_le_leftFirst schedule)

/-- Without random pivots the schedules leave the same buffer after the same comparisons,
swaps and partitions, `leftFirst` nests deepest, and the generator stays where it is. -/
theorem schedules_agree (rule : PivotRule) (hrule : rule ≠ .random) :
    (∀ (n : Nat) (s : Segment n) (st : State n) (schedule : Schedule),
      let st' := sortSegment ⟨rule, schedule⟩ s st
      let base := sortSegment ⟨rule, .leftFirst⟩ s st
      st'.buffer = base.buffer ∧ st'.session.tally.NoDeeper base.session.tally ∧
        st'.session.generator = st.session.generator) ∧
    (∀ (xs : Array Int32) (schedule : Schedule),
      let out := sortAll ⟨rule, schedule⟩ xs
      let base := sortAll ⟨rule, .leftFirst⟩ xs
      out.buffer = base.buffer ∧ out.tally.NoDeeper base.tally) := by
  refine ⟨?_, ?_⟩
  · intro n s st schedule
    refine ⟨?_, noDeeper_sortSegment hrule schedule s st,
      generator_sortSegment hrule schedule s st⟩
    exact sortSegment_buffer_eq _ _ s st.buffer st.session st.session
  · intro xs schedule
    refine ⟨?_, noDeeper_sortSegment hrule schedule (.whole xs.size) ⟨xs.toVector, .fresh⟩⟩
    rw [sortAll, sortAll, sortFresh_eq, sortFresh_eq]

/-- Medians are not drawn, so the stack does the work of the recursion. -/
theorem schedules_agree_median :
    let out := sortAll ⟨.medianOfThree, .workStack⟩ #[3, 1, 2, 3, 0]
    let base := sortAll ⟨.medianOfThree, .leftFirst⟩ #[3, 1, 2, 3, 0]
    PivotRule.medianOfThree ≠ .random ∧ out.buffer = base.buffer ∧ out.tally.NoDeeper base.tally :=
  ⟨by decide, (schedules_agree .medianOfThree (by decide)).2 #[3, 1, 2, 3, 0] .workStack⟩

end Quicksort
