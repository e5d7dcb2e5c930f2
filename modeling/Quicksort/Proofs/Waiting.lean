import Mathlib.Logic.Function.Iterate
import Quicksort.Proofs.Commute
import Quicksort.Proofs.Counters

/-
  What the explicit stack holds while a sort is under way.

  At every step the current segment and those that wait have no slot in common
  and lie inside the segment that is sorted, and no more segments wait than the
  greatest depth recorded (`Agenda.Tidy`). What is left to do is to sort each of
  them (`Agenda.run_eq_drain`). So a slot in none of them has its final value
  already, and each of them has all the values that it will have at the end
  (`Agenda.get_drain`, `Agenda.perm_drain`).

  A split takes one slot off the agenda, so the steps come to an end
  (`Agenda.exists_done`). Then nothing waits, and the buffer is sorted.
-/

namespace Quicksort

variable {n : Nat} {s whole : Segment n} {a : Agenda n}

namespace Segment

/-- The bounds of `r` lie between those of `s`. -/
def Within (r s : Segment n) : Prop := s.lo ≤ r.lo ∧ r.hi ≤ s.hi

theorem Within.trans {r t : Segment n} (h : r.Within s) (h' : s.Within t) : r.Within t :=
  ⟨Nat.le_trans h'.1 h.1, Nat.le_trans h.2 h'.2⟩

end Segment

namespace Cut

variable (c : Cut s)

theorem left_within : c.left.Within s :=
  ⟨Nat.le_refl _, Nat.le_of_lt c.mem.2⟩

theorem right_within : c.right.Within s :=
  ⟨Nat.le_succ_of_le c.mem.1, Nat.le_refl _⟩

theorem apart_sides {pending : List (Segment n)} (h : (s :: pending).Pairwise Segment.Apart) :
    (c.left :: c.right :: pending).Pairwise Segment.Apart := by
  obtain ⟨hcurrent, hpending⟩ := List.pairwise_cons.mp h
  refine .cons ?_ (.cons ?_ hpending)
  · intro r hr k hk
    rcases List.mem_cons.mp hr with rfl | hr
    · exact not_mem_right_of_mem_left hk
    · exact hcurrent r hr k (mem_of_mem_left hk)
  · intro r hr k hk
    exact hcurrent r hr k (mem_of_mem_right hk)

end Cut

namespace Agenda

def segments (a : Agenda n) : List (Segment n) := a.current :: a.pending

/-- The segments that are left lie apart, inside the segment that is sorted, and no more of them
wait than the greatest depth recorded. -/
structure Tidy (whole : Segment n) (a : Agenda n) : Prop where
  apart : a.segments.Pairwise Segment.Apart
  inside : ∀ r ∈ a.segments, r.Within whole
  length_le : a.pending.length ≤ a.state.session.tally.maxDepth

theorem tidy_start (s : Segment n) (st : State n) : Tidy s ⟨st, s, []⟩ where
  apart := List.pairwise_singleton ..
  inside r hr := by
    obtain rfl : r = s := List.mem_singleton.mp hr
    exact ⟨Nat.le_refl _, Nat.le_refl _⟩
  length_le := Nat.zero_le _

/-! ## A step -/

theorem segments_step_of_two_le (rule : PivotRule) (a : Agenda n) (h : 2 ≤ a.current.size) :
    ∃ c : Cut a.current, (a.step rule).segments.Perm (c.left :: c.right :: a.pending) := by
  refine ⟨(split rule a.current h (a.state.reach (a.pending.length + 1))).1, ?_⟩
  simp only [step, dif_pos h, descendInto]
  split
  · exact .refl _
  · exact .swap ..

theorem maxDepth_step_of_two_le (rule : PivotRule) (a : Agenda n) (h : 2 ≤ a.current.size) :
    (a.step rule).state.session.tally.maxDepth =
      max a.state.session.tally.maxDepth (a.pending.length + 1) := by
  rw [state_step_of_two_le rule a h]
  obtain ⟨w, hw, ht⟩ := split_work (Prod.mk.eta
    (p := split rule a.current h (a.state.reach (a.pending.length + 1)))).symm
  rw [ht, Tally.maxDepth_add, hw.maxDepth_eq, Nat.max_zero]
  rfl

theorem Tidy.step_of_two_le (ha : a.Tidy whole) (rule : PivotRule) (h : 2 ≤ a.current.size) :
    (a.step rule).Tidy whole := by
  obtain ⟨c, hperm⟩ := segments_step_of_two_le rule a h
  have hcurrent : a.current.Within whole := ha.inside _ List.mem_cons_self
  refine ⟨?_, ?_, ?_⟩
  · rw [hperm.pairwise_iff fun h => Segment.Apart.symm h]
    exact c.apart_sides ha.apart
  · intro r hr
    rw [hperm.mem_iff, List.mem_cons, List.mem_cons] at hr
    rcases hr with rfl | rfl | hr
    · exact c.left_within.trans hcurrent
    · exact c.right_within.trans hcurrent
    · exact ha.inside r (List.mem_cons_of_mem _ hr)
  · rw [length_pending_step_of_two_le rule a h, maxDepth_step_of_two_le rule a h]
    exact Nat.le_max_right ..

theorem Tidy.step_of_lt_two (ha : a.Tidy whole) (rule : PivotRule) (h : ¬ 2 ≤ a.current.size) :
    (a.step rule).Tidy whole := by
  obtain ⟨st, s, pending⟩ := a
  simp only [Agenda.step, dif_neg h]
  cases pending with
  | nil => exact ha
  | cons next rest =>
    exact ⟨ha.apart.of_cons, fun r hr => ha.inside r (List.mem_cons_of_mem s hr),
      Nat.le_of_succ_le ha.length_le⟩

theorem Tidy.step (ha : a.Tidy whole) (rule : PivotRule) : (a.step rule).Tidy whole := by
  by_cases h : 2 ≤ a.current.size
  · exact ha.step_of_two_le rule h
  · exact ha.step_of_lt_two rule h

theorem Tidy.iterate (h : a.Tidy whole) (rule : PivotRule) (k : Nat) :
    ((Agenda.step rule)^[k] a).Tidy whole := by
  induction k with
  | zero => exact h
  | succ k ih =>
    rw [Function.iterate_succ_apply']
    exact ih.step rule

/-! ## What is left to do -/

theorem get_drain (rule : PivotRule) (segments : List (Segment n)) (st : State n) {k : Fin n}
    (hk : ∀ r ∈ segments, ↑k ∉ r) : (drain rule segments st).buffer.get k = st.buffer.get k := by
  induction segments generalizing st with
  | nil => rfl
  | cons s rest ih =>
    obtain ⟨hs, hrest⟩ := List.forall_mem_cons.mp hk
    have hsorting := (sortSmallerFirst_sorts rule (rest.length + 1) s st).isSorting
    rw [drain, ih _ hrest, hsorting.frame k hs]

theorem perm_drain (rule : PivotRule) {segments : List (Segment n)}
    (hapart : segments.Pairwise Segment.Apart) (st : State n) :
    ∀ r ∈ segments, (slice (drain rule segments st).buffer r).Perm (slice st.buffer r) := by
  induction segments generalizing st with
  | nil => simp
  | cons s rest ih =>
    obtain ⟨hfirst, hrest⟩ := List.pairwise_cons.mp hapart
    have hsorting := (sortSmallerFirst_sorts rule (rest.length + 1) s st).isSorting
    intro r hr
    rw [drain]
    -- The first segment is not touched after its sort, the others are not before theirs.
    rcases List.mem_cons.mp hr with rfl | hr
    · refine .trans (.of_eq ?_) hsorting.perm
      apply slice_eq_iff.mpr
      intro k hk
      exact get_drain rule rest _ fun t ht => hfirst t ht k hk
    · refine .trans (ih hrest _ r hr) (.of_eq ?_)
      apply slice_eq_iff.mpr
      intro k hk
      exact hsorting.frame k fun hs => hfirst r hr k hs hk

theorem run_step (rule : PivotRule) (a : Agenda n) : (a.step rule).run rule = a.run rule := by
  by_cases hd : a.Done
  · obtain ⟨st, s, pending⟩ := a
    obtain ⟨hsize, rfl⟩ := hd
    simp only [step, dif_neg (Nat.not_le.mpr hsize)]
  · rw [Agenda.run.eq_def rule a, if_neg hd]

theorem run_iterate (rule : PivotRule) (a : Agenda n) (k : Nat) :
    ((Agenda.step rule)^[k] a).run rule = a.run rule := by
  induction k with
  | zero => rfl
  | succ k ih => rw [Function.iterate_succ_apply', run_step, ih]

/-- The steps come to an end, after as many as the agenda has weight at most. -/
theorem exists_done (rule : PivotRule) (a : Agenda n) :
    ∃ m ≤ a.weight, (∀ k < m, ¬ ((Agenda.step rule)^[k] a).Done) ∧
      ((Agenda.step rule)^[m] a).Done ∧ a.run rule = ((Agenda.step rule)^[m] a).state := by
  fun_induction Agenda.run rule a with
  | case1 a hd => exact ⟨0, Nat.zero_le _, fun k hk => absurd hk (Nat.not_lt_zero k), hd, rfl⟩
  | case2 a hd ih =>
    obtain ⟨m, hm, hbefore, hdone, hrun⟩ := ih
    refine ⟨m + 1, Nat.lt_of_le_of_lt hm (a.weight_step_lt rule hd), ?_, hdone, hrun⟩
    intro k hk
    cases k with
    | zero => exact hd
    | succ k => exact hbefore k (Nat.lt_of_succ_lt_succ hk)

end Agenda

/-- The explicit stack at every step of a sort, from every state. The segments that are left lie
apart and inside the segment that is sorted. A slot in none of them has its final value, each of
them has the values that it has in the end, and no more of them wait than the greatest depth
recorded. A split takes one slot off the agenda. So the steps end, and then nothing waits and the
current segment has no two values to sort. -/
theorem agenda_covers_unsorted (rule : PivotRule) (s : Segment n) (st : State n) :
    let a (k : Nat) : Agenda n := (Agenda.step rule)^[k] ⟨st, s, []⟩
    let final := (sortWorkStack rule s st).buffer
    IsSorting s st.buffer final ∧
    (∀ k, (a k).segments.Pairwise Segment.Apart ∧
      (∀ r ∈ (a k).segments, r.Within s) ∧
      (∀ j : Fin n, (∀ r ∈ (a k).segments, ↑j ∉ r) →
        (a k).state.buffer.get j = final.get j) ∧
      (∀ r ∈ (a k).segments, (slice (a k).state.buffer r).Perm (slice final r)) ∧
      (a k).pending.length ≤ (a k).state.session.tally.maxDepth ∧
      (2 ≤ (a k).current.size → (a (k + 1)).load + 1 = (a k).load)) ∧
    ∃ m ≤ 2 * s.size, (∀ k < m, ¬ (a k).Done) ∧
      (a m).pending = [] ∧ (a m).current.size < 2 ∧ sortWorkStack rule s st = (a m).state := by
  intro a final
  refine ⟨?_, ?_, ?_⟩
  · have hsorts := sortSmallerFirst_sorts rule 1 s st
    rw [← sortWorkStack_eq] at hsorts
    exact hsorts.isSorting
  · intro k
    have htidy : (a k).Tidy s := (Agenda.tidy_start s st).iterate rule k
    have hfinal : final = (Agenda.drain rule (a k).segments (a k).state).buffer := by
      rw [Agenda.segments, ← Agenda.run_eq_drain, Agenda.run_iterate]
      rfl
    rw [hfinal]
    refine ⟨htidy.apart, htidy.inside, ?_, ?_, htidy.length_le, ?_⟩
    · intro j hj
      exact (Agenda.get_drain rule (a k).segments (a k).state hj).symm
    · intro r hr
      exact (Agenda.perm_drain rule htidy.apart (a k).state r hr).symm
    · intro htwo
      have hstep : a (k + 1) = (a k).step rule := Function.iterate_succ_apply' ..
      rw [hstep]
      exact (a k).load_step_of_two_le rule htwo
  · obtain ⟨m, hm, hbefore, ⟨hsize, hpending⟩, hrun⟩ := Agenda.exists_done rule ⟨st, s, []⟩
    exact ⟨m, hm, hbefore, hpending, hsize, hrun⟩

/-- After the first split of seven values, the pivot is in its final slot and the left of two
equal sides waits. -/
theorem agenda_covers_unsorted_seven :
    let st : State 7 := ⟨#v[4, 7, 1, 9, 2, 6, 3], .fresh⟩
    let a : Agenda 7 := Agenda.step .firstSlot ⟨st, .whole 7, []⟩
    let left : Segment 7 := ⟨0, 3, by decide, by decide⟩
    let right : Segment 7 := ⟨4, 7, by decide, by decide⟩
    let final := (sortWorkStack .firstSlot (.whole 7) st).buffer
    a.segments = [right, left] ∧ (∀ r ∈ a.segments, 3 ∉ r) ∧ a.state.buffer.get 3 = 4 ∧
      final.get 3 = 4 ∧ 2 ≤ right.size ∧ (slice a.state.buffer left).Perm (slice final left) ∧
      (a.step .firstSlot).load = 5 := by
  intro st a left right final
  obtain ⟨-, hsteps, -⟩ := agenda_covers_unsorted .firstSlot (.whole 7) st
  obtain ⟨-, -, hget, hperm, -, hload⟩ := hsteps 1
  have hsegments : a.segments = [right, left] := by decide +kernel
  have hslot : ∀ r ∈ a.segments, 3 ∉ r := by decide +kernel
  have hvalue : a.state.buffer.get 3 = 4 := by decide +kernel
  have hcount : a.load = 6 := by decide +kernel
  refine ⟨hsegments, hslot, hvalue, (hget 3 hslot).symm.trans hvalue, by decide, ?_, ?_⟩
  · exact hperm left (hsegments ▸ List.mem_cons_of_mem right (List.mem_singleton.mpr rfl))
  · have htwo : 2 ≤ a.current.size := by decide +kernel
    exact Nat.succ.inj ((hload htwo).trans hcount)

end Quicksort
