import Quicksort.Proofs.Agenda
import Quicksort.Proofs.Partition
import Quicksort.Proofs.Tandem

/-
  Every schedule sorts.

  A sort of a segment rearranges it and leaves its slots in ascending order
  (`Sorts`). If the two sides of a cut are sorted one after the other, in either
  order, the whole segment is (`Divided.sorts_left_right`,
  `Divided.sorts_right_left`): each side only moves its own values, so the cut
  still divides them. The recursive schedules follow by induction on their
  calls, and the explicit stack does what the recursion does.

  What a caller sees is `IsSorting`: the same values in ascending order inside
  the segment, and every slot outside it unchanged. There is only one such
  buffer (`IsSorting.unique`), so pivots, schedules and generators cannot show
  in it.
-/

namespace Quicksort

variable {n : Nat} {s t : Segment n} {c : Cut s} {σ : Equiv.Perm (Fin n)}
  {xs ys zs : Vector Int32 n}

/-- The slots of the segment hold ascending values. -/
def Ordered (s : Segment n) (xs : Vector Int32 n) : Prop :=
  ∀ i j : Fin n, ↑i ∈ s → ↑j ∈ s → i ≤ j → xs.get i ≤ xs.get j

theorem ordered_of_size_lt_two (h : s.size < 2) (xs : Vector Int32 n) : Ordered s xs := by
  intro i j hi hj _
  rw [Fin.ext (Segment.eq_of_mem_of_size_lt_two h hi hj)]
  exact Int32.le_refl _

theorem Ordered.of_agree (h : Ordered s xs) (he : ∀ k : Fin n, ↑k ∈ s → ys.get k = xs.get k) :
    Ordered s ys := by
  intro i j hi hj hij
  rw [he i hi, he j hj]
  exact h i j hi hj hij

theorem Divided.ordered (hd : Divided c xs) (hl : Ordered c.left xs) (hr : Ordered c.right xs) :
    Ordered s xs := by
  have hle (k : Fin n) (hk : ↑k ∈ s) (hkc : ↑k ≤ c.slot) : xs.get k ≤ xs.get c.index := by
    rcases Nat.lt_or_eq_of_le hkc with hlt | heq
    · exact hd.left_le k ⟨hk.1, hlt⟩
    · rw [show k = c.index from Fin.ext heq]
      exact Int32.le_refl _
  have hge (k : Fin n) (hk : ↑k ∈ s) (hck : c.slot ≤ ↑k) : xs.get c.index ≤ xs.get k := by
    rcases Nat.lt_or_eq_of_le hck with hlt | heq
    · exact Int32.le_of_lt (hd.lt_right k ⟨hlt, hk.2⟩)
    · rw [show k = c.index from Fin.ext heq.symm]
      exact Int32.le_refl _
  intro i j hi hj hij
  -- Both slots left of the cut, both right of it, or the pivot between them.
  by_cases hjc : ↑j < c.slot
  · exact hl i j ⟨hi.1, Nat.lt_of_le_of_lt hij hjc⟩ ⟨hj.1, hjc⟩ hij
  · by_cases hci : c.slot < ↑i
    · exact hr i j ⟨hci, hi.2⟩ ⟨Nat.lt_of_lt_of_le hci hij, hj.2⟩ hij
    · exact Int32.le_trans (hle i hi (Nat.le_of_not_lt hci)) (hge j hj (Nat.le_of_not_lt hjc))

/-- From `xs` to `ys` the segment is rearranged into ascending order. -/
def Sorts (s : Segment n) (xs ys : Vector Int32 n) : Prop :=
  ∃ σ, Rearranges s σ xs ys ∧ Ordered s ys

namespace Sorts

theorem of_size_lt_two (h : s.size < 2) (xs : Vector Int32 n) : Sorts s xs xs :=
  ⟨1, .refl s xs, ordered_of_size_lt_two h xs⟩

theorem of_rearranges (hr : Rearranges s σ xs ys) (hs : Sorts s ys zs) : Sorts s xs zs := by
  obtain ⟨τ, hτ, ho⟩ := hs
  exact ⟨σ * τ, hr.trans hτ, ho⟩

end Sorts

namespace Divided

theorem sorts_left_right (hd : Divided c xs) (hl : Sorts c.left xs ys)
    (hr : Sorts c.right ys zs) : Sorts s xs zs := by
  obtain ⟨σ, hσ, hol⟩ := hl
  obtain ⟨τ, hτ, hor⟩ := hr
  -- The cut outlasts both sorts, and the left side is not touched by the second.
  have hdz : Divided c zs := (hd.rearrange_left hσ).rearrange_right hτ
  have holz : Ordered c.left zs :=
    hol.of_agree fun k hk => hτ.frame (Cut.not_mem_right_of_mem_left hk)
  have hmoves : Rearranges s (σ * τ) xs zs :=
    (hσ.mono fun _ => Cut.mem_of_mem_left).trans (hτ.mono fun _ => Cut.mem_of_mem_right)
  exact ⟨σ * τ, hmoves, hdz.ordered holz hor⟩

theorem sorts_right_left (hd : Divided c xs) (hr : Sorts c.right xs ys)
    (hl : Sorts c.left ys zs) : Sorts s xs zs := by
  obtain ⟨σ, hσ, hor⟩ := hr
  obtain ⟨τ, hτ, hol⟩ := hl
  have hdz : Divided c zs := (hd.rearrange_right hσ).rearrange_left hτ
  have horz : Ordered c.right zs :=
    hor.of_agree fun k hk => hτ.frame fun hk' => Cut.not_mem_right_of_mem_left hk' hk
  have hmoves : Rearranges s (σ * τ) xs zs :=
    (hσ.mono fun _ => Cut.mem_of_mem_right).trans (hτ.mono fun _ => Cut.mem_of_mem_left)
  exact ⟨σ * τ, hmoves, hdz.ordered hol horz⟩

end Divided

/-! ## The schedules -/

/-- A split, as the schedules use it: it rearranges the segment and divides it. -/
theorem split_spec {rule : PivotRule} {h : 2 ≤ s.size} {st st' : State n}
    (hs : split rule s h st = (c, st')) :
    (∃ σ, Rearranges s σ st.buffer st'.buffer) ∧ Divided c st'.buffer := by
  have hr := split_rearranges rule h st
  have hd := divided_split rule h st
  rw [hs] at hr hd
  exact ⟨hr, hd⟩

theorem sortLeftFirst_sorts (rule : PivotRule) (depth : Nat) (s : Segment n) (st : State n) :
    Sorts s st.buffer (sortLeftFirst rule depth s st).buffer := by
  fun_induction sortLeftFirst rule depth s st with
  | case1 depth s st h c st' hs st'' ihl ihr =>
    obtain ⟨⟨σ, hσ⟩, hd⟩ := split_spec hs
    exact .of_rearranges hσ (hd.sorts_left_right ihl ihr)
  | case2 depth s st h => exact .of_size_lt_two (Nat.lt_of_not_le h) _

theorem sortSmallerFirst_sorts (rule : PivotRule) (depth : Nat) (s : Segment n) (st : State n) :
    Sorts s st.buffer (sortSmallerFirst rule depth s st).buffer := by
  fun_induction sortSmallerFirst rule depth s st with
  | case1 depth s st h c st' hs hlt st'' ihl ihr =>
    obtain ⟨⟨σ, hσ⟩, hd⟩ := split_spec hs
    exact .of_rearranges hσ (hd.sorts_left_right ihl ihr)
  | case2 depth s st h c st' hs hge st'' ihr ihl =>
    obtain ⟨⟨σ, hσ⟩, hd⟩ := split_spec hs
    exact .of_rearranges hσ (hd.sorts_right_left ihr ihl)
  | case3 depth s st h => exact .of_size_lt_two (Nat.lt_of_not_le h) _

theorem sortSegment_sorts (cfg : Config) (s : Segment n) (st : State n) :
    Sorts s st.buffer (sortSegment cfg s st).buffer := by
  obtain ⟨rule, schedule⟩ := cfg
  cases schedule with
  | leftFirst => exact sortLeftFirst_sorts rule 1 s st
  | smallerFirst => exact sortSmallerFirst_sorts rule 1 s st
  | workStack =>
    simp only [sortSegment, sortWorkStack_eq]
    exact sortSmallerFirst_sorts rule 1 s st

/-! ## What a caller sees -/

/-- `ys` is `xs` with the values of the segment in ascending order, and nothing else
changed. -/
structure IsSorting (s : Segment n) (xs ys : Vector Int32 n) : Prop where
  perm : (slice ys s).Perm (slice xs s)
  ascending : (slice ys s).Pairwise (· ≤ ·)
  frame : ∀ k : Fin n, ↑k ∉ s → ys.get k = xs.get k

theorem Sorts.isSorting (h : Sorts s xs ys) : IsSorting s xs ys := by
  obtain ⟨σ, hσ, ho⟩ := h
  exact ⟨hσ.perm_slice, pairwise_slice_iff.mpr ho, fun k hk => hσ.frame hk⟩

theorem IsSorting.unique (hy : IsSorting s xs ys) (hz : IsSorting s xs zs) : ys = zs := by
  -- Ascending lists with the same values are equal; outside the segment nothing moved.
  have hslice : slice ys s = slice zs s :=
    (hy.perm.trans hz.perm.symm).eq_of_pairwise (fun _ _ _ _ => Int32.le_antisymm)
      hy.ascending hz.ascending
  ext k hk
  by_cases hks : k ∈ s
  · exact slice_eq_iff.mp hslice ⟨k, hk⟩ hks
  · exact (hy.frame ⟨k, hk⟩ hks).trans (hz.frame ⟨k, hk⟩ hks).symm

theorem sortSegment_isSorting (cfg : Config) (s : Segment n) (st : State n) :
    IsSorting s st.buffer (sortSegment cfg s st).buffer :=
  (sortSegment_sorts cfg s st).isSorting

theorem sortSegment_buffer_eq (cfg cfg' : Config) (s : Segment n) (xs : Vector Int32 n)
    (se se' : Session) :
    (sortSegment cfg s ⟨xs, se⟩).buffer = (sortSegment cfg' s ⟨xs, se'⟩).buffer :=
  (sortSegment_isSorting cfg s ⟨xs, se⟩).unique (sortSegment_isSorting cfg' s ⟨xs, se'⟩)

theorem sortFresh_eq (cfg : Config) (xs : Array Int32) (s : Segment xs.size) :
    sortFresh cfg xs s =
      { buffer := (sortSegment {} s ⟨xs.toVector, .fresh⟩).buffer.toArray
        tally := (sortSegment cfg s ⟨xs.toVector, .fresh⟩).session.tally } := by
  simp only [sortFresh, sortSegment_buffer_eq cfg {} s xs.toVector .fresh .fresh]

theorem sortWith_eq_ok {xs : Array Int32} {first last : Nat} (cfg : Config) (hle : first ≤ last)
    (hlt : last < xs.size) :
    sortWith cfg xs first last =
      .ok (sortFresh cfg xs ⟨first, last + 1, Nat.le_succ_of_le hle, hlt⟩) := by
  rw [sortWith, Segment.ofRange_of_le hle hlt]
  rfl

/-- Every sort sorts. A segment is sorted from every state; which pivots, which schedule and
which session were used cannot be told from the buffer. A range that fits is never refused,
and the whole buffer, of whatever length, is sorted by `sortAll`. -/
theorem sorts_every_range :
    (∀ (n : Nat) (cfg : Config) (s : Segment n) (st : State n),
      IsSorting s st.buffer (sortSegment cfg s st).buffer) ∧
    (∀ (n : Nat) (cfg cfg' : Config) (s : Segment n) (xs : Vector Int32 n) (se se' : Session),
      (sortSegment cfg s ⟨xs, se⟩).buffer = (sortSegment cfg' s ⟨xs, se'⟩).buffer) ∧
    (∀ (xs : Array Int32) (first last : Nat) (hle : first ≤ last) (hlt : last < xs.size),
      ∃ ys, IsSorting ⟨first, last + 1, Nat.le_succ_of_le hle, hlt⟩ xs.toVector ys ∧
        sort xs first last = .ok ys.toArray ∧
        ∀ cfg, ∃ t, sortWith cfg xs first last = .ok { buffer := ys.toArray, tally := t }) ∧
    (∀ xs : Array Int32, ∃ ys : Array Int32,
      ys.toList.Perm xs.toList ∧ ys.toList.Pairwise (· ≤ ·) ∧
        ∀ cfg, (sortAll cfg xs).buffer = ys) := by
  refine ⟨fun _ => sortSegment_isSorting, fun _ => sortSegment_buffer_eq, ?_, ?_⟩
  · intro xs first last hle hlt
    let range : Segment xs.size := ⟨first, last + 1, Nat.le_succ_of_le hle, hlt⟩
    refine ⟨_, sortSegment_isSorting {} range ⟨xs.toVector, .fresh⟩, ?_, ?_⟩
    · rw [sort, sortWith_eq_ok {} hle hlt]
      rfl
    · intro cfg
      refine ⟨(sortFresh cfg xs range).tally, ?_⟩
      rw [sortWith_eq_ok cfg hle hlt, sortFresh_eq]
  · intro xs
    obtain ⟨hperm, hasc, -⟩ := sortSegment_isSorting {} (.whole xs.size) ⟨xs.toVector, .fresh⟩
    simp only [slice_whole] at hperm hasc
    refine ⟨_, hperm, hasc, ?_⟩
    intro cfg
    rw [sortAll, sortFresh_eq]

/-- Slots 1 to 3 of a buffer of five are sorted by every configuration. -/
theorem sorts_every_range_middle :
    1 ≤ 3 ∧ 3 < (#[9, 7, -2, 7, 0] : Array Int32).size ∧
      ∃ ys, IsSorting ⟨1, 4, by decide, by decide⟩ (#[9, 7, -2, 7, 0] : Array Int32).toVector ys ∧
        sort #[9, 7, -2, 7, 0] 1 3 = .ok ys.toArray ∧
        ∀ cfg, ∃ t, sortWith cfg #[9, 7, -2, 7, 0] 1 3 = .ok { buffer := ys.toArray, tally := t } :=
  ⟨by decide, by decide, sorts_every_range.2.2.1 #[9, 7, -2, 7, 0] 1 3 (by decide) (by decide)⟩

end Quicksort
