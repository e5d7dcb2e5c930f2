import Quicksort.Proofs.Rearrangement
import Quicksort.Proofs.Scan
import Quicksort.Split

/-
  A split separates the values around its pivot.

  While the scan runs, the pivot stands in the first slot, no value left of the
  left cursor is greater than the pivot, and every value right of the right
  cursor is (`Scan.Separates`). A round keeps this (`Scan.separates_round`), so
  it holds when the scan is over (`Scan.separates_run`). Then the right cursor
  stands on a value that is not greater than the pivot, and exchanging it with
  the pivot leaves a cut with no greater value on its left and only greater
  values on its right (`divided_split`).
-/

namespace Quicksort

variable {n : Nat} {s : Segment n} {pivot : Int32}

namespace Scan

/-- The pivot is in the first slot, and both cursors have only passed values that belong on
their side. -/
structure Separates (c : Scan s pivot) : Prop where
  pivot_first : c.buffer.get ⟨s.lo, c.first_lt⟩ = pivot
  le_pivot : ∀ k : Fin n, ↑k ∈ s → ↑k < c.left → c.buffer.get k ≤ pivot
  pivot_lt : ∀ k : Fin n, ↑k ∈ s → c.right < ↑k → pivot < c.buffer.get k
  right_le_pivot : c.Over → c.buffer.get ⟨c.right, Segment.lt_of_mem c.right_mem⟩ ≤ pivot

theorem separates_start (xs : Vector Int32 n) (h : 0 < s.size) (t : Tally) :
    (start xs s h t).Separates where
  pivot_first := rfl
  le_pivot k hk hlt := absurd hk.1 (Nat.not_le.mpr hlt)
  pivot_lt k hk hlt := by
    have := hk.2
    simp only [start] at hlt
    omega
  right_le_pivot hover := by
    -- The cursors start in the same slot, which holds the pivot.
    have heq : s.hi - 1 = s.lo := Nat.le_antisymm hover (Segment.hi_sub_one_mem h).1
    simp only [start, heq]
    exact Int32.le_refl _

namespace Separates

variable {c : Scan s pivot} {k : Fin n}

/-- Up to its stop the left cursor has passed no value greater than the pivot, in this round
and before it. -/
theorem le_pivot_of_lt_leftStop (h : c.Separates) (hk : ↑k ∈ s) (hki : ↑k < c.leftStop.1) :
    c.buffer.get k ≤ pivot := by
  by_cases hkl : ↑k < c.left
  · exact h.le_pivot k hk hkl
  · exact c.get_le_of_lt_leftStop (Nat.le_of_not_lt hkl) hki

theorem pivot_lt_of_rightStop_lt (h : c.Separates) {count : Nat} (hk : ↑k ∈ s)
    (hjk : (c.rightStop count).1 < ↑k) : pivot < c.buffer.get k := by
  by_cases hkr : c.right < ↑k
  · exact h.pivot_lt k hk hkr
  · exact c.lt_get_of_rightStop_lt (Nat.le_of_not_lt hkr) hjk

end Separates

theorem separates_round {c : Scan s pivot} (h : c.Separates) (hover : ¬ c.Over) :
    c.round.Separates := by
  have hleft : c.left < c.leftStop.1 := c.left_lt_leftStop hover
  have hle (k : Fin n) (hk : ↑k ∈ s) (hki : ↑k < c.leftStop.1) : c.buffer.get k ≤ pivot :=
    h.le_pivot_of_lt_leftStop hk hki
  have hgt (k : Fin n) (hk : ↑k ∈ s) (hjk : (c.rightStop c.leftStop.2).1 < ↑k) :
      pivot < c.buffer.get k := h.pivot_lt_of_rightStop_lt hk hjk
  have hstop (k : Fin n) (hk : (c.rightStop c.leftStop.2).1 = k) (hlt : s.lo < ↑k) :
      c.buffer.get k ≤ pivot := c.get_rightStop_le hk hlt
  have hlo : s.lo < c.leftStop.1 := Nat.lt_of_le_of_lt c.left_mem.1 hleft
  have hi : c.leftStop.1 ∈ s := c.leftStop_mem
  have hj : (c.rightStop c.leftStop.2).1 ∈ s := c.rightStop_mem _
  obtain ⟨hl, hr, hcase⟩ :=
    c.round_cases (i := c.leftStop.1) (j := (c.rightStop c.leftStop.2).1) rfl rfl
  generalize c.leftStop.1 = i at *
  generalize (c.rightStop c.leftStop.2).1 = j at *
  rcases hcase with ⟨hin, hjn, hij, hb, -⟩ | ⟨hji, hb, -⟩
  · -- The exchanged slots are the stops, so only what the cursors passed is spoken about.
    have hkeep (k : Fin n) (hki : ↑k ≠ i) (hkj : ↑k ≠ j) :
        c.round.buffer.get k = c.buffer.get k := by
      rw [hb]
      exact Vector.getElem_swap_of_ne hki hkj
    refine ⟨?_, ?_, ?_, ?_⟩
    · rw [hkeep _ (by simp only; omega) (by simp only; omega)]
      exact h.pivot_first
    · intro k hk hki
      rw [hl] at hki
      rw [hkeep k (by omega) (by omega)]
      exact hle k hk hki
    · intro k hk hjk
      rw [hr] at hjk
      rw [hkeep k (by omega) (by omega)]
      exact hgt k hk hjk
    · intro hover'
      rw [Over, hl, hr] at hover'
      exact absurd hij (Nat.not_lt.mpr hover')
  · refine ⟨?_, ?_, ?_, ?_⟩
    · rw [hb]
      exact h.pivot_first
    · intro k hk hki
      rw [hb]
      exact hle k hk (hl ▸ hki)
    · intro k hk hjk
      rw [hb]
      exact hgt k hk (hr ▸ hjk)
    · intro _
      -- Where the right cursor ran into the first slot, it stands on the pivot itself.
      rcases Nat.lt_or_eq_of_le hj.1 with hlt | heq
      · rw [hb]
        exact hstop _ hr.symm (hr ▸ hlt)
      · have hfirst : c.round.right = s.lo := hr.trans heq.symm
        simp only [hb, hfirst, h.pivot_first]
        exact Int32.le_refl _

theorem separates_run {c : Scan s pivot} (h : c.Separates) : c.run.Separates ∧ c.run.Over := by
  fun_induction Scan.run c with
  | case1 c hover => exact ⟨h, hover⟩
  | case2 c hover ih => exact ih (separates_round h hover)

end Scan

/-- The pivot stands in the cut, no value left of it is greater, and every value right of it
is. -/
structure Divided (c : Cut s) (xs : Vector Int32 n) : Prop where
  left_le : ∀ k : Fin n, ↑k ∈ c.left → xs.get k ≤ xs.get c.index
  lt_right : ∀ k : Fin n, ↑k ∈ c.right → xs.get c.index < xs.get k

theorem Divided.le_of_mem_left {c : Cut s} {xs : Vector Int32 n} (h : Divided c xs) {x : Int32}
    (hx : x ∈ slice xs c.left) : x ≤ xs.get c.index := by
  obtain ⟨k, hk, rfl⟩ := exists_of_mem_slice hx
  exact h.left_le k hk

theorem Divided.lt_of_mem_right {c : Cut s} {xs : Vector Int32 n} (h : Divided c xs) {x : Int32}
    (hx : x ∈ slice xs c.right) : xs.get c.index < x := by
  obtain ⟨k, hk, rfl⟩ := exists_of_mem_slice hx
  exact h.lt_right k hk

/-- When the scan is over, exchanging the pivot with the value under the right cursor divides
the segment there. -/
theorem Scan.Separates.divides {c : Scan s pivot} (h : c.Separates) (hover : c.Over) {cut : Cut s}
    (hslot : cut.slot = c.right) {ys : Vector Int32 n} (hjn : c.right < n)
    (hys : ys = c.buffer.swap s.lo c.right c.first_lt hjn) : Divided cut ys := by
  have hpivot : ys.get cut.index = pivot := by
    have hindex : cut.index = ⟨c.right, hjn⟩ := Fin.ext hslot
    rw [hindex, hys, get_eq, Vector.getElem_swap_right]
    exact h.pivot_first
  refine ⟨?_, ?_⟩
  · intro k hk
    rw [hpivot]
    have hkj : ↑k < c.right := hslot ▸ hk.2
    by_cases hkl : ↑k = s.lo
    · obtain rfl : k = ⟨s.lo, c.first_lt⟩ := Fin.ext hkl
      rw [hys, get_eq, Vector.getElem_swap_left]
      exact h.right_le_pivot hover
    · rw [hys, get_eq, Vector.getElem_swap_of_ne hkl (Nat.ne_of_lt hkj)]
      exact h.le_pivot k (Cut.mem_of_mem_left hk) (Nat.lt_of_lt_of_le hkj hover)
  · intro k hk
    rw [hpivot]
    have hjk : c.right < ↑k := hslot ▸ hk.1
    have hlk : s.lo < ↑k := Nat.lt_of_le_of_lt c.right_mem.1 hjk
    rw [hys, get_eq, Vector.getElem_swap_of_ne (Nat.ne_of_gt hlk) (Nat.ne_of_gt hjk)]
    exact h.pivot_lt k (Cut.mem_of_mem_right hk) hjk

theorem divided_partition (h : 0 < s.size) (st : State n) :
    Divided (partition s h st).1 (partition s h st).2.buffer := by
  obtain ⟨hsep, hover⟩ : (scanned s h st).Separates ∧ (scanned s h st).Over :=
    Scan.separates_run (Scan.separates_start st.buffer h _)
  have hjn : (scanned s h st).right < n := Segment.lt_of_mem (scanned s h st).right_mem
  obtain ⟨hslot, -, hcase⟩ := partition_cases h st rfl
  refine hsep.divides hover hslot hjn ?_
  rcases hcase with ⟨hfirst, hb, -⟩ | ⟨_, _, hb, -⟩
  · simp only [hb, hfirst, swap_self]
  · exact hb

theorem get_index_partition (h : 0 < s.size) (st : State n) :
    (partition s h st).2.buffer.get (partition s h st).1.index =
      st.buffer.get ⟨s.lo, s.lo_lt h⟩ := by
  obtain ⟨hsep, hover⟩ : (scanned s h st).Separates ∧ (scanned s h st).Over :=
    Scan.separates_run (Scan.separates_start st.buffer h _)
  obtain ⟨hslot, -, hcase⟩ := partition_cases h st rfl
  have hindex : (partition s h st).1.index =
      ⟨(scanned s h st).right, Segment.lt_of_mem (scanned s h st).right_mem⟩ := Fin.ext hslot
  rw [hindex]
  rcases hcase with ⟨hfirst, hb, -⟩ | ⟨hjn, -, hb, -⟩
  · simp only [hb, hfirst]
    exact hsep.pivot_first
  · rw [hb, get_eq, Vector.getElem_swap_right]
    exact hsep.pivot_first

theorem divided_split (rule : PivotRule) (h : 2 ≤ s.size) (st : State n) :
    Divided (split rule s h st).1 (split rule s h st).2.buffer :=
  divided_partition (Nat.zero_lt_of_lt h) (placePivot rule s st)

/-! ## Both sides are worked on later -/

namespace Divided

variable {c : Cut s} {σ : Equiv.Perm (Fin n)} {xs ys : Vector Int32 n}

theorem rearrange_left (h : Divided c xs) (hr : Rearranges c.left σ xs ys) : Divided c ys := by
  have hslot : ys.get c.index = xs.get c.index := hr.frame Cut.slot_not_mem_left
  refine ⟨?_, ?_⟩
  · rw [hslot]
    exact hr.forall_mem (P := (· ≤ xs.get c.index)) h.left_le
  · intro k hk
    rw [hslot, hr.frame fun hl => Cut.not_mem_right_of_mem_left hl hk]
    exact h.lt_right k hk

theorem rearrange_right (h : Divided c xs) (hr : Rearranges c.right σ xs ys) : Divided c ys := by
  have hslot : ys.get c.index = xs.get c.index := hr.frame Cut.slot_not_mem_right
  refine ⟨?_, ?_⟩
  · intro k hk
    rw [hslot, hr.frame (Cut.not_mem_right_of_mem_left hk)]
    exact h.left_le k hk
  · rw [hslot]
    exact hr.forall_mem (P := (xs.get c.index < ·)) h.lt_right

end Divided

end Quicksort
