import Quicksort.Partition.Basic

/-
  What a round of the partition scan does.

  The left cursor passes over values that are at most the pivot and stops at the
  last slot or on a greater value; the right cursor passes over values greater
  than the pivot and stops at the first slot or on a value that is not greater.
  If they have not met there, the two values change places (`Scan.round_cases`).
  After the last round the pivot changes places with the value under the right
  cursor (`partition_cases`).
-/

namespace Quicksort

variable {n : Nat}

/-! ## The cursors -/

section

variable {xs : Vector Int32 n} {pivot : Int32} {first last i j count : Nat}

theorem getElem_le_of_lt_climb {hlast : last < n} {hi : i ≤ last} {k : Nat} (hk : k < n)
    (hik : i ≤ k) (h : k < (climb xs pivot last hlast i count hi).1) : xs[k] ≤ pivot := by
  fun_induction climb xs pivot last hlast i count hi with
  | case1 i count hi hx hlt ih =>
    rcases Nat.lt_or_eq_of_le hik with hik | rfl
    · exact ih hik h
    · exact hx
  | case2 | case3 => exact absurd h (Nat.not_lt.mpr hik)

theorem lt_getElem_climb {hlast : last < n} {hi : i ≤ last} {k : Nat} (hk : k < n)
    (he : (climb xs pivot last hlast i count hi).1 = k) (h : k < last) : pivot < xs[k] := by
  fun_induction climb xs pivot last hlast i count hi with
  | case1 i count hi hx hlt ih => exact ih he
  | case2 i count hi hx hlt =>
    subst he
    exact absurd h hlt
  | case3 i count hi hx =>
    subst he
    exact Int32.not_le.mp hx

theorem lt_getElem_of_descend_lt {hj : j < n} {k : Nat} (hk : k < n) (hkj : k ≤ j)
    (h : (descend xs pivot first j count hj).1 < k) : pivot < xs[k] := by
  fun_induction descend xs pivot first j count hj with
  | case1 j count hj hlt hx ih =>
    rcases Nat.lt_or_eq_of_le hkj with hkj | rfl
    · exact ih (Nat.le_sub_one_of_lt hkj) h
    · exact hx
  | case2 | case3 => exact absurd h (Nat.not_lt.mpr hkj)

end

/-! ## A round -/

namespace Scan

variable {s : Segment n} {pivot : Int32}

theorem first_lt (c : Scan s pivot) : s.lo < n :=
  Nat.lt_of_le_of_lt c.left_mem.1 (Segment.lt_of_mem c.left_mem)

theorem get_le_of_lt_leftStop (c : Scan s pivot) {k : Fin n} (hk : c.left ≤ k)
    (h : k < c.leftStop.1) : c.buffer.get k ≤ pivot :=
  getElem_le_of_lt_climb k.isLt hk h

theorem lt_get_of_rightStop_lt (c : Scan s pivot) {count : Nat} {k : Fin n} (hk : k ≤ c.right)
    (h : (c.rightStop count).1 < k) : pivot < c.buffer.get k :=
  lt_getElem_of_descend_lt k.isLt hk h

theorem lt_get_leftStop (c : Scan s pivot) {k : Fin n} (hk : c.leftStop.1 = k)
    (h : k < s.hi - 1) : pivot < c.buffer.get k :=
  lt_getElem_climb k.isLt hk h

theorem get_rightStop_le (c : Scan s pivot) {count : Nat} {k : Fin n}
    (hk : (c.rightStop count).1 = k) (h : s.lo < k) : c.buffer.get k ≤ pivot :=
  getElem_descend_le k.isLt hk h

/-- Everything a round does: the cursors move to their stops, and the values there change
places unless the cursors have met. -/
theorem round_cases (c : Scan s pivot) {i j m : Nat} (hi : c.leftStop.1 = i)
    (hj : c.rightStop c.leftStop.2 = (j, m)) :
    c.round.left = i ∧ c.round.right = j ∧
      ((∃ (hin : i < n) (hjn : j < n), i < j ∧ c.round.buffer = c.buffer.swap i j hin hjn ∧
          c.round.tally = { c.tally with comparisons := m, swaps := c.tally.swaps + 1 }) ∨
        (j ≤ i ∧ c.round.buffer = c.buffer ∧
          c.round.tally = { c.tally with comparisons := m })) := by
  have hin : c.leftStop.1 < n := Segment.lt_of_mem c.leftStop_mem
  have hjn : (c.rightStop c.leftStop.2).1 < n := Segment.lt_of_mem (c.rightStop_mem _)
  subst hi
  rw [hj] at hjn
  -- With the stops named, the definition is left with its own two branches.
  simp only [round, hj]
  split
  next hlt => exact ⟨rfl, rfl, .inl ⟨hin, hjn, hlt, rfl, rfl⟩⟩
  next hle => exact ⟨rfl, rfl, .inr ⟨Nat.le_of_not_lt hle, rfl, rfl⟩⟩

end Scan

/-! ## A partition -/

variable {s : Segment n}

/-- The scan of a partition, when it is over. -/
def scanned (s : Segment n) (h : 0 < s.size) (st : State n) :
    Scan s (st.buffer.get ⟨s.lo, s.lo_lt h⟩) :=
  (Scan.start st.buffer s h st.session.tally.addPartition).run

/-- Everything a partition does: the cut is where the right cursor ended, and the pivot
goes there unless it is there already. -/
theorem partition_cases (h : 0 < s.size) (st : State n) {j : Nat}
    (hj : (scanned s h st).right = j) :
    (partition s h st).1.slot = j ∧
      (partition s h st).2.session.generator = st.session.generator ∧
      ((j = s.lo ∧ (partition s h st).2.buffer = (scanned s h st).buffer ∧
          (partition s h st).2.session.tally = (scanned s h st).tally) ∨
        (∃ hjn : j < n, j ≠ s.lo ∧
          (partition s h st).2.buffer = (scanned s h st).buffer.swap s.lo j (s.lo_lt h) hjn ∧
          (partition s h st).2.session.tally = (scanned s h st).tally.addSwap)) := by
  obtain ⟨xs, ⟨t, g⟩⟩ := st
  subst hj
  simp only [partition, scanned]
  split
  next heq => exact ⟨rfl, rfl, .inl ⟨heq, rfl, rfl⟩⟩
  next hne =>
    exact ⟨rfl, rfl, .inr ⟨Segment.lt_of_mem (scanned s h ⟨xs, ⟨t, g⟩⟩).right_mem, hne, rfl, rfl⟩⟩

end Quicksort
