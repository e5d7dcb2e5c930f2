import Quicksort.Segment

/-
  The two cursors of the partition scan.

  `climb` moves right over values that are at most the pivot and stops at the
  first greater one, or at the last slot. `descend` moves left over values that
  are greater than the pivot and stops at the first that is not, or at the first
  slot. Both count the comparisons they make. The value under the right cursor
  is looked at only before the first slot is reached; the value under the left
  cursor is looked at even in the last slot.

  The lemmas say how far a cursor can move, that the left cursor moves at all
  when it stands on a value that is at most the pivot, and on what the right
  cursor stops.
-/

namespace Quicksort

variable {n : Nat}

/-- The slot where the left cursor stops, starting from `i`, and `count` plus the
comparisons made on the way. -/
def climb (xs : Vector Int32 n) (pivot : Int32) (last : Nat) (hlast : last < n)
    (i count : Nat) (hi : i ≤ last) : Nat × Nat :=
  if xs[i] ≤ pivot then
    if h : i < last then climb xs pivot last hlast (i + 1) (count + 1) h
    else (i, count + 1)
  else (i, count + 1)
termination_by last - i

/-- The slot where the right cursor stops, starting from `j`, and `count` plus the
comparisons made on the way. -/
def descend (xs : Vector Int32 n) (pivot : Int32) (first j count : Nat) (hj : j < n) :
    Nat × Nat :=
  if first < j then
    if pivot < xs[j] then descend xs pivot first (j - 1) (count + 1) (by omega)
    else (j, count + 1)
  else (j, count)
termination_by j

section

variable {xs : Vector Int32 n} {pivot : Int32} {first last i j count : Nat}

theorem le_climb {hlast : last < n} {hi : i ≤ last} :
    i ≤ (climb xs pivot last hlast i count hi).1 := by
  fun_induction climb xs pivot last hlast i count hi with
  | case1 i count _ _ _ ih => exact Nat.le_of_succ_le ih
  | case2 | case3 => exact Nat.le_refl _

theorem climb_le {hlast : last < n} {hi : i ≤ last} :
    (climb xs pivot last hlast i count hi).1 ≤ last := by
  fun_induction climb xs pivot last hlast i count hi with
  | case1 _ _ _ _ _ ih => exact ih
  | case2 | case3 => assumption

theorem lt_climb {hlast : last < n} {hi : i ≤ last} (h : i < last) (hx : xs[i] ≤ pivot) :
    i < (climb xs pivot last hlast i count hi).1 := by
  rw [climb, if_pos hx, dif_pos h]
  exact le_climb

theorem descend_le {hj : j < n} : (descend xs pivot first j count hj).1 ≤ j := by
  fun_induction descend xs pivot first j count hj with
  | case1 j count _ _ _ ih => exact Nat.le_trans ih (Nat.sub_le j 1)
  | case2 | case3 => exact Nat.le_refl _

theorem le_descend {hj : j < n} (h : first ≤ j) :
    first ≤ (descend xs pivot first j count hj).1 := by
  fun_induction descend xs pivot first j count hj with
  | case1 j count _ hlt _ ih => exact ih (Nat.le_sub_one_of_lt hlt)
  | case2 | case3 => exact h

theorem getElem_descend_le {hj : j < n} {k : Nat} (hk : k < n)
    (he : (descend xs pivot first j count hj).1 = k) (h : first < k) : xs[k] ≤ pivot := by
  fun_induction descend xs pivot first j count hj with
  | case1 j count hj _ _ ih => exact ih he
  | case2 j count hj _ hx =>
    subst he
    exact Int32.not_lt.mp hx
  | case3 j count hj hj' =>
    subst he
    exact absurd h hj'

end

end Quicksort
