import Mathlib.Order.Bounds.Defs
import Quicksort.Proofs.Trial

/-
  The check after a sort, told from the values before it.

  In ascending order the values smaller than a number stand in front
  (`getElem_lt_iff_lt_countP`). So slot `k` can hold the number `k` only if `k`
  is among the values and `k` of them are smaller, which does not depend on their
  order (`misfit_iff_of_perm`). Conversely, as long as every slot up to `k` holds
  its own number, there is nothing amiss with `k` (`not_misfit`). The first wrong
  slot is therefore the least misfit.
-/

namespace Quicksort

variable {xs ys : Array Int32} {k : Nat}

/-- The number `k` is not among the values, or the smaller values are not `k` many. -/
def Misfit (xs : Array Int32) (k : Nat) : Prop :=
  (k : Int) ∉ xs.toList.map Int32.toInt ∨ xs.toList.countP (·.toInt < (k : Int)) ≠ k

instance (xs : Array Int32) : DecidablePred (Misfit xs) :=
  fun _ => inferInstanceAs (Decidable (_ ∨ _))

theorem misfit_iff_of_perm (h : ys.toList.Perm xs.toList) : Misfit ys k ↔ Misfit xs k := by
  rw [Misfit, Misfit, (h.map Int32.toInt).mem_iff, h.countP_eq]

/-! ## Ascending values -/

/-- The values smaller than a bound are the first ones. -/
theorem getElem_lt_iff_lt_countP {l : List Int32} (h : l.Pairwise (· ≤ ·)) (b : Int) {i : Nat}
    (hi : i < l.length) : l[i].toInt < b ↔ i < l.countP (·.toInt < b) := by
  induction l generalizing i with
  | nil => simp at hi
  | cons a l ih =>
    obtain ⟨hfirst, hrest⟩ := List.pairwise_cons.mp h
    -- Where the first value is not below the bound, no value after it is.
    have hnone (ha : ¬ a.toInt < b) : l.countP (·.toInt < b) = 0 := by
      apply List.countP_eq_zero.mpr
      intro x hx
      have hax := Int32.le_iff_toInt_le.mp (hfirst x hx)
      simp only [decide_eq_true_eq]
      omega
    cases i with
    | zero =>
      by_cases ha : a.toInt < b
      · simp [ha]
      · simp [ha, hnone ha]
    | succ i =>
      rw [List.getElem_cons_succ, ih hrest]
      by_cases ha : a.toInt < b
      · simp [ha]
      · simp [ha, hnone ha]

theorem toInt_eq_of_not_misfit (hasc : xs.toList.Pairwise (· ≤ ·)) (hk : k < xs.size)
    (h : ¬ Misfit xs k) : xs[k].toInt = k := by
  simp only [Misfit, not_or, not_not, List.mem_map] at h
  obtain ⟨⟨v, hv, hvk⟩, hcount⟩ := h
  obtain ⟨j, hj, rfl⟩ := List.getElem_of_mem hv
  have hslot := getElem_lt_iff_lt_countP hasc k hk
  have hother := getElem_lt_iff_lt_countP hasc k hj
  rw [hcount] at hslot hother
  -- The number stands in slot `j`, and all smaller values come before slot `k`.
  have hkj : k ≤ j := by omega
  have hle : xs[k] ≤ xs[j] := by
    rcases Nat.lt_or_eq_of_le hkj with hlt | rfl
    · exact List.pairwise_iff_getElem.mp hasc k j hk hj hlt
    · exact Int32.le_refl _
  have hlek := Int32.le_iff_toInt_le.mp hle
  simp only [Array.getElem_toList] at hslot hvk
  omega

theorem not_misfit (hasc : xs.toList.Pairwise (· ≤ ·)) (hk : k < xs.size)
    (h : ∀ j (hj : j ≤ k), xs[j].toInt = j) : ¬ Misfit xs k := by
  simp only [Misfit, not_or, not_not, List.mem_map]
  constructor
  · exact ⟨xs[k], Array.getElem_mem_toList hk, h k (Nat.le_refl k)⟩
  · have hslot := getElem_lt_iff_lt_countP hasc k hk
    rw [Array.getElem_toList, h k (Nat.le_refl k)] at hslot
    have hle : xs.toList.countP (·.toInt < (k : Int)) ≤ k := by omega
    cases k with
    | zero => omega
    | succ j =>
      have hbefore := getElem_lt_iff_lt_countP hasc (j + 1 : Nat) (Nat.lt_of_succ_lt hk)
      rw [Array.getElem_toList, h j (Nat.le_succ j)] at hbefore
      omega

theorem firstMismatch_eq_some_iff_isLeast (hasc : xs.toList.Pairwise (· ≤ ·)) :
    firstMismatch xs = some k ↔ IsLeast {j | j < xs.size ∧ Misfit xs j} k := by
  rw [firstMismatch_eq_some_iff]
  constructor
  · rintro ⟨hk, hwrong, hright⟩
    refine ⟨⟨hk, ?_⟩, ?_⟩
    · by_contra hfit
      exact hwrong (toInt_eq_of_not_misfit hasc hk hfit)
    · rintro j ⟨hj, hmisfit⟩
      by_contra hjk
      exact not_misfit hasc hj (fun i hi => hright i (by omega)) hmisfit
  · rintro ⟨⟨hk, hmisfit⟩, hleast⟩
    have hright (j : Nat) (hj : j < k) : xs[j].toInt = j := by
      apply toInt_eq_of_not_misfit hasc
      intro hmisfit
      exact Nat.not_le.mpr hj (hleast ⟨Nat.lt_trans hj hk, hmisfit⟩)
    refine ⟨hk, ?_, hright⟩
    intro hwrong
    apply not_misfit hasc hk _ hmisfit
    intro j hj
    rcases Nat.lt_or_eq_of_le hj with hlt | rfl
    · exact hright j hlt
    · exact hwrong

/-- A number that fits is of no account after a misfit. -/
example : firstMismatch #[0, 1, 1, 3] = some 2 ∧ Misfit #[1, 0, 3, 1] 2 ∧
    ¬ Misfit #[1, 0, 3, 1] 3 := by decide

/-! ## After a sort -/

/-- After a sort no slot is found wrong exactly if the values were the numbers from `0` up to
their count, each once. Otherwise the slot found is the least number of these that was not among
the values, or that did not have its own number of values below it. -/
theorem firstMismatch_sortAll (cfg : Config) (xs : Array Int32) :
    (firstMismatch (sortAll cfg xs).buffer = none ↔ HoldsIndices xs) ∧
      ∀ k, firstMismatch (sortAll cfg xs).buffer = some k ↔
        IsLeast {j | j < xs.size ∧ Misfit xs j} k := by
  obtain ⟨hperm, hasc⟩ := sortAll_sorts cfg xs
  constructor
  · rw [firstMismatch_eq_none_iff_holdsIndices hasc]
    exact ⟨fun h => h.of_perm hperm.symm, fun h => h.of_perm hperm⟩
  · intro k
    rw [firstMismatch_eq_some_iff_isLeast hasc, size_sortAll]
    simp only [misfit_iff_of_perm hperm]

end Quicksort
