import Quicksort.Proofs.Sorting
import Quicksort.Trial

/-
  A trial passes.

  A buffer that holds the numbers from `0` up to its length, each once, is the
  identity when its values ascend (`firstMismatch_eq_none_iff_holdsIndices`).
  The values of a trial are such numbers, in descending order, as long as they
  fit (`holdsIndices_descending`). Every sort leaves the same values in ascending
  order, so no slot is found wrong, whatever the configuration, and the log ends
  with success (`trial_passes`).
-/

namespace Quicksort

variable {xs ys : Array Int32}

/-- The buffer holds each of the numbers from `0` up to its length once. -/
def HoldsIndices (xs : Array Int32) : Prop :=
  (xs.toList.map Int32.toInt).Perm ((List.range xs.size).map Int.ofNat)

theorem HoldsIndices.of_perm (h : HoldsIndices xs) (hp : ys.toList.Perm xs.toList) :
    HoldsIndices ys := by
  have hsize : ys.size = xs.size := by simpa using hp.length_eq
  rw [HoldsIndices, hsize]
  exact (hp.map Int32.toInt).trans h

theorem firstMismatch_eq_none_iff_map_eq :
    firstMismatch xs = none ↔ xs.toList.map Int32.toInt = (List.range xs.size).map Int.ofNat := by
  rw [firstMismatch_eq_none_iff]
  constructor
  · intro h
    apply List.ext_getElem (by simp)
    intro k hk _
    simpa using h k (by simpa using hk)
  · intro h k hk
    have hget := congrArg (·[k]?) h
    simpa [hk] using hget

/-- Ascending values are the identity exactly if they are the numbers of the slots. -/
theorem firstMismatch_eq_none_iff_holdsIndices (h : xs.toList.Pairwise (· ≤ ·)) :
    firstMismatch xs = none ↔ HoldsIndices xs := by
  rw [firstMismatch_eq_none_iff_map_eq]
  constructor
  · intro he
    exact .of_eq he
  · intro hp
    have hasc : (xs.toList.map Int32.toInt).Pairwise (· ≤ ·) :=
      List.pairwise_map.mpr (h.imp Int32.le_iff_toInt_le.mp)
    have hrange : ((List.range xs.size).map Int.ofNat).Pairwise (· ≤ ·) :=
      List.pairwise_map.mpr (List.pairwise_le_range.imp Int.ofNat_le.mpr)
    exact hp.eq_of_pairwise (fun _ _ _ _ => Int.le_antisymm) hasc hrange

/-! ## The data -/

theorem toInt_descending {n : Nat} (h : n ≤ 2 ^ 31) {k : Nat} (hk : k < (descending n).size) :
    (descending n)[k].toInt = n - 1 - k := by
  have hkn : k < n := by simpa using hk
  have hmax : Int32.maxValue.toNatClampNeg = 2 ^ 31 - 1 := by decide
  have hmin : min (n - 1 - k) Int32.maxValue.toNatClampNeg = n - 1 - k := by
    rw [hmax]
    omega
  simp only [descending, Array.getElem_ofFn, hmin]
  rw [Int32.toInt_ofNat_of_lt (by omega)]
  omega

theorem map_toInt_descending {n : Nat} (h : n ≤ 2 ^ 31) :
    (descending n).toList.map Int32.toInt = ((List.range n).map Int.ofNat).reverse := by
  apply List.ext_getElem (by simp)
  intro k hk _
  have hkn : k < n := by simpa using hk
  simp only [List.getElem_map, Array.getElem_toList, toInt_descending h, List.getElem_reverse,
    List.length_map, List.length_range, List.getElem_range, Int.ofNat_eq_natCast]
  omega

theorem holdsIndices_descending {n : Nat} (h : n ≤ 2 ^ 31) : HoldsIndices (descending n) := by
  rw [HoldsIndices, map_toInt_descending h, size_descending]
  exact List.reverse_perm _

/-! ## The trial -/

theorem sortAll_sorts (cfg : Config) (xs : Array Int32) :
    (sortAll cfg xs).buffer.toList.Perm xs.toList ∧
      (sortAll cfg xs).buffer.toList.Pairwise (· ≤ ·) := by
  obtain ⟨hperm, hasc, -⟩ := sortSegment_isSorting cfg (.whole xs.size) ⟨xs.toVector, .fresh⟩
  simp only [slice_whole] at hperm hasc
  exact ⟨hperm, hasc⟩

theorem size_sortAll (cfg : Config) (xs : Array Int32) :
    (sortAll cfg xs).buffer.size = xs.size := by
  simpa using (sortAll_sorts cfg xs).1.length_eq

theorem firstMismatch_sortAll_descending {n : Nat} (cfg : Config) (h : n ≤ 2 ^ 31) :
    firstMismatch (sortAll cfg (descending n)).buffer = none := by
  obtain ⟨hperm, hasc⟩ := sortAll_sorts cfg (descending n)
  rw [firstMismatch_eq_none_iff_holdsIndices hasc]
  exact (holdsIndices_descending h).of_perm hperm

/-- Up to `2 ^ 31` values a trial passes under every configuration. It sorts the values
`n - 1, …, 1, 0`, reports the length, the work of that sort and no wrong slot, and logs four
events, none of them a warning. -/
theorem trial_passes (n : Nat) (cfg : Config) (h : n ≤ 2 ^ 31) :
    let report := (Trial.run n cfg).1
    let events := (Trial.run n cfg).2
    (∀ (k : Nat) (hk : k < (descending n).size), (descending n)[k].toInt = n - 1 - k) ∧
      report.length = n ∧ report.firstMismatch = none ∧ report.passed = true ∧
      report.tally = (sortAll cfg (descending n)).tally ∧
      events.map (fun e => (e.level.label, e.message, e.fields)) =
        [("INFO", "start to sort",
            [("len", .number n),
              ("params", .text (cfg.pivot.label ++ "/" ++ cfg.schedule.label))]),
          ("INFO", "sorted", [("len", .number n)]),
          ("DEBUG", "sort stats",
            [("comparisons", .number report.tally.comparisons),
              ("swaps", .number report.tally.swaps),
              ("partitions", .number report.tally.partitions),
              ("max_depth", .number report.tally.maxDepth)]),
          ("INFO", "sort is successful", [("len", .number n)])] ∧
      ∀ e ∈ events, e.level ≠ .warn := by
  intro report events
  have hnone : firstMismatch (sortAll cfg (descending n)).buffer = none :=
    firstMismatch_sortAll_descending cfg h
  have hverdict : Trial.verdict (sortAll cfg (descending n)).buffer = .passed n := by
    rw [Trial.verdict, hnone, size_sortAll, size_descending]
  have hevents : events =
      [.started n cfg, .sorted n, .worked report.tally, .passed n] := by
    rw [← hverdict]
    rfl
  refine ⟨fun k hk => toInt_descending h hk, rfl, hnone, ?_, rfl, ?_, ?_⟩
  · show (firstMismatch (sortAll cfg (descending n)).buffer).isNone = true
    rw [hnone]
    rfl
  · rw [hevents]
    rfl
  · rw [hevents]
    intro e he
    simp only [List.mem_cons, List.not_mem_nil, or_false] at he
    rcases he with rfl | rfl | rfl | rfl <;> simp [Event.level]

/-- The reference trial, with random pivots and an explicit stack. -/
theorem trial_passes_reference :
    Trial.referenceLength ≤ 2 ^ 31 ∧
      (Trial.run Trial.referenceLength ⟨.random, .workStack⟩).1.passed = true ∧
      ∀ e ∈ (Trial.run Trial.referenceLength ⟨.random, .workStack⟩).2, e.level ≠ .warn := by
  obtain ⟨-, -, -, hpassed, -, -, hwarn⟩ :=
    trial_passes Trial.referenceLength ⟨.random, .workStack⟩ (by decide)
  exact ⟨by decide, hpassed, hwarn⟩

end Quicksort
