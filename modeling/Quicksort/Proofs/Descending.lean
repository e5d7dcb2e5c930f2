import Mathlib.Tactic.Ring
import Quicksort.Proofs.Arrangement
import Quicksort.Proofs.Choice

/-
  Sorting descending values with medians of three.

  The first median is the middle value. The partition around it exchanges the
  strays at the two ends, so that both sides are ascending, but for one value:
  the exchange of the pivot brings the last value of the left side to its front,
  and the first value of all stays in front of the right side
  (`split_of_descending`).

  On ascending values of which the last one has come to the front, the median is
  the last slot, the greatest value but one. Only the front goes to the right of
  it. The left side has the same shape again, two values shorter
  (`split_of_rotated`), down to a pair or a single value. So the sort of either
  side takes off two values with each split, and its comparisons are quadratic
  (`rotatedComparisons`, `HasOutline.of_rotated`).
-/

namespace Quicksort

variable {n : Nat} {s : Segment n} {xs : Vector Int32 n} {o : Outline}

/-! ## The median -/

theorem medianOffset_middle (hpos : 0 < s.size) {a b c : Int32} (t : Tally)
    (ha : xs.get ⟨s.lo, s.lo_lt hpos⟩ = a)
    (hb : xs.get ⟨s.lo + s.size / 2, s.lo_add_lt ⟨_, s.half_size_lt hpos⟩⟩ = b)
    (hc : xs.get ⟨s.lo + (s.size - 1), s.lo_add_lt ⟨_, s.size_sub_one_lt hpos⟩⟩ = c)
    (hba : b < a) (hcb : c < b) :
    medianOffset xs s hpos t = (⟨s.size / 2, s.half_size_lt hpos⟩, t.addComparisons 3) := by
  have hca : c < a := Int32.lt_trans hcb hba
  simp only [medianOffset, Nat.add_zero, ha, hb, hc]
  rw [if_neg (Int32.lt_asymm hba), if_neg (Int32.lt_asymm hca), if_neg (Int32.lt_asymm hcb)]

theorem medianOffset_last (hpos : 0 < s.size) {a b c : Int32} (t : Tally)
    (ha : xs.get ⟨s.lo, s.lo_lt hpos⟩ = a)
    (hb : xs.get ⟨s.lo + s.size / 2, s.lo_add_lt ⟨_, s.half_size_lt hpos⟩⟩ = b)
    (hc : xs.get ⟨s.lo + (s.size - 1), s.lo_add_lt ⟨_, s.size_sub_one_lt hpos⟩⟩ = c)
    (hbc : b < c) (hca : c < a) :
    medianOffset xs s hpos t = (⟨s.size - 1, s.size_sub_one_lt hpos⟩, t.addComparisons 3) := by
  have hba : b < a := Int32.lt_trans hbc hca
  simp only [medianOffset, Nat.add_zero, ha, hb, hc]
  rw [if_neg (Int32.lt_asymm hba), if_neg (Int32.lt_asymm hca), if_pos hbc]

theorem placePivot_medianOfThree_of_lt_three (h : s.size < 3) (st : State n) :
    placePivot .medianOfThree s st = st := by
  simp [placePivot, pivotOffset, h]

theorem placePivot_medianOfThree {hpos : 0 < s.size} (hsize : 3 ≤ s.size) {st : State n}
    {k : Fin s.size} {m : Nat} {u v : List Int32} {a b : Int32}
    (hk : medianOffset st.buffer s hpos st.session.tally =
      (k, st.session.tally.addComparisons m))
    (hx : slice st.buffer s = a :: (u ++ b :: v)) (hku : ↑k = u.length + 1) :
    slice (placePivot .medianOfThree s st).buffer s = b :: (u ++ a :: v) ∧
      (placePivot .medianOfThree s st).session.tally =
        st.session.tally + { comparisons := m, swaps := 1 } := by
  have hpick : pivotOffset .medianOfThree st.buffer s hpos st.session =
      (k, { st.session with tally := st.session.tally.addComparisons m }) := by
    simp only [pivotOffset, if_neg (Nat.not_lt.mpr hsize), hk]
  constructor
  · rw [buffer_placePivot .medianOfThree hpos st (congrArg Prod.fst hpick)]
    exact slice_swap (u := []) _ _ hx rfl (by rw [hku])
  · have hne : ¬ k.val = 0 := by omega
    simp only [placePivot, dif_pos hpos, hpick, if_neg hne]
    rw [Tally.addSwap_eq, Tally.addComparisons_eq, add_assoc]
    rfl

/-! ## The splits -/

section

variable {h : 2 ≤ s.size} {st st' : State n} {c : Cut s}

/-- The first split of descending values. The values between the first one and the median are
exchanged with those after the median, which leaves both in ascending order. -/
theorem split_of_descending (hs : split .medianOfThree s h st = (c, st')) (hsize : 3 ≤ s.size)
    {a b : Int32} {u v : List Int32} (hx : slice st.buffer s = a :: (u ++ b :: v))
    (hd : (a :: (u ++ b :: v)).Pairwise (· > ·)) (hu : u.length + 1 = s.size / 2) :
    slice st'.buffer c.left = lastToFront v.reverse ∧ slice st'.buffer c.right = a :: u.reverse ∧
      st'.session.tally = st.session.tally +
        ({ comparisons := 3, swaps := 1 } + partitionWork v.length (u.length + 1) v.length) := by
  have hpos : 0 < s.size := Nat.zero_lt_of_lt h
  have hlength := size_of_slice hx
  simp only [List.length_cons, List.length_append] at hlength
  rw [List.pairwise_cons, List.pairwise_append, List.pairwise_cons] at hd
  obtain ⟨hfirst, -, ⟨hafter, -⟩, hbefore⟩ := hd
  have hba : b < a := hfirst b (by simp)
  have hbu (x : Int32) (hx : x ∈ u) : b < x := hbefore x hx b (by simp)
  have hvb (x : Int32) (hx : x ∈ v) : x ≤ b := Int32.le_of_lt (hafter x hx)
  have hlast : st.buffer.get ⟨s.lo + (s.size - 1), s.lo_add_lt ⟨_, s.size_sub_one_lt hpos⟩⟩ ∈ v := by
    apply get_mem_of_slice (u := a :: (u ++ [b])) (w := []) (by simpa using hx)
    · simp; omega
    · simp; omega
  have hmedian : medianOffset st.buffer s hpos st.session.tally =
      (⟨s.size / 2, s.half_size_lt hpos⟩, st.session.tally.addComparisons 3) :=
    medianOffset_middle hpos _ (get_lo_of_slice hx hpos)
      (get_eq_of_slice (u := a :: u) hx (by simp [hu])) rfl hba (hafter _ hlast)
  obtain ⟨hplaced, htally⟩ := placePivot_medianOfThree hsize hmedian hx hu.symm
  -- The first value went into the middle slot, which counts to the left side if the size is odd.
  rcases (by omega : v.length = u.length ∨ v.length = u.length + 1) with heven | hodd
  · have hends : StraysAtEnds b u [] [a] v :=
      ⟨heven.symm, hbu, by simp, by simpa using hba, hvb⟩
    obtain ⟨hl, hr⟩ := hends.slice_sides (by simpa using hplaced) hs
    have hwork := hends.work_partition h (by simpa using hplaced) hs
    refine ⟨by simpa using hl, by simpa using hr, ?_⟩
    rw [hwork, htally, add_assoc]
    simp [heven, Nat.add_comm]
  · have hends : StraysAtEnds b (u ++ [a]) [] [] v :=
      ⟨by simp [hodd], by simpa [or_imp, forall_and] using ⟨hbu, hba⟩, by simp, by simp, hvb⟩
    obtain ⟨hl, hr⟩ := hends.slice_sides (by simpa using hplaced) hs
    have hwork := hends.work_partition h (by simpa using hplaced) hs
    refine ⟨by simpa using hl, by simpa using hr, ?_⟩
    rw [hwork, htally, add_assoc]
    simp [hodd]

/-- Ascending values of which the last one has come to the front. The median is the greatest of
the others. -/
theorem split_of_rotated (hs : split .medianOfThree s h st = (c, st')) (hsize : 3 ≤ s.size)
    {low : List Int32} {b top : Int32} (hx : slice st.buffer s = top :: (low ++ [b]))
    (ha : (low ++ [b, top]).Pairwise (· < ·)) :
    slice st'.buffer c.left = lastToFront low ∧ slice st'.buffer c.right = [top] ∧
      st'.session.tally = st.session.tally +
        ({ comparisons := 3, swaps := 1 } + partitionWork low.length 1 0) := by
  have hpos : 0 < s.size := Nat.zero_lt_of_lt h
  have hlength := size_of_slice hx
  simp only [List.length_cons, List.length_append, List.length_nil] at hlength
  obtain ⟨-, hpair, hbelow⟩ := List.pairwise_append.mp ha
  have hbt : b < top := by simpa using hpair
  have hlow (x : Int32) (hx : x ∈ low) : x < b := hbelow x hx b (by simp)
  have hmid : st.buffer.get ⟨s.lo + s.size / 2, s.lo_add_lt ⟨_, s.half_size_lt hpos⟩⟩ ∈ low := by
    apply get_mem_of_slice (u := [top]) (w := [b]) hx
    · simp; omega
    · simp; omega
  have hmedian : medianOffset st.buffer s hpos st.session.tally =
      (⟨s.size - 1, s.size_sub_one_lt hpos⟩, st.session.tally.addComparisons 3) :=
    medianOffset_last hpos _ (get_lo_of_slice hx hpos) rfl
      (get_eq_of_slice (u := top :: low) hx (by simp; omega)) (hlow _ hmid) hbt
  obtain ⟨hplaced, htally⟩ := placePivot_medianOfThree hsize hmedian hx (by simp; omega)
  obtain ⟨hl, hr, hwork⟩ := partition_of_divided h hs hplaced
    (fun x hx => Int32.le_of_lt (hlow x hx)) (by simpa using hbt)
  refine ⟨hl, hr, ?_⟩
  rw [hwork, htally, add_assoc]
  rfl

theorem split_of_pair (hs : split .medianOfThree s h st = (c, st')) {b top : Int32}
    (hx : slice st.buffer s = [top, b]) (hbt : b < top) :
    slice st'.buffer c.left = [b] ∧ slice st'.buffer c.right = [] ∧
      st'.session.tally = st.session.tally + partitionWork 1 0 0 := by
  have hlength := size_of_slice hx
  simp only [List.length_cons, List.length_nil] at hlength
  rw [split, placePivot_medianOfThree_of_lt_three (by omega)] at hs
  have hdivided : slice st.buffer s = top :: ([b] ++ []) := hx
  exact partition_of_divided h hs hdivided (by simpa using Int32.le_of_lt hbt) (by simp)

end

/-! ## The sort -/

/-- The comparisons of a sort of `size` ascending values of which the last one has come to the
front. -/
def rotatedComparisons (size : Nat) : Nat :=
  let q := size / 2
  if q = 0 then 0 else if size % 2 = 0 then q * q + 6 * q - 4 else q * q + 7 * q

theorem rotatedComparisons_of_lt_two {k : Nat} (h : k < 2) : rotatedComparisons k = 0 := by
  simp [rotatedComparisons, Nat.div_eq_of_lt h]

theorem rotatedComparisons_even {q : Nat} (h : 0 < q) :
    rotatedComparisons (2 * q) = q * q + 6 * q - 4 := by
  simp [rotatedComparisons, Nat.ne_of_gt h]

theorem rotatedComparisons_odd (q : Nat) : rotatedComparisons (2 * q + 1) = q * q + 7 * q := by
  have hhalf : (2 * q + 1) / 2 = q := by omega
  have hodd : (2 * q + 1) % 2 = 1 := by omega
  simp only [rotatedComparisons, hhalf, hodd]
  split
  next hzero => rw [hzero]
  next => rfl

theorem rotatedComparisons_step {k : Nat} (h : 0 < k) :
    k + 7 + rotatedComparisons k = rotatedComparisons (k + 2) := by
  obtain ⟨q, rfl | rfl⟩ := Nat.even_or_odd' k
  · have hq : 0 < q := by omega
    have hsquare : (q + 1) * (q + 1) = q * q + 2 * q + 1 := by ring
    rw [show 2 * q + 2 = 2 * (q + 1) from rfl, rotatedComparisons_even hq,
      rotatedComparisons_even (Nat.succ_pos q), hsquare]
    omega
  · rw [show 2 * q + 1 + 2 = 2 * (q + 1) + 1 from rfl, rotatedComparisons_odd,
      rotatedComparisons_odd]
    ring

theorem exists_append_pair {l : List Int32} (h : 2 ≤ l.length) :
    ∃ init x y, l = init ++ [x, y] := by
  rcases List.eq_nil_or_concat l with rfl | ⟨l, y, rfl⟩
  · simp at h
  · rcases List.eq_nil_or_concat l with rfl | ⟨init, x, rfl⟩
    · simp at h
    · exact ⟨init, x, y, by simp⟩

theorem exists_around_middle {l : List Int32} (h : 2 ≤ l.length) :
    ∃ a u b v, l = a :: (u ++ b :: v) ∧ u.length + 1 = l.length / 2 := by
  cases l with
  | nil => simp at h
  | cons a l =>
    rw [List.length_cons] at h ⊢
    have hmid : (l.length + 1) / 2 - 1 < l.length := by omega
    refine ⟨a, l.take ((l.length + 1) / 2 - 1), l[(l.length + 1) / 2 - 1],
      l.drop ((l.length + 1) / 2 - 1 + 1), ?_, ?_⟩
    · rw [← List.drop_eq_getElem_cons hmid, List.take_append_drop]
    · rw [List.length_take]
      omega

namespace HasOutline

/-- Ascending values of which the last one has come to the front. Every split takes off the two
greatest, and the last of the others comes to the front of what is left. -/
theorem of_rotated (h : HasOutline .medianOfThree s xs o) {a : List Int32}
    (ha : a.Pairwise (· < ·)) (hx : slice xs s = lastToFront a) :
    o.work.comparisons = rotatedComparisons a.length ∧
      ∀ d, o.depthLeftFirst (d + 1) = if 2 ≤ a.length then d + a.length / 2 else 0 := by
  generalize hrule : PivotRule.medianOfThree = rule at h
  have hlength : a.length = s.size := by rw [size_of_slice hx, length_lastToFront]
  induction h generalizing a with
  | leaf h =>
    rw [hlength]
    exact ⟨(rotatedComparisons_of_lt_two h).symm, fun _ => (if_neg (Nat.not_le.mpr h)).symm⟩
  | @node s xs c st l r h g hs hl hr ihl ihr =>
    subst hrule
    rw [← hlength] at h
    obtain ⟨low, b, top, rfl⟩ : ∃ low b top, a = low ++ [b, top] := exists_append_pair h
    have hfront : lastToFront (low ++ [b, top]) = top :: (low ++ [b]) := by
      rw [List.append_cons, lastToFront_append]
    rw [hfront] at hx
    obtain ⟨hlow, hpair, -⟩ := List.pairwise_append.mp ha
    rw [show (low ++ [b, top]).length = low.length + 2 by simp] at h hlength ⊢
    -- A pair is split as it stands. With more values the left side is of the same shape again.
    rcases List.eq_nil_or_concat low with rfl | ⟨_, _, hcons⟩
    · obtain ⟨hleft, hright, hwork⟩ := split_of_pair hs hx (by simpa using hpair)
      have hl' : c.left.size = 1 := size_of_slice hleft
      have hr' : c.right.size = 0 := size_of_slice hright
      rw [hl.eq_leaf (by omega), hr.eq_leaf (by omega), hwork, zero_add]
      refine ⟨rfl, ?_⟩
      intro d
      exact Nat.max_eq_left (Nat.zero_le _)
    · have hmore : 0 < low.length := by rw [hcons]; simp
      obtain ⟨hleft, hright, hwork⟩ := split_of_rotated hs (by omega) hx ha
      obtain ⟨hcomparisons, hdepth⟩ := ihl hlow hleft
        (by rw [size_of_slice hleft, length_lastToFront])
      have hr' : c.right.size = 1 := size_of_slice hright
      rw [hr.eq_leaf (by omega), hwork, zero_add]
      constructor
      · rw [← rotatedComparisons_step hmore]
        simp only [Outline.work, Tally.comparisons_add, Tally.comparisons_zero, hcomparisons,
          partitionWork]
        rw [if_neg (by omega)]
        omega
      · intro d
        rw [Outline.depthLeftFirst, hdepth, Outline.depthLeftFirst, if_pos h]
        split_ifs <;> omega

/-- Descending values. The first split makes two sides of ascending values, where the last one has
come to the front of either side. -/
theorem of_descending (h : HasOutline .medianOfThree s xs o) (hsize : 3 ≤ s.size)
    (hd : (slice xs s).Pairwise (· > ·)) :
    o.work.comparisons = s.size + 5 + 2 * (s.size - 1 - s.size / 2) +
        rotatedComparisons (s.size - 1 - s.size / 2) + rotatedComparisons (s.size / 2) ∧
      o.depthLeftFirst 1 = 1 + s.size / 4 := by
  obtain ⟨a, u, b, v, hx, hu⟩ := exists_around_middle (l := slice xs s)
    (by rw [length_slice]; omega)
  have hlength := size_of_slice hx
  simp only [List.length_cons, List.length_append] at hlength
  rw [length_slice] at hu
  rw [hx] at hd
  cases h with
  | leaf h => exact absurd h (by omega)
  | @node _ _ c st l r h g hs hl hr =>
    obtain ⟨hleft, hright, hwork⟩ := split_of_descending hs hsize hx hd hu
    rw [← lastToFront_append] at hright
    obtain ⟨hfirst, hrest⟩ := List.pairwise_cons.mp hd
    obtain ⟨hbefore, hfrom, -⟩ := List.pairwise_append.mp hrest
    have hbelow : v.reverse.Pairwise (· < ·) :=
      List.pairwise_reverse.mpr (List.pairwise_cons.mp hfrom).2
    have habove : (u.reverse ++ [a]).Pairwise (· < ·) := by
      rw [← List.reverse_cons, List.pairwise_reverse, List.pairwise_cons]
      exact ⟨fun x hx => hfirst x (by simp [hx]), hbefore⟩
    obtain ⟨hcomparisonsl, hdepthl⟩ := hl.of_rotated hbelow hleft
    obtain ⟨hcomparisonsr, hdepthr⟩ := hr.of_rotated habove hright
    have hlengthl : v.reverse.length = s.size - 1 - s.size / 2 := by
      rw [List.length_reverse]
      omega
    have hlengthr : (u.reverse ++ [a]).length = s.size / 2 := by simpa using hu
    rw [hlengthl] at hcomparisonsl hdepthl
    rw [hlengthr] at hcomparisonsr hdepthr
    constructor
    · have hvu : ¬ (v.length = 0 ∨ u.length + 1 = 0) := by omega
      simp only [Outline.work, hwork, zero_add, Tally.comparisons_add, hcomparisonsl,
        hcomparisonsr, partitionWork, if_neg hvu]
      omega
    · rw [Outline.depthLeftFirst, hdepthl, hdepthr]
      split_ifs <;> omega

end HasOutline

/-- Sorting a whole buffer of descending values with medians of three. With both sides nested the
depth is one more than a quarter of the size. In every schedule the comparisons are those of the
first split, which exchanges the `below` smallest values with as many of the greatest, and those
of its two sides; they are quadratic in the size. -/
theorem cost_of_descending_medians (xs : Array Int32) (h : 3 ≤ xs.size)
    (hd : xs.toList.Pairwise (· > ·)) :
    let mid := xs.size / 2
    let below := xs.size - 1 - mid
    (sortAll ⟨.medianOfThree, .leftFirst⟩ xs).tally.maxDepth = 1 + xs.size / 4 ∧
      ∀ schedule, (sortAll ⟨.medianOfThree, schedule⟩ xs).tally.comparisons =
        xs.size + 5 + 2 * below + rotatedComparisons below + rotatedComparisons mid := by
  intro mid below
  have hslice : slice xs.toVector (.whole xs.size) = xs.toList := slice_whole xs.toVector
  have hcost (o : Outline) (ho : HasOutline .medianOfThree (.whole xs.size) xs.toVector o) :=
    ho.of_descending h (hslice ▸ hd)
  constructor
  · obtain ⟨o, ho, ht⟩ := sortAll_outline ⟨.medianOfThree, .leftFirst⟩ xs
    rw [ht]
    exact (hcost o ho).2
  · intro schedule
    obtain ⟨o, ho, ht⟩ := sortAll_outline ⟨.medianOfThree, schedule⟩ xs
    rw [ht]
    exact (hcost o ho).1

/-- Eight values. -/
theorem cost_of_descending_medians_eight :
    3 ≤ (#[8, 7, 6, 5, 4, 3, 2, 1] : Array Int32).size ∧
      [8, 7, 6, 5, 4, 3, 2, (1 : Int32)].Pairwise (· > ·) ∧
      (sortAll ⟨.medianOfThree, .leftFirst⟩ #[8, 7, 6, 5, 4, 3, 2, 1]).tally.maxDepth = 3 ∧
      (sortAll ⟨.medianOfThree, .workStack⟩ #[8, 7, 6, 5, 4, 3, 2, 1]).tally.comparisons = 39 := by
  obtain ⟨hdepth, hcomparisons⟩ :=
    cost_of_descending_medians #[8, 7, 6, 5, 4, 3, 2, 1] (by decide) (by decide)
  exact ⟨by decide, by decide, hdepth, hcomparisons .workStack⟩

end Quicksort
