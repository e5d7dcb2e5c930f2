import Mathlib.Logic.Function.Iterate
import Quicksort.Proofs.Outline

/-
  What a split costs.

  A cursor makes one comparison for each slot it passes and one where it stops;
  the right cursor makes none in the first slot (`count_climb`, `count_descend`).
  So what a scan has cost can be read off its cursors and the number of exchanges
  it has made (`Scan.Underway`, `Scan.Finished`). A round keeps this account
  (`Scan.underway_round`), and so do all rounds of a scan
  (`Scan.Underway.exists_rounds`).

  After an exchange both cursors stand on values of their own side, so both move
  on in the next round. This is why the exchanges of one partition are at most
  the slots of the smaller side (`Scan.Underway.stops`), and why the sizes of the
  sides and the number of exchanges fix the cost of a partition
  (`Scan.Finished.tally_eq`, `partition_work`). A pivot rule adds a few comparisons
  and an exchange at most (`placePivot_work`, `split_work`).
-/

namespace Quicksort

variable {n : Nat} {s : Segment n} {pivot : Int32}

/-! ## The cursors -/

section

variable {xs : Vector Int32 n} {first last i j count : Nat}

/-- The left cursor compares each value it passes, and the one it stops on. -/
theorem count_climb {hlast : last < n} {hi : i ≤ last} :
    (climb xs pivot last hlast i count hi).2 + i =
      count + (climb xs pivot last hlast i count hi).1 + 1 := by
  fun_induction climb xs pivot last hlast i count hi with
  | case1 i count hi hx hlt ih => omega
  | case2 i count hi hx hlt => omega
  | case3 i count hi hx => omega

/-- The right cursor compares each value it passes, and the one it stops on unless that is in
the first slot. -/
theorem count_descend {hj : j < n} :
    (descend xs pivot first j count hj).2 + (descend xs pivot first j count hj).1 =
      count + j + if first < (descend xs pivot first j count hj).1 then 1 else 0 := by
  fun_induction descend xs pivot first j count hj with
  | case1 j count hj hlt hx ih =>
    rw [ih]
    omega
  | case2 j count hj hlt hx =>
    rw [if_pos hlt]
    omega
  | case3 j count hj hlt => rw [if_neg hlt, Nat.add_zero]

theorem descend_lt {hj : j < n} (h : first < j) (hx : pivot < xs[j]) :
    (descend xs pivot first j count hj).1 < j := by
  have hle : (descend xs pivot first (j - 1) (count + 1) (by omega)).1 ≤ j - 1 := descend_le
  rw [descend, if_pos h, if_pos hx]
  omega

end

/-- The work of a partition into sides of the given sizes, with `k` exchanges of the scan. -/
def partitionWork (left right k : Nat) : Tally where
  comparisons := left + right + 3 + 2 * k - if left = 0 ∨ right = 0 then 1 else 0
  swaps := k + if left = 0 then 0 else 1
  partitions := 1

/-! ## The scan -/

namespace Scan

theorem count_leftStop (c : Scan s pivot) :
    c.leftStop.2 + c.left = c.tally.comparisons + c.leftStop.1 + 1 :=
  count_climb

theorem count_rightStop (c : Scan s pivot) (count : Nat) :
    (c.rightStop count).2 + (c.rightStop count).1 =
      count + c.right + if s.lo < (c.rightStop count).1 then 1 else 0 :=
  count_descend

theorem left_le_rightStop (c : Scan s pivot) (hover : ¬ c.Over) (count : Nat) :
    c.left ≤ (c.rightStop count).1 := by
  have hlt : c.left < c.right := Nat.lt_of_not_le hover
  apply Nat.le_of_not_lt
  intro hpass
  have hgt := c.lt_get_of_rightStop_lt (k := ⟨c.left, Segment.lt_of_mem c.left_mem⟩)
    (Nat.le_of_lt hlt) hpass
  exact Int32.not_le.mpr hgt (c.left_le_pivot hlt)

/-- The account of a scan that has made `k` exchanges and is to go on, since the tally was
`t`. -/
structure Underway (t : Tally) (k : Nat) (c : Scan s pivot) : Prop where
  tally : c.tally = t +
    { comparisons := (c.left - s.lo) + (s.hi - 1 - c.right) + 2 * k, swaps := k }
  left : s.lo + k ≤ c.left
  right : c.right + k ≤ s.hi
  pivot_lt : 0 < k → pivot < c.buffer.get ⟨c.right, Segment.lt_of_mem c.right_mem⟩

/-- The account of a scan that is over after `k` exchanges. -/
structure Finished (t : Tally) (k : Nat) (c : Scan s pivot) : Prop where
  tally : c.tally = t +
    { comparisons := (c.left - s.lo) + (s.hi - 1 - c.right) + 2 * (k + 1) -
        if c.right = s.lo then 1 else 0
      swaps := k }
  left : s.lo + k ≤ c.right
  right : c.right + k < s.hi
  pivot_lt : c.left < s.hi - 1 → pivot < c.buffer.get ⟨c.left, Segment.lt_of_mem c.left_mem⟩

theorem underway_start (xs : Vector Int32 n) (h : 0 < s.size) (t : Tally) :
    Underway t 0 (start xs s h t) where
  tally := by
    ext <;> simp [start]
  left := Nat.le_refl _
  right := Nat.sub_le ..
  pivot_lt hk := absurd hk (Nat.lt_irrefl 0)

theorem not_over_start (xs : Vector Int32 n) (h : 2 ≤ s.size) (t : Tally) :
    ¬ (start xs s (Nat.zero_lt_of_lt h) t).Over := by
  have := s.lo_add_size
  simp only [Over, start]
  omega

/-- After an exchange the right cursor stands on a value that it leaves again. -/
theorem Underway.rightStop_lt {t : Tally} {k : Nat} {c : Scan s pivot} (h : Underway t k c)
    (hk : 0 < k) (hover : ¬ c.Over) : (c.rightStop c.leftStop.2).1 < c.right := by
  have hlr : c.left < c.right := Nat.lt_of_not_le hover
  exact descend_lt (Nat.lt_of_le_of_lt c.left_mem.1 hlr) (h.pivot_lt hk)

/-- Between the stops of the cursors there is room for the exchanges made, on either side. -/
theorem Underway.stops {t : Tally} {k : Nat} {c : Scan s pivot} (h : Underway t k c)
    (hover : ¬ c.Over) :
    s.lo + k < c.leftStop.1 ∧ s.lo + k ≤ (c.rightStop c.leftStop.2).1 ∧
      (c.rightStop c.leftStop.2).1 + k < s.hi := by
  have hleft := h.left
  have hright := h.right
  refine ⟨?_, ?_, ?_⟩
  · exact Nat.lt_of_le_of_lt hleft (c.left_lt_leftStop hover)
  · exact Nat.le_trans hleft (c.left_le_rightStop hover _)
  · rcases Nat.eq_zero_or_pos k with rfl | hk
    · exact (c.rightStop_mem _).2
    · have hmoves := h.rightStop_lt hk hover
      omega

theorem Underway.comparisons_stops {t : Tally} {k : Nat} {c : Scan s pivot} (h : Underway t k c)
    (hover : ¬ c.Over) :
    (c.rightStop c.leftStop.2).2 = t.comparisons +
      ((c.leftStop.1 - s.lo) + (s.hi - 1 - (c.rightStop c.leftStop.2).1) + 2 * (k + 1) -
        if (c.rightStop c.leftStop.2).1 = s.lo then 1 else 0) := by
  have hup := c.count_leftStop
  have hdown := c.count_rightStop c.leftStop.2
  have hleft := c.left_lt_leftStop hover
  have hright : (c.rightStop c.leftStop.2).1 ≤ c.right := descend_le
  have hlo := c.left_mem.1
  have hhi := c.right_mem.2
  have hfirst := (c.rightStop_mem c.leftStop.2).1
  rw [h.tally] at hup
  simp only [Tally.comparisons_add] at hup
  split_ifs at hdown ⊢ <;> omega

/-- A round makes one exchange more, or the scan is over after it. -/
theorem underway_round {t : Tally} {k : Nat} {c : Scan s pivot} (h : Underway t k c)
    (hover : ¬ c.Over) :
    (¬ c.round.Over ∧ Underway t (k + 1) c.round) ∨ (c.round.Over ∧ Finished t k c.round) := by
  obtain ⟨hleft, hfar, hright⟩ := h.stops hover
  have hcomparisons := h.comparisons_stops hover
  have hstop (i : Fin n) (hi : c.leftStop.1 = i) (hlt : ↑i < s.hi - 1) : pivot < c.buffer.get i :=
    c.lt_get_leftStop hi hlt
  have hi := c.leftStop_mem.1
  obtain ⟨hl, hr, hcase⟩ := c.round_cases (i := c.leftStop.1)
    (j := (c.rightStop c.leftStop.2).1) (m := (c.rightStop c.leftStop.2).2) rfl rfl
  generalize c.leftStop.1 = i at *
  generalize (c.rightStop c.leftStop.2).1 = j at *
  generalize (c.rightStop c.leftStop.2).2 = m at *
  rcases hcase with ⟨hin, hjn, hij, hb, ht⟩ | ⟨hji, hb, ht⟩
  · left
    rw [if_neg (by omega)] at hcomparisons
    refine ⟨?_, ?_, ?_, ?_, ?_⟩
    · rw [Over, hl, hr]
      exact Nat.not_le.mpr hij
    · rw [hl, hr, ht, h.tally, hcomparisons]
      rfl
    · rw [hl]
      exact hleft
    · rw [hr]
      exact hright
    · intro _
      simp only [hb, hr]
      rw [get_eq, Vector.getElem_swap_right]
      exact hstop ⟨i, hin⟩ rfl (by simp only; omega)
  · right
    refine ⟨?_, ?_, ?_, ?_, ?_⟩
    · rw [Over, hl, hr]
      exact hji
    · rw [hl, hr, ht, h.tally, hcomparisons]
      rfl
    · rw [hr]
      exact hfar
    · rw [hr]
      exact hright
    · intro hlt
      simp only [hb, hl] at hlt ⊢
      exact hstop _ rfl hlt

/-- A scan makes one exchange in every round but the last. -/
theorem Underway.exists_rounds {t : Tally} {k : Nat} {c : Scan s pivot} (h : Underway t k c)
    (hover : ¬ c.Over) :
    ∃ m, c.run = round^[m + 1] c ∧ Finished t (k + m) c.run ∧
      ∀ l ≤ m, ¬ (round^[l] c).Over ∧ Underway t (k + l) (round^[l] c) := by
  fun_induction Scan.run c generalizing k with
  | case1 c hc => exact absurd hc hover
  | case2 c _ ih =>
    rcases underway_round h hover with ⟨hover', h'⟩ | ⟨hover', h'⟩
    · obtain ⟨m, hrun, hfin, hbefore⟩ := ih h' hover'
      refine ⟨m + 1, hrun, by rwa [Nat.add_right_comm, Nat.add_assoc] at hfin, ?_⟩
      intro l hl
      cases l with
      | zero => exact ⟨hover, h⟩
      | succ l =>
        obtain ⟨hl', hunder⟩ := hbefore l (Nat.le_of_succ_le_succ hl)
        exact ⟨hl', by rwa [Nat.add_right_comm, Nat.add_assoc] at hunder⟩
    · rw [Scan.run, if_pos hover']
      refine ⟨0, rfl, h', ?_⟩
      intro l hl
      obtain rfl : l = 0 := Nat.le_zero.mp hl
      exact ⟨hover, h⟩

theorem Finished.meet {t : Tally} {k : Nat} {c : Scan s pivot} (h : Finished t k c)
    (hsep : c.Separates) (hover : c.Over) :
    c.left = c.right + 1 ∨ (c.left = s.hi - 1 ∧ c.right = s.hi - 1) := by
  have hle : c.right ≤ c.left := hover
  have hlo := c.right_mem.1
  have hhi := c.left_mem.2
  -- A slot strictly between the cursors would have to be on both sides of the pivot.
  have hnext : c.left ≤ c.right + 1 := by
    apply Nat.le_of_not_lt
    intro hgap
    have hk : c.right + 1 ∈ s := ⟨by omega, by omega⟩
    have hle := hsep.le_pivot ⟨c.right + 1, Segment.lt_of_mem hk⟩ hk hgap
    exact Int32.not_lt.mpr hle (hsep.pivot_lt _ hk (Nat.lt_succ_self _))
  rcases Nat.lt_or_eq_of_le hle with hlt | heq
  · left
    omega
  · right
    have hlast : ¬ c.left < s.hi - 1 := by
      intro hlt
      have hgt := h.pivot_lt hlt
      simp only [← heq] at hgt
      exact Int32.not_le.mpr hgt (hsep.right_le_pivot hover)
    omega

theorem Finished.tally_eq {t : Tally} {k : Nat} {c : Scan s pivot} (h : Finished t k c)
    (hsize : s.lo + 2 ≤ s.hi)
    (hmeet : c.left = c.right + 1 ∨ (c.left = s.hi - 1 ∧ c.right = s.hi - 1)) :
    c.tally = t +
      { comparisons := (partitionWork (c.right - s.lo) (s.hi - (c.right + 1)) k).comparisons
        swaps := k } := by
  have hlo := c.right_mem.1
  have hhi := c.left_mem.2
  have hcomparisons : (c.left - s.lo) + (s.hi - 1 - c.right) + 2 * (k + 1) -
      (if c.right = s.lo then 1 else 0) =
        (partitionWork (c.right - s.lo) (s.hi - (c.right + 1)) k).comparisons := by
    simp only [partitionWork]
    rcases hmeet with hnext | ⟨hleft, hright⟩
    · split_ifs <;> omega
    · rw [if_neg (by omega), if_pos (by omega)]
      omega
  rw [h.tally, hcomparisons]

end Scan

/-! ## A partition -/

/-- A partition costs what the sizes of its sides and the exchanges of its scan say, and no
side is smaller than the number of exchanges. -/
theorem partition_work {c : Cut s} {st st' : State n} (h : 2 ≤ s.size)
    (hp : partition s (Nat.zero_lt_of_lt h) st = (c, st')) :
    ∃ k, k ≤ c.left.size ∧ k ≤ c.right.size ∧
      st'.session.tally = st.session.tally + partitionWork c.left.size c.right.size k := by
  have hpos : 0 < s.size := Nat.zero_lt_of_lt h
  have hsize : s.lo + 2 ≤ s.hi := by
    rw [← s.lo_add_size]
    exact Nat.add_le_add_left h _
  obtain ⟨k, hfin⟩ : ∃ k, Scan.Finished st.session.tally.addPartition k (scanned s hpos st) := by
    obtain ⟨m, -, hfin, -⟩ := (Scan.underway_start st.buffer hpos _).exists_rounds
      (Scan.not_over_start st.buffer h _)
    exact ⟨0 + m, hfin⟩
  obtain ⟨hsep, hover⟩ : (scanned s hpos st).Separates ∧ (scanned s hpos st).Over :=
    Scan.separates_run (Scan.separates_start st.buffer hpos _)
  have htally := hfin.tally_eq hsize (hfin.meet hsep hover)
  have hleft := hfin.left
  have hright := hfin.right
  obtain ⟨hslot, -, hcase⟩ := partition_cases hpos st rfl
  rw [hp] at hslot hcase
  simp only at hslot hcase
  rw [← hslot] at htally hleft hright hcase
  have hl : c.left.size = c.slot - s.lo := rfl
  have hr : c.right.size = s.hi - (c.slot + 1) := rfl
  rw [← hl, ← hr] at htally
  refine ⟨k, by omega, by omega, ?_⟩
  -- The pivot stays in the first slot exactly if the left side is empty.
  rcases hcase with ⟨hfirst, -, ht⟩ | ⟨-, hne, -, ht⟩
  · have hempty : c.left.size = 0 := by omega
    rw [ht, htally, Tally.addPartition_eq, add_assoc]
    congr 1
    ext <;> simp [partitionWork, hempty]
  · have hfull : c.left.size ≠ 0 := by omega
    rw [ht, Tally.addSwap_eq, htally, Tally.addPartition_eq, add_assoc, add_assoc]
    congr 1
    ext <;> simp [partitionWork, hfull]

/-! ## The pivot -/

/-- The most comparisons that a rule makes to pick a pivot among `size` slots. -/
def PivotRule.pickComparisons (rule : PivotRule) (size : Nat) : Nat :=
  match rule with
  | .medianOfThree => if size < 3 then 0 else 3
  | .firstSlot | .random => 0

/-- The most exchanges that bring the pivot of a rule to the first slot. -/
def PivotRule.pickSwaps (rule : PivotRule) : Nat :=
  match rule with
  | .firstSlot => 0
  | .medianOfThree | .random => 1

theorem medianOffset_work (xs : Vector Int32 n) (h : 0 < s.size) (t : Tally) :
    ∃ a ≤ 3, (medianOffset xs s h t).2 = t + { comparisons := a } := by
  simp only [medianOffset, Tally.addComparisons_eq]
  split_ifs
  · exact ⟨2, by decide, rfl⟩
  · exact ⟨3, by decide, rfl⟩
  · exact ⟨3, by decide, rfl⟩
  · exact ⟨2, by decide, rfl⟩
  · exact ⟨3, by decide, rfl⟩
  · exact ⟨3, by decide, rfl⟩

theorem pivotOffset_work (rule : PivotRule) (xs : Vector Int32 n) (h : 0 < s.size)
    (se : Session) :
    ∃ a ≤ rule.pickComparisons s.size,
      (pivotOffset rule xs s h se).2.tally = se.tally + { comparisons := a } := by
  cases rule with
  | firstSlot | random => exact ⟨0, Nat.le_refl 0, (add_zero _).symm⟩
  | medianOfThree =>
    by_cases hsize : s.size < 3
    · refine ⟨0, Nat.zero_le _, ?_⟩
      simp only [pivotOffset, if_pos hsize]
      exact (add_zero _).symm
    · obtain ⟨a, ha, ht⟩ := medianOffset_work xs h se.tally
      refine ⟨a, ?_, ?_⟩
      · simpa only [PivotRule.pickComparisons, if_neg hsize] using ha
      · simpa only [pivotOffset, if_neg hsize] using ht

theorem placePivot_work (rule : PivotRule) (h : 0 < s.size) (st : State n) :
    ∃ a ≤ rule.pickComparisons s.size, ∃ b ≤ rule.pickSwaps,
      (placePivot rule s st).session.tally =
        st.session.tally + { comparisons := a, swaps := b } := by
  obtain ⟨xs, se⟩ := st
  obtain ⟨a, ha, ht⟩ := pivotOffset_work rule xs h se
  refine ⟨a, ha, ?_⟩
  simp only [placePivot, dif_pos h]
  by_cases hk : (pivotOffset rule xs s h se).1.val = 0
  · refine ⟨0, Nat.zero_le _, ?_⟩
    rw [if_pos hk]
    exact ht
  · have hone : 1 ≤ rule.pickSwaps := by
      cases rule with
      | firstSlot => exact absurd rfl hk
      | medianOfThree | random => exact Nat.le_refl 1
    refine ⟨1, hone, ?_⟩
    rw [if_neg hk, Tally.addSwap_eq, ht, add_assoc]
    rfl

/-! ## A split -/

/-- What a split into sides of the given sizes can cost under a rule. -/
def PivotRule.CanCost (rule : PivotRule) (left right : Nat) (w : Tally) : Prop :=
  ∃ a ≤ rule.pickComparisons (left + right + 1), ∃ b ≤ rule.pickSwaps, ∃ k ≤ left, k ≤ right ∧
    w = { comparisons := a, swaps := b } + partitionWork left right k

theorem split_work {rule : PivotRule} {h : 2 ≤ s.size} {c : Cut s} {st st' : State n}
    (hs : split rule s h st = (c, st')) :
    ∃ w, rule.CanCost c.left.size c.right.size w ∧
      st'.session.tally = st.session.tally + w := by
  obtain ⟨a, ha, b, hb, hpick⟩ := placePivot_work rule (Nat.zero_lt_of_lt h) st
  obtain ⟨k, hl, hr, hpartition⟩ := partition_work h hs
  rw [← c.size_left_add_size_right] at ha
  refine ⟨_, ⟨a, ha, b, hb, k, hl, hr, rfl⟩, ?_⟩
  rw [hpartition, hpick, add_assoc]

namespace PivotRule.CanCost

variable {rule : PivotRule} {left right : Nat} {w : Tally}

theorem partitions_eq (h : rule.CanCost left right w) : w.partitions = 1 := by
  obtain ⟨a, -, b, -, k, -, -, rfl⟩ := h
  rfl

theorem maxDepth_eq (h : rule.CanCost left right w) : w.maxDepth = 0 := by
  obtain ⟨a, -, b, -, k, -, -, rfl⟩ := h
  rfl

theorem swaps_le (h : rule.CanCost left right w) :
    w.swaps ≤ min left right + (1 + rule.pickSwaps) := by
  obtain ⟨a, -, b, hb, k, hl, hr, rfl⟩ := h
  simp only [Tally.swaps_add, partitionWork]
  split_ifs <;> omega

theorem comparisons_le (h : rule.CanCost left right w) :
    w.comparisons ≤
      (left + right + 3 + 2 * min left right - if left = 0 ∨ right = 0 then 1 else 0) +
        rule.pickComparisons (left + right + 1) := by
  obtain ⟨a, ha, b, -, k, hl, hr, rfl⟩ := h
  simp only [Tally.comparisons_add, partitionWork]
  omega

end PivotRule.CanCost

/-! ## A sort -/

/-- Just the segments of two slots or more are split, and every split costs what a split into
sides of these sizes can cost. -/
inductive Outline.Costed (rule : PivotRule) : Outline → Prop
  | leaf {size : Nat} (h : size < 2) : Costed rule (.leaf size)
  | node {w : Tally} {l r : Outline} (h : 2 ≤ l.size + r.size + 1)
      (hw : rule.CanCost l.size r.size w) (hl : Costed rule l) (hr : Costed rule r) :
      Costed rule (.node w l r)

theorem HasOutline.costed {rule : PivotRule} {xs : Vector Int32 n} {o : Outline}
    (h : HasOutline rule s xs o) : o.Costed rule := by
  induction h with
  | leaf h => exact .leaf h
  | @node s xs c st l r h g hs hl hr ihl ihr =>
    obtain ⟨w, hw, ht⟩ := split_work hs
    rw [ht, zero_add]
    rw [← c.size_left_add_size_right, ← hl.size_eq, ← hr.size_eq] at h
    rw [← hl.size_eq, ← hr.size_eq] at hw
    exact .node h hw ihl ihr

/-- The work of a sort that starts with all counters at zero. -/
def sortWork (cfg : Config) (s : Segment n) (xs : Vector Int32 n) (g : Generator) : Tally :=
  (sortSegment cfg s ⟨xs, ⟨{}, g⟩⟩).session.tally

theorem sortWork_costed (cfg : Config) (s : Segment n) (xs : Vector Int32 n) (g : Generator) :
    ∃ o : Outline, o.Costed cfg.pivot ∧ o.size = s.size ∧
      sortWork cfg s xs g = { o.work with maxDepth := o.deepest cfg.schedule } := by
  obtain ⟨o, ho, ht⟩ := sortSegment_outline_of_zero cfg s xs g
  exact ⟨o, ho.costed, ho.size_eq, ht⟩

end Quicksort
