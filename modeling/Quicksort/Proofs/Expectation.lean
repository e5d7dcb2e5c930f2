import Mathlib.Algebra.BigOperators.Fin
import Quicksort.Proofs.Choice
import Quicksort.Proofs.Potential

/-
  The comparisons that random pivots cost in the mean.

  A split with a random pivot is a partition around the value at the offset that
  was drawn (`split_random`). `meanComparisons` gives every offset the same
  chance, at every split anew.

  The partition leaves values equal to the pivot on its left side. So two equal
  values stay together until one of them is the pivot, and then they are compared:
  the tied pairs are a lower bound, on the mean (`tiedPairs_le_meanComparisons`)
  and on every sort, whatever it draws (`tiedPairs_le_sortWork`). Beyond the ties
  the mean is of the order `k * log k`, since each split is paid for by the
  potential of the values (`meanComparisons_le_potential`). With many equal values
  the ties outweigh the rest, and the mean is quadratic.
-/

namespace Quicksort

variable {n : Nat} {s : Segment n} {c : Cut s} {xs ys : Vector Int32 n}

/-! ## A split at a given offset -/

/-- The partition of a segment around the value at offset `k`, by a session of its own. -/
def partitionAt (s : Segment n) (h : 0 < s.size) (xs : Vector Int32 n) (k : Fin s.size) :
    Cut s × State n :=
  partition s h ⟨xs.swap s.lo (s.lo + k) (s.lo_lt h) (s.lo_add_lt k), .fresh⟩

theorem placePivot_random (h : 0 < s.size) (st : State n) {k : Fin s.size} {g : Generator}
    (hk : st.session.generator.belowFin s.size h = (k, g)) :
    (placePivot .random s st).buffer = st.buffer.swap s.lo (s.lo + k) (s.lo_lt h) (s.lo_add_lt k) ∧
      (placePivot .random s st).session.tally.comparisons = st.session.tally.comparisons := by
  obtain ⟨a, ha, b, -, ht⟩ := placePivot_work .random h st
  have hnone : a = 0 := Nat.le_zero.mp ha
  refine ⟨buffer_placePivot .random h st (congrArg Prod.fst hk), ?_⟩
  rw [ht, hnone, Tally.comparisons_add, Nat.add_zero]

theorem split_random (h : 2 ≤ s.size) (st : State n) {k : Fin s.size} {g : Generator}
    (hk : st.session.generator.belowFin s.size (Nat.zero_lt_of_lt h) = (k, g)) {c : Cut s}
    {st' : State n} (hp : partitionAt s (Nat.zero_lt_of_lt h) st.buffer k = (c, st')) :
    (split .random s h st).1 = c ∧ (split .random s h st).2.buffer = st'.buffer ∧
      (split .random s h st).2.session.tally.comparisons =
        st.session.tally.comparisons + st'.session.tally.comparisons := by
  have hpos : 0 < s.size := Nat.zero_lt_of_lt h
  obtain ⟨hbuffer, hcount⟩ := placePivot_random hpos st hk
  let own : State n := ⟨st.buffer.swap s.lo (s.lo + k) (s.lo_lt hpos) (s.lo_add_lt k), .fresh⟩
  have ha : Alike s own.buffer (placePivot .random s st).buffer := hbuffer ▸ .refl s _
  obtain ⟨hcut, σ, w, hx, hy⟩ := partition_alike hpos ha
  have howned : partition s hpos own = (c, st') := hp
  rw [howned] at hcut hx
  refine ⟨hcut, ?_, ?_⟩
  · exact (hbuffer ▸ hy.rearranges).unique hx.rearranges
  · rw [split, hy.tally, hx.tally, Tally.comparisons_add, Tally.comparisons_add, hcount]
    exact congrArg _ (Nat.zero_add _).symm

/-! ## The values on the sides -/

/-- The values of a segment as integers. -/
def values (s : Segment n) (xs : Vector Int32 n) : Multiset Int :=
  ((slice xs s).map Int32.toInt : List Int)

def valueAt (xs : Vector Int32 n) (k : Fin s.size) : Int :=
  (xs.get ⟨s.lo + k, s.lo_add_lt k⟩).toInt

theorem card_values (s : Segment n) (xs : Vector Int32 n) : (values s xs).card = s.size := by
  rw [values, Multiset.coe_card, List.length_map, length_slice]

theorem sum_map_values (s : Segment n) (xs : Vector Int32 n) (f : Int → ℚ) :
    ((values s xs).map f).sum = ∑ k : Fin s.size, f (valueAt xs k) := by
  rw [values, slice_eq_ofFn, Multiset.map_coe, Multiset.sum_coe, List.map_ofFn, List.map_ofFn,
    List.sum_ofFn]
  rfl

theorem exists_of_mem_values {y : Int} (h : y ∈ values s xs) :
    ∃ k : Fin n, ↑k ∈ s ∧ (xs.get k).toInt = y := by
  obtain ⟨x, hx, rfl⟩ := List.mem_map.mp (Multiset.mem_coe.mp h)
  obtain ⟨k, hk, rfl⟩ := exists_of_mem_slice hx
  exact ⟨k, hk, rfl⟩

theorem values_of_rearranges {σ : Equiv.Perm (Fin n)} (h : Rearranges s σ xs ys) :
    values s ys = values s xs :=
  Multiset.coe_eq_coe.mpr (h.perm_slice.map Int32.toInt)

theorem values_eq_cons (xs : Vector Int32 n) (c : Cut s) :
    values s xs = (xs.get c.index).toInt ::ₘ (values c.left xs + values c.right xs) := by
  rw [values, slice_eq_append_cons xs c, List.map_append, List.map_cons, ← Multiset.coe_add,
    ← Multiset.cons_coe, Multiset.add_cons]
  rfl

theorem Divided.splitsAround (h : Divided c xs) :
    SplitsAround (values s xs) (xs.get c.index).toInt (values c.left xs) (values c.right xs) where
  eq_cons := values_eq_cons xs c
  left_le y hy := by
    obtain ⟨k, hk, rfl⟩ := exists_of_mem_values hy
    rw [← Int32.le_iff_toInt_le]
    exact h.left_le k hk
  lt_right y hy := by
    obtain ⟨k, hk, rfl⟩ := exists_of_mem_values hy
    rw [← Int32.lt_iff_toInt_lt]
    exact h.lt_right k hk

/-- What a partition around the value `p` leaves: the values on the two sides, and the work. -/
structure SplitsAt (m : Multiset Int) (p : Int) (l r : Multiset Int) (comparisons : Nat) :
    Prop extends SplitsAround m p l r where
  card_le : m.card ≤ comparisons
  comparisons_le : comparisons ≤ m.card + 2 + 2 * m.countP (p < ·)

theorem splitsAt_of_partition (h : 2 ≤ s.size) {st st' : State n}
    (hp : partition s (Nat.zero_lt_of_lt h) st = (c, st')) :
    ∃ w, st'.session.tally.comparisons = st.session.tally.comparisons + w ∧
      SplitsAt (values s st.buffer) (st.buffer.get ⟨s.lo, s.lo_lt (Nat.zero_lt_of_lt h)⟩).toInt
        (values c.left st'.buffer) (values c.right st'.buffer) w := by
  have hpos : 0 < s.size := Nat.zero_lt_of_lt h
  have hdivided := divided_partition hpos st
  have hpivot := get_index_partition hpos st
  obtain ⟨σ, hσ⟩ := partition_rearranges hpos st
  obtain ⟨k, -, hk, hwork⟩ := partition_work h hp
  rw [hp] at hdivided hpivot hσ
  refine ⟨_, congrArg Tally.comparisons hwork, ?_⟩
  have hsize := c.size_left_add_size_right
  rw [← hpivot, ← values_of_rearranges hσ]
  have haround := hdivided.splitsAround
  refine ⟨haround, ?_, ?_⟩
  · rw [card_values, partitionWork]
    simp only
    split_ifs <;> omega
  · -- The exchanges of the scan are no more than the values on the right side.
    rw [haround.countP_lt, card_values, card_values, partitionWork]
    simp only
    omega

theorem splitsAt_of_partitionAt (h : 2 ≤ s.size) {k : Fin s.size} {st : State n}
    (hp : partitionAt s (Nat.zero_lt_of_lt h) xs k = (c, st)) :
    SplitsAt (values s xs) (valueAt xs k) (values c.left st.buffer) (values c.right st.buffer)
      st.session.tally.comparisons := by
  have hpos : 0 < s.size := Nat.zero_lt_of_lt h
  obtain ⟨w, hw, hs⟩ := splitsAt_of_partition h hp
  rw [values_of_rearranges (.swap xs (Segment.lo_mem hpos) (s.lo_add_mem k))] at hs
  simp only [get_eq, Vector.getElem_swap_left] at hs
  rw [hw.trans (Nat.zero_add w)]
  exact hs

theorem splitsAt_of_split {rule : PivotRule} {h : 2 ≤ s.size} {st st' : State n}
    (hs : split rule s h st = (c, st')) :
    ∃ p w, st.session.tally.comparisons + w ≤ st'.session.tally.comparisons ∧
      SplitsAt (values s st.buffer) p (values c.left st'.buffer) (values c.right st'.buffer) w := by
  have hpos : 0 < s.size := Nat.zero_lt_of_lt h
  obtain ⟨σ, v, hx, -⟩ := placePivot_alike rule hpos (.refl s st.buffer) fun _ => rfl
  obtain ⟨w, hw, hsplits⟩ := splitsAt_of_partition h hs
  rw [values_of_rearranges hx.rearranges] at hsplits
  refine ⟨_, w, ?_, hsplits⟩
  rw [hw, hx.tally, Tally.comparisons_add]
  omega

/-! ## The mean -/

/-- The mean number of comparisons of a sort of the segment, if every pivot is drawn from all
slots of its segment with equal chances and no draw depends on another. -/
def meanComparisons (s : Segment n) (xs : Vector Int32 n) : ℚ :=
  if h : 2 ≤ s.size then
    (∑ k : Fin s.size,
      let r := partitionAt s (Nat.zero_lt_of_lt h) xs k
      ((r.2.session.tally.comparisons : ℚ) + meanComparisons r.1.left r.2.buffer +
        meanComparisons r.1.right r.2.buffer)) / s.size
  else 0
termination_by s.size
decreasing_by
  · exact r.1.size_left_lt
  · exact r.1.size_right_lt

theorem meanComparisons_le_potential (s : Segment n) (xs : Vector Int32 n) :
    meanComparisons s xs ≤ potential (values s xs) := by
  fun_induction meanComparisons s xs with
  | case1 s xs h ihl ihr =>
    have hpos : (0 : ℚ) < s.size := by exact_mod_cast Nat.zero_lt_of_lt h
    let m := values s xs
    let bound (p : Int) : ℚ := (m.card + 2 + 2 * m.countP (p < ·)) + potentialAfter m p
    have hbranch (k : Fin s.size) :
        ((partitionAt s (Nat.zero_lt_of_lt h) xs k).2.session.tally.comparisons : ℚ) +
          meanComparisons (partitionAt s (Nat.zero_lt_of_lt h) xs k).1.left
            (partitionAt s (Nat.zero_lt_of_lt h) xs k).2.buffer +
          meanComparisons (partitionAt s (Nat.zero_lt_of_lt h) xs k).1.right
            (partitionAt s (Nat.zero_lt_of_lt h) xs k).2.buffer ≤ bound (valueAt xs k) := by
      obtain ⟨c, st, hp⟩ : ∃ c st, partitionAt s (Nat.zero_lt_of_lt h) xs k = (c, st) :=
        ⟨_, _, rfl⟩
      have hl := ihl k
      have hr := ihr k
      rw [hp] at hl hr ⊢
      have hs := splitsAt_of_partitionAt h hp
      have hafter := hs.potential_add
      have hcost : (st.session.tally.comparisons : ℚ) ≤
          m.card + 2 + 2 * m.countP (valueAt xs k < ·) := by exact_mod_cast hs.comparisons_le
      linarith
    -- Each draw is bounded on its own; only their sum has room for the potential.
    rw [div_le_iff₀ hpos]
    calc _ ≤ ∑ k : Fin s.size, bound (valueAt xs k) := Finset.sum_le_sum fun k _ => hbranch k
      _ = (m.map bound).sum := (sum_map_values s xs bound).symm
      _ ≤ m.card * potential m := sum_potentialAfter_le m
      _ = potential m * s.size := by rw [card_values, mul_comm]
  | case2 s xs h => exact potential_nonneg _

/-! ## Ties -/

theorem injective_toInt : Function.Injective Int32.toInt := fun _ _ => Int32.toInt_inj.mp

/-- No tie is settled without a comparison. -/
theorem SplitsAt.tiedPairs_le {l m r : List Int} {p : Int} {comparisons : Nat}
    (h : SplitsAt (m : Multiset Int) p (l : Multiset Int) (r : Multiset Int) comparisons) :
    tiedPairs m ≤ comparisons + tiedPairs l + tiedPairs r := by
  have hperm : m.Perm (p :: (l ++ r)) := by
    rw [← Multiset.coe_eq_coe, h.eq_cons, Multiset.coe_add, Multiset.cons_coe]
  have happend : tiedPairs (l ++ r) = tiedPairs l + tiedPairs r :=
    tiedPairs_append fun x hx hx' =>
      not_lt.mpr (h.left_le x (Multiset.mem_coe.mpr hx)) (h.lt_right x (Multiset.mem_coe.mpr hx'))
  have hcount : (l ++ r).count p ≤ (l ++ r).length := List.count_le_length
  have hcard := h.card_le
  have hlength := hperm.length_eq
  rw [Multiset.coe_card] at hcard
  rw [List.length_cons] at hlength
  rw [tiedPairs_perm hperm, tiedPairs_cons, happend]
  omega

theorem HasOutline.tiedPairs_le {rule : PivotRule} {o : Outline} (h : HasOutline rule s xs o) :
    tiedPairs ((slice xs s).map Int32.toInt) ≤ o.work.comparisons := by
  induction h with
  | leaf h =>
    rw [tiedPairs_of_length_lt]
    · exact Nat.zero_le _
    · rwa [List.length_map, length_slice]
  | @node s xs c st l r h g hs hl hr ihl ihr =>
    obtain ⟨p, w, hw, hsplits⟩ := splitsAt_of_split hs
    have hties : tiedPairs ((slice xs s).map Int32.toInt) ≤
        w + tiedPairs ((slice st.buffer c.left).map Int32.toInt) +
          tiedPairs ((slice st.buffer c.right).map Int32.toInt) := hsplits.tiedPairs_le
    simp only [Outline.work, Tally.comparisons_add, Tally.comparisons_zero, Nat.zero_add] at hw ⊢
    omega

theorem tiedPairs_le_sortWork (cfg : Config) (s : Segment n) (xs : Vector Int32 n)
    (g : Generator) : tiedPairs (slice xs s) ≤ (sortWork cfg s xs g).comparisons := by
  obtain ⟨o, ho, ht⟩ := sortSegment_outline_of_zero cfg s xs g
  rw [sortWork, ht, ← tiedPairs_map injective_toInt]
  exact ho.tiedPairs_le

theorem tiedPairs_le_meanComparisons (s : Segment n) (xs : Vector Int32 n) :
    (tiedPairs ((slice xs s).map Int32.toInt) : ℚ) ≤ meanComparisons s xs := by
  fun_induction meanComparisons s xs with
  | case1 s xs h ihl ihr =>
    have hpos : (0 : ℚ) < s.size := by exact_mod_cast Nat.zero_lt_of_lt h
    have hconst : (tiedPairs ((slice xs s).map Int32.toInt) : ℚ) * s.size =
        ∑ _k : Fin s.size, (tiedPairs ((slice xs s).map Int32.toInt) : ℚ) := by
      rw [Finset.sum_const, Finset.card_fin, nsmul_eq_mul, mul_comm]
    rw [le_div_iff₀ hpos, hconst]
    apply Finset.sum_le_sum
    intro k _
    obtain ⟨c, st, hp⟩ : ∃ c st, partitionAt s (Nat.zero_lt_of_lt h) xs k = (c, st) :=
      ⟨_, _, rfl⟩
    have hl := ihl k
    have hr := ihr k
    rw [hp] at hl hr ⊢
    have hties : (tiedPairs ((slice xs s).map Int32.toInt) : ℚ) ≤
        st.session.tally.comparisons +
          tiedPairs ((slice st.buffer c.left).map Int32.toInt) +
          tiedPairs ((slice st.buffer c.right).map Int32.toInt) := by
      exact_mod_cast (splitsAt_of_partitionAt h hp).tiedPairs_le
    linarith
  | case2 s xs h =>
    rw [tiedPairs_of_length_lt, Nat.cast_zero]
    rw [List.length_map, length_slice]
    exact Nat.lt_of_not_le h

/-! ## Both bounds -/

/-- Tied values cost one comparison for each pair of them, and apart from those the mean is of
the order `k * log k` for `k` slots. -/
theorem meanComparisons_bounds (s : Segment n) (xs : Vector Int32 n) :
    (tiedPairs (slice xs s) : ℚ) ≤ meanComparisons s xs ∧
    meanComparisons s xs ≤ 4 * s.size * (Nat.log 2 s.size + 1) + tiedPairs (slice xs s) ∧
    ((slice xs s).Nodup → meanComparisons s xs ≤ 4 * s.size * (Nat.log 2 s.size + 1)) := by
  have hties := tiedPairs_map injective_toInt (slice xs s)
  have hlower := tiedPairs_le_meanComparisons s xs
  have hupper : meanComparisons s xs ≤
      4 * s.size * (Nat.log 2 s.size + 1) + tiedPairs (slice xs s) := by
    have hlog := potential_le ((slice xs s).map Int32.toInt)
    rw [List.length_map, length_slice] at hlog
    rw [← hties]
    exact (meanComparisons_le_potential s xs).trans hlog
  refine ⟨hties ▸ hlower, hupper, ?_⟩
  intro hnodup
  rwa [tiedPairs_of_nodup hnodup, Nat.cast_zero, add_zero] at hupper

theorem meanComparisons_bounds_three :
    (slice #v[3, 1, 2] (.whole 3)).Nodup ∧
      meanComparisons (.whole 3) #v[3, 1, 2] ≤ 4 * (Segment.whole 3).size * (Nat.log 2 3 + 1) :=
  ⟨by decide, (meanComparisons_bounds (.whole 3) #v[3, 1, 2]).2.2 (by decide)⟩

/-- With fifty equal values there are too many ties for a bound without them. -/
theorem lt_meanComparisons_replicate :
    4 * (50 : ℚ) * (Nat.log 2 50 + 1) <
      meanComparisons (.whole 50) (Vector.replicate 50 0) := by
  have hties := tiedPairs_le_meanComparisons (.whole 50) (Vector.replicate 50 0)
  rw [slice_whole, Vector.toList_replicate, List.map_replicate, tiedPairs_replicate] at hties
  have hlog : Nat.log 2 50 = 5 := by decide
  rw [hlog]
  refine lt_of_lt_of_le ?_ hties
  norm_num [Nat.choose]

end Quicksort
