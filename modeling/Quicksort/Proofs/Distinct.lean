import Quicksort.Proofs.Choice

/-
  Medians of distinct values.

  If no value occurs twice, a median of three slots has a smaller value in one of
  the two others and a greater one in the last (`IsMedian.exists_lt_lt`). Both
  stay in the segment, so a split with a median pivot leaves neither side empty
  (`sides_split_medianOfThree`). The sides hold distinct values again, and so it
  goes on in the whole sort (`HasOutline.forked`).

  A split then takes at least two slots from the size of each side, its pivot and
  one slot of the other side. This halves the worst depth
  (`Outline.Forked.depthLeftFirst_le`).
-/

namespace Quicksort

variable {n : Nat} {s : Segment n} {c : Cut s} {xs ys : Vector Int32 n} {o : Outline}

/-! ## A split -/

theorem get_ne_of_nodup (h : (slice xs s).Nodup) {i j : Fin s.size} (hij : i ≠ j) :
    xs.get ⟨s.lo + i, s.lo_add_lt i⟩ ≠ xs.get ⟨s.lo + j, s.lo_add_lt j⟩ := by
  have hi : ↑i < (slice xs s).length := by rw [length_slice]; exact i.isLt
  have hj : ↑j < (slice xs s).length := by rw [length_slice]; exact j.isLt
  rw [← getElem_slice xs s hi, ← getElem_slice xs s hj]
  intro he
  exact hij (Fin.ext (h.getElem_inj_iff.mp he))

theorem IsMedian.exists_lt_lt {hpos : 0 < s.size} {k : Fin s.size} (h : IsMedian s hpos xs k)
    (hsize : 3 ≤ s.size) (hd : (slice xs s).Nodup) :
    (∃ x ∈ slice xs s, x < xs.get ⟨s.lo + k, s.lo_add_lt k⟩) ∧
      ∃ x ∈ slice xs s, xs.get ⟨s.lo + k, s.lo_add_lt k⟩ < x := by
  obtain ⟨i, j, hperm, hi, hj⟩ := h
  have hslots : [i, k, j].Nodup := by
    rw [hperm.nodup_iff]
    simp only [List.nodup_cons, List.mem_cons, Fin.mk.injEq, List.not_mem_nil, or_false,
      not_or, not_false_eq_true, List.nodup_nil, and_true]
    omega
  have hik : i ≠ k := by
    rintro rfl
    simp at hslots
  have hkj : k ≠ j := by
    rintro rfl
    simp at hslots
  constructor
  · refine ⟨xs.get ⟨s.lo + i, s.lo_add_lt i⟩, get_mem_slice (s.lo_add_mem i), ?_⟩
    exact Int32.lt_of_le_of_ne hi (get_ne_of_nodup hd hik)
  · refine ⟨xs.get ⟨s.lo + j, s.lo_add_lt j⟩, get_mem_slice (s.lo_add_mem j), ?_⟩
    exact Int32.lt_of_le_of_ne hj (get_ne_of_nodup hd hkj)

namespace Divided

theorem size_left_pos (h : Divided c xs) {x : Int32} (hx : x ∈ slice xs s)
    (hlt : x < xs.get c.index) : 0 < c.left.size := by
  rw [slice_eq_append_cons xs c, List.mem_append, List.mem_cons] at hx
  rw [← length_slice xs c.left]
  rcases hx with hx | rfl | hx
  · exact List.length_pos_of_mem hx
  · exact absurd hlt Int32.lt_irrefl
  · exact absurd hlt (Int32.lt_asymm (h.lt_of_mem_right hx))

theorem size_right_pos (h : Divided c xs) {x : Int32} (hx : x ∈ slice xs s)
    (hlt : xs.get c.index < x) : 0 < c.right.size := by
  rw [slice_eq_append_cons xs c, List.mem_append, List.mem_cons] at hx
  rw [← length_slice xs c.right]
  rcases hx with hx | rfl | hx
  · exact absurd (h.le_of_mem_left hx) (Int32.not_le.mpr hlt)
  · exact absurd hlt Int32.lt_irrefl
  · exact List.length_pos_of_mem hx

end Divided

theorem nodup_sides {rule : PivotRule} {h : 2 ≤ s.size} {st st' : State n}
    (hs : split rule s h st = (c, st')) (hd : (slice st.buffer s).Nodup) :
    (slice st'.buffer c.left).Nodup ∧ (slice st'.buffer c.right).Nodup := by
  obtain ⟨⟨σ, hσ⟩, -⟩ := split_spec hs
  have hall : (slice st'.buffer s).Nodup := hσ.perm_slice.nodup_iff.mpr hd
  rw [slice_eq_append_cons st'.buffer c, List.nodup_append, List.nodup_cons] at hall
  exact ⟨hall.1, hall.2.1.2⟩

/-- A median pivot of three distinct values or more leaves neither side empty. -/
theorem sides_split_medianOfThree {h : 2 ≤ s.size} {st st' : State n}
    (hs : split .medianOfThree s h st = (c, st')) (hsize : 3 ≤ s.size)
    (hd : (slice st.buffer s).Nodup) : 0 < c.left.size ∧ 0 < c.right.size := by
  have hpos : 0 < s.size := Nat.zero_lt_of_lt h
  have hpicks := pivotOffset_picks .medianOfThree hpos st.buffer st.session
  have hmedian : IsMedian s hpos st.buffer
      (pivotOffset .medianOfThree st.buffer s hpos st.session).1 := by
    simpa only [PivotRule.Picks, if_neg (Nat.not_lt.mpr hsize)] using hpicks
  have hpivot := get_index_split .medianOfThree h st rfl
  obtain ⟨⟨σ, hσ⟩, hdivided⟩ := split_spec hs
  rw [hs] at hpivot
  obtain ⟨⟨x, hx, hlt⟩, ⟨y, hy, hgt⟩⟩ := hmedian.exists_lt_lt hsize hd
  rw [← hpivot] at hlt hgt
  constructor
  · exact hdivided.size_left_pos (hσ.perm_slice.mem_iff.mpr hx) hlt
  · exact hdivided.size_right_pos (hσ.perm_slice.mem_iff.mpr hy) hgt

/-! ## A sort -/

/-- Just the segments of two slots or more are split, and of three or more neither side is
empty. -/
inductive Outline.Forked : Outline → Prop
  | leaf {size : Nat} (h : size < 2) : Forked (.leaf size)
  | node {w : Tally} {l r : Outline} (h : 2 ≤ l.size + r.size + 1)
      (hside : 3 ≤ l.size + r.size + 1 → 0 < l.size ∧ 0 < r.size) (hl : Forked l)
      (hr : Forked r) : Forked (.node w l r)

theorem HasOutline.forked (h : HasOutline .medianOfThree s xs o) (hd : (slice xs s).Nodup) :
    o.Forked := by
  generalize hrule : PivotRule.medianOfThree = rule at h
  induction h with
  | leaf h => exact .leaf h
  | @node s xs c st l r h g hs hl hr ihl ihr =>
    subst hrule
    obtain ⟨hdl, hdr⟩ := nodup_sides hs hd
    have hsize : l.size + r.size + 1 = s.size := by
      rw [hl.size_eq, hr.size_eq, c.size_left_add_size_right]
    apply Outline.Forked.node (hsize ▸ h) _ (ihl hdl) (ihr hdr)
    rw [hsize, hl.size_eq, hr.size_eq]
    intro hthree
    exact sides_split_medianOfThree hs hthree hd

/-- Each level down takes two slots at least from the size of a side. -/
theorem Outline.Forked.depthLeftFirst_le (h : o.Forked) (d : Nat) :
    o.depthLeftFirst (d + 1) ≤ d + o.size / 2 := by
  induction h generalizing d with
  | leaf h => exact Nat.zero_le _
  | @node w l r h hside hl hr ihl ihr =>
    have hl' := ihl (d + 1)
    have hr' := ihr (d + 1)
    simp only [depthLeftFirst, size]
    omega

/-- Medians of distinct values. From every state a split of three slots or more leaves neither
side empty, and so does every split in the sort of a whole buffer. With both sides nested, such a
sort is at most half as deep as the buffer is long. -/
theorem distinct_medians_halve_depth :
    (∀ (n : Nat) (s : Segment n) (h : 3 ≤ s.size) (st : State n), (slice st.buffer s).Nodup →
      let c := (split .medianOfThree s (Nat.le_of_succ_le h) st).1
      0 < c.left.size ∧ 0 < c.right.size) ∧
    (∀ xs : Array Int32, xs.toList.Nodup →
      (∀ o, HasOutline .medianOfThree (.whole xs.size) xs.toVector o → o.Forked) ∧
        (sortAll ⟨.medianOfThree, .leftFirst⟩ xs).tally.maxDepth ≤ xs.size / 2) := by
  constructor
  · intro n s h st hd c
    exact sides_split_medianOfThree (Prod.mk.eta (p := split .medianOfThree s _ st)).symm h hd
  · intro xs hd
    have hforked (o : Outline) (ho : HasOutline .medianOfThree (.whole xs.size) xs.toVector o) :
        o.Forked := by
      apply ho.forked
      rw [slice_whole]
      exact hd
    refine ⟨hforked, ?_⟩
    obtain ⟨o, ho, ht⟩ := sortAll_outline ⟨.medianOfThree, .leftFirst⟩ xs
    have hdepth : o.depthLeftFirst 1 ≤ 0 + o.size / 2 := (hforked o ho).depthLeftFirst_le 0
    rw [ho.size_eq, Segment.size_whole, Nat.zero_add] at hdepth
    rw [ht]
    exact hdepth

/-- Six values in descending order. -/
theorem distinct_medians_halve_depth_six :
    let c := (split .medianOfThree (.whole 6) (by decide) ⟨#v[6, 5, 4, 3, 2, 1], .fresh⟩).1
    3 ≤ (Segment.whole 6).size ∧ [6, 5, 4, 3, 2, (1 : Int32)].Nodup ∧
      0 < c.left.size ∧ 0 < c.right.size ∧
      (sortAll ⟨.medianOfThree, .leftFirst⟩ #[6, 5, 4, 3, 2, 1]).tally.maxDepth ≤ 3 := by
  intro c
  obtain ⟨hleft, hright⟩ := distinct_medians_halve_depth.1 6 (.whole 6) (by decide)
    ⟨#v[6, 5, 4, 3, 2, 1], .fresh⟩ (by decide)
  obtain ⟨-, hdepth⟩ := distinct_medians_halve_depth.2 #[6, 5, 4, 3, 2, 1] (by decide)
  exact ⟨by decide, by decide, hleft, hright, hdepth⟩

end Quicksort
