import Quicksort.Proofs.Strays

/-
  A partition scan, step by step.

  Within a round the left cursor moves one slot at a time, then the right one,
  each as long as its test allows (`Scan.Reaches`). At every such step the pivot
  is in the first slot, and the cursors have only passed values of their own
  side (`Scan.Separates.encloses`).

  A round that is not the last makes one exchange. After it both cursors stand on
  values that they leave again, so both move in the round that follows, although
  nothing in the loop counts down. The rounds of a scan are therefore its
  exchanges and one more (`Scan.Underway.exists_rounds`, `scan_closes_in`).
-/

namespace Quicksort

variable {n : Nat} {s : Segment n} {pivot : Int32} {t : Tally} {i j k : Nat}

/-! ## The steps of a round -/

/-- The left cursor moves first, then the right one, then both stand still. -/
inductive Phase where
  | climbing
  | descending
  | stopped
  deriving DecidableEq, Repr

namespace Scan

/-- In the round that begins with `c`, the cursors come to the slots `i` and `j`. -/
inductive Reaches (c : Scan s pivot) : Phase → Nat → Nat → Prop
  | begin : c.Reaches .climbing c.left c.right
  | climb {i j : Nat} (h : c.Reaches .climbing i j) (hi : i < n) (hx : c.buffer[i] ≤ pivot)
      (hlast : i < s.hi - 1) : c.Reaches .climbing (i + 1) j
  | turn {i j : Nat} (h : c.Reaches .climbing i j) (hi : i < n)
      (hx : ¬ (c.buffer[i] ≤ pivot ∧ i < s.hi - 1)) : c.Reaches .descending i j
  | descend {i j : Nat} (h : c.Reaches .descending i j) (hj : j < n) (hfirst : s.lo < j)
      (hx : pivot < c.buffer[j]) : c.Reaches .descending i (j - 1)
  | stop {i j : Nat} (h : c.Reaches .descending i j) (hj : j < n)
      (hx : ¬ (s.lo < j ∧ pivot < c.buffer[j])) : c.Reaches .stopped i j

/-- The slots that the cursors visit in the phases of a round. -/
def Spans (c : Scan s pivot) : Phase → Nat → Nat → Prop
  | .climbing, i, j => c.left ≤ i ∧ i ≤ c.leftStop.1 ∧ j = c.right
  | .descending, i, j => i = c.leftStop.1 ∧ (c.rightStop c.leftStop.2).1 ≤ j ∧ j ≤ c.right
  | .stopped, i, j => i = c.leftStop.1 ∧ j = (c.rightStop c.leftStop.2).1

theorem Reaches.spans {c : Scan s pivot} {phase : Phase} (h : c.Reaches phase i j) :
    c.Spans phase i j := by
  induction h with
  | begin => exact ⟨Nat.le_refl _, le_climb, rfl⟩
  | @climb i j h hi hx hlast ih =>
    obtain ⟨hfrom, hto, hright⟩ := ih
    refine ⟨Nat.le_succ_of_le hfrom, ?_, hright⟩
    apply Nat.lt_of_le_of_ne hto
    intro he
    exact Int32.not_le.mpr (c.lt_get_leftStop (k := ⟨i, hi⟩) he.symm hlast) hx
  | @turn i j h hi hx ih =>
    obtain ⟨hfrom, hto, rfl⟩ := ih
    refine ⟨?_, descend_le, Nat.le_refl _⟩
    -- Short of its stop the cursor would pass this value, and not turn.
    by_contra hne
    have hlt : i < c.leftStop.1 := Nat.lt_of_le_of_ne hto hne
    exact hx ⟨c.get_le_of_lt_leftStop (k := ⟨i, hi⟩) hfrom hlt, Nat.lt_of_lt_of_le hlt climb_le⟩
  | @descend i j h hj hfirst hx ih =>
    obtain ⟨hleft, hto, hfrom⟩ := ih
    have hne : (c.rightStop c.leftStop.2).1 ≠ j := by
      intro he
      exact Int32.not_le.mpr hx (c.get_rightStop_le (k := ⟨j, hj⟩) he hfirst)
    exact ⟨hleft, by omega, by omega⟩
  | @stop i j h hj hx ih =>
    obtain ⟨hleft, hto, hfrom⟩ := ih
    refine ⟨hleft, ?_⟩
    by_contra hne
    have hlt : (c.rightStop c.leftStop.2).1 < j := Nat.lt_of_le_of_ne hto (Ne.symm hne)
    exact hx ⟨Nat.lt_of_le_of_lt (c.rightStop_mem _).1 hlt,
      c.lt_get_of_rightStop_lt (k := ⟨j, hj⟩) hfrom hlt⟩

theorem reaches_climbing (c : Scan s pivot) (hfrom : c.left ≤ i) (hto : i ≤ c.leftStop.1) :
    c.Reaches .climbing i c.right := by
  induction i, hfrom using Nat.le_induction with
  | base => exact .begin
  | succ i hfrom ih =>
    have hi : i < n := Nat.lt_trans hto (Segment.lt_of_mem c.leftStop_mem)
    exact .climb (ih (Nat.le_of_succ_le hto)) hi
      (c.get_le_of_lt_leftStop (k := ⟨i, hi⟩) hfrom hto) (Nat.lt_of_lt_of_le hto climb_le)

theorem reaches_descending (c : Scan s pivot) {d : Nat}
    (hto : (c.rightStop c.leftStop.2).1 + d ≤ c.right) :
    c.Reaches .descending c.leftStop.1 (c.right - d) := by
  induction d with
  | zero =>
    have hi : c.leftStop.1 < n := Segment.lt_of_mem c.leftStop_mem
    refine .turn (c.reaches_climbing le_climb (Nat.le_refl _)) hi ?_
    rintro ⟨hx, hlast⟩
    exact Int32.not_le.mpr (c.lt_get_leftStop (k := ⟨_, hi⟩) rfl hlast) hx
  | succ d ih =>
    have hlt : (c.rightStop c.leftStop.2).1 < c.right - d := by omega
    have hj : c.right - d < n :=
      Nat.lt_of_le_of_lt (Nat.sub_le ..) (Segment.lt_of_mem c.right_mem)
    exact .descend (ih (by omega)) hj (Nat.lt_of_le_of_lt (c.rightStop_mem _).1 hlt)
      (c.lt_get_of_rightStop_lt (k := ⟨_, hj⟩) (Nat.sub_le ..) hlt)

/-- The steps of a round end where the round leaves the cursors. -/
theorem reaches_stopped_iff (c : Scan s pivot) :
    c.Reaches .stopped i j ↔ i = c.round.left ∧ j = c.round.right := by
  obtain ⟨hl, hr, -⟩ := c.round_cases rfl rfl
  rw [hl, hr]
  constructor
  · exact Reaches.spans
  · rintro ⟨rfl, rfl⟩
    have hle : (c.rightStop c.leftStop.2).1 ≤ c.right := descend_le
    have hdown := c.reaches_descending (Nat.le_of_eq (Nat.add_sub_cancel' hle))
    rw [Nat.sub_sub_self hle] at hdown
    have hj : (c.rightStop c.leftStop.2).1 < n := Segment.lt_of_mem (c.rightStop_mem _)
    refine .stop hdown hj ?_
    rintro ⟨hfirst, hx⟩
    exact Int32.not_le.mpr hx (c.get_rightStop_le (k := ⟨_, hj⟩) rfl hfirst)

/-- With the cursors at `i` and `j`, the pivot is in the first slot, and the cursors are slots of
the segment that have only passed values of their own side. -/
structure Encloses (s : Segment n) (h : 0 < s.size) (pivot : Int32) (xs : Vector Int32 n)
    (i j : Nat) : Prop where
  left_mem : i ∈ s
  right_mem : j ∈ s
  pivot_first : xs.get ⟨s.lo, s.lo_lt h⟩ = pivot
  le_pivot : ∀ k : Fin n, ↑k ∈ s → ↑k < i → xs.get k ≤ pivot
  pivot_lt : ∀ k : Fin n, ↑k ∈ s → j < ↑k → pivot < xs.get k

theorem Separates.encloses_self {c : Scan s pivot} (hsep : c.Separates) (h : 0 < s.size) :
    Encloses s h pivot c.buffer c.left c.right :=
  ⟨c.left_mem, c.right_mem, hsep.pivot_first, hsep.le_pivot, hsep.pivot_lt⟩

theorem Separates.encloses {c : Scan s pivot} (hsep : c.Separates) (h : 0 < s.size)
    {phase : Phase} (hreach : c.Reaches phase i j) : Encloses s h pivot c.buffer i j := by
  induction hreach with
  | begin => exact hsep.encloses_self h
  | @climb i j _ hi hx hlast ih =>
    refine { ih with left_mem := ⟨Nat.le_succ_of_le ih.left_mem.1, by omega⟩, le_pivot := ?_ }
    intro k hk hki
    rcases Nat.lt_succ_iff_lt_or_eq.mp hki with hlt | rfl
    · exact ih.le_pivot k hk hlt
    · exact hx
  | @descend i j _ hj hfirst hx ih =>
    have hmem : j - 1 ∈ s := ⟨by omega, Nat.lt_of_le_of_lt (Nat.sub_le ..) ih.right_mem.2⟩
    refine { ih with right_mem := hmem, pivot_lt := ?_ }
    intro k hk hjk
    rcases Nat.lt_or_eq_of_le (Nat.le_of_pred_lt hjk) with hlt | rfl
    · exact ih.pivot_lt k hk hlt
    · exact hx
  | turn _ _ _ ih | stop _ _ _ ih => exact ih

/-! ## The rounds of a scan -/

theorem Underway.right_round_lt {c : Scan s pivot} (h : Underway t k c) (hk : 0 < k)
    (hover : ¬ c.Over) : c.round.right < c.right := by
  obtain ⟨-, hr, -⟩ := c.round_cases rfl rfl
  rw [hr]
  exact h.rightStop_lt hk hover

theorem separates_iterate {c : Scan s pivot} (h : c.Separates) {m : Nat}
    (hover : ∀ l ≤ m, ¬ (round^[l] c).Over) : ∀ l ≤ m, (round^[l] c).Separates := by
  intro l hl
  induction l with
  | zero => exact h
  | succ l ih =>
    have hl' : l ≤ m := Nat.le_of_succ_le hl
    rw [Function.iterate_succ_apply']
    exact separates_round (ih hl') (hover l hl')

theorem exists_exchanges {c : Scan s pivot} (h : c.Separates) (hover : ¬ c.Over)
    (hnext : ¬ c.round.Over) : ∃ i j, c.Exchanges i j := by
  rcases exchanges_or_over h hover with hx | ⟨hlast, -⟩
  · exact hx
  · exact absurd hlast hnext

theorem buffer_round_of_over {c : Scan s pivot} (h : c.Separates) (hover : ¬ c.Over)
    (hlast : c.round.Over) : c.round.buffer = c.buffer := by
  rcases exchanges_or_over h hover with ⟨i, j, hx⟩ | ⟨-, hbuffer, -⟩
  · exact absurd hlast hx.not_over
  · exact hbuffer

end Scan

/-- The scan of a partition of at least two values, round by round. At every step of every round
the pivot is in the first slot, the cursors are slots of the segment, no value left of the left
cursor is greater than the pivot, and every value right of the right cursor is. Each round but
the last exchanges a value greater than the pivot with one that is not, right of the first slot,
and both cursors move in the round after it. So there is one more round than there are exchanges.
At the end the left cursor is one slot past the right one, or both are in the last slot. -/
theorem scan_closes_in (s : Segment n) (h : 2 ≤ s.size) (st : State n) :
    let hpos := Nat.zero_lt_of_lt h
    let p := st.buffer.get ⟨s.lo, s.lo_lt hpos⟩
    let c (k : Nat) : Scan s p :=
      Scan.round^[k] (.start st.buffer s hpos st.session.tally.addPartition)
    let d := scanned s hpos st
    (partition s hpos st).1.slot = d.right ∧
    (∃ m, d = c (m + 1) ∧ d.tally.swaps = st.session.tally.swaps + m ∧
      (∀ k ≤ m, ¬ (c k).Over ∧
        (∀ phase i j, (c k).Reaches phase i j → Scan.Encloses s hpos p (c k).buffer i j) ∧
        ∀ i j, (c k).Reaches .stopped i j ↔ i = (c (k + 1)).left ∧ j = (c (k + 1)).right) ∧
      (∀ k < m, (∃ i j, (c k).Exchanges i j) ∧
        (c (k + 1)).left < (c (k + 2)).left ∧ (c (k + 2)).right < (c (k + 1)).right) ∧
      d.buffer = (c m).buffer) ∧
    d.Over ∧ Scan.Encloses s hpos p d.buffer d.left d.right ∧
    (d.left = d.right + 1 ∨ (d.left = s.hi - 1 ∧ d.right = s.hi - 1)) := by
  intro hpos p c d
  have hstart : (c 0).Separates := Scan.separates_start st.buffer hpos _
  have hunder : Scan.Underway st.session.tally.addPartition 0 (c 0) :=
    Scan.underway_start st.buffer hpos _
  have hopen : ¬ (c 0).Over := Scan.not_over_start st.buffer h _
  obtain ⟨hsep, hover⟩ : d.Separates ∧ d.Over := Scan.separates_run hstart
  have hstep (k : Nat) : c (k + 1) = (c k).round := Function.iterate_succ_apply' ..
  obtain ⟨m, hrun, hfin, hrounds⟩ :
      ∃ m, d = c (m + 1) ∧ Scan.Finished _ (0 + m) d ∧ ∀ l ≤ m, _ := hunder.exists_rounds hopen
  have hseps : ∀ k ≤ m, (c k).Separates :=
    Scan.separates_iterate hstart fun l hl => (hrounds l hl).1
  obtain ⟨hslot, -⟩ := partition_cases hpos st rfl
  refine ⟨hslot, ⟨m, hrun, ?_, ?_, ?_, ?_⟩, hover, hsep.encloses_self hpos,
    hfin.meet hsep hover⟩
  · rw [hfin.tally, Tally.swaps_add]
    exact congrArg (st.session.tally.swaps + ·) (Nat.zero_add m)
  · intro k hk
    refine ⟨(hrounds k hk).1, fun phase i j => (hseps k hk).encloses hpos, ?_⟩
    intro i j
    rw [hstep]
    exact (c k).reaches_stopped_iff
  · intro k hk
    obtain ⟨hnext, hunder⟩ : ¬ (c (k + 1)).Over ∧ Scan.Underway _ (0 + (k + 1)) (c (k + 1)) :=
      hrounds (k + 1) hk
    refine ⟨?_, ?_, ?_⟩
    · rw [hstep] at hnext
      exact Scan.exists_exchanges (hseps k (Nat.le_of_lt hk)) (hrounds k (Nat.le_of_lt hk)).1 hnext
    · rw [hstep (k + 1), Scan.left_round]
      exact (c (k + 1)).left_lt_leftStop hnext
    · rw [hstep (k + 1)]
      exact hunder.right_round_lt (by omega) hnext
  · have hm := hrounds m (Nat.le_refl m)
    rw [hrun, hstep] at hover ⊢
    exact Scan.buffer_round_of_over (hseps m (Nat.le_refl m)) hm.1 hover

/-- Two exchanges, and a third round in which the cursors pass each other. -/
theorem scan_closes_in_seven :
    let st : State 7 := ⟨#v[4, 7, 1, 9, 2, 6, 3], .fresh⟩
    let d := scanned (.whole 7) (by decide) st
    2 ≤ (Segment.whole 7).size ∧ d.tally.swaps = 2 ∧
      d = Scan.round^[3] (.start st.buffer (.whole 7) (by decide) st.session.tally.addPartition) ∧
      d.right = 3 ∧ d.left = 4 := by
  intro st d
  obtain ⟨-, ⟨m, hrun, hswaps, -⟩, -, -, hmeet⟩ := scan_closes_in (.whole 7) (by decide) st
  have htwo : d.tally.swaps = 2 := by decide +kernel
  have hright : d.right = 3 := by decide +kernel
  have hm : 2 = 0 + m := htwo.symm.trans hswaps
  obtain rfl : m = 2 := by omega
  refine ⟨by decide, htwo, hrun, hright, ?_⟩
  rcases hmeet with hpast | ⟨-, hlast⟩
  · rw [hpast, hright]
  · exact absurd (hright.symm.trans hlast) (by decide)

end Quicksort
