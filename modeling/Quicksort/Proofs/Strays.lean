import Quicksort.Proofs.Cost

/-
  Which slots a partition exchanges.

  Once it is known where the pivot belongs, a value is a stray if it stands on
  the wrong side of that slot: greater than the pivot and not right of it, or
  not greater and right of it. There are as many strays on either side. A scan
  exchanges the first stray from the left with the first from the right, the
  second with the second, and so on, and moves nothing else (`Scan.mends_run`).

  So a partition can be told without its cursors: exchange the strays, then
  bring the pivot to the slot given by its rank
  (`partition_exchanges_strays`). The number of strays and the rank also fix
  what the partition costs (`tally_partition`).
-/

namespace Quicksort

variable {n : Nat} {s : Segment n} {pivot : Int32} {xs : Vector Int32 n} {cut : Nat}

/-! ## The partition without cursors -/

/-- How many values after the first one are at most the first one. -/
def pivotRank (s : Segment n) (h : 0 < s.size) (xs : Vector Int32 n) : Nat :=
  (slice xs s).tail.countP (· ≤ xs.get ⟨s.lo, s.lo_lt h⟩)

/-- The slots from the second one up to `cut` with values greater than the pivot, from left to
right. -/
def leftStrays (s : Segment n) (pivot : Int32) (cut : Nat) (xs : Vector Int32 n) :
    List (Fin n) :=
  (List.finRange n).filter fun k => s.lo < ↑k ∧ ↑k ≤ cut ∧ pivot < xs.get k

/-- The slots after `cut` with values that are at most the pivot, from right to left. -/
def rightStrays (s : Segment n) (pivot : Int32) (cut : Nat) (xs : Vector Int32 n) :
    List (Fin n) :=
  (List.finRange n).reverse.filter fun k => cut < ↑k ∧ ↑k < s.hi ∧ xs.get k ≤ pivot

def exchangeAll (xs : Vector Int32 n) (pairs : List (Fin n × Fin n)) : Vector Int32 n :=
  pairs.foldl (fun xs pair => xs.swap pair.1 pair.2) xs

/-! ## The strays -/

/-- Where `i` is the first entry of an ordered list that passes the test `p`, and `q` differs
from `p` only in refusing `i`, the filter `p` keeps `i` and then what `q` keeps. -/
theorem filter_eq_cons_filter {α : Type} {r : α → α → Prop} {l : List α} (hl : l.Pairwise r)
    (hirrefl : ∀ k, ¬ r k k) {i : α} (hmem : i ∈ l) {p q : α → Bool} (hpi : p i = true)
    (hqi : q i = false) (hbefore : ∀ k, r k i → p k = false) (hsame : ∀ k, k ≠ i → p k = q k) :
    l.filter p = i :: l.filter q := by
  obtain ⟨before, after, rfl⟩ := List.append_of_mem hmem
  rw [List.pairwise_append, List.pairwise_cons] at hl
  obtain ⟨-, ⟨hafter, -⟩, hcross⟩ := hl
  have hlt (k : α) (hk : k ∈ before) : r k i := hcross k hk i List.mem_cons_self
  have hp : before.filter p = [] := by
    apply List.filter_eq_nil_iff.mpr
    intro k hk
    simp [hbefore k (hlt k hk)]
  have hq : before.filter q = [] := by
    apply List.filter_eq_nil_iff.mpr
    intro k hk
    have hne : k ≠ i := by
      intro he
      exact hirrefl i (he ▸ hlt k hk)
    simp [← hsame k hne, hbefore k (hlt k hk)]
  have hrest : after.filter p = after.filter q := by
    apply List.filter_congr
    intro k hk
    apply hsame
    intro he
    exact hirrefl i (he ▸ hafter k hk)
  rw [List.filter_append, List.filter_append, List.filter_cons_of_pos hpi,
    List.filter_cons_of_neg (by simp [hqi]), hp, hq, hrest]
  rfl

section

variable {i j : Fin n}

theorem leftStrays_eq_cons (hlo : s.lo < ↑i) (hic : ↑i ≤ cut) (hcj : cut < ↑j)
    (hpassed : ∀ k : Fin n, s.lo < ↑k → k < i → xs.get k ≤ pivot) (hi : pivot < xs.get i)
    (hj : xs.get j ≤ pivot) :
    leftStrays s pivot cut xs = i :: leftStrays s pivot cut (xs.swap i j) := by
  apply filter_eq_cons_filter (List.pairwise_lt_finRange n) Fin.lt_irrefl (List.mem_finRange i)
  · simp [hlo, hic, hi]
  · have hget : (xs.swap i j).get i = xs.get j := Vector.getElem_swap_left ..
    simp [hget, Int32.not_lt.mpr hj]
  · intro k hk
    simp only [decide_eq_false_iff_not, not_and, Int32.not_lt]
    intro hlk _
    exact hpassed k hlk hk
  · intro k hki
    by_cases hkj : k = j
    · subst hkj
      simp [Nat.not_le.mpr hcj]
    · rw [get_swap_of_ne xs hki hkj]

theorem rightStrays_eq_cons (hic : ↑i ≤ cut) (hcj : cut < ↑j) (hhi : ↑j < s.hi)
    (hpassed : ∀ k : Fin n, ↑k < s.hi → j < k → pivot < xs.get k) (hi : pivot < xs.get i)
    (hj : xs.get j ≤ pivot) :
    rightStrays s pivot cut xs = j :: rightStrays s pivot cut (xs.swap i j) := by
  have hdown : (List.finRange n).reverse.Pairwise (· > ·) :=
    List.pairwise_reverse.mpr (List.pairwise_lt_finRange n)
  apply filter_eq_cons_filter hdown Fin.lt_irrefl (List.mem_reverse.mpr (List.mem_finRange j))
  · simp [hcj, hhi, hj]
  · have hget : (xs.swap i j).get j = xs.get i := Vector.getElem_swap_right ..
    simp [hget, Int32.not_le.mpr hi]
  · intro k hk
    simp only [decide_eq_false_iff_not, not_and, Int32.not_le]
    intro _ hkh
    exact hpassed k hkh hk
  · intro k hkj
    by_cases hki : k = i
    · subst hki
      simp [Nat.not_lt.mpr hic]
    · rw [get_swap_of_ne xs hki hkj]

end

/-! ## The scan -/

namespace Scan

theorem left_le_right_run {c : Scan s pivot} (hover : ¬ c.Over) : c.left ≤ c.run.right := by
  fun_induction Scan.run c with
  | case1 c hc => exact absurd hc hover
  | case2 c _ ih =>
    by_cases hround : c.round.Over
    · rw [Scan.run, if_pos hround]
      obtain ⟨-, hr, -⟩ := c.round_cases rfl rfl
      rw [hr]
      exact c.left_le_rightStop hover _
    · have hstep : c.left < c.round.left := by
        rw [left_round]
        exact c.left_lt_leftStop hover
      exact Nat.le_trans (Nat.le_of_lt hstep) (ih hround)

theorem right_run_le (c : Scan s pivot) : c.run.right ≤ c.right := by
  fun_induction Scan.run c with
  | case1 c hover => exact Nat.le_refl _
  | case2 c hover ih =>
    obtain ⟨-, hr, -⟩ := c.round_cases rfl rfl
    apply Nat.le_trans ih
    rw [hr]
    exact descend_le

theorem right_run_lt {c : Scan s pivot} (hover : ¬ c.Over)
    (h : pivot < c.buffer.get ⟨c.right, Segment.lt_of_mem c.right_mem⟩) :
    c.run.right < c.right := by
  have hlr : c.left < c.right := Nat.lt_of_not_le hover
  have hfirst : s.lo < c.right := Nat.lt_of_le_of_lt c.left_mem.1 hlr
  obtain ⟨-, hr, -⟩ := c.round_cases rfl rfl
  rw [Scan.run, if_neg hover]
  apply Nat.lt_of_le_of_lt c.round.right_run_le
  rw [hr]
  exact descend_lt hfirst h

/-- The round of `c` exchanges the values of the slots `i` and `j`. -/
structure Exchanges (c : Scan s pivot) (i j : Fin n) : Prop where
  left : c.round.left = i
  right : c.round.right = j
  buffer : c.round.buffer = c.buffer.swap i j
  swaps : c.round.tally.swaps = c.tally.swaps + 1
  first_lt : s.lo < ↑i
  lt : i < j
  lt_hi : ↑j < s.hi
  pivot_lt : pivot < c.buffer.get i
  le_pivot : c.buffer.get j ≤ pivot
  passed_left : ∀ k : Fin n, ↑k ∈ s → k < i → c.buffer.get k ≤ pivot
  passed_right : ∀ k : Fin n, ↑k ∈ s → j < k → pivot < c.buffer.get k

/-- A round exchanges a value greater than the pivot with one that is not, or it is the last. -/
theorem exchanges_or_over {c : Scan s pivot} (h : c.Separates) (hover : ¬ c.Over) :
    (∃ i j, c.Exchanges i j) ∨
      (c.round.Over ∧ c.round.buffer = c.buffer ∧ c.round.tally.swaps = c.tally.swaps) := by
  have hlo : s.lo < c.leftStop.1 :=
    Nat.lt_of_le_of_lt c.left_mem.1 (c.left_lt_leftStop hover)
  have hhi : (c.rightStop c.leftStop.2).1 < s.hi := (c.rightStop_mem _).2
  have hstop (k : Fin n) (hk : c.leftStop.1 = k) (hlt : ↑k < s.hi - 1) :
      pivot < c.buffer.get k := c.lt_get_leftStop hk hlt
  have hstop' (k : Fin n) (hk : (c.rightStop c.leftStop.2).1 = k) (hlt : s.lo < ↑k) :
      c.buffer.get k ≤ pivot := c.get_rightStop_le hk hlt
  have hpassed (k : Fin n) (hk : ↑k ∈ s) (hki : ↑k < c.leftStop.1) : c.buffer.get k ≤ pivot :=
    h.le_pivot_of_lt_leftStop hk hki
  have hpassed' (k : Fin n) (hk : ↑k ∈ s) (hjk : (c.rightStop c.leftStop.2).1 < ↑k) :
      pivot < c.buffer.get k := h.pivot_lt_of_rightStop_lt hk hjk
  obtain ⟨hl, hr, hcase⟩ := c.round_cases (i := c.leftStop.1)
    (j := (c.rightStop c.leftStop.2).1) rfl rfl
  generalize c.leftStop.1 = i at *
  generalize (c.rightStop c.leftStop.2).1 = j at *
  rcases hcase with ⟨hin, hjn, hij, hb, ht⟩ | ⟨hji, hb, ht⟩
  · left
    refine ⟨⟨i, hin⟩, ⟨j, hjn⟩, ?_⟩
    constructor
    case left => exact hl
    case right => exact hr
    case buffer => exact hb
    case swaps => rw [ht]
    case first_lt => exact hlo
    case lt => exact hij
    case lt_hi => exact hhi
    case pivot_lt => exact hstop _ rfl (Nat.lt_of_lt_of_le hij (Nat.le_sub_one_of_lt hhi))
    case le_pivot => exact hstop' _ rfl (Nat.lt_trans hlo hij)
    case passed_left => exact hpassed
    case passed_right => exact hpassed'
  · right
    refine ⟨?_, hb, ?_⟩
    · rw [Over, hl, hr]
      exact hji
    · rw [ht]

namespace Exchanges

variable {c : Scan s pivot} {i j : Fin n}

theorem not_over (h : c.Exchanges i j) : ¬ c.round.Over := by
  rw [Over, h.left, h.right]
  exact Nat.not_le.mpr h.lt

/-- The exchanged values are on their own sides now, so the cut will come between them. -/
theorem cut_mem (h : c.Exchanges i j) : ↑i ≤ c.round.run.right ∧ c.round.run.right < ↑j := by
  constructor
  · rw [← h.left]
    exact left_le_right_run h.not_over
  · have hright : pivot <
        c.round.buffer.get ⟨c.round.right, Segment.lt_of_mem c.round.right_mem⟩ := by
      simp only [h.buffer, h.right]
      rw [get_eq, Vector.getElem_swap_right]
      exact h.pivot_lt
    rw [← h.right]
    exact right_run_lt h.not_over hright

theorem leftStrays_eq (h : c.Exchanges i j) :
    leftStrays s pivot c.round.run.right c.buffer =
      i :: leftStrays s pivot c.round.run.right c.round.buffer := by
  obtain ⟨hic, hcj⟩ := h.cut_mem
  rw [h.buffer]
  apply leftStrays_eq_cons h.first_lt hic hcj _ h.pivot_lt h.le_pivot
  intro k hlk hki
  have hkj : k < j := Fin.lt_trans hki h.lt
  exact h.passed_left k ⟨Nat.le_of_lt hlk, Nat.lt_trans hkj h.lt_hi⟩ hki

theorem rightStrays_eq (h : c.Exchanges i j) :
    rightStrays s pivot c.round.run.right c.buffer =
      j :: rightStrays s pivot c.round.run.right c.round.buffer := by
  obtain ⟨hic, hcj⟩ := h.cut_mem
  rw [h.buffer]
  apply rightStrays_eq_cons hic hcj h.lt_hi _ h.pivot_lt h.le_pivot
  intro k hkh hjk
  have hik : i < k := Fin.lt_trans h.lt hjk
  exact h.passed_right k ⟨Nat.le_of_lt (Nat.lt_trans h.first_lt hik), hkh⟩ hjk

end Exchanges

/-- From `c` to `d` the strays are exchanged pairwise, as seen from the slot where the right
cursor has ended. -/
structure Mends (c d : Scan s pivot) : Prop where
  length_eq : (leftStrays s pivot d.right c.buffer).length =
    (rightStrays s pivot d.right c.buffer).length
  buffer : d.buffer = exchangeAll c.buffer
    ((leftStrays s pivot d.right c.buffer).zip (rightStrays s pivot d.right c.buffer))
  swaps : d.tally.swaps = c.tally.swaps + (leftStrays s pivot d.right c.buffer).length

theorem mends_self {c : Scan s pivot} (h : c.Separates) (hover : c.Over) : Mends c c := by
  have hleft : leftStrays s pivot c.right c.buffer = [] := by
    apply List.filter_eq_nil_iff.mpr
    intro k _
    simp only [decide_eq_true_eq, not_and, Int32.not_lt]
    intro hlk hkr
    rcases Nat.lt_or_eq_of_le hkr with hlt | heq
    · have hk : ↑k ∈ s := ⟨Nat.le_of_lt hlk, Nat.lt_trans hlt c.right_mem.2⟩
      exact h.le_pivot k hk (Nat.lt_of_lt_of_le hlt hover)
    · rw [show k = ⟨c.right, Segment.lt_of_mem c.right_mem⟩ from Fin.ext heq]
      exact h.right_le_pivot hover
  have hright : rightStrays s pivot c.right c.buffer = [] := by
    apply List.filter_eq_nil_iff.mpr
    intro k _
    simp only [decide_eq_true_eq, not_and, Int32.not_le]
    intro hrk hkh
    exact h.pivot_lt k ⟨Nat.le_trans c.right_mem.1 (Nat.le_of_lt hrk), hkh⟩ hrk
  constructor
  case length_eq => rw [hleft, hright, List.length_nil]
  case buffer => rw [hleft, List.zip_nil_left]; rfl
  case swaps => rw [hleft, List.length_nil, Nat.add_zero]

/-- The strays before a round are those after it and the two that it exchanges. -/
theorem mends_of_round {c : Scan s pivot} (h : c.Separates) (hover : ¬ c.Over)
    (hrun : Mends c.round c.round.run) : Mends c c.round.run := by
  rcases exchanges_or_over h hover with ⟨i, j, hx⟩ | ⟨-, hbuffer, hswaps⟩
  · constructor
    case length_eq =>
      rw [hx.leftStrays_eq, hx.rightStrays_eq, List.length_cons, List.length_cons,
        hrun.length_eq]
    case buffer =>
      rw [hx.leftStrays_eq, hx.rightStrays_eq, List.zip_cons_cons, hrun.buffer, hx.buffer]
      rfl
    case swaps =>
      rw [hx.leftStrays_eq, hrun.swaps, hx.swaps, List.length_cons]
      omega
  · constructor
    case length_eq => exact hbuffer ▸ hrun.length_eq
    case buffer => exact hbuffer ▸ hrun.buffer
    case swaps => exact hbuffer ▸ hswaps ▸ hrun.swaps

theorem mends_run {c : Scan s pivot} (h : c.Separates) : Mends c c.run := by
  fun_induction Scan.run c with
  | case1 c hover => exact mends_self h hover
  | case2 c hover ih => exact mends_of_round h hover (ih (separates_round h hover))

end Scan

/-! ## The partition -/

theorem countP_le_eq_length {p : Int32} {l : List Int32} (h : ∀ x ∈ l, x ≤ p) :
    l.countP (· ≤ p) = l.length :=
  List.countP_eq_length.mpr fun x hx => decide_eq_true (h x hx)

theorem countP_le_eq_zero {p : Int32} {l : List Int32} (h : ∀ x ∈ l, p < x) :
    l.countP (· ≤ p) = 0 := by
  apply List.countP_eq_zero.mpr
  intro x hx
  simpa using h x hx

theorem Divided.countP_slice {c : Cut s} (h : Divided c xs) :
    (slice xs s).countP (· ≤ xs.get c.index) = c.left.size + 1 := by
  have hleft : (slice xs c.left).countP (· ≤ xs.get c.index) = c.left.size := by
    rw [countP_le_eq_length fun _ hx => h.le_of_mem_left hx, length_slice]
  have hright : (slice xs c.right).countP (· ≤ xs.get c.index) = 0 :=
    countP_le_eq_zero fun _ hx => h.lt_of_mem_right hx
  rw [slice_eq_append_cons xs c, List.countP_append, List.countP_cons, hleft, hright]
  simp

/-- A partition cuts at the pivot's rank. -/
theorem size_left_partition (h : 0 < s.size) (st : State n) :
    (partition s h st).1.left.size = pivotRank s h st.buffer := by
  have hcount := (divided_partition h st).countP_slice
  obtain ⟨σ, hσ⟩ := partition_rearranges h st
  rw [get_index_partition h st, hσ.perm_slice.countP_eq, slice_eq_cons _ h, List.countP_cons,
    if_pos (decide_eq_true (Int32.le_refl _))] at hcount
  exact (Nat.succ.inj hcount).symm

theorem slot_partition (h : 0 < s.size) (st : State n) :
    (partition s h st).1.slot = s.lo + pivotRank s h st.buffer := by
  rw [← size_left_partition h st]
  exact ((partition s h st).1.left.lo_add_size).symm

theorem right_scanned (h : 0 < s.size) (st : State n) :
    (scanned s h st).right = s.lo + pivotRank s h st.buffer := by
  obtain ⟨hslot, -⟩ := partition_cases h st rfl
  rw [← hslot, slot_partition]

theorem mends_scanned (h : 0 < s.size) (st : State n) {left right : List (Fin n)}
    (hleft : leftStrays s (st.buffer.get ⟨s.lo, s.lo_lt h⟩) (s.lo + pivotRank s h st.buffer)
      st.buffer = left)
    (hright : rightStrays s (st.buffer.get ⟨s.lo, s.lo_lt h⟩) (s.lo + pivotRank s h st.buffer)
      st.buffer = right) :
    left.length = right.length ∧
      (scanned s h st).buffer = exchangeAll st.buffer (left.zip right) ∧
      (scanned s h st).tally.swaps = st.session.tally.swaps + left.length := by
  have hmends : (Scan.start st.buffer s h st.session.tally.addPartition).Mends (scanned s h st) :=
    Scan.mends_run (Scan.separates_start st.buffer h _)
  obtain ⟨hlength, hbuffer, hswaps⟩ := hmends
  rw [right_scanned h st] at hlength hbuffer hswaps
  subst hleft hright
  exact ⟨hlength, hbuffer, hswaps⟩

theorem buffer_partition (h : 0 < s.size) (st : State n) :
    (partition s h st).2.buffer = (scanned s h st).buffer.swap s.lo (partition s h st).1.slot
      (s.lo_lt h) (Segment.lt_of_mem (partition s h st).1.mem) := by
  obtain ⟨hslot, -, hcase⟩ := partition_cases h st rfl
  rcases hcase with ⟨hfirst, hb, -⟩ | ⟨_, -, hb, -⟩
  · simp only [hslot, hfirst, swap_self]
    exact hb
  · simp only [hslot]
    exact hb

/-- The partition of a segment around its first value `p`, told without cursors. The pivot's
slot is counted off by the other values that are at most `p`. Values greater than `p` up to that
slot and values at most `p` after it are strays. There are equally many of both; they are
exchanged pairwise, from the outside in, and then the pivot is exchanged with the value in its
slot. So the values of the segment stay the same, those left of the pivot are at most `p`, and
those right of it are greater. -/
theorem partition_exchanges_strays (s : Segment n) (h : 0 < s.size) (st : State n) :
    let p := st.buffer.get ⟨s.lo, s.lo_lt h⟩
    let m := pivotRank s h st.buffer
    let left := leftStrays s p (s.lo + m) st.buffer
    let right := rightStrays s p (s.lo + m) st.buffer
    let c := (partition s h st).1
    let ys := (partition s h st).2.buffer
    left.length = right.length ∧ c.offset = m ∧
      ys = (exchangeAll st.buffer (left.zip right)).swap s.lo c.slot (s.lo_lt h)
        (Segment.lt_of_mem c.mem) ∧
      (slice ys s).Perm (slice st.buffer s) ∧
      (∀ k : Fin n, ↑k ∉ s → ys.get k = st.buffer.get k) ∧
      ys.get c.index = p ∧ (∀ x ∈ slice ys c.left, x ≤ p) ∧ ∀ x ∈ slice ys c.right, p < x := by
  intro p m left right c ys
  obtain ⟨hlength, hscanned, -⟩ : left.length = right.length ∧
      (scanned s h st).buffer = exchangeAll st.buffer (left.zip right) ∧ _ :=
    mends_scanned h st rfl rfl
  have hbuffer : ys = (scanned s h st).buffer.swap s.lo c.slot (s.lo_lt h)
      (Segment.lt_of_mem c.mem) := buffer_partition h st
  obtain ⟨σ, hσ⟩ := partition_rearranges h st
  have hpivot : ys.get c.index = p := get_index_partition h st
  have hdivided : Divided c ys := divided_partition h st
  refine ⟨hlength, size_left_partition h st, ?_, hσ.perm_slice, ?_, hpivot, ?_, ?_⟩
  · rw [hbuffer, hscanned]
  · intro k hk
    exact hσ.frame hk
  · intro x hx
    rw [← hpivot]
    exact hdivided.le_of_mem_left hx
  · intro x hx
    rw [← hpivot]
    exact hdivided.lt_of_mem_right hx

/-- Two strays on either side of the value 4. -/
theorem partition_exchanges_strays_seven :
    0 < (Segment.whole 7).size ∧
      leftStrays (.whole 7) 4 3 #v[4, 7, 1, 9, 2, 6, 3] = [1, 3] ∧
      rightStrays (.whole 7) 4 3 #v[4, 7, 1, 9, 2, 6, 3] = [6, 4] ∧
      (partition (.whole 7) (by decide) ⟨#v[4, 7, 1, 9, 2, 6, 3], .fresh⟩).1.offset = 3 ∧
      (partition (.whole 7) (by decide) ⟨#v[4, 7, 1, 9, 2, 6, 3], .fresh⟩).2.buffer =
        #v[2, 3, 1, 4, 9, 6, 7] := by
  obtain ⟨-, hoffset, hbuffer, -⟩ := partition_exchanges_strays (.whole 7) (by decide)
    ⟨#v[4, 7, 1, 9, 2, 6, 3], .fresh⟩
  refine ⟨by decide, by decide, by decide, hoffset, ?_⟩
  have hslot : (partition (.whole 7) (by decide) ⟨#v[4, 7, 1, 9, 2, 6, 3], .fresh⟩).1.slot = 3 :=
    hoffset
  simp only [hslot] at hbuffer
  exact hbuffer

theorem swaps_partition (h : 0 < s.size) (st : State n) {m k : Nat}
    (hm : pivotRank s h st.buffer = m)
    (hk : (leftStrays s (st.buffer.get ⟨s.lo, s.lo_lt h⟩) (s.lo + m) st.buffer).length = k) :
    (partition s h st).2.session.tally.swaps =
      st.session.tally.swaps + (k + if m ≠ 0 then 1 else 0) := by
  subst hm hk
  obtain ⟨-, -, hswaps⟩ := mends_scanned h st rfl rfl
  obtain ⟨-, -, hcase⟩ := partition_cases h st (right_scanned h st)
  rcases hcase with ⟨hfirst, -, ht⟩ | ⟨_, hne, -, ht⟩
  · rw [ht, hswaps, if_neg (by omega), Nat.add_zero]
  · rw [ht, if_pos (by omega)]
    exact congrArg (· + 1) hswaps

/-- What a partition of at least two values costs, as the rank `m` of its pivot and the number
`k` of strays on either side fix it. -/
theorem tally_partition (s : Segment n) (h : 2 ≤ s.size) (st : State n) :
    let hpos := Nat.zero_lt_of_lt h
    let p := st.buffer.get ⟨s.lo, s.lo_lt hpos⟩
    let m := pivotRank s hpos st.buffer
    let k := (leftStrays s p (s.lo + m) st.buffer).length
    let t := st.session.tally
    (partition s hpos st).2.session.tally =
      { comparisons := t.comparisons +
          (s.size + 2 + 2 * k - if m = 0 ∨ m = s.size - 1 then 1 else 0)
        swaps := t.swaps + (k + if m ≠ 0 then 1 else 0)
        partitions := t.partitions + 1
        maxDepth := t.maxDepth } := by
  intro hpos p m k t
  have hswaps : (partition s hpos st).2.session.tally.swaps =
      t.swaps + (k + if m ≠ 0 then 1 else 0) := swaps_partition hpos st rfl rfl
  have hleft : (partition s hpos st).1.left.size = m := size_left_partition hpos st
  have hsize := (partition s hpos st).1.size_left_add_size_right
  obtain ⟨k', -, -, hwork⟩ := partition_work h (Prod.mk.eta (p := partition s hpos st)).symm
  rw [show st.session.tally = t from rfl] at hwork
  rw [hleft] at hwork hsize
  -- From here on only the numbers matter.
  clear_value t k m
  generalize (partition s hpos st).1.right.size = r at hwork hsize
  rw [hwork] at hswaps ⊢
  simp only [Tally.swaps_add, partitionWork] at hswaps
  have hk : k' = k := by
    split_ifs at hswaps <;> omega
  subst hk
  ext
  case comparisons =>
    simp only [Tally.comparisons_add, partitionWork]
    split_ifs <;> omega
  case swaps => exact hswaps
  case partitions => rfl
  case maxDepth => exact Nat.max_zero _

/-- The same partition, in a session that has counted before. -/
theorem tally_partition_seven :
    2 ≤ (Segment.whole 7).size ∧
      (partition (.whole 7) (by decide) ⟨#v[4, 7, 1, 9, 2, 6, 3],
        { Session.fresh with tally := ⟨10, 5, 2, 4⟩ }⟩).2.session.tally = ⟨23, 8, 3, 4⟩ := by
  refine ⟨by decide, ?_⟩
  rw [tally_partition (.whole 7) (by decide)]
  decide

end Quicksort
