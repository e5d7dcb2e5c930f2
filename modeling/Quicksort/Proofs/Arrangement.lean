import Quicksort.Proofs.Strays

/-
  What a partition makes of some arrangements of the values.

  The strays of a partition may stand at the two ends of the segment, with no
  stray between them. Exchanging them pairwise, from the outside in, reverses the
  ends (`slice_exchangeAll`). Then the pivot changes places with the last value
  that is not greater, so that this value comes to the front of the left side
  (`lastToFront`).

  So the sides of such a partition can be written down as lists
  (`StraysAtEnds.slice_sides`), and its work by their lengths
  (`StraysAtEnds.work_partition`). Without strays the values are divided already
  (`partition_of_divided`).
-/

namespace Quicksort

variable {n : Nat} {s : Segment n} {xs : Vector Int32 n}

/-! ## Slices as lists -/

theorem get_mem_of_slice {u v w : List Int32} (hx : slice xs s = u ++ (v ++ w)) {k : Fin n}
    (hlo : s.lo + u.length ≤ ↑k) (hhi : ↑k < s.lo + (u.length + v.length)) : xs.get k ∈ v := by
  have hlength := size_of_slice hx
  simp only [List.length_append] at hlength
  have hsize := s.lo_add_size
  have hget := getElem?_slice xs (s := s) (k := k) ⟨by omega, by omega⟩
  rw [hx, List.getElem?_append_right (by omega), List.getElem?_append_left (by omega)] at hget
  exact List.mem_of_getElem? hget

theorem get_eq_of_slice {u w : List Int32} {a : Int32} (hx : slice xs s = u ++ a :: w)
    {k : Fin n} (hk : ↑k = s.lo + u.length) : xs.get k = a := by
  have hmem : xs.get k ∈ [a] :=
    get_mem_of_slice (v := [a]) hx (Nat.le_of_eq hk.symm) (by rw [hk]; simp)
  exact List.mem_singleton.mp hmem

theorem get_lo_of_slice {w : List Int32} {a : Int32} (hx : slice xs s = a :: w)
    (h : 0 < s.size) : xs.get ⟨s.lo, s.lo_lt h⟩ = a :=
  get_eq_of_slice (u := []) hx rfl

theorem slice_swap_eq_set {i j : Nat} (hi : i ∈ s) (hj : j ∈ s) :
    slice (xs.swap i j (Segment.lt_of_mem hi) (Segment.lt_of_mem hj)) s =
      ((slice xs s).set (i - s.lo) (xs.get ⟨j, Segment.lt_of_mem hj⟩)).set (j - s.lo)
        (xs.get ⟨i, Segment.lt_of_mem hi⟩) := by
  rw [slice, Vector.toList_swap, List.drop_set, List.drop_set, if_neg (Nat.not_lt.mpr hi.1),
    if_neg (Nat.not_lt.mpr hj.1), List.take_set, List.take_set]
  rfl

theorem slice_swap {u v w : List Int32} {a b : Int32} {i j : Nat} (hi : i < n) (hj : j < n)
    (hx : slice xs s = u ++ a :: (v ++ b :: w)) (hiu : i = s.lo + u.length)
    (hjv : j = i + (v.length + 1)) : slice (xs.swap i j hi hj) s = u ++ b :: (v ++ a :: w) := by
  have hlength := size_of_slice hx
  simp only [List.length_append, List.length_cons] at hlength
  have hhi := s.lo_add_size
  have his : i ∈ s := ⟨by omega, by omega⟩
  have hjs : j ∈ s := ⟨by omega, by omega⟩
  have ha : xs.get ⟨i, hi⟩ = a := get_eq_of_slice hx hiu
  have hsplit : slice xs s = (u ++ a :: v) ++ b :: w := by simpa using hx
  have hb : xs.get ⟨j, hj⟩ = b := by
    apply get_eq_of_slice hsplit
    simp only [List.length_append, List.length_cons]
    omega
  rw [slice_swap_eq_set his hjs, hx, ha, hb, hjv, hiu]
  simp [Nat.add_assoc]

/-! ## Exchanging the ends -/

namespace Segment

@[simps]
def dropFirst (s : Segment n) (h : 0 < s.size) : Segment n where
  lo := s.lo + 1
  hi := s.hi
  lo_le_hi := (lo_mem h).2
  hi_le := s.hi_le

@[simps]
def dropLast (s : Segment n) (h : 0 < s.size) : Segment n where
  lo := s.lo
  hi := s.hi - 1
  lo_le_hi := (hi_sub_one_mem h).1
  hi_le := Nat.le_trans (Nat.sub_le ..) s.hi_le

/-- The slots of a segment, from left to right. -/
def slots (s : Segment n) : List (Fin n) :=
  (List.finRange n).filter (↑· ∈ s)

theorem slots_of_size_eq_zero (h : s.size = 0) : s.slots = [] := by
  apply List.filter_eq_nil_iff.mpr
  intro k _
  have hsize := s.lo_add_size
  simp only [mem_iff, decide_eq_true_eq]
  omega

theorem slots_eq_cons (h : 0 < s.size) : s.slots = ⟨s.lo, s.lo_lt h⟩ :: (s.dropFirst h).slots := by
  apply filter_eq_cons_filter (List.pairwise_lt_finRange n) Fin.lt_irrefl (List.mem_finRange _)
  · exact decide_eq_true (lo_mem h)
  · simp [mem_iff, dropFirst]
  · intro k hk
    simp only [Fin.lt_def] at hk
    simp only [mem_iff, decide_eq_false_iff_not]
    omega
  · intro k hk
    have hne : ↑k ≠ s.lo := fun he => hk (Fin.ext he)
    simp only [mem_iff, dropFirst, decide_eq_decide]
    omega

theorem reverse_slots_eq_cons (h : 0 < s.size) :
    s.slots.reverse = ⟨s.hi - 1, lt_of_mem (hi_sub_one_mem h)⟩ :: (s.dropLast h).slots.reverse := by
  have hlast := (hi_sub_one_mem h).2
  have hdown : (List.finRange n).reverse.Pairwise (· > ·) :=
    List.pairwise_reverse.mpr (List.pairwise_lt_finRange n)
  rw [slots, slots, ← List.filter_reverse, ← List.filter_reverse]
  apply filter_eq_cons_filter hdown Fin.lt_irrefl (List.mem_reverse.mpr (List.mem_finRange _))
  · exact decide_eq_true (hi_sub_one_mem h)
  · simp [mem_iff, dropLast]
  · intro k hk
    simp only [gt_iff_lt, Fin.lt_def] at hk
    simp only [mem_iff, decide_eq_false_iff_not]
    omega
  · intro k hk
    have hne : ↑k ≠ s.hi - 1 := fun he => hk (Fin.ext he)
    simp only [mem_iff, dropLast, decide_eq_decide]
    omega

theorem length_slots (s : Segment n) : s.slots.length = s.size := by
  generalize hk : s.size = k
  induction k generalizing s with
  | zero => rw [slots_of_size_eq_zero hk, List.length_nil]
  | succ k ih =>
    have hpos : 0 < s.size := hk ▸ Nat.succ_pos k
    have hrest : (s.dropFirst hpos).size = k := by
      simp only [dropFirst, size] at hk ⊢
      omega
    rw [slots_eq_cons hpos, List.length_cons, ih _ hrest]

end Segment

theorem exchangeAll_cons (xs : Vector Int32 n) (i j : Fin n) (pairs : List (Fin n × Fin n)) :
    exchangeAll xs ((i, j) :: pairs) = exchangeAll (xs.swap i j i.isLt j.isLt) pairs := rfl

/-- Exchanging the slots at the ends of a segment pairwise, from the outside in, reverses both
ends into each other. -/
theorem slice_exchangeAll {u l m r w : List Int32} (left right : Segment n)
    (hx : slice xs s = u ++ (l ++ (m ++ (r ++ w)))) (hlength : l.length = r.length)
    (hleft : left.lo = s.lo + u.length) (hleft' : left.hi = left.lo + l.length)
    (hright : right.lo = left.hi + m.length) (hright' : right.hi = right.lo + r.length) :
    slice (exchangeAll xs (left.slots.zip right.slots.reverse)) s =
      u ++ (r.reverse ++ (m ++ (l.reverse ++ w))) := by
  induction l generalizing xs u r w left right with
  | nil =>
    obtain rfl : r = [] := List.length_eq_zero_iff.mp hlength.symm
    have hempty : left.size = 0 := by simp [Segment.size, hleft']
    rw [Segment.slots_of_size_eq_zero hempty]
    exact hx
  | cons a l ih =>
    rcases List.eq_nil_or_concat r with rfl | ⟨r, b, rfl⟩
    · simp at hlength
    · simp only [List.length_cons, List.concat_eq_append, List.length_append, List.length_nil]
        at hlength hleft' hright'
      have hl : 0 < left.size := by simp only [Segment.size]; omega
      have hr : 0 < right.size := by simp only [Segment.size]; omega
      -- The outermost pair first; what is left is shorter at both ends.
      have hswap := slice_swap (v := l ++ (m ++ r)) (left.lo_lt hl)
        (Segment.lt_of_mem (Segment.hi_sub_one_mem hr)) (by simpa using hx) hleft
        (by simp only [List.length_append]; omega)
      have hrest := ih (left.dropFirst hl) (right.dropLast hr) (u := u ++ [b]) (r := r)
        (w := a :: w) (by simpa using hswap) (by omega)
        (by simp only [Segment.dropFirst_lo, List.length_append, List.length_singleton]; omega)
        (by simp only [Segment.dropFirst_lo, Segment.dropFirst_hi]; omega)
        (by simp only [Segment.dropFirst_hi, Segment.dropLast_lo]; omega)
        (by simp only [Segment.dropLast_lo, Segment.dropLast_hi]; omega)
      rw [Segment.slots_eq_cons hl, Segment.reverse_slots_eq_cons hr, List.zip_cons_cons,
        exchangeAll_cons]
      simpa using hrest

/-! ## The partition -/

def lastToFront (l : List Int32) : List Int32 := l.getLast?.toList ++ l.dropLast

@[simp] theorem lastToFront_nil : lastToFront [] = [] := rfl

@[simp] theorem lastToFront_append (l : List Int32) (x : Int32) :
    lastToFront (l ++ [x]) = x :: l := by
  simp [lastToFront]

theorem length_lastToFront (l : List Int32) : (lastToFront l).length = l.length := by
  rcases List.eq_nil_or_concat l with rfl | ⟨init, last, rfl⟩
  · rfl
  · simp

theorem slice_swap_pivot {p : Int32} {low high : List Int32}
    (hx : slice xs s = p :: (low ++ high)) {j : Nat} {hi : s.lo < n} {hj : j < n}
    (hjl : j = s.lo + low.length) :
    slice (xs.swap s.lo j hi hj) s = lastToFront low ++ p :: high := by
  rcases List.eq_nil_or_concat low with rfl | ⟨init, last, rfl⟩
  · obtain rfl : j = s.lo := hjl
    rw [swap_self, hx]
    rfl
  · rw [List.concat_eq_append] at hx hjl ⊢
    have hswap := slice_swap (u := []) (v := init) (b := last) (w := high) hi hj
      (by simpa using hx) rfl (by simpa using hjl)
    simpa using hswap

/-- The values after a pivot `p`: strays at the two ends, as many on either side, and between
them no strays, first the values `low` that belong to the left of `p` and then the values `high`
that belong to the right. -/
structure StraysAtEnds (p : Int32) (left low high right : List Int32) : Prop where
  length_eq : left.length = right.length
  lt_left : ∀ x ∈ left, p < x
  low_le : ∀ x ∈ low, x ≤ p
  lt_high : ∀ x ∈ high, p < x
  right_le : ∀ x ∈ right, x ≤ p

namespace StraysAtEnds

variable {p : Int32} {left low high right : List Int32}

theorem of_divided (hlow : ∀ x ∈ low, x ≤ p) (hhigh : ∀ x ∈ high, p < x) :
    StraysAtEnds p [] low high [] where
  length_eq := rfl
  lt_left := by simp
  low_le := hlow
  lt_high := hhigh
  right_le := by simp

theorem size_eq (hx : slice xs s = p :: (left ++ (low ++ high ++ right))) :
    s.size = left.length + low.length + high.length + right.length + 1 := by
  have hlength := size_of_slice hx
  simp only [List.length_cons, List.length_append] at hlength
  omega

theorem pivotRank_eq (h : StraysAtEnds p left low high right) (hpos : 0 < s.size)
    (hx : slice xs s = p :: (left ++ (low ++ high ++ right))) :
    pivotRank s hpos xs = low.length + right.length := by
  have hfirst : xs.get ⟨s.lo, s.lo_lt hpos⟩ = p := get_lo_of_slice hx hpos
  rw [pivotRank, hfirst, hx, List.tail_cons, List.countP_append, List.countP_append,
    List.countP_append, countP_le_eq_zero h.lt_left, countP_le_eq_length h.low_le,
    countP_le_eq_zero h.lt_high, countP_le_eq_length h.right_le, Nat.zero_add, Nat.add_zero]

theorem leftStrays_eq (h : StraysAtEnds p left low high right)
    (hx : slice xs s = p :: (left ++ (low ++ high ++ right))) {cut : Nat}
    (hcut : cut = s.lo + (low.length + right.length)) {l : Segment n} (hlo : l.lo = s.lo + 1)
    (hhi : l.hi = l.lo + left.length) : leftStrays s p cut xs = l.slots := by
  have hlength := h.length_eq
  apply List.filter_congr
  intro k _
  simp only [decide_eq_decide, Segment.mem_iff]
  constructor
  · rintro ⟨hk, hkc, hp⟩
    refine ⟨by omega, ?_⟩
    apply Nat.lt_of_not_le
    intro hle
    -- Between the strays on the left and the cut there are only values of `low`.
    have hmem : xs.get k ∈ low := by
      apply get_mem_of_slice (u := p :: left) (w := high ++ right) (by simpa using hx)
      · simp only [List.length_cons]
        omega
      · simp only [List.length_cons]
        omega
    exact Int32.not_lt.mpr (h.low_le _ hmem) hp
  · rintro ⟨hk, hkl⟩
    have hmem : xs.get k ∈ left := by
      apply get_mem_of_slice (u := [p]) hx
      · simp only [List.length_singleton]
        omega
      · simp only [List.length_singleton]
        omega
    exact ⟨by omega, by omega, h.lt_left _ hmem⟩

theorem rightStrays_eq (h : StraysAtEnds p left low high right)
    (hx : slice xs s = p :: (left ++ (low ++ high ++ right))) {cut : Nat}
    (hcut : cut = s.lo + (low.length + right.length)) {r : Segment n} (hhi : r.hi = s.hi)
    (hlo : r.lo + right.length = r.hi) : rightStrays s p cut xs = r.slots.reverse := by
  have hlength := h.length_eq
  have hsize := size_eq hx
  have hs := s.lo_add_size
  rw [Segment.slots, ← List.filter_reverse]
  apply List.filter_congr
  intro k _
  simp only [decide_eq_decide, Segment.mem_iff]
  constructor
  · rintro ⟨hkc, hk, hp⟩
    refine ⟨?_, by omega⟩
    apply Nat.le_of_not_lt
    intro hlt
    have hmem : xs.get k ∈ high := by
      apply get_mem_of_slice (u := p :: (left ++ low)) (w := right) (by simpa using hx)
      · simp only [List.length_cons, List.length_append]
        omega
      · simp only [List.length_cons, List.length_append]
        omega
    exact Int32.not_lt.mpr hp (h.lt_high _ hmem)
  · rintro ⟨hk, hkr⟩
    have hmem : xs.get k ∈ right := by
      apply get_mem_of_slice (u := p :: (left ++ (low ++ high))) (w := []) (by simpa using hx)
      · simp only [List.length_cons, List.length_append]
        omega
      · simp only [List.length_cons, List.length_append]
        omega
    exact ⟨by omega, by omega, h.right_le _ hmem⟩

/-- The scan reverses the strays into each other. -/
theorem slice_scanned (h : StraysAtEnds p left low high right) (hpos : 0 < s.size) (st : State n)
    (hx : slice st.buffer s = p :: (left ++ (low ++ high ++ right))) :
    slice (scanned s hpos st).buffer s =
      p :: ((right.reverse ++ low) ++ (high ++ left.reverse)) := by
  have hfirst : st.buffer.get ⟨s.lo, s.lo_lt hpos⟩ = p := get_lo_of_slice hx hpos
  have hsize := size_eq hx
  have hs := s.lo_add_size
  have hn := s.hi_le
  let l : Segment n := ⟨s.lo + 1, s.lo + 1 + left.length, by omega, by omega⟩
  let r : Segment n := ⟨s.hi - right.length, s.hi, by omega, hn⟩
  have hcut : s.lo + pivotRank s hpos st.buffer = s.lo + (low.length + right.length) := by
    rw [h.pivotRank_eq hpos hx]
  have hleft : leftStrays s p (s.lo + pivotRank s hpos st.buffer) st.buffer = l.slots :=
    h.leftStrays_eq hx hcut rfl rfl
  have hright : rightStrays s p (s.lo + pivotRank s hpos st.buffer) st.buffer =
      r.slots.reverse := h.rightStrays_eq hx hcut rfl (by simp only [r]; omega)
  rw [← hfirst] at hleft hright
  obtain ⟨-, hbuffer, -⟩ := mends_scanned hpos st hleft hright
  have hends := slice_exchangeAll l r (u := [p]) (m := low ++ high) (w := [])
    (by simpa using hx) h.length_eq rfl rfl (by simp only [l, r, List.length_append]; omega) (by simp only [r]; omega)
  rw [hbuffer, hends]
  simp

theorem length_leftStrays (h : StraysAtEnds p left low high right) (hpos : 0 < s.size)
    (hx : slice xs s = p :: (left ++ (low ++ high ++ right))) :
    (leftStrays s p (s.lo + pivotRank s hpos xs) xs).length = left.length := by
  have hsize := size_eq hx
  have hs := s.lo_add_size
  have hn := s.hi_le
  let l : Segment n := ⟨s.lo + 1, s.lo + 1 + left.length, by omega, by omega⟩
  rw [h.leftStrays_eq hx (by rw [h.pivotRank_eq hpos hx]) (l := l) rfl rfl, Segment.length_slots]
  simp only [l, Segment.size]
  omega

section

variable {hpos : 0 < s.size} {st st' : State n} {c : Cut s}

theorem size_sides (h : StraysAtEnds p left low high right)
    (hx : slice st.buffer s = p :: (left ++ (low ++ high ++ right)))
    (hp : partition s hpos st = (c, st')) :
    c.left.size = low.length + right.length ∧ c.right.size = high.length + left.length := by
  have hl : c.left.size = low.length + right.length := by
    rw [← h.pivotRank_eq hpos hx, ← size_left_partition hpos st, hp]
  have hall := c.size_left_add_size_right
  have hlength := h.length_eq
  rw [size_eq hx] at hall
  omega

theorem slice_sides (h : StraysAtEnds p left low high right)
    (hx : slice st.buffer s = p :: (left ++ (low ++ high ++ right)))
    (hp : partition s hpos st = (c, st')) :
    slice st'.buffer c.left = lastToFront (right.reverse ++ low) ∧
      slice st'.buffer c.right = high ++ left.reverse := by
  have hbuffer := buffer_partition hpos st
  have hslot := slot_partition hpos st
  rw [hp] at hbuffer hslot
  have hlow : (right.reverse ++ low).length = pivotRank s hpos st.buffer := by
    rw [h.pivotRank_eq hpos hx, List.length_append, List.length_reverse, Nat.add_comm]
  have hall : slice st'.buffer s =
      lastToFront (right.reverse ++ low) ++ p :: (high ++ left.reverse) := by
    rw [hbuffer]
    exact slice_swap_pivot (h.slice_scanned hpos st hx) (hlow ▸ hslot)
  have hlength : (slice st'.buffer c.left).length = (lastToFront (right.reverse ++ low)).length := by
    rw [length_slice, length_lastToFront, hlow, ← size_left_partition hpos st, hp]
  rw [slice_eq_append_cons st'.buffer c] at hall
  obtain ⟨hleft, hrest⟩ := List.append_inj hall hlength
  exact ⟨hleft, (List.cons.inj hrest).2⟩

theorem work_partition (h : StraysAtEnds p left low high right) (hsize : 2 ≤ s.size)
    (hx : slice st.buffer s = p :: (left ++ (low ++ high ++ right)))
    (hp : partition s hpos st = (c, st')) :
    st'.session.tally = st.session.tally +
      partitionWork (low.length + right.length) (high.length + left.length) left.length := by
  obtain ⟨hl, hr⟩ := h.size_sides hx hp
  have hfirst : st.buffer.get ⟨s.lo, s.lo_lt hpos⟩ = p := get_lo_of_slice hx hpos
  have hswaps := swaps_partition hpos st rfl (hfirst ▸ h.length_leftStrays hpos hx)
  obtain ⟨k, -, -, hwork⟩ := partition_work hsize hp
  -- The exchanges of the scan can be told from the swaps that were counted.
  rw [h.pivotRank_eq hpos hx, hp, hwork, hl, hr] at hswaps
  have hk : k = left.length := by
    simp only [Tally.swaps_add, partitionWork] at hswaps
    split_ifs at hswaps <;> omega
  rw [hwork, hl, hr, hk]

end

end StraysAtEnds

/-- The partition of values that are divided already: only the pivot and the last value that is
not greater change places. -/
theorem partition_of_divided {p : Int32} {low high : List Int32} {hpos : 0 < s.size}
    (hsize : 2 ≤ s.size) {st st' : State n} {c : Cut s} (hp : partition s hpos st = (c, st'))
    (hx : slice st.buffer s = p :: (low ++ high)) (hlow : ∀ x ∈ low, x ≤ p)
    (hhigh : ∀ x ∈ high, p < x) :
    slice st'.buffer c.left = lastToFront low ∧ slice st'.buffer c.right = high ∧
      st'.session.tally = st.session.tally + partitionWork low.length high.length 0 := by
  have h : StraysAtEnds p [] low high [] := .of_divided hlow hhigh
  have hx' : slice st.buffer s = p :: ([] ++ (low ++ high ++ [])) := by simpa using hx
  obtain ⟨hl, hr⟩ := h.slice_sides hx' hp
  refine ⟨hl, ?_, h.work_partition hsize hx' hp⟩
  simpa using hr

end Quicksort
