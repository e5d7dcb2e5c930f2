import Mathlib.Algebra.BigOperators.Ring.Multiset
import Mathlib.Data.Multiset.Sort
import Mathlib.Data.Nat.Log
import Mathlib.NumberTheory.Harmonic.Defs
import Mathlib.Tactic.FieldSimp
import Mathlib.Tactic.Linarith
import Mathlib.Tactic.Positivity
import Mathlib.Tactic.Ring

/-
  A potential that pays for random pivots.

  Think of a multiset of values that is to be sorted with pivots drawn from it.
  Every value has a share: it grows with the number of smaller values like a
  harmonic number (`rankCost`), and with half the number of values it ties with,
  so that a tied pair adds one to the two shares together. The potential is the
  sum of the shares.

  A split around `p` takes the share of `p` off the potential. It also separates
  the values greater than `p` from all others, so they are left with the values
  between `p` and themselves (`SplitsAround.potential_add`). Averaged over all `p`, that pays
  for the comparisons of the split (`sum_potentialAfter_le`). The sums are taken
  by value instead of by pivot, since the number of values between `p` and `y`
  takes every size below the rank of `y` once at the most (`sum_countP_lt_le`),
  and the harmonic numbers solve the recurrence over these sizes (`sum_rankCost`).

  In the end the potential is compared with a logarithm and the ties
  (`potential_le`).
-/

namespace Quicksort

/-! ## Harmonic numbers -/

/-- What a value costs for the smaller ones, if there are `b` of them. -/
def rankCost (b : Nat) : ℚ := 4 * (harmonic (b + 1) - 1)

theorem rankCost_mono : Monotone rankCost := by
  apply monotone_nat_of_le_succ
  intro b
  have hpos : (0 : ℚ) ≤ (↑(b + 1 + 1))⁻¹ := by positivity
  rw [rankCost, rankCost, harmonic_succ (b + 1)]
  linarith

/-- The mean over the pivots: one among `b + 1` is the value itself, which is then compared
with the smaller ones, and each smaller one leaves another number of smaller values. -/
theorem sum_rankCost (b : Nat) :
    4 * (b : ℚ) + ∑ j ∈ Finset.range b, rankCost j = (b + 1) * rankCost b := by
  induction b with
  | zero => simp [rankCost]
  | succ b ih =>
    have hne : (b : ℚ) + 1 + 1 ≠ 0 := by positivity
    rw [Finset.sum_range_succ]
    simp only [rankCost, harmonic_succ (b + 1)] at ih ⊢
    push_cast at ih ⊢
    have hcancel : ((b : ℚ) + 1 + 1) * ((b : ℚ) + 1 + 1)⁻¹ = 1 := mul_inv_cancel₀ hne
    linarith

theorem harmonic_add_le (m k : Nat) : harmonic (m + k) ≤ harmonic m + k / (m + 1) := by
  induction k with
  | zero => simp
  | succ k ih =>
    have hle : (↑(m + k + 1) : ℚ)⁻¹ ≤ 1 / (m + 1) := by
      rw [one_div]
      apply inv_anti₀ (by positivity)
      push_cast
      linarith [Nat.cast_nonneg (α := ℚ) k]
    rw [← Nat.add_assoc, harmonic_succ]
    push_cast at hle ⊢
    rw [add_div]
    linarith

/-- Doubling the size adds at most one. -/
theorem harmonic_le_log (n : Nat) : harmonic n ≤ Nat.log 2 n + 1 := by
  induction n using Nat.strong_induction_on with
  | _ n ih =>
    by_cases hn : n < 2
    · obtain rfl | rfl : n = 0 ∨ n = 1 := by omega
      · simp
      · simp
    · have hhalf := ih (n / 2) (by omega)
      have hadd := harmonic_add_le (n / 2) (n - n / 2)
      have hlog : Nat.log 2 (n / 2) + 1 = Nat.log 2 n := by
        rw [Nat.log_div_base]
        have := Nat.log_pos (by decide) (Nat.le_of_not_lt hn)
        omega
      have hone : ((n - n / 2 : Nat) : ℚ) / ((n / 2 : Nat) + 1) ≤ 1 := by
        rw [div_le_one (by positivity)]
        exact_mod_cast (by omega : n - n / 2 ≤ n / 2 + 1)
      rw [Nat.add_sub_cancel' (Nat.div_le_self n 2)] at hadd
      have hlog' : (Nat.log 2 (n / 2) : ℚ) + 1 = Nat.log 2 n := by exact_mod_cast hlog
      linarith

/-! ## Sums by cases -/

theorem sum_map_ite {α : Type*} (m : Multiset α) (q : α → Prop) [DecidablePred q] (f g : α → ℚ) :
    (m.map fun z => if q z then f z else g z).sum =
      ((m.filter q).map f).sum + ((m.filter fun z => ¬ q z).map g).sum := by
  induction m using Multiset.induction_on with
  | empty => simp
  | cons z m ih =>
    by_cases h : q z
    · simp [h, ih, add_assoc]
    · simp [h, ih, add_left_comm]

/-! ## Ties -/

section

variable {α β : Type*} [DecidableEq α] [DecidableEq β]

/-- The number of pairs of places in a list that hold the same value. -/
def tiedPairs : List α → Nat
  | [] => 0
  | x :: l => l.count x + tiedPairs l

@[simp] theorem tiedPairs_nil : tiedPairs ([] : List α) = 0 := rfl

@[simp] theorem tiedPairs_cons (x : α) (l : List α) :
    tiedPairs (x :: l) = l.count x + tiedPairs l := rfl

theorem tiedPairs_of_length_lt {l : List α} (h : l.length < 2) : tiedPairs l = 0 := by
  match l, h with
  | [], _ => rfl
  | [_], _ => rfl

theorem tiedPairs_of_nodup {l : List α} (h : l.Nodup) : tiedPairs l = 0 := by
  induction l with
  | nil => rfl
  | cons x l ih =>
    obtain ⟨hx, hl⟩ := List.nodup_cons.mp h
    rw [tiedPairs_cons, List.count_eq_zero.mpr hx, ih hl]

theorem tiedPairs_replicate (x : α) (k : Nat) : tiedPairs (List.replicate k x) = k.choose 2 := by
  induction k with
  | zero => rfl
  | succ k ih =>
    rw [List.replicate_succ, tiedPairs_cons, ih, List.count_replicate_self,
      Nat.choose_succ_succ', Nat.choose_one_right]

theorem tiedPairs_map {f : α → β} (hf : Function.Injective f) (l : List α) :
    tiedPairs (l.map f) = tiedPairs l := by
  induction l with
  | nil => rfl
  | cons x l ih =>
    rw [List.map_cons, tiedPairs_cons, tiedPairs_cons, ih, List.count_map_of_injective _ _ hf]

theorem tiedPairs_perm {l l' : List α} (h : l.Perm l') : tiedPairs l = tiedPairs l' := by
  induction h with
  | nil => rfl
  | cons x h ih => rw [tiedPairs_cons, tiedPairs_cons, h.count_eq, ih]
  | swap x y l =>
    simp only [tiedPairs_cons, List.count_cons, beq_iff_eq, eq_comm (a := x)]
    omega
  | trans _ _ ih ih' => rw [ih, ih']

theorem tiedPairs_append {l l' : List α} (h : ∀ x ∈ l, x ∉ l') :
    tiedPairs (l ++ l') = tiedPairs l + tiedPairs l' := by
  induction l with
  | nil => exact (Nat.zero_add _).symm
  | cons x l ih =>
    have hx : l'.count x = 0 := List.count_eq_zero.mpr (h x List.mem_cons_self)
    rw [List.cons_append, tiedPairs_cons, tiedPairs_cons, List.count_append, hx,
      ih fun y hy => h y (List.mem_cons_of_mem x hy)]
    omega

/-- Each value is equal to itself, and each tied pair is counted from both its places. -/
theorem sum_count (l : List α) :
    ((l : Multiset α).map fun y => ((l : Multiset α).count y : ℚ)).sum =
      l.length + 2 * tiedPairs l := by
  induction l with
  | nil => simp
  | cons x l ih =>
    have hsum : ((l : Multiset α).map fun y => ((x ::ₘ (l : Multiset α)).count y : ℚ)).sum =
        ((l : Multiset α).map fun y => ((l : Multiset α).count y : ℚ)).sum + l.count x := by
      have hcount (y : α) : ((x ::ₘ (l : Multiset α)).count y : ℚ) =
          (l : Multiset α).count y + if y = x then (1 : ℚ) else 0 := by
        rw [Multiset.count_cons]
        push_cast
        rfl
      simp only [hcount, Multiset.sum_map_add]
      rw [sum_map_ite, Multiset.filter_eq']
      simp
    rw [← Multiset.cons_coe, Multiset.map_cons, Multiset.sum_cons, hsum, ih,
      Multiset.count_cons_self]
    simp only [tiedPairs_cons, Multiset.coe_count, List.length_cons]
    push_cast
    ring

end

/-! ## Ranks -/

section

variable {α : Type*} [LinearOrder α]

/-- How many of the values are less than `y`. -/
def below (m : Multiset α) (y : α) : Nat := m.countP (· < y)

/-- How many of the values lie strictly between `p` and `y`. -/
def between (m : Multiset α) (p y : α) : Nat := m.countP fun z => p < z ∧ z < y

theorem card_eq_below_add (m : Multiset α) (y : α) :
    m.card = below m y + m.count y + m.countP (y < ·) := by
  induction m using Multiset.induction_on with
  | empty => rfl
  | cons z m ih =>
    simp only [below, Multiset.card_cons, Multiset.countP_cons, Multiset.count_cons] at ih ⊢
    rcases lt_trichotomy z y with h | rfl | h
    · rw [if_pos h, if_neg h.ne', if_neg h.not_gt]
      omega
    · rw [if_neg (lt_irrefl z), if_pos rfl]
      omega
    · rw [if_neg h.not_gt, if_neg h.ne, if_pos h]
      omega

/-- As many pairs are counted from the lower value as from the upper one. -/
theorem sum_above (m : Multiset α) :
    (m.map fun p => (m.countP (p < ·) : ℚ)).sum = (m.map fun y => (below m y : ℚ)).sum := by
  have hcount (q : α → Prop) [DecidablePred q] :
      (m.countP q : ℚ) = (m.map fun z => if q z then (1 : ℚ) else 0).sum := by
    rw [sum_map_ite, Multiset.countP_eq_card_filter]
    simp
  simp only [below, hcount]
  exact Multiset.sum_map_sum_map m m

theorem sum_countP_lt_le (m : Multiset α) {f : Nat → ℚ} (hf : Monotone f) :
    (m.map fun p => f (m.countP (p < ·))).sum ≤ ∑ j ∈ Finset.range m.card, f j := by
  obtain ⟨l, hl, rfl⟩ : ∃ l : List α, l.Pairwise (· ≤ ·) ∧ (l : Multiset α) = m :=
    ⟨m.sort (· ≤ ·), m.pairwise_sort _, m.sort_eq _⟩
  induction l with
  | nil => simp
  | cons a l ih =>
    obtain ⟨ha, hl'⟩ := List.pairwise_cons.mp hl
    rw [← Multiset.cons_coe, Multiset.map_cons, Multiset.sum_cons, Multiset.card_cons,
      Finset.sum_range_succ, add_comm]
    -- The least value is not greater than any other, so it can be left out for them.
    have hrest : ((l : Multiset α).map fun p => f ((a ::ₘ (l : Multiset α)).countP (p < ·))) =
        (l : Multiset α).map fun p => f ((l : Multiset α).countP (p < ·)) := by
      apply Multiset.map_congr rfl
      intro p hp
      rw [Multiset.countP_cons_of_neg]
      exact not_lt.mpr (ha p (Multiset.mem_coe.mp hp))
    have hleast : (a ::ₘ (l : Multiset α)).countP (a < ·) ≤ (l : Multiset α).card := by
      rw [Multiset.countP_cons_of_neg _ (lt_irrefl a)]
      exact Multiset.countP_le_card _ _
    rw [hrest]
    exact add_le_add (ih hl') (hf hleast)

/-! ## The potential -/

/-- What a value costs, if `b` values are smaller and `k` are equal, itself included. -/
def share (b k : Nat) : ℚ := 3 + rankCost b + ((k : ℚ) - 1) / 2

/-- The shares of all values. -/
def potential (m : Multiset α) : ℚ := (m.map fun y => share (below m y) (m.count y)).sum

theorem potential_nonneg (m : Multiset α) : 0 ≤ potential m := by
  apply Multiset.sum_nonneg
  intro x hx
  obtain ⟨y, -, rfl⟩ := Multiset.mem_map.mp hx
  have hrank : rankCost 0 ≤ rankCost (below m y) := rankCost_mono (Nat.zero_le _)
  have hzero : rankCost 0 = 0 := by simp [rankCost]
  have hcount := Nat.cast_nonneg (α := ℚ) (m.count y)
  rw [share]
  linarith

theorem share_succ (b k : Nat) : share b (k + 1) = share b k + 1 / 2 := by
  simp only [share]
  push_cast
  ring

/-- What is left to a value after a split around `p`: a value that is greater than `p` no
longer meets the values that are not. -/
def shareAfter (m : Multiset α) (p y : α) : ℚ :=
  if y ≤ p then share (below m y) (m.count y) else share (between m p y) (m.count y)

/-- What is left of the potential after a split around `p`: the share of `p` is gone, and the
values equal to `p` have one less to tie with. -/
def potentialAfter (m : Multiset α) (p : α) : ℚ :=
  (m.map (shareAfter m p)).sum - share (below m p) (m.count p) - ((m.count p : ℚ) - 1) / 2

/-- The values other than the pivot `p` go to `l` and `r`, and to `r` just those greater
than `p`. -/
structure SplitsAround (m : Multiset α) (p : α) (l r : Multiset α) : Prop where
  eq_cons : m = p ::ₘ (l + r)
  left_le : ∀ y ∈ l, y ≤ p
  lt_right : ∀ y ∈ r, p < y

namespace SplitsAround

variable {m l r : Multiset α} {p y : α}

theorem sum_map (h : SplitsAround m p l r) (f : α → ℚ) :
    (m.map f).sum = f p + ((l.map f).sum + (r.map f).sum) := by
  rw [h.eq_cons, Multiset.map_cons, Multiset.sum_cons, Multiset.map_add, Multiset.sum_add]

theorem count_pivot (h : SplitsAround m p l r) : m.count p = l.count p + 1 := by
  have hr : r.count p = 0 := Multiset.count_eq_zero.mpr fun hp => lt_irrefl p (h.lt_right p hp)
  rw [h.eq_cons, Multiset.count_cons_self, Multiset.count_add, hr, Nat.add_zero]

theorem countP_lt (h : SplitsAround m p l r) : m.countP (p < ·) = r.card := by
  have hl := Multiset.countP_eq_zero.mpr fun y hy => (h.left_le y hy).not_gt
  have hr := Multiset.countP_eq_card.mpr h.lt_right
  rw [h.eq_cons, Multiset.countP_cons, if_neg (lt_irrefl p), Multiset.countP_add, hl, hr,
    Nat.zero_add, Nat.add_zero]

/-- A value on the left keeps its smaller values, and may lose the pivot as a tie. -/
theorem share_left (h : SplitsAround m p l r) (hy : y ∈ l) :
    share (below m y) (m.count y) =
      share (below l y) (l.count y) + if y = p then 1 / 2 else 0 := by
  have hyp : y ≤ p := h.left_le y hy
  have hbelow : below m y = below l y := by
    have hr : r.countP (· < y) = 0 :=
      Multiset.countP_eq_zero.mpr fun z hz => (hyp.trans_lt (h.lt_right z hz)).not_gt
    rw [below, h.eq_cons, Multiset.countP_cons, if_neg hyp.not_gt, Multiset.countP_add, hr]
    rfl
  have hcount : r.count y = 0 := Multiset.count_eq_zero.mpr fun hr => (h.lt_right y hr).not_ge hyp
  rw [hbelow, h.eq_cons, Multiset.count_cons, Multiset.count_add, hcount, Nat.add_zero]
  split_ifs
  · exact share_succ ..
  · exact (add_zero _).symm

/-- A value on the right keeps its ties, and the smaller values that are greater than the
pivot. -/
theorem share_right (h : SplitsAround m p l r) (hy : y ∈ r) :
    share (between m p y) (m.count y) = share (below r y) (r.count y) := by
  have hyp : p < y := h.lt_right y hy
  have hbetween : between m p y = below r y := by
    have hl : l.countP (fun z => p < z ∧ z < y) = 0 :=
      Multiset.countP_eq_zero.mpr fun z hz hpz => (h.left_le z hz).not_gt hpz.1
    have hp : ¬ (p < p ∧ p < y) := fun hpp => lt_irrefl p hpp.1
    rw [between, h.eq_cons, Multiset.countP_cons, if_neg hp, Multiset.countP_add, hl, Nat.add_zero,
      Nat.zero_add]
    exact Multiset.countP_congr rfl fun z hz => by simp [h.lt_right z hz]
  have hcount : l.count y = 0 := Multiset.count_eq_zero.mpr fun hl => (h.left_le y hl).not_gt hyp
  rw [hbetween, h.eq_cons, Multiset.count_cons_of_ne hyp.ne', Multiset.count_add, hcount,
    Nat.zero_add]

theorem potential_add (h : SplitsAround m p l r) :
    potential l + potential r = potentialAfter m p := by
  have hsuml : (l.map (shareAfter m p)).sum = potential l + l.count p / 2 := by
    have hties : (l.map fun y => if y = p then (1 : ℚ) / 2 else 0).sum = l.count p / 2 := by
      rw [sum_map_ite, Multiset.filter_eq']
      simp [div_eq_mul_inv]
    rw [← hties, potential, ← Multiset.sum_map_add]
    congr 1
    apply Multiset.map_congr rfl
    intro y hy
    rw [shareAfter, if_pos (h.left_le y hy), h.share_left hy]
  have hsumr : (r.map (shareAfter m p)).sum = potential r := by
    rw [potential]
    congr 1
    apply Multiset.map_congr rfl
    intro y hy
    rw [shareAfter, if_neg (h.lt_right y hy).not_ge, h.share_right hy]
  rw [potentialAfter, h.sum_map, hsuml, hsumr, shareAfter, if_pos le_rfl, h.count_pivot]
  push_cast
  ring

end SplitsAround

/-- What a value adds up to over all pivots: what is left to it, the comparisons with it as the
pivot or with the pivots below it, and what it takes away as the pivot. -/
theorem sum_shareAfter_le (m : Multiset α) (y : α) :
    (m.map fun p => shareAfter m p y).sum + (4 * below m y + m.count y + 2) -
        share (below m y) (m.count y) - ((m.count y : ℚ) - 1) / 2 ≤
      m.card * share (below m y) (m.count y) := by
  have hfilter : (m.filter fun p => ¬ y ≤ p) = m.filter (· < y) :=
    Multiset.filter_congr fun p _ => not_le
  have hbelow : (m.filter (· < y)).card = below m y := (Multiset.countP_eq_card_filter _ _).symm
  have habove : ((m.filter (y ≤ ·)).card : ℚ) = m.card - below m y := by
    have hsum := Multiset.card_eq_countP_add_countP (y ≤ ·) m
    rw [Multiset.countP_eq_card_filter, Multiset.countP_eq_card_filter, hfilter, hbelow] at hsum
    rw [hsum]
    push_cast
    ring
  -- A pivot below `y` leaves it with the values between the two.
  have hranks : ((m.filter (· < y)).map fun p => rankCost (between m p y)).sum ≤
      ∑ j ∈ Finset.range (below m y), rankCost j := by
    rw [← hbelow]
    convert sum_countP_lt_le (m.filter (· < y)) rankCost_mono using 3 with p
    rw [between, Multiset.countP_filter]
  have hshare : ((m.filter (· < y)).map fun p => share (between m p y) (m.count y)).sum =
      below m y * (3 + ((m.count y : ℚ) - 1) / 2) +
        ((m.filter (· < y)).map fun p => rankCost (between m p y)).sum := by
    simp only [share, add_right_comm _ (rankCost _)]
    rw [Multiset.sum_map_add, Multiset.map_const', Multiset.sum_replicate, hbelow, nsmul_eq_mul]
  simp only [shareAfter]
  rw [sum_map_ite, hfilter, hshare, Multiset.map_const', Multiset.sum_replicate, nsmul_eq_mul,
    habove]
  have hmean := sum_rankCost (below m y)
  simp only [share]
  linarith

/-- With the values of `m` as pivots in turn, a split costs on average no more than it takes
off the potential. -/
theorem sum_potentialAfter_le (m : Multiset α) :
    (m.map fun p => (m.card + 2 + 2 * m.countP (p < ·) : ℚ) + potentialAfter m p).sum ≤
      m.card * potential m := by
  have hcost : (m.map fun p => (m.card + 2 + 2 * m.countP (p < ·) : ℚ)).sum =
      (m.map fun y => (4 * below m y + m.count y + 2 : ℚ)).sum := by
    have hcard (p : α) : (m.card + 2 + 2 * m.countP (p < ·) : ℚ) =
        below m p + m.count p + 2 + 3 * m.countP (p < ·) := by
      rw [card_eq_below_add m p]
      push_cast
      ring
    simp only [hcard]
    rw [Multiset.sum_map_add, Multiset.sum_map_mul_left, sum_above, ← Multiset.sum_map_mul_left,
      ← Multiset.sum_map_add]
    congr 1
    apply Multiset.map_congr rfl
    intro y _
    ring
  -- The shares that the pivots leave are summed by value instead of by pivot.
  have hafter : (m.map fun p => potentialAfter m p).sum =
      (m.map fun y => (m.map fun p => shareAfter m p y).sum).sum -
        (m.map fun y => share (below m y) (m.count y)).sum -
          (m.map fun y => ((m.count y : ℚ) - 1) / 2).sum := by
    rw [← Multiset.sum_map_sum_map m m, ← Multiset.sum_map_sub, ← Multiset.sum_map_sub]
    rfl
  calc (m.map fun p => (m.card + 2 + 2 * m.countP (p < ·) : ℚ) + potentialAfter m p).sum
      = (m.map fun y => (m.map fun p => shareAfter m p y).sum + (4 * below m y + m.count y + 2) -
          share (below m y) (m.count y) - ((m.count y : ℚ) - 1) / 2).sum := by
        rw [Multiset.sum_map_add, hcost, hafter]
        simp only [Multiset.sum_map_add, Multiset.sum_map_sub]
        ring
    _ ≤ (m.map fun y => m.card * share (below m y) (m.count y)).sum :=
        Multiset.sum_map_le_sum_map _ _ fun y _ => sum_shareAfter_le m y
    _ = m.card * potential m := Multiset.sum_map_mul_left

/-! ## The bound -/

theorem potential_le (l : List α) :
    potential (l : Multiset α) ≤ 4 * l.length * (Nat.log 2 l.length + 1) + tiedPairs l := by
  have hshare (y : α) (hy : y ∈ (l : Multiset α)) :
      share (below l y) ((l : Multiset α).count y) ≤
        5 / 2 + 4 * Nat.log 2 l.length + 1 / 2 * (l : Multiset α).count y := by
    have hcard := card_eq_below_add (l : Multiset α) y
    have hpos : 0 < (l : Multiset α).count y := Multiset.count_pos.mpr hy
    rw [Multiset.coe_card] at hcard
    have hrank : rankCost (below l y) ≤ rankCost (l.length - 1) := rankCost_mono (by omega)
    have hlog := harmonic_le_log l.length
    have hlast : l.length - 1 + 1 = l.length := by omega
    rw [rankCost, rankCost, hlast] at hrank
    rw [share, rankCost]
    linarith
  calc potential (l : Multiset α)
      ≤ ((l : Multiset α).map fun y =>
          5 / 2 + 4 * (Nat.log 2 l.length : ℚ) + 1 / 2 * (l : Multiset α).count y).sum :=
        Multiset.sum_map_le_sum_map _ _ hshare
    _ = l.length * (3 + 4 * Nat.log 2 l.length) + tiedPairs l := by
        rw [Multiset.sum_map_add, Multiset.sum_map_mul_left, sum_count, Multiset.map_const',
          Multiset.sum_replicate, Multiset.coe_card, nsmul_eq_mul]
        ring
    _ ≤ 4 * l.length * (Nat.log 2 l.length + 1) + tiedPairs l := by
        have := Nat.cast_nonneg (α := ℚ) l.length
        linarith

end

end Quicksort
