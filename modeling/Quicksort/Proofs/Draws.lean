import Mathlib.Algebra.Ring.Nat
import Quicksort.Workload

/-
  Drawn data, value by value.

  Data is drawn from one generator, each value from where the one before it has
  left off. A value may take one word or two, so which words it takes depends on
  the values before it. Yet to draw data in one go or in two parts is the same
  (`Generator.collect_add`), and a short data set is the beginning of a long one
  (`draws_compose`).

  Where the bound of a draw is a power of two, so much of the lower half of the
  product is zero that no carry is possible. Such a draw takes one word and gives
  its topmost bits (`Generator.below_two_pow`). Hence data with that many keys is
  uniform data, of which only these bits are kept (`keys_are_top_bits`).
-/

namespace Quicksort

namespace Generator

/-! ## Repeated draws -/

section Collect

variable {α β : Type} {draw : Generator → α × Generator}

theorem collect_zero (draw : Generator → α × Generator) (g : Generator) :
    g.collect draw 0 = (#[], g) := rfl

/-- The last value is drawn from the generator that the others have left. -/
theorem collect_succ (draw : Generator → α × Generator) (n : Nat) (g : Generator) :
    g.collect draw (n + 1) =
      ((g.collect draw n).1.push (draw (g.collect draw n).2).1,
        (draw (g.collect draw n).2).2) := by
  rw [collect, Nat.fold_succ]
  rfl

theorem collect_add (draw : Generator → α × Generator) (m n : Nat) (g : Generator) :
    g.collect draw (m + n) =
      ((g.collect draw m).1 ++ ((g.collect draw m).2.collect draw n).1,
        ((g.collect draw m).2.collect draw n).2) := by
  induction n with
  | zero => rw [Nat.add_zero, collect_zero, Array.append_empty]
  | succ n ih => rw [← Nat.add_assoc, collect_succ, ih, collect_succ, Array.append_push]

theorem size_collect (draw : Generator → α × Generator) (n : Nat) (g : Generator) :
    (g.collect draw n).1.size = n := by
  induction n with
  | zero => rfl
  | succ n ih => rw [collect_succ, Array.size_push, ih]

theorem forall_mem_collect {P : α → Prop} (h : ∀ g, P (draw g).1) (n : Nat) (g : Generator) :
    ∀ x ∈ (g.collect draw n).1, P x := by
  induction n with
  | zero => simp [collect_zero]
  | succ n ih =>
    intro x hx
    rw [collect_succ, Array.mem_push] at hx
    rcases hx with hx | rfl
    · exact ih x hx
    · exact h _

/-- Where one draw gives a function of what the other gives, so do all draws, word for word. -/
theorem collect_eq_map {draw' : Generator → β × Generator} {f : α → β}
    (h : ∀ g, draw' g = (f (draw g).1, (draw g).2)) (n : Nat) (g : Generator) :
    g.collect draw' n = ((g.collect draw n).1.map f, (g.collect draw n).2) := by
  induction n with
  | zero => rw [collect_zero, collect_zero, Array.map_empty]
  | succ n ih => rw [collect_succ, ih, h, collect_succ, Array.map_push]

theorem collect_prefix {m n : Nat} (h : m ≤ n) (draw : Generator → α × Generator)
    (g : Generator) : (g.collect draw m).1.toList <+: (g.collect draw n).1.toList := by
  obtain ⟨d, rfl⟩ := Nat.exists_eq_add_of_le h
  rw [collect_add, Array.toList_append]
  exact List.prefix_append ..

end Collect

/-! ## One draw -/

/-- A draw below a power of two takes one word and gives its topmost bits. -/
theorem below_two_pow {k : Nat} (hk : k ≤ 32) (g : Generator) :
    g.below (2 ^ k) = (g.next.1.toNat / 2 ^ (32 - k), g.next.2) := by
  have hsize : UInt32.size = 2 ^ (32 - k) * 2 ^ k := by
    rw [← Nat.pow_add, Nat.sub_add_cancel hk]
  have hpos : 0 < 2 ^ k := Nat.two_pow_pos k
  have hupper : g.next.1.toNat * 2 ^ k / UInt32.size = g.next.1.toNat / 2 ^ (32 - k) := by
    rw [hsize, Nat.mul_div_mul_right _ _ hpos]
  -- The lower half is a multiple of the bound, and so is the size of a word.
  have hlower : g.next.1.toNat * 2 ^ k % UInt32.size + 2 ^ k ≤ UInt32.size := by
    rw [hsize, Nat.mul_mod_mul_right, ← Nat.succ_mul]
    exact Nat.mul_le_mul_right _ (Nat.mod_lt _ (Nat.two_pow_pos _))
  simp only [below, hupper]
  exact if_neg (by omega)

end Generator

namespace Recipe

variable {distinct : Int32}

/-! ## Drawn data -/

theorem draw_of_pos (h : 0 < distinct) (n : Nat) (g : Generator) :
    (fewDistinct n distinct).draw g = g.collect (drawKey distinct) n :=
  if_neg (Int32.not_le.mpr h)

theorem draw_of_nonpos (h : distinct ≤ 0) (n : Nat) (g : Generator) :
    (fewDistinct n distinct).draw g = (Array.replicate n 0, g) :=
  if_pos h

theorem draw_uniform_add (m n : Nat) (g : Generator) :
    let first := (uniform m).draw g
    let second := (uniform n).draw first.2
    (uniform (m + n)).draw g = (first.1 ++ second.1, second.2) :=
  g.collect_add Generator.int32 m n

theorem draw_fewDistinct_add (m n : Nat) (distinct : Int32) (g : Generator) :
    let first := (fewDistinct m distinct).draw g
    let second := (fewDistinct n distinct).draw first.2
    (fewDistinct (m + n) distinct).draw g = (first.1 ++ second.1, second.2) := by
  by_cases h : distinct ≤ 0
  · simp only [draw_of_nonpos h, Array.replicate_append_replicate]
  · simp only [draw_of_pos (Int32.not_le.mp h)]
    exact g.collect_add (drawKey distinct) m n

theorem size_draw_fewDistinct (n : Nat) (distinct : Int32) (g : Generator) :
    ((fewDistinct n distinct).draw g).1.size = n := by
  by_cases h : distinct ≤ 0
  · rw [draw_of_nonpos h, Array.size_replicate]
  · rw [draw_of_pos (Int32.not_le.mp h), Generator.size_collect]

theorem toInt_drawKey (h : 0 < distinct) (g : Generator) :
    (drawKey distinct g).1.toInt = (g.below distinct.toNatClampNeg).1 := by
  have hlt := g.below_lt ((Int32.toNatClampNeg_pos_iff distinct).mpr h)
  exact Int32.toInt_ofNat_of_lt (Nat.lt_trans hlt distinct.toNatClampNeg_lt)

theorem drawKey_bounds (h : 0 < distinct) (g : Generator) :
    0 ≤ (drawKey distinct g).1 ∧ (drawKey distinct g).1 < distinct := by
  have hlt := g.below_lt ((Int32.toNatClampNeg_pos_iff distinct).mpr h)
  rw [Int32.le_iff_toInt_le, Int32.lt_iff_toInt_lt, toInt_drawKey h,
    Int32.toInt_eq_toNatClampNeg (Int32.le_of_lt h)]
  exact ⟨Int.natCast_nonneg _, Int.ofNat_lt.mpr hlt⟩

theorem draw_fewDistinct_bounds (h : 0 < distinct) (n : Nat) (g : Generator) :
    ∀ x ∈ ((fewDistinct n distinct).draw g).1, 0 ≤ x ∧ x < distinct := by
  rw [draw_of_pos h]
  exact Generator.forall_mem_collect (drawKey_bounds h) n g

end Recipe

theorem Workload.dataset_prefix {d : Distribution} (hd : d ≠ .descending) {m n : Nat}
    (h : m ≤ n) : (dataset d m).toList <+: (dataset d n).toList := by
  cases d with
  | descending => exact absurd rfl hd
  | uniform => exact Generator.collect_prefix h Generator.int32 generator
  | fewDistinct =>
    have hpos : 0 < distinctKeys := by decide
    rw [dataset, dataset, Recipe.draw_of_pos hpos, Recipe.draw_of_pos hpos]
    exact Generator.collect_prefix h (Recipe.drawKey distinctKeys) generator

/-- Data of a greater length goes on where data of a smaller length ends: to draw `m + n` values
is to draw `m` of them and then `n` from the generator that is left, and both ways leave the same
generator. Keys lie below their bound; with no key to choose from all values are zero and the
generator stays where it is. So a drawn data set begins with those of smaller length. -/
theorem draws_compose :
    (∀ (m n : Nat) (g : Generator),
      let first := (Recipe.uniform m).draw g
      let second := (Recipe.uniform n).draw first.2
      (Recipe.uniform (m + n)).draw g = (first.1 ++ second.1, second.2)) ∧
    (∀ (m n : Nat) (distinct : Int32) (g : Generator),
      let first := (Recipe.fewDistinct m distinct).draw g
      let second := (Recipe.fewDistinct n distinct).draw first.2
      (Recipe.fewDistinct (m + n) distinct).draw g = (first.1 ++ second.1, second.2)) ∧
    (∀ (n : Nat) (distinct : Int32) (g : Generator),
      ((Recipe.uniform n).draw g).1.size = n ∧
      ((Recipe.fewDistinct n distinct).draw g).1.size = n ∧
      (0 < distinct → ∀ x ∈ ((Recipe.fewDistinct n distinct).draw g).1, 0 ≤ x ∧ x < distinct) ∧
      (distinct ≤ 0 → (Recipe.fewDistinct n distinct).draw g = (Array.replicate n 0, g))) ∧
    ∀ d : Distribution, d ≠ .descending → ∀ m n : Nat, m ≤ n →
      (Workload.dataset d m).toList <+: (Workload.dataset d n).toList := by
  refine ⟨Recipe.draw_uniform_add, Recipe.draw_fewDistinct_add, ?_, ?_⟩
  · intro n distinct g
    exact ⟨g.size_collect Generator.int32 n, Recipe.size_draw_fewDistinct n distinct g,
      fun h => Recipe.draw_fewDistinct_bounds h n g, fun h => Recipe.draw_of_nonpos h n g⟩
  · intro d hd m n hmn
    exact Workload.dataset_prefix hd hmn

/-- Draws under the greatest bound, of which about every second one takes two words. -/
theorem draws_compose_greatest :
    let g : Generator := .ofSeed 7
    0 < Int32.maxValue ∧ (0 : Int32) ≤ 0 ∧ Distribution.fewDistinct ≠ .descending ∧ 3 ≤ 8 ∧
      (∀ x ∈ ((Recipe.fewDistinct 5 .maxValue).draw g).1, 0 ≤ x ∧ x < .maxValue) ∧
      (Recipe.fewDistinct 5 0).draw g = (#[0, 0, 0, 0, 0], g) ∧
      (Workload.dataset .fewDistinct 3).toList <+: (Workload.dataset .fewDistinct 8).toList := by
  intro g
  obtain ⟨-, -, hvalues, hprefix⟩ := draws_compose
  obtain ⟨-, -, hbounds, -⟩ := hvalues 5 .maxValue g
  obtain ⟨-, -, -, hzero⟩ := hvalues 5 0 g
  exact ⟨by decide, by decide, by decide, by decide, hbounds (by decide), hzero (by decide),
    hprefix .fewDistinct (by decide) 3 8 (by decide)⟩

/-! ## A power of two -/

/-- The number that the topmost `k` bits of a value make, when its sign bit is a bit like the
others. -/
def topBits (k : Nat) (x : Int32) : Int32 := .ofNat (x.toUInt32.toNat / 2 ^ (32 - k))

theorem toInt_topBits {k : Nat} (hk : k ≤ 30) (x : Int32) :
    (topBits k x).toInt = (x.toUInt32.toNat / 2 ^ (32 - k) : Nat) := by
  have hx : x.toUInt32.toNat < 2 ^ 32 := x.toUInt32.toNat_lt
  apply Int32.toInt_ofNat_of_lt
  rw [Nat.div_lt_iff_lt_mul (Nat.two_pow_pos _), ← Nat.pow_add]
  exact Nat.lt_of_lt_of_le hx (Nat.pow_le_pow_right (by decide) (by omega))

namespace Recipe

theorem drawKey_two_pow {k : Nat} (hk : k ≤ 30) (g : Generator) :
    drawKey (.ofNat (2 ^ k)) g = (topBits k g.int32.1, g.int32.2) := by
  have hlt : 2 ^ k < 2 ^ 31 := Nat.pow_lt_pow_right (by decide) (by omega)
  simp only [drawKey, Int32.toNatClampNeg_ofNat_of_lt hlt, Generator.below_two_pow (by omega : k ≤ 32)]
  rfl

theorem draw_fewDistinct_two_pow {k : Nat} (hk : k ≤ 30) (n : Nat) (g : Generator) :
    (fewDistinct n (.ofNat (2 ^ k))).draw g =
      (((uniform n).draw g).1.map (topBits k), ((uniform n).draw g).2) := by
  have hlt : 2 ^ k < 2 ^ 31 := Nat.pow_lt_pow_right (by decide) (by omega)
  have hpos : 0 < Int32.ofNat (2 ^ k) := by
    rw [← Int32.toNatClampNeg_pos_iff, Int32.toNatClampNeg_ofNat_of_lt hlt]
    exact Nat.two_pow_pos k
  rw [draw_of_pos hpos]
  exact Generator.collect_eq_map (drawKey_two_pow hk) n g

end Recipe

/-- Data with `2 ^ k` keys is uniform data of which the topmost `k` bits are kept: from every
generator, value by value, with the same generator left at the end. The data set with few distinct
values has 16 keys, so it is the topmost four bits of the uniform data set. -/
theorem keys_are_top_bits :
    (∀ k ≤ 30,
      (∀ x : Int32, (topBits k x).toInt = (x.toUInt32.toNat / 2 ^ (32 - k) : Nat)) ∧
      ∀ (n : Nat) (g : Generator),
        let uniform := (Recipe.uniform n).draw g
        (Recipe.fewDistinct n (.ofNat (2 ^ k))).draw g =
          (uniform.1.map (topBits k), uniform.2)) ∧
    ∀ n : Nat, Workload.dataset .fewDistinct n =
      (Workload.dataset .uniform n).map (topBits 4) := by
  constructor
  · intro k hk
    exact ⟨toInt_topBits hk, Recipe.draw_fewDistinct_two_pow hk⟩
  · intro n
    have hdraw := Recipe.draw_fewDistinct_two_pow (k := 4) (by decide) n Workload.generator
    exact congrArg Prod.fst hdraw

/-- The most keys that the bound allows, drawn in the middle of a sequence, and the topmost bits
of a negative value. -/
theorem keys_are_top_bits_greatest :
    let g : Generator := { Generator.ofSeed 7 with position := 13 }
    30 ≤ 30 ∧ (topBits 30 (-2)).toInt = 1073741823 ∧
      (Recipe.fewDistinct 9 1073741824).draw g =
        (((Recipe.uniform 9).draw g).1.map (topBits 30), ((Recipe.uniform 9).draw g).2) := by
  intro g
  obtain ⟨hvalue, hdraw⟩ := keys_are_top_bits.1 30 (by decide)
  exact ⟨by decide, hvalue (-2), hdraw 9 g⟩

end Quicksort
