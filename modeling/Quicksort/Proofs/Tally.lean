import Mathlib.Algebra.Group.Defs
import Mathlib.Algebra.Notation.Prod
import Mathlib.Tactic.Abel
import Quicksort.Tally

/-
  Tallies add up.

  The work of two sorts in a row is the sum of their counters and the greater of
  their depths. With this sum tallies form a commutative monoid, so the order in
  which independent pieces of work are done does not show in the total. Every
  update of a tally is a sum with the tally of that one event.

  Counters of 64 bits hold what is left of these numbers modulo `2 ^ 64`
  (`Tally.words`). They add up in the same way, whether they wrap or not
  (`Tally.words_add`).
-/

namespace Quicksort

attribute [ext] Tally

namespace Tally

/-- The work of two pieces of a sort: the counters add up, the greater depth counts. -/
instance : Add Tally where
  add t u :=
    { comparisons := t.comparisons + u.comparisons
      swaps := t.swaps + u.swaps
      partitions := t.partitions + u.partitions
      maxDepth := max t.maxDepth u.maxDepth }

instance : Zero Tally where
  zero := {}

variable (t u : Tally)

@[simp] theorem comparisons_add : (t + u).comparisons = t.comparisons + u.comparisons := rfl
@[simp] theorem swaps_add : (t + u).swaps = t.swaps + u.swaps := rfl
@[simp] theorem partitions_add : (t + u).partitions = t.partitions + u.partitions := rfl
@[simp] theorem maxDepth_add : (t + u).maxDepth = max t.maxDepth u.maxDepth := rfl

@[simp] theorem comparisons_zero : (0 : Tally).comparisons = 0 := rfl
@[simp] theorem swaps_zero : (0 : Tally).swaps = 0 := rfl
@[simp] theorem partitions_zero : (0 : Tally).partitions = 0 := rfl
@[simp] theorem maxDepth_zero : (0 : Tally).maxDepth = 0 := rfl

instance : AddCommMonoid Tally where
  add_assoc t u v := by ext <;> simp [Nat.add_assoc, Nat.max_assoc]
  zero_add t := by ext <;> simp
  add_zero t := by ext <;> simp
  add_comm t u := by ext <;> simp [Nat.add_comm, Nat.max_comm]
  nsmul := nsmulRec

theorem addComparisons_eq (k : Nat) : t.addComparisons k = t + { comparisons := k } := by
  ext <;> simp [addComparisons]

theorem addSwap_eq : t.addSwap = t + { swaps := 1 } := by
  ext <;> simp [addSwap]

theorem addPartition_eq : t.addPartition = t + { partitions := 1 } := by
  ext <;> simp [addPartition]

theorem reach_eq (d : Nat) : t.reach d = t + { maxDepth := d } := by
  ext <;> simp [reach]

theorem depth_max (d e : Nat) :
    ({ maxDepth := max d e } : Tally) = { maxDepth := d } + { maxDepth := e } := by
  ext <;> simp

/-- The work `w` of a split at depth `d`, then that of its two sides, collected. -/
theorem add_split (w l r : Tally) (d dl dr : Nat) :
    t + ({ maxDepth := d } + w) + (l + { maxDepth := dl }) + (r + { maxDepth := dr }) =
      t + (w + (l + r) + { maxDepth := max d (max dl dr) }) := by
  rw [depth_max, depth_max]
  abel

/-! ## Counters of 64 bits -/

/-- The counters that add up, as words of 64 bits. Depths are compared and never added. -/
def words : UInt64 × UInt64 × UInt64 :=
  (.ofNat t.comparisons, .ofNat t.swaps, .ofNat t.partitions)

theorem words_add : (t + u).words = t.words + u.words := by
  simp only [words, comparisons_add, swaps_add, partitions_add, UInt64.ofNat_add, Prod.mk_add_mk]

end Tally

end Quicksort
