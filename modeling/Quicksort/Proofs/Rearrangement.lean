import Mathlib.Algebra.Group.End
import Mathlib.Data.List.FinRange
import Quicksort.Proofs.Segment

/-
  Rearrangements of a segment.

  A step of the sort only moves values between slots of one segment. Which slot
  each value comes from is a permutation of all slots that leaves the slots
  outside the segment where they are. Naming the permutation lets two buffers be
  followed through the same moves.

  What is proved: a rearrangement keeps the values of its segment
  (`perm_slice`) and every slot outside it (`frame`), rearrangements can be
  carried out one after the other (`trans`) and seen as ones of a larger segment
  (`mono`), and an exchange of two slots is one (`swap`).
-/

namespace Quicksort

variable {n : Nat} {s t : Segment n} {σ τ : Equiv.Perm (Fin n)} {xs ys zs : Vector Int32 n}

/-- In `ys`, slot `k` holds the value that slot `σ k` holds in `xs`; only slots of the
segment change. -/
structure Rearranges (s : Segment n) (σ : Equiv.Perm (Fin n)) (xs ys : Vector Int32 n) :
    Prop where
  source : ∀ k : Fin n, ys.get k = xs.get (σ k)
  fixes : ∀ k : Fin n, ↑k ∉ s → σ k = k

namespace Rearranges

theorem refl (s : Segment n) (xs : Vector Int32 n) : Rearranges s 1 xs xs where
  source _ := rfl
  fixes _ _ := rfl

theorem trans (h : Rearranges s σ xs ys) (h' : Rearranges s τ ys zs) :
    Rearranges s (σ * τ) xs zs where
  source k := by rw [h'.source, h.source]; rfl
  fixes k hk := by rw [Equiv.Perm.mul_apply, h'.fixes k hk, h.fixes k hk]

theorem mono (h : Rearranges s σ xs ys) (hst : ∀ k, k ∈ s → k ∈ t) : Rearranges t σ xs ys where
  source := h.source
  fixes k hk := h.fixes k (fun hs => hk (hst k hs))

theorem swap (xs : Vector Int32 n) {i j : Nat} (hi : i ∈ s) (hj : j ∈ s) :
    Rearranges s
      (Equiv.swap ⟨i, Segment.lt_of_mem hi⟩ ⟨j, Segment.lt_of_mem hj⟩) xs
      (xs.swap i j (Segment.lt_of_mem hi) (Segment.lt_of_mem hj)) where
  source k := by
    simp only [get_eq, Vector.getElem_swap, Equiv.swap_apply_def, Fin.ext_iff]
    split
    · rfl
    · split <;> rfl
  fixes k hk := by
    apply Equiv.swap_apply_of_ne_of_ne
    · intro he
      exact hk (by rw [he]; exact hi)
    · intro he
      exact hk (by rw [he]; exact hj)

theorem frame (h : Rearranges s σ xs ys) {k : Fin n} (hk : ↑k ∉ s) : ys.get k = xs.get k := by
  rw [h.source, h.fixes k hk]

theorem mem (h : Rearranges s σ xs ys) {k : Fin n} (hk : ↑k ∈ s) : ↑(σ k) ∈ s := by
  apply Decidable.byContradiction
  intro hout
  have he : σ k = k := σ.injective (h.fixes (σ k) hout)
  rw [he] at hout
  exact hout hk

theorem unique (h : Rearranges s σ xs ys) (h' : Rearranges s σ xs zs) : ys = zs := by
  ext k hk
  exact (h.source ⟨k, hk⟩).trans (h'.source ⟨k, hk⟩).symm

theorem forall_mem (h : Rearranges s σ xs ys) {P : Int32 → Prop}
    (hP : ∀ k : Fin n, ↑k ∈ s → P (xs.get k)) : ∀ k : Fin n, ↑k ∈ s → P (ys.get k) := by
  intro k hk
  rw [h.source]
  exact hP _ (h.mem hk)

theorem toList_perm (h : Rearranges s σ xs ys) : ys.toList.Perm xs.toList := by
  have hx : xs.toList = List.ofFn fun k : Fin n => xs.get k :=
    List.ext_getElem (by simp) fun i _ _ => by simp [get_eq]
  have hy : ys.toList = List.ofFn ((fun k : Fin n => xs.get k) ∘ σ) :=
    List.ext_getElem (by simp) fun i hi _ => by
      simpa [get_eq] using h.source ⟨i, by simpa using hi⟩
  rw [hx, hy]
  exact σ.ofFn_comp_perm _

theorem perm_slice (h : Rearranges s σ xs ys) : (slice ys s).Perm (slice xs s) := by
  have hbefore : ys.toList.take s.lo = xs.toList.take s.lo := by
    apply List.ext_getElem (by simp)
    intro i hi _
    have hlt : i < s.lo ∧ i < n := by simpa using hi
    have hout : i ∉ s := fun hk => Nat.not_le.mpr hlt.1 hk.1
    simpa [get_eq] using h.frame (k := ⟨i, hlt.2⟩) hout
  have hafter : ys.toList.drop s.hi = xs.toList.drop s.hi := by
    apply List.ext_getElem (by simp)
    intro i hi _
    have hlt : s.hi + i < n := by
      simp only [List.length_drop, Vector.length_toList] at hi
      omega
    have hout : s.hi + i ∉ s := fun hk => Nat.not_lt.mpr (Nat.le_add_right ..) hk.2
    simpa [get_eq] using h.frame (k := ⟨s.hi + i, hlt⟩) hout
  -- The whole buffers are permutations of each other, so what is left of them is too.
  have hall := h.toList_perm
  rw [toList_eq_append ys s, toList_eq_append xs s, hbefore, hafter] at hall
  exact (List.perm_append_right_iff _).mp ((List.perm_append_left_iff _).mp hall)

end Rearranges

end Quicksort
