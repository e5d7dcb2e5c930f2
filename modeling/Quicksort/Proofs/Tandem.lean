import Mathlib.Tactic.SplitIfs
import Quicksort.Proofs.Rearrangement
import Quicksort.Proofs.Scan
import Quicksort.Proofs.Tally
import Quicksort.Split

/-
  Two sorts side by side.

  Two buffers are alike in a segment if any two slots of it compare the same way
  in both. The sort looks at values only to compare two slots of the segment it
  works on, so on alike buffers it makes the same moves: the same permutation of
  the slots and the same work. With one buffer taken twice this says that a step
  rearranges its segment; with two buffers that agree on a segment it says that
  a step depends on nothing outside.

  What is proved: one round of the scan (`Scan.round_alike`), the whole scan
  (`Scan.run_alike`), a partition (`partition_alike`), the choice of a pivot
  (`placePivot_alike`) and a split (`split_alike`).
-/

namespace Quicksort

variable {n : Nat} {s t : Segment n} {σ τ : Equiv.Perm (Fin n)} {xs ys xs' ys' zs : Vector Int32 n}

/-- Any two slots of the segment compare the same way in both buffers. -/
def Alike (s : Segment n) (xs ys : Vector Int32 n) : Prop :=
  ∀ i j : Fin n, ↑i ∈ s → ↑j ∈ s → (xs.get i ≤ xs.get j ↔ ys.get i ≤ ys.get j)

instance (s : Segment n) (xs ys : Vector Int32 n) : Decidable (Alike s xs ys) :=
  inferInstanceAs (Decidable (∀ i j : Fin n, ↑i ∈ s → ↑j ∈ s →
    (xs.get i ≤ xs.get j ↔ ys.get i ≤ ys.get j)))

namespace Alike

theorem refl (s : Segment n) (xs : Vector Int32 n) : Alike s xs xs :=
  fun _ _ _ _ => Iff.rfl

theorem of_agree (h : ∀ k : Fin n, ↑k ∈ s → xs.get k = ys.get k) : Alike s xs ys := by
  intro i j hi hj
  rw [h i hi, h j hj]

theorem mono (h : Alike s xs ys) (hts : ∀ k, k ∈ t → k ∈ s) : Alike t xs ys :=
  fun i j hi hj => h i j (hts _ hi) (hts _ hj)

theorem lt_iff (h : Alike s xs ys) {i j : Fin n} (hi : ↑i ∈ s) (hj : ↑j ∈ s) :
    xs.get i < xs.get j ↔ ys.get i < ys.get j := by
  rw [← Int32.not_le, ← Int32.not_le, h j i hj hi]

theorem rearrange (h : Alike s xs ys) (hx : Rearranges s σ xs xs') (hy : Rearranges s σ ys ys') :
    Alike s xs' ys' := by
  intro i j hi hj
  rw [hx.source, hx.source, hy.source, hy.source]
  exact h _ _ (hx.mem hi) (hx.mem hj)

end Alike

/-- A step of the sort: a rearrangement of the buffer, and work added to the tally. Only the
schedule records depths. -/
structure Move (s : Segment n) (σ : Equiv.Perm (Fin n)) (w : Tally)
    (xs : Vector Int32 n) (t : Tally) (xs' : Vector Int32 n) (t' : Tally) : Prop where
  rearranges : Rearranges s σ xs xs'
  tally : t' = t + w
  flat : w.maxDepth = 0

namespace Move

variable {w v a b c : Tally}

theorem refl (s : Segment n) (xs : Vector Int32 n) (a : Tally) : Move s 1 0 xs a xs a where
  rearranges := .refl s xs
  tally := (add_zero a).symm
  flat := rfl

theorem trans (h : Move s σ w xs a ys b) (h' : Move s τ v ys b zs c) :
    Move s (σ * τ) (w + v) xs a zs c where
  rearranges := h.rearranges.trans h'.rearranges
  tally := by rw [h'.tally, h.tally, add_assoc]
  flat := by rw [Tally.maxDepth_add, h.flat, h'.flat, Nat.max_self]

theorem swap (xs : Vector Int32 n) (a : Tally) {i j : Nat} (hi : i ∈ s) (hj : j ∈ s) :
    Move s (Equiv.swap ⟨i, Segment.lt_of_mem hi⟩ ⟨j, Segment.lt_of_mem hj⟩) { swaps := 1 } xs a
      (xs.swap i j (Segment.lt_of_mem hi) (Segment.lt_of_mem hj)) a.addSwap where
  rearranges := .swap xs hi hj
  tally := a.addSwap_eq
  flat := rfl

theorem addPartition (s : Segment n) (xs : Vector Int32 n) (a : Tally) :
    Move s 1 { partitions := 1 } xs a xs a.addPartition where
  rearranges := .refl s xs
  tally := a.addPartition_eq
  flat := rfl

end Move

/-! ## The scan -/

section

variable {p q : Int32} {first last i j : Nat}

theorem climb_alike {hlast : last < n} (count count' : Nat) (hi : i ≤ last)
    (h : ∀ k : Fin n, i ≤ k → k ≤ last → (xs.get k ≤ p ↔ ys.get k ≤ q)) :
    ∃ k m, climb xs p last hlast i count hi = (k, count + m) ∧
      climb ys q last hlast i count' hi = (k, count' + m) := by
  fun_induction climb xs p last hlast i count hi generalizing count' with
  | case1 i count hi hx hlt ih =>
    have hy : ys[i] ≤ q := (h ⟨i, Nat.lt_trans hlt hlast⟩ (Nat.le_refl _) hi).mp hx
    obtain ⟨k, m, hk, hk'⟩ := ih (count' + 1) fun k hk => h k (Nat.le_of_succ_le hk)
    refine ⟨k, m + 1, ?_, ?_⟩
    · rw [hk, Nat.add_right_comm, Nat.add_assoc]
    · rw [climb, if_pos hy, dif_pos hlt, hk', Nat.add_right_comm, Nat.add_assoc]
  | case2 i count hi hx hlt =>
    have hy : ys[i] ≤ q := (h ⟨i, Nat.lt_of_le_of_lt hi hlast⟩ (Nat.le_refl _) hi).mp hx
    exact ⟨i, 1, rfl, by rw [climb, if_pos hy, dif_neg hlt]⟩
  | case3 i count hi hx =>
    have hy : ¬ ys[i] ≤ q := mt (h ⟨i, Nat.lt_of_le_of_lt hi hlast⟩ (Nat.le_refl _) hi).mpr hx
    exact ⟨i, 1, rfl, by rw [climb, if_neg hy]⟩

theorem descend_alike (count count' : Nat) (hj : j < n)
    (h : ∀ k : Fin n, first < k → k ≤ j → (xs.get k ≤ p ↔ ys.get k ≤ q)) :
    ∃ k m, descend xs p first j count hj = (k, count + m) ∧
      descend ys q first j count' hj = (k, count' + m) := by
  fun_induction descend xs p first j count hj generalizing count' with
  | case1 j count hj hlt hx ih =>
    have hy : q < ys[j] := by
      rw [← Int32.not_le] at hx ⊢
      exact mt (h ⟨j, hj⟩ hlt (Nat.le_refl _)).mpr hx
    obtain ⟨k, m, hk, hk'⟩ := ih (count' + 1) fun k hk hkj =>
      h k hk (Nat.le_trans hkj (Nat.sub_le j 1))
    refine ⟨k, m + 1, ?_, ?_⟩
    · rw [hk, Nat.add_right_comm, Nat.add_assoc]
    · rw [descend, if_pos hlt, if_pos hy, hk', Nat.add_right_comm, Nat.add_assoc]
  | case2 j count hj hlt hx =>
    have hy : ¬ q < ys[j] := by
      rw [Int32.not_lt] at hx ⊢
      exact (h ⟨j, hj⟩ hlt (Nat.le_refl _)).mp hx
    exact ⟨j, 1, rfl, by rw [descend, if_pos hlt, if_neg hy]⟩
  | case3 j count hj hlt => exact ⟨j, 0, rfl, by rw [descend, if_neg hlt]; rfl⟩

end

namespace Scan

variable {p q : Int32}

/-- Two scans with their cursors in the same slots, over values that compare the same way
with their pivots. -/
structure Tandem (c : Scan s p) (d : Scan s q) : Prop where
  left : d.left = c.left
  right : d.right = c.right
  alike : ∀ k : Fin n, ↑k ∈ s → (c.buffer.get k ≤ p ↔ d.buffer.get k ≤ q)

variable {c : Scan s p} {d : Scan s q}

theorem leftStop_alike (h : Tandem c d) :
    ∃ k m, c.leftStop = (k, c.tally.comparisons + m) ∧
      d.leftStop = (k, d.tally.comparisons + m) := by
  obtain ⟨cb, cl, cr, ct, hcl, hcr, hcp⟩ := c
  obtain ⟨db, dl, dr, dt, hdl, hdr, hdp⟩ := d
  obtain ⟨rfl, rfl, halike⟩ := h
  apply climb_alike
  intro k hk hk'
  apply halike k
  refine ⟨Nat.le_trans hcl.1 hk, ?_⟩
  have hhi := hcl.2
  omega

theorem rightStop_alike (h : Tandem c d) (count count' : Nat) :
    ∃ k m, c.rightStop count = (k, count + m) ∧ d.rightStop count' = (k, count' + m) := by
  obtain ⟨cb, cl, cr, ct, hcl, hcr, hcp⟩ := c
  obtain ⟨db, dl, dr, dt, hdl, hdr, hdp⟩ := d
  obtain ⟨rfl, rfl, halike⟩ := h
  apply descend_alike
  intro k hk hk'
  apply halike k
  exact ⟨Nat.le_of_lt hk, Nat.lt_of_le_of_lt hk' hcr.2⟩

theorem round_alike (h : Tandem c d) :
    ∃ σ w, Move s σ w c.buffer c.tally c.round.buffer c.round.tally ∧
      Move s σ w d.buffer d.tally d.round.buffer d.round.tally ∧ Tandem c.round d.round := by
  obtain ⟨i, a, hci, hdi⟩ := leftStop_alike h
  obtain ⟨j, b, hcj, hdj⟩ := rightStop_alike h c.leftStop.2 d.leftStop.2
  have hi : i ∈ s := by
    have := c.leftStop_mem
    rwa [hci] at this
  have hj : j ∈ s := by
    have := c.rightStop_mem c.leftStop.2
    rwa [hcj] at this
  obtain ⟨hcl, hcr, hc⟩ := c.round_cases (congrArg Prod.fst hci) hcj
  obtain ⟨hdl, hdr, hd⟩ := d.round_cases (congrArg Prod.fst hdi) hdj
  rw [hci] at hc
  rw [hdi] at hd
  have hleft : d.round.left = c.round.left := hdl.trans hcl.symm
  have hright : d.round.right = c.round.right := hdr.trans hcr.symm
  -- The stops are the same slots, so either both scans exchange values or neither does.
  rcases hc with ⟨hin, hjn, hlt, hcb, hct⟩ | ⟨hle, hcb, hct⟩
  · rcases hd with ⟨_, _, _, hdb, hdt⟩ | ⟨hle, _⟩
    · have hcs := Rearranges.swap c.buffer hi hj
      have hds := Rearranges.swap d.buffer hi hj
      refine ⟨_, { comparisons := a + b, swaps := 1 }, ⟨hcb ▸ hcs, ?_, rfl⟩, ⟨hdb ▸ hds, ?_, rfl⟩,
        hleft, hright, ?_⟩
      · rw [hct]
        ext <;> simp [Nat.add_assoc]
      · rw [hdt]
        ext <;> simp [Nat.add_assoc]
      · intro k hk
        rw [hcb, hdb, hcs.source, hds.source]
        exact h.alike _ (hcs.mem hk)
    · exact absurd hlt (Nat.not_lt.mpr hle)
  · rcases hd with ⟨_, _, hlt, _⟩ | ⟨_, hdb, hdt⟩
    · exact absurd hlt (Nat.not_lt.mpr hle)
    · refine ⟨1, { comparisons := a + b }, ⟨hcb ▸ .refl s _, ?_, rfl⟩,
        ⟨hdb ▸ .refl s _, ?_, rfl⟩, hleft, hright, ?_⟩
      · rw [hct]
        ext <;> simp [Nat.add_assoc]
      · rw [hdt]
        ext <;> simp [Nat.add_assoc]
      · rw [hcb, hdb]
        exact h.alike

/-- The whole scan makes the same moves in both buffers and ends at the same slot. -/
theorem run_alike (h : Tandem c d) :
    ∃ σ w, Move s σ w c.buffer c.tally c.run.buffer c.run.tally ∧
      Move s σ w d.buffer d.tally d.run.buffer d.run.tally ∧ d.run.right = c.run.right := by
  fun_induction Scan.run c generalizing d with
  | case1 c hover =>
    have hover' : d.Over := by
      rw [Over, h.left, h.right]
      exact hover
    rw [Scan.run, if_pos hover']
    exact ⟨1, 0, .refl .., .refl .., h.right⟩
  | case2 c hover ih =>
    have hover' : ¬ d.Over := by
      rw [Over, h.left, h.right]
      exact hover
    rw [Scan.run.eq_1 d, if_neg hover']
    obtain ⟨σ, w, hc, hd, hround⟩ := round_alike h
    obtain ⟨τ, v, hc', hd', hright⟩ := ih hround
    exact ⟨σ * τ, w + v, hc.trans hc', hd.trans hd', hright⟩

theorem start_alike (h : 0 < s.size) (ha : Alike s xs ys) (a b : Tally) :
    Tandem (start xs s h a) (start ys s h b) where
  left := rfl
  right := rfl
  alike k hk := ha k _ hk (Segment.lo_mem h)

end Scan

/-! ## A partition -/

/-- A step from one state of the sort to another. -/
abbrev State.Advances (s : Segment n) (σ : Equiv.Perm (Fin n)) (w : Tally) (st st' : State n) :
    Prop :=
  Move s σ w st.buffer st.session.tally st'.buffer st'.session.tally

theorem State.Advances.tally_of_reach {depth : Nat} {w : Tally} {st st' : State n}
    (h : (st.reach depth).Advances s σ w st') :
    st'.session.tally = st.session.tally + ({ maxDepth := depth } + w) := by
  rw [h.tally, ← add_assoc, ← Tally.reach_eq]
  rfl

theorem scanned_alike (h : 0 < s.size) {st st' : State n} (ha : Alike s st.buffer st'.buffer) :
    ∃ σ w,
      Move s σ w st.buffer st.session.tally (scanned s h st).buffer (scanned s h st).tally ∧
      Move s σ w st'.buffer st'.session.tally (scanned s h st').buffer (scanned s h st').tally ∧
      (scanned s h st').right = (scanned s h st).right := by
  obtain ⟨σ, w, hx, hy, hright⟩ := Scan.run_alike (Scan.start_alike h ha
    st.session.tally.addPartition st'.session.tally.addPartition)
  exact ⟨1 * σ, { partitions := 1 } + w, (Move.addPartition s _ _).trans hx,
    (Move.addPartition s _ _).trans hy, hright⟩

theorem partition_alike (h : 0 < s.size) {st st' : State n}
    (ha : Alike s st.buffer st'.buffer) :
    (partition s h st').1 = (partition s h st).1 ∧
      ∃ σ w, st.Advances s σ w (partition s h st).2 ∧ st'.Advances s σ w (partition s h st').2 := by
  obtain ⟨σ, w, hx, hy, hright⟩ := scanned_alike h ha
  have hj : (scanned s h st).right ∈ s := (scanned s h st).right_mem
  obtain ⟨hslot, -, hcase⟩ := partition_cases h st rfl
  obtain ⟨hslot', -, hcase'⟩ := partition_cases h st' hright
  refine ⟨Cut.ext (hslot'.trans hslot.symm), ?_⟩
  -- Both right cursors ended at the first slot, or neither did.
  rcases hcase with ⟨heq, hb, ht⟩ | ⟨hjn, hne, hb, ht⟩
  · rcases hcase' with ⟨-, hb', ht'⟩ | ⟨-, hne, -⟩
    · rw [← hb, ← ht] at hx
      rw [← hb', ← ht'] at hy
      exact ⟨σ, w, hx, hy⟩
    · exact absurd heq hne
  · rcases hcase' with ⟨heq, -⟩ | ⟨_, -, hb', ht'⟩
    · exact absurd heq hne
    · have hsx := hx.trans (.swap _ _ (Segment.lo_mem h) hj)
      have hsy := hy.trans (.swap _ _ (Segment.lo_mem h) hj)
      rw [← hb, ← ht] at hsx
      rw [← hb', ← ht'] at hsy
      exact ⟨_, _, hsx, hsy⟩

theorem partition_rearranges (h : 0 < s.size) (st : State n) :
    ∃ σ, Rearranges s σ st.buffer (partition s h st).2.buffer := by
  obtain ⟨-, σ, w, hx, -⟩ := partition_alike h (.refl s st.buffer)
  exact ⟨σ, hx.rearranges⟩

/-! ## The pivot -/

/-- The generator after a rule has picked a pivot among `size` slots. -/
def PivotRule.advance (rule : PivotRule) (size : Nat) (g : Generator) : Generator :=
  match rule with
  | .random => (g.below size).2
  | _ => g

theorem PivotRule.advance_of_ne_random {rule : PivotRule} (h : rule ≠ .random) (size : Nat)
    (g : Generator) : rule.advance size g = g := by
  cases rule with
  | firstSlot | medianOfThree => rfl
  | random => exact absurd rfl h

theorem medianOffset_alike (h : 0 < s.size) (ha : Alike s xs ys) (a b : Tally) :
    ∃ k w, w.maxDepth = 0 ∧
      medianOffset xs s h a = (k, a + w) ∧ medianOffset ys s h b = (k, b + w) := by
  have hlt (i j : Fin s.size) :
      xs.get ⟨s.lo + i, s.lo_add_lt i⟩ < xs.get ⟨s.lo + j, s.lo_add_lt j⟩ ↔
        ys.get ⟨s.lo + i, s.lo_add_lt i⟩ < ys.get ⟨s.lo + j, s.lo_add_lt j⟩ :=
    ha.lt_iff (s.lo_add_mem i) (s.lo_add_mem j)
  have hab := hlt ⟨0, h⟩ ⟨s.size / 2, Nat.div_lt_self h (by decide)⟩
  have hac := hlt ⟨0, h⟩ ⟨s.size - 1, Nat.sub_one_lt_of_lt h⟩
  have hbc := hlt ⟨s.size / 2, Nat.div_lt_self h (by decide)⟩ ⟨s.size - 1, Nat.sub_one_lt_of_lt h⟩
  simp only at hab hac hbc
  simp only [medianOffset, hab, hac, hbc, Tally.addComparisons_eq]
  split_ifs <;> exact ⟨_, _, rfl, rfl, rfl⟩

/-- A rule picks the same slot in alike segments, if a random one draws from the same
generator. -/
theorem pivotOffset_alike (rule : PivotRule) (h : 0 < s.size) (ha : Alike s xs ys)
    {a b : Session} (hg : rule = .random → b.generator = a.generator) :
    ∃ k w, w.maxDepth = 0 ∧
      pivotOffset rule xs s h a =
        (k, { tally := a.tally + w, generator := rule.advance s.size a.generator }) ∧
      pivotOffset rule ys s h b =
        (k, { tally := b.tally + w, generator := rule.advance s.size b.generator }) := by
  obtain ⟨t, g⟩ := a
  obtain ⟨u, g'⟩ := b
  cases rule with
  | firstSlot => exact ⟨_, 0, rfl, by rw [add_zero]; rfl, by rw [add_zero]; rfl⟩
  | medianOfThree =>
    by_cases hsize : s.size < 3
    · refine ⟨⟨0, h⟩, 0, rfl, ?_, ?_⟩
      · simp [pivotOffset, hsize, PivotRule.advance]
      · simp [pivotOffset, hsize, PivotRule.advance]
    · obtain ⟨k, w, hw, hx, hy⟩ := medianOffset_alike h ha t u
      refine ⟨k, w, hw, ?_, ?_⟩
      · simp [pivotOffset, hsize, hx, PivotRule.advance]
      · simp [pivotOffset, hsize, hy, PivotRule.advance]
  | random =>
    obtain rfl : g' = g := hg rfl
    exact ⟨_, 0, rfl, by rw [add_zero]; rfl, by rw [add_zero]; rfl⟩

theorem placePivot_alike (rule : PivotRule) (h : 0 < s.size) {st st' : State n}
    (ha : Alike s st.buffer st'.buffer)
    (hg : rule = .random → st'.session.generator = st.session.generator) :
    ∃ σ w, st.Advances s σ w (placePivot rule s st) ∧
      st'.Advances s σ w (placePivot rule s st') ∧
      (placePivot rule s st).session.generator = rule.advance s.size st.session.generator ∧
      (placePivot rule s st').session.generator = rule.advance s.size st'.session.generator := by
  obtain ⟨xs, a⟩ := st
  obtain ⟨ys, b⟩ := st'
  obtain ⟨k, w, hw, hx, hy⟩ := pivotOffset_alike rule h ha hg
  simp only [placePivot, dif_pos h, hx, hy]
  by_cases hk : k.val = 0
  · rw [if_pos hk, if_pos hk]
    exact ⟨1, w, ⟨.refl s xs, rfl, hw⟩, ⟨.refl s ys, rfl, hw⟩, rfl, rfl⟩
  · rw [if_neg hk, if_neg hk]
    have hpick (zs : Vector Int32 n) (c : Tally) : Move s 1 w zs c zs (c + w) :=
      ⟨.refl s zs, rfl, hw⟩
    exact ⟨_, _, (hpick xs a.tally).trans (.swap xs _ (Segment.lo_mem h) (s.lo_add_mem k)),
      (hpick ys b.tally).trans (.swap ys _ (Segment.lo_mem h) (s.lo_add_mem k)), rfl, rfl⟩

/-! ## A split -/

theorem split_alike (rule : PivotRule) (h : 2 ≤ s.size) {st st' : State n}
    (ha : Alike s st.buffer st'.buffer)
    (hg : rule = .random → st'.session.generator = st.session.generator) :
    (split rule s h st').1 = (split rule s h st).1 ∧
      ∃ σ w, st.Advances s σ w (split rule s h st).2 ∧
        st'.Advances s σ w (split rule s h st').2 := by
  have hpos : 0 < s.size := Nat.zero_lt_of_lt h
  obtain ⟨σ, w, hx, hy, -, -⟩ := placePivot_alike rule hpos ha hg
  obtain ⟨hcut, τ, v, hx', hy'⟩ := partition_alike hpos (ha.rearrange hx.rearranges hy.rearranges)
  exact ⟨hcut, σ * τ, w + v, hx.trans hx', hy.trans hy'⟩

theorem split_eq_alike {rule : PivotRule} {h : 2 ≤ s.size} {c : Cut s} {st st₁ : State n}
    (hs : split rule s h st = (c, st₁)) (st' : State n) (ha : Alike s st.buffer st'.buffer)
    (hg : rule = .random → st'.session.generator = st.session.generator) :
    ∃ st₁', split rule s h st' = (c, st₁') ∧
      ∃ σ w, st.Advances s σ w st₁ ∧ st'.Advances s σ w st₁' := by
  obtain ⟨hcut, hmoves⟩ := split_alike rule h ha hg
  rw [hs] at hcut hmoves
  exact ⟨(split rule s h st').2, Prod.ext hcut rfl, hmoves⟩

theorem generator_split (rule : PivotRule) (h : 2 ≤ s.size) (st : State n) :
    (split rule s h st).2.session.generator = rule.advance s.size st.session.generator := by
  have hpos : 0 < s.size := Nat.zero_lt_of_lt h
  obtain ⟨_, _, _, _, hplace, _⟩ := placePivot_alike rule hpos (.refl s st.buffer) fun _ => rfl
  exact (partition_cases hpos (placePivot rule s st) rfl).2.1.trans hplace

theorem split_rearranges (rule : PivotRule) (h : 2 ≤ s.size) (st : State n) :
    ∃ σ, Rearranges s σ st.buffer (split rule s h st).2.buffer := by
  obtain ⟨-, σ, w, hx, -⟩ := split_alike rule h (.refl s st.buffer) fun _ => rfl
  exact ⟨σ, hx.rearranges⟩

end Quicksort
