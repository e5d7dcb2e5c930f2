import Quicksort.Proofs.Sorting

/-
  The outline of a sort.

  Every schedule splits a segment, then sorts the two sides. An outline is the
  tree of these splits, with the work that each of them took. The sides share no
  slot, so sorting one of them leaves the outline of the other as it is, and an
  outline does not show in which order the sides were sorted.

  The counters of a sort add up over its outline (`sortSegment_outline`). The
  schedule shows in the depth alone: `depthLeftFirst` nests both sides of a
  split, `depthSmallerFirst` only the smaller one.

  An outline depends on how the values of the segment compare and on nothing
  else (`HasOutline.of_alike`), if the pivots are not drawn at random
  (`HasOutline.unique`).
-/

namespace Quicksort

/-- The splits of a sort: a segment that is too small to split, or the work of a split and
the outlines of the two sides. -/
inductive Outline where
  | leaf (size : Nat)
  | node (work : Tally) (left right : Outline)

namespace Outline

def size : Outline → Nat
  | leaf size => size
  | node _ left right => left.size + right.size + 1

def work : Outline → Tally
  | leaf _ => 0
  | node work left right => work + (left.work + right.work)

/-- The deepest split if both sides of a split are nested. -/
def depthLeftFirst (depth : Nat) : Outline → Nat
  | leaf _ => 0
  | node _ left right =>
    max depth (max (left.depthLeftFirst (depth + 1)) (right.depthLeftFirst (depth + 1)))

/-- The deepest split if only the smaller side of a split is nested. -/
def depthSmallerFirst (depth : Nat) : Outline → Nat
  | leaf _ => 0
  | node _ left right =>
    if left.size < right.size then
      max depth (max (left.depthSmallerFirst (depth + 1)) (right.depthSmallerFirst depth))
    else max depth (max (left.depthSmallerFirst depth) (right.depthSmallerFirst (depth + 1)))

/-- The deepest split of a whole sort. -/
def deepest (schedule : Schedule) (o : Outline) : Nat :=
  match schedule with
  | .leftFirst => o.depthLeftFirst 1
  | .smallerFirst | .workStack => o.depthSmallerFirst 1

end Outline

variable {n : Nat} {rule : PivotRule} {s t : Segment n} {c : Cut s} {xs ys : Vector Int32 n}
  {o o' : Outline}

/-- The outline of a sort of the segment, with some draw for each random pivot. -/
inductive HasOutline (rule : PivotRule) : Segment n → Vector Int32 n → Outline → Prop
  | leaf {s : Segment n} {xs : Vector Int32 n} (h : s.size < 2) :
      HasOutline rule s xs (.leaf s.size)
  | node {s : Segment n} {xs : Vector Int32 n} {c : Cut s} {st : State n} {l r : Outline}
      (h : 2 ≤ s.size) (g : Generator) (hs : split rule s h ⟨xs, ⟨0, g⟩⟩ = (c, st))
      (hl : HasOutline rule c.left st.buffer l) (hr : HasOutline rule c.right st.buffer r) :
      HasOutline rule s xs (.node st.session.tally l r)

namespace HasOutline

theorem size_eq (h : HasOutline rule s xs o) : o.size = s.size := by
  induction h with
  | leaf h => rfl
  | @node s xs c st l r h g hs hl hr ihl ihr =>
    rw [Outline.size, ihl, ihr, c.size_left_add_size_right]

theorem eq_leaf (h : HasOutline rule s xs o) (hsize : s.size < 2) : o = .leaf s.size := by
  cases h with
  | leaf => rfl
  | node h => exact absurd hsize (Nat.not_lt.mpr h)

theorem maxDepth_work (h : HasOutline rule s xs o) : o.work.maxDepth = 0 := by
  induction h with
  | leaf h => rfl
  | @node s xs c st l r h g hs hl hr ihl ihr =>
    obtain ⟨-, -, σ, w, hx, -⟩ := split_eq_alike hs ⟨xs, ⟨0, g⟩⟩ (.refl s xs) fun _ => rfl
    have hw : st.session.tally = w := hx.tally.trans (zero_add w)
    rw [Outline.work, Tally.maxDepth_add, Tally.maxDepth_add, ihl, ihr, hw, hx.flat]
    rfl

theorem of_alike (h : HasOutline rule s xs o) (ha : Alike s xs ys) : HasOutline rule s ys o := by
  induction h generalizing ys with
  | leaf h => exact .leaf h
  | @node s xs c st l r h g hs hl hr ihl ihr =>
    obtain ⟨st', hs', σ, w, hx, hy⟩ := split_eq_alike hs ⟨ys, ⟨0, g⟩⟩ ha fun _ => rfl
    have hside : Alike s st.buffer st'.buffer := ha.rearrange hx.rearranges hy.rearranges
    have hwork : st.session.tally = st'.session.tally := hx.tally.trans hy.tally.symm
    rw [hwork]
    apply HasOutline.node h g hs'
    · exact ihl (hside.mono fun _ => Cut.mem_of_mem_left)
    · exact ihr (hside.mono fun _ => Cut.mem_of_mem_right)

theorem unique (hrule : rule ≠ .random) (h : HasOutline rule s xs o)
    (h' : HasOutline rule s xs o') : o = o' := by
  induction h generalizing o' with
  | leaf h =>
    cases h' with
    | leaf => rfl
    | node h' => exact absurd h (Nat.not_lt.mpr h')
  | @node s xs c st l r h g hs hl hr ihl ihr =>
    -- The generators may differ, but a pivot that is not random does not read them.
    cases h' with
    | leaf h' => exact absurd h' (Nat.not_lt.mpr h)
    | @node _ _ d st' l' r' _ g' hs' hl' hr' =>
      obtain ⟨st₁, hs₁, σ, w, hx, hy⟩ :=
        split_eq_alike hs ⟨xs, ⟨0, g'⟩⟩ (.refl s xs) fun hr => absurd hr hrule
      obtain ⟨rfl, rfl⟩ : d = c ∧ st' = st₁ := Prod.mk.inj (hs'.symm.trans hs₁)
      have hbuffer : st'.buffer = st.buffer := hy.rearranges.unique hx.rearranges
      have hwork : st'.session.tally = st.session.tally := hy.tally.trans hx.tally.symm
      rw [hbuffer] at hl' hr'
      rw [hwork, ihl hl', ihr hr']

/-- What is done to other slots does not show in the outline. -/
theorem of_sorts (h : HasOutline rule t ys o) (hs : Sorts s xs ys)
    (hts : ∀ k : Nat, k ∈ t → k ∉ s) : HasOutline rule t xs o := by
  obtain ⟨σ, hσ, -⟩ := hs
  apply h.of_alike
  apply Alike.of_agree
  intro k hk
  exact hσ.frame (hts k hk)

theorem of_split {h : 2 ≤ s.size} {depth : Nat} {st st' : State n}
    (hs : split rule s h (st.reach depth) = (c, st')) :
    ∃ w, st'.session.tally = st.session.tally + ({ maxDepth := depth } + w) ∧
      ∀ l r, HasOutline rule c.left st'.buffer l → HasOutline rule c.right st'.buffer r →
        HasOutline rule s st.buffer (.node w l r) := by
  obtain ⟨st₀, hs₀, σ, w, hx, hy⟩ :=
    split_eq_alike hs ⟨st.buffer, ⟨0, st.session.generator⟩⟩ (.refl s st.buffer) fun _ => rfl
  have hbuffer : st₀.buffer = st'.buffer := hy.rearranges.unique hx.rearranges
  have hwork : st₀.session.tally = w := hy.tally.trans (zero_add w)
  refine ⟨w, hx.tally_of_reach, ?_⟩
  intro l r hl hr
  rw [← hbuffer] at hl hr
  rw [← hwork]
  exact .node h _ hs₀ hl hr

end HasOutline

/-! ## The schedules -/

theorem sortLeftFirst_outline (rule : PivotRule) (depth : Nat) (s : Segment n) (st : State n) :
    ∃ o, HasOutline rule s st.buffer o ∧
      (sortLeftFirst rule depth s st).session.tally =
        st.session.tally + (o.work + { maxDepth := o.depthLeftFirst depth }) := by
  fun_induction sortLeftFirst rule depth s st with
  | case1 depth s st h c st' hs st'' ihl ihr =>
    obtain ⟨w, hw, hnode⟩ := HasOutline.of_split hs
    obtain ⟨l, hl, hlt⟩ := ihl
    obtain ⟨r, hr, hrt⟩ := ihr
    -- The right side is sorted after the left one, on a buffer that still agrees there.
    have hr' : HasOutline rule c.right st'.buffer r :=
      hr.of_sorts (sortLeftFirst_sorts rule (depth + 1) c.left st')
        fun _ hk hk' => Cut.not_mem_right_of_mem_left hk' hk
    refine ⟨.node w l r, hnode l r hl hr', ?_⟩
    rw [hrt, hlt, hw, Tally.add_split, Outline.work, Outline.depthLeftFirst]
  | case2 depth s st h =>
    refine ⟨.leaf s.size, .leaf (Nat.lt_of_not_le h), ?_⟩
    exact (add_zero _).symm

theorem sortSmallerFirst_outline (rule : PivotRule) (depth : Nat) (s : Segment n)
    (st : State n) :
    ∃ o, HasOutline rule s st.buffer o ∧
      (sortSmallerFirst rule depth s st).session.tally =
        st.session.tally + (o.work + { maxDepth := o.depthSmallerFirst depth }) := by
  fun_induction sortSmallerFirst rule depth s st with
  | case1 depth s st h c st' hs hlt st'' ihl ihr =>
    obtain ⟨w, hw, hnode⟩ := HasOutline.of_split hs
    obtain ⟨l, hl, hlt'⟩ := ihl
    obtain ⟨r, hr, hrt⟩ := ihr
    have hr' : HasOutline rule c.right st'.buffer r :=
      hr.of_sorts (sortSmallerFirst_sorts rule (depth + 1) c.left st')
        fun _ hk hk' => Cut.not_mem_right_of_mem_left hk' hk
    have hsize : l.size < r.size := by rwa [hl.size_eq, hr.size_eq]
    refine ⟨.node w l r, hnode l r hl hr', ?_⟩
    rw [hrt, hlt', hw, Tally.add_split, Outline.work, Outline.depthSmallerFirst, if_pos hsize]
  | case2 depth s st h c st' hs hge st'' ihr ihl =>
    obtain ⟨w, hw, hnode⟩ := HasOutline.of_split hs
    obtain ⟨l, hl, hlt⟩ := ihl
    obtain ⟨r, hr, hrt⟩ := ihr
    have hl' : HasOutline rule c.left st'.buffer l :=
      hl.of_sorts (sortSmallerFirst_sorts rule (depth + 1) c.right st')
        fun _ hk => Cut.not_mem_right_of_mem_left hk
    have hsize : ¬ l.size < r.size := by rwa [hl.size_eq, hr.size_eq]
    refine ⟨.node w l r, hnode l r hl' hr, ?_⟩
    rw [hlt, hrt, hw, add_right_comm, Tally.add_split, Outline.work, Outline.depthSmallerFirst,
      if_neg hsize]
  | case3 depth s st h =>
    refine ⟨.leaf s.size, .leaf (Nat.lt_of_not_le h), ?_⟩
    exact (add_zero _).symm

/-- The work of a sort adds up over an outline of it. -/
theorem sortSegment_outline (cfg : Config) (s : Segment n) (st : State n) :
    ∃ o, HasOutline cfg.pivot s st.buffer o ∧
      (sortSegment cfg s st).session.tally =
        st.session.tally + (o.work + { maxDepth := o.deepest cfg.schedule }) := by
  obtain ⟨rule, schedule⟩ := cfg
  cases schedule with
  | leftFirst => exact sortLeftFirst_outline rule 1 s st
  | smallerFirst => exact sortSmallerFirst_outline rule 1 s st
  | workStack =>
    simp only [sortSegment, sortWorkStack_eq]
    exact sortSmallerFirst_outline rule 1 s st

theorem sortSegment_outline_of_zero (cfg : Config) (s : Segment n) (xs : Vector Int32 n)
    (g : Generator) :
    ∃ o, HasOutline cfg.pivot s xs o ∧
      (sortSegment cfg s ⟨xs, ⟨{}, g⟩⟩).session.tally =
        { o.work with maxDepth := o.deepest cfg.schedule } := by
  obtain ⟨o, ho, htally⟩ := sortSegment_outline cfg s ⟨xs, ⟨{}, g⟩⟩
  refine ⟨o, ho, ?_⟩
  rw [htally]
  ext <;> simp [ho.maxDepth_work]

theorem sortAll_outline (cfg : Config) (xs : Array Int32) :
    ∃ o, HasOutline cfg.pivot (.whole xs.size) xs.toVector o ∧
      (sortAll cfg xs).tally = { o.work with maxDepth := o.deepest cfg.schedule } :=
  sortSegment_outline_of_zero cfg (.whole xs.size) xs.toVector (.ofSeed Session.pivotSeed)

end Quicksort
