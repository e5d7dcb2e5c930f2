import Quicksort.Proofs.Agenda
import Quicksort.Proofs.Schedules
import Quicksort.Proofs.Tandem

/-
  What a sort depends on.

  `Tandem` follows two scans side by side; here two whole sorts are followed.
  They start in states that are matched: the segment looks alike in both, and a
  random pivot would be drawn from the same generator. A split keeps both in
  lockstep (`Matched.split`), and so does one lockstep after another, the second
  on any part of the segment (`Lockstep.andThen`). Every schedule is made of
  these, so whole sorts run in lockstep (`sortSegment_lockstep`).

  Two things follow. On buffers that compare alike a sort moves the values in
  the same way and does the same work (`sort_of_alike`). And a sort only adds to
  the tally that it is given and never reads it (`sort_adds_its_work`), also where
  the counters wrap (`words_sortSegment`).
-/

namespace Quicksort

attribute [ext] Session State

variable {n : Nat} {rule : PivotRule} {s t : Segment n} {c : Cut s} {xs ys : Vector Int32 n}
  {σ τ : Equiv.Perm (Fin n)} {w v : Tally} {a b b' d : State n}

/-! ## Two states side by side -/

theorem Alike.eq_iff (h : Alike s xs ys) {i j : Fin n} (hi : ↑i ∈ s) (hj : ↑j ∈ s) :
    xs.get i = xs.get j ↔ ys.get i = ys.get j := by
  have hij := h i j hi hj
  have hji := h j i hj hi
  constructor
  · intro he
    rw [he] at hij hji
    exact Int32.le_antisymm (hij.mp (Int32.le_refl _)) (hji.mp (Int32.le_refl _))
  · intro he
    rw [he] at hij hji
    exact Int32.le_antisymm (hij.mpr (Int32.le_refl _)) (hji.mpr (Int32.le_refl _))

/-- From `a` to `b` the values of the segment are moved and work is done. Unlike a `Move`, the
work may have a depth. -/
structure Passes (s : Segment n) (σ : Equiv.Perm (Fin n)) (w : Tally) (a b : State n) :
    Prop where
  rearranges : Rearranges s σ a.buffer b.buffer
  tally : b.session.tally = a.session.tally + w

namespace Passes

theorem refl (s : Segment n) (a : State n) : Passes s 1 0 a a where
  rearranges := .refl s a.buffer
  tally := (add_zero _).symm

theorem trans (h : Passes s σ w a b) (h' : Passes s τ v b d) :
    Passes s (σ * τ) (w + v) a d where
  rearranges := h.rearranges.trans h'.rearranges
  tally := by rw [h'.tally, h.tally, add_assoc]

theorem mono (h : Passes s σ w a b) (hst : ∀ k, k ∈ s → k ∈ t) : Passes t σ w a b where
  rearranges := h.rearranges.mono hst
  tally := h.tally

theorem of_reach {depth : Nat} (h : (a.reach depth).Advances s σ w b) :
    Passes s σ ({ maxDepth := depth } + w) a b where
  rearranges := h.rearranges
  tally := h.tally_of_reach

end Passes

/-- The sort cannot tell two states apart on the segment: the values compare alike, and random
pivots are drawn from the same generator. -/
structure Matched (rule : PivotRule) (s : Segment n) (a b : State n) : Prop where
  alike : Alike s a.buffer b.buffer
  draws : rule = .random → b.session.generator = a.session.generator

theorem Matched.mono (h : Matched rule s a b) (hts : ∀ k, k ∈ t → k ∈ s) : Matched rule t a b where
  alike := h.alike.mono hts
  draws := h.draws

/-- The same moves and the same work lead from `a` to `a'` and from `b` to `b'`, and random
draws go on from the same generator. -/
structure Lockstep (rule : PivotRule) (s : Segment n) (a a' b b' : State n) : Prop where
  moves : ∃ σ w, Passes s σ w a a' ∧ Passes s σ w b b'
  draws : rule = .random → b'.session.generator = a'.session.generator

namespace Lockstep

variable {a a' a'' b b' b'' : State n}

theorem refl (h : Matched rule s a b) : Lockstep rule s a a b b where
  moves := ⟨1, 0, .refl s a, .refl s b⟩
  draws := h.draws

theorem matched (h : Lockstep rule s a a' b b') (hm : Matched rule s a b) :
    Matched rule s a' b' := by
  obtain ⟨σ, w, ha, hb⟩ := h.moves
  exact ⟨hm.alike.rearrange ha.rearranges hb.rearranges, h.draws⟩

/-- Steps on the segment, then steps on a part of it. -/
theorem andThen (h : Lockstep rule s a a' b b') (hm : Matched rule s a b)
    (hts : ∀ k, k ∈ t → k ∈ s) (h' : Matched rule t a' b' → Lockstep rule t a' a'' b' b'') :
    Lockstep rule s a a'' b b'' := by
  obtain ⟨⟨τ, v, ha', hb'⟩, hdraws⟩ := h' ((h.matched hm).mono hts)
  obtain ⟨σ, w, ha, hb⟩ := h.moves
  refine ⟨⟨σ * τ, w + v, ?_, ?_⟩, hdraws⟩
  · exact ha.trans (ha'.mono hts)
  · exact hb.trans (hb'.mono hts)

end Lockstep

/-- Splits of matched states cut at the same slot and go in lockstep. -/
theorem Matched.split {depth : Nat} {h : 2 ≤ s.size} {a' : State n} (hm : Matched rule s a b)
    (hs : Quicksort.split rule s h (a.reach depth) = (c, a')) :
    ∃ b', Quicksort.split rule s h (b.reach depth) = (c, b') ∧ Lockstep rule s a a' b b' := by
  obtain ⟨b', hs', σ, w, ha, hb⟩ := split_eq_alike hs (b.reach depth) hm.alike hm.draws
  refine ⟨b', hs', ⟨σ, _, .of_reach ha, .of_reach hb⟩, ?_⟩
  intro hrule
  have hga := generator_split rule h (a.reach depth)
  have hgb := generator_split rule h (b.reach depth)
  rw [hs] at hga
  rw [hs'] at hgb
  rw [hga, hgb]
  exact congrArg (rule.advance s.size) (hm.draws hrule)

/-! ## The schedules -/

theorem sortLeftFirst_of_lt_two {depth : Nat} (h : ¬ 2 ≤ s.size) :
    sortLeftFirst rule depth s a = a := by
  rw [sortLeftFirst, dif_neg h]

theorem sortLeftFirst_of_two_le {depth : Nat} {a' : State n} (h : 2 ≤ s.size)
    (hs : split rule s h (a.reach depth) = (c, a')) :
    sortLeftFirst rule depth s a =
      sortLeftFirst rule (depth + 1) c.right (sortLeftFirst rule (depth + 1) c.left a') := by
  rw [sortLeftFirst, dif_pos h, hs]

theorem sortLeftFirst_lockstep (rule : PivotRule) (depth : Nat) (s : Segment n) (a : State n) :
    ∀ b : State n, Matched rule s a b →
      Lockstep rule s a (sortLeftFirst rule depth s a) b (sortLeftFirst rule depth s b) := by
  fun_induction sortLeftFirst rule depth s a with
  | case1 depth s a h c a' hs a'' ihl ihr =>
    intro b hm
    obtain ⟨b', hs', hsplit⟩ := hm.split hs
    rw [sortLeftFirst_of_two_le h hs']
    have hleft := hsplit.andThen hm (fun _ => Cut.mem_of_mem_left) (ihl b')
    exact hleft.andThen hm (fun _ => Cut.mem_of_mem_right) (ihr _)
  | case2 depth s a h =>
    intro b hm
    rw [sortLeftFirst_of_lt_two h]
    exact .refl hm

theorem sortSmallerFirst_lockstep (rule : PivotRule) (depth : Nat) (s : Segment n)
    (a : State n) :
    ∀ b : State n, Matched rule s a b →
      Lockstep rule s a (sortSmallerFirst rule depth s a) b (sortSmallerFirst rule depth s b) := by
  fun_induction sortSmallerFirst rule depth s a with
  | case1 depth s a h c a' hs hlt a'' ihl ihr =>
    intro b hm
    obtain ⟨b', hs', hsplit⟩ := hm.split hs
    rw [sortSmallerFirst_of_left_smaller h hs' hlt]
    have hleft := hsplit.andThen hm (fun _ => Cut.mem_of_mem_left) (ihl b')
    exact hleft.andThen hm (fun _ => Cut.mem_of_mem_right) (ihr _)
  | case2 depth s a h c a' hs hge a'' ihr ihl =>
    intro b hm
    obtain ⟨b', hs', hsplit⟩ := hm.split hs
    rw [sortSmallerFirst_of_right_smaller h hs' hge]
    have hright := hsplit.andThen hm (fun _ => Cut.mem_of_mem_right) (ihr b')
    exact hright.andThen hm (fun _ => Cut.mem_of_mem_left) (ihl _)
  | case3 depth s a h =>
    intro b hm
    rw [sortSmallerFirst_of_lt_two h]
    exact .refl hm

theorem sortSegment_lockstep (cfg : Config) (hm : Matched cfg.pivot s a b) :
    Lockstep cfg.pivot s a (sortSegment cfg s a) b (sortSegment cfg s b) := by
  obtain ⟨rule, schedule⟩ := cfg
  cases schedule with
  | leftFirst => exact sortLeftFirst_lockstep rule 1 s a b hm
  | smallerFirst => exact sortSmallerFirst_lockstep rule 1 s a b hm
  | workStack =>
    simp only [sortSegment, sortWorkStack_eq]
    exact sortSmallerFirst_lockstep rule 1 s a b hm

/-- Sorts of matched states that start with the same generator end with the same one: random
pivots are drawn in lockstep, and no other pivot moves the generator. -/
theorem generator_sortSegment_eq (cfg : Config) (hm : Matched cfg.pivot s a b)
    (hg : b.session.generator = a.session.generator) :
    (sortSegment cfg s b).session.generator = (sortSegment cfg s a).session.generator := by
  by_cases hrule : cfg.pivot = .random
  -- A lockstep says nothing about generators that are not drawn from.
  · exact (sortSegment_lockstep cfg hm).draws hrule
  · have ha := generator_sortSegment hrule cfg.schedule s a
    have hb := generator_sortSegment hrule cfg.schedule s b
    exact hb.trans (hg.trans ha.symm)

/-! ## The order of the values is all that counts -/

/-- A sort sees only how the values of its segment compare. On buffers that compare alike it
ends with the same tally and the same generator and makes the same moves: wherever one buffer
then holds the value that stood in slot `i`, so does the other. -/
theorem sort_of_alike (cfg : Config) (s : Segment n) (xs ys : Vector Int32 n)
    (h : Alike s xs ys) (se : Session) :
    let out := sortSegment cfg s ⟨xs, se⟩
    let out' := sortSegment cfg s ⟨ys, se⟩
    out'.session = out.session ∧
      (∃ σ, Rearranges s σ xs out.buffer ∧ Rearranges s σ ys out'.buffer) ∧
      ∀ i k : Fin n, ↑i ∈ s → ↑k ∈ s →
        (out.buffer.get k = xs.get i ↔ out'.buffer.get k = ys.get i) := by
  intro out out'
  have hm : Matched cfg.pivot s ⟨xs, se⟩ ⟨ys, se⟩ := ⟨h, fun _ => rfl⟩
  obtain ⟨σ, w, hx, hy⟩ := (sortSegment_lockstep cfg hm).moves
  refine ⟨?_, ⟨σ, hx.rearranges, hy.rearranges⟩, ?_⟩
  · apply Session.ext
    · exact hy.tally.trans hx.tally.symm
    · exact generator_sortSegment_eq cfg hm rfl
  · intro i k hi hk
    rw [hx.rearranges.source, hy.rearranges.source]
    exact h.eq_iff (hx.rearranges.mem hk) hi

/-- The least number takes the place of -5, the greatest that of 3, twice. -/
theorem sort_of_alike_extremes :
    let xs : Vector Int32 5 := #v[3, 0, 3, -5, 1]
    let ys : Vector Int32 5 := #v[Int32.maxValue, -7, Int32.maxValue, Int32.minValue, 0]
    let out := sortSegment ⟨.random, .workStack⟩ (.whole 5) ⟨xs, .fresh⟩
    let out' := sortSegment ⟨.random, .workStack⟩ (.whole 5) ⟨ys, .fresh⟩
    Alike (.whole 5) xs ys ∧ out'.session = out.session ∧
      (∃ σ, Rearranges (.whole 5) σ xs out.buffer ∧ Rearranges (.whole 5) σ ys out'.buffer) ∧
      ∀ i k : Fin 5, ↑i ∈ Segment.whole 5 → ↑k ∈ Segment.whole 5 →
        (out.buffer.get k = xs.get i ↔ out'.buffer.get k = ys.get i) := by
  intro xs ys
  have h : Alike (.whole 5) xs ys := by decide
  exact ⟨h, sort_of_alike ⟨.random, .workStack⟩ (.whole 5) xs ys h .fresh⟩

/-! ## The tally is only written to -/

theorem sortSegment_of_ne_random {cfg : Config} (hrule : cfg.pivot ≠ .random) (s : Segment n)
    (xs : Vector Int32 n) (t : Tally) (g g' : Generator) :
    sortSegment cfg s ⟨xs, ⟨t, g'⟩⟩ =
      ⟨(sortSegment cfg s ⟨xs, ⟨t, g⟩⟩).buffer,
        ⟨(sortSegment cfg s ⟨xs, ⟨t, g⟩⟩).session.tally, g'⟩⟩ := by
  have hm : Matched cfg.pivot s ⟨xs, ⟨t, g⟩⟩ ⟨xs, ⟨t, g'⟩⟩ :=
    ⟨.refl s xs, fun hr => absurd hr hrule⟩
  obtain ⟨σ, w, hg, hg'⟩ := (sortSegment_lockstep cfg hm).moves
  apply State.ext
  · exact hg'.rearranges.unique hg.rearranges
  · apply Session.ext
    · exact hg'.tally.trans hg.tally.symm
    · exact generator_sortSegment hrule cfg.schedule s ⟨xs, ⟨t, g'⟩⟩

theorem tally_sortSegment (cfg : Config) (s : Segment n) (xs : Vector Int32 n) (t : Tally)
    (g : Generator) :
    (sortSegment cfg s ⟨xs, ⟨t, g⟩⟩).session.tally =
      t + (sortSegment cfg s ⟨xs, ⟨{}, g⟩⟩).session.tally := by
  have hm : Matched cfg.pivot s ⟨xs, ⟨{}, g⟩⟩ ⟨xs, ⟨t, g⟩⟩ := ⟨.refl s xs, fun _ => rfl⟩
  obtain ⟨σ, w, hbase, hout⟩ := (sortSegment_lockstep cfg hm).moves
  have hwork : (sortSegment cfg s ⟨xs, ⟨{}, g⟩⟩).session.tally = w :=
    hbase.tally.trans (zero_add w)
  calc (sortSegment cfg s ⟨xs, ⟨t, g⟩⟩).session.tally
      = t + w := hout.tally
    _ = t + (sortSegment cfg s ⟨xs, ⟨{}, g⟩⟩).session.tally := by rw [hwork]

/-- Counters of 64 bits go up by the work of the sort, wherever they start and whether they wrap
or not. -/
theorem words_sortSegment (cfg : Config) (s : Segment n) (xs : Vector Int32 n) (t : Tally)
    (g : Generator) :
    (sortSegment cfg s ⟨xs, ⟨t, g⟩⟩).session.tally.words =
      t.words + (sortSegment cfg s ⟨xs, ⟨{}, g⟩⟩).session.tally.words := by
  rw [tally_sortSegment, Tally.words_add]

/-- A sort that starts with the counters `t` does what it does from zero counters, and adds
that work to `t`. Unless pivots are drawn at random, the generator is handed through and shows
nowhere else. -/
theorem sort_adds_its_work (cfg : Config) (s : Segment n) (xs : Vector Int32 n) (t : Tally)
    (g : Generator) :
    let out := sortSegment cfg s ⟨xs, ⟨t, g⟩⟩
    let base := sortSegment cfg s ⟨xs, ⟨{}, g⟩⟩
    let work := base.session.tally
    out.buffer = base.buffer ∧ out.session.generator = base.session.generator ∧
      out.session.tally =
        { comparisons := t.comparisons + work.comparisons
          swaps := t.swaps + work.swaps
          partitions := t.partitions + work.partitions
          maxDepth := max t.maxDepth work.maxDepth } ∧
      (cfg.pivot ≠ .random → ∀ g' : Generator,
        sortSegment cfg s ⟨xs, ⟨t, g'⟩⟩ = ⟨out.buffer, ⟨out.session.tally, g'⟩⟩) := by
  intro out base work
  have hm : Matched cfg.pivot s ⟨xs, ⟨{}, g⟩⟩ ⟨xs, ⟨t, g⟩⟩ := ⟨.refl s xs, fun _ => rfl⟩
  obtain ⟨σ, w, hbase, hout⟩ := (sortSegment_lockstep cfg hm).moves
  refine ⟨hout.rearranges.unique hbase.rearranges, generator_sortSegment_eq cfg hm rfl,
    tally_sortSegment cfg s xs t g, ?_⟩
  intro hrule g'
  exact sortSegment_of_ne_random hrule s xs t g g'

/-- Medians of three on an explicit stack, after a sort that did more work at a greater depth. -/
theorem sort_adds_its_work_median :
    let cfg : Config := ⟨.medianOfThree, .workStack⟩
    let xs : Vector Int32 4 := #v[2, -1, 2, 0]
    let out := sortSegment cfg (.whole 4) ⟨xs, ⟨⟨40, 9, 7, 5⟩, .ofSeed 1⟩⟩
    cfg.pivot ≠ .random ∧
      sortSegment cfg (.whole 4) ⟨xs, ⟨⟨40, 9, 7, 5⟩, .ofSeed 2⟩⟩ =
        ⟨out.buffer, ⟨out.session.tally, .ofSeed 2⟩⟩ := by
  intro cfg xs out
  have hrule : cfg.pivot ≠ .random := by decide
  obtain ⟨-, -, -, hfree⟩ := sort_adds_its_work cfg (.whole 4) xs ⟨40, 9, 7, 5⟩ (.ofSeed 1)
  exact ⟨hrule, hfree hrule (.ofSeed 2)⟩

end Quicksort
