import Quicksort.Proofs.Cost

/-
  Counters only go up.

  What the counters show at some moment of a sort is said by following the sort
  from call to call: the cursors of a scan count one comparison at a time
  (`Scan.Shows`), a split picks a pivot, places it and scans (`ShowsInSplit`),
  and a schedule splits and goes on with the sides (`ShowsInCall`, `Agenda.Shows`).
  Nothing is ever taken back, so no counter shows more than at the end of the sort
  (`Shows.atMost`). A bound on the work of a whole sort is a bound at every moment
  of it.
-/

namespace Quicksort

variable {n : Nat} {rule : PivotRule} {s : Segment n} {pivot : Int32} {depth : Nat}
  {st st' : State n} {t u v : Tally}

/-- No counter of `t` is greater than that of `u`. -/
structure Tally.AtMost (t u : Tally) : Prop where
  comparisons : t.comparisons ≤ u.comparisons
  swaps : t.swaps ≤ u.swaps
  partitions : t.partitions ≤ u.partitions
  maxDepth : t.maxDepth ≤ u.maxDepth

namespace Tally.AtMost

theorem refl (t : Tally) : t.AtMost t :=
  ⟨Nat.le_refl _, Nat.le_refl _, Nat.le_refl _, Nat.le_refl _⟩

theorem trans (h : t.AtMost u) (h' : u.AtMost v) : t.AtMost v where
  comparisons := Nat.le_trans h.comparisons h'.comparisons
  swaps := Nat.le_trans h.swaps h'.swaps
  partitions := Nat.le_trans h.partitions h'.partitions
  maxDepth := Nat.le_trans h.maxDepth h'.maxDepth

theorem of_eq_add {w : Tally} (h : u = t + w) : t.AtMost u := by
  subst h
  exact ⟨Nat.le_add_right .., Nat.le_add_right .., Nat.le_add_right .., Nat.le_max_left ..⟩

theorem of_comparisons_le {m : Nat} (h : t.AtMost u) (hm : m ≤ u.comparisons) :
    Tally.AtMost { t with comparisons := m } u :=
  ⟨hm, h.swaps, h.partitions, h.maxDepth⟩

end Tally.AtMost

/-! ## A scan -/

namespace Scan

/-- The tally shows at some moment of the scan. -/
inductive Shows : Scan s pivot → Tally → Prop
  /-- The cursors of a round count one comparison after the other. -/
  | count {c : Scan s pivot} {m : Nat} (hover : ¬ c.Over) (hlo : c.tally.comparisons ≤ m)
      (hhi : m ≤ (c.rightStop c.leftStop.2).2) : Shows c { c.tally with comparisons := m }
  | next {c : Scan s pivot} {t : Tally} (hover : ¬ c.Over) (ht : Shows c.round t) : Shows c t
  | ended {c : Scan s pivot} (hover : c.Over) : Shows c c.tally

theorem atMost_round (c : Scan s pivot) : c.tally.AtMost c.round.tally := by
  have hup := c.count_leftStop
  have hdown := c.count_rightStop c.leftStop.2
  have hleft : c.left ≤ c.leftStop.1 := le_climb
  have hright : (c.rightStop c.leftStop.2).1 ≤ c.right := descend_le
  have hle : c.tally.comparisons ≤ (c.rightStop c.leftStop.2).2 := by omega
  obtain ⟨-, -, ⟨-, -, -, -, ht⟩ | ⟨-, -, ht⟩⟩ := c.round_cases rfl rfl
  · rw [ht]
    exact ⟨hle, Nat.le_succ _, Nat.le_refl _, Nat.le_refl _⟩
  · rw [ht]
    exact ⟨hle, Nat.le_refl _, Nat.le_refl _, Nat.le_refl _⟩

theorem atMost_run (c : Scan s pivot) : c.tally.AtMost c.run.tally := by
  fun_induction Scan.run c with
  | case1 c hover => exact .refl _
  | case2 c hover ih => exact c.atMost_round.trans ih

theorem comparisons_round (c : Scan s pivot) :
    c.round.tally.comparisons = (c.rightStop c.leftStop.2).2 := by
  obtain ⟨-, -, ⟨-, -, -, -, ht⟩ | ⟨-, -, ht⟩⟩ := c.round_cases rfl rfl
  · rw [ht]
    rfl
  · rw [ht]
    rfl

theorem Shows.atMost {c : Scan s pivot} (h : c.Shows t) : t.AtMost c.run.tally := by
  induction h with
  | @count c m hover hlo hhi =>
    rw [Scan.run, if_neg hover]
    apply Tally.AtMost.trans _ c.round.atMost_run
    apply c.atMost_round.of_comparisons_le
    rwa [c.comparisons_round]
  | next hover ht ih =>
    rw [Scan.run, if_neg hover]
    exact ih
  | ended hover =>
    rw [Scan.run, if_pos hover]
    exact .refl _

end Scan

/-! ## A split -/

/-- The tally shows at some moment while the segment is split. -/
inductive ShowsInSplit (rule : PivotRule) (s : Segment n) (h : 2 ≤ s.size) (st : State n) :
    Tally → Prop
  /-- A median counts its comparisons. -/
  | pick {m : Nat} (hlo : st.session.tally.comparisons ≤ m)
      (hhi : m ≤ (placePivot rule s st).session.tally.comparisons) :
      ShowsInSplit rule s h st { st.session.tally with comparisons := m }
  | placed : ShowsInSplit rule s h st (placePivot rule s st).session.tally
  | scan {t : Tally} (ht : (Scan.start (placePivot rule s st).buffer s (Nat.zero_lt_of_lt h)
      (placePivot rule s st).session.tally.addPartition).Shows t) : ShowsInSplit rule s h st t
  | done : ShowsInSplit rule s h st (split rule s h st).2.session.tally

theorem scanned_atMost_partition (h : 0 < s.size) (st : State n) :
    (scanned s h st).tally.AtMost (partition s h st).2.session.tally := by
  obtain ⟨-, -, ⟨-, -, ht⟩ | ⟨-, -, -, ht⟩⟩ := partition_cases h st rfl
  · rw [ht]
    exact .refl _
  · rw [ht]
    exact .of_eq_add (Tally.addSwap_eq _)

theorem ShowsInSplit.atMost {h : 2 ≤ s.size} (ht : ShowsInSplit rule s h st t) :
    t.AtMost (split rule s h st).2.session.tally := by
  have hpos : 0 < s.size := Nat.zero_lt_of_lt h
  obtain ⟨a, -, b, -, hpick⟩ := placePivot_work rule hpos st
  have hpartition : (placePivot rule s st).session.tally.AtMost
      (split rule s h st).2.session.tally := by
    obtain ⟨c, st', hs⟩ : ∃ c st', split rule s h st = (c, st') := ⟨_, _, rfl⟩
    obtain ⟨k, -, -, hwork⟩ := partition_work h hs
    rw [hs]
    exact .of_eq_add hwork
  cases ht with
  | pick hlo hhi =>
    have hplace : st.session.tally.AtMost (placePivot rule s st).session.tally := .of_eq_add hpick
    exact (hplace.of_comparisons_le hhi).trans hpartition
  | placed => exact hpartition
  | scan ht => exact ht.atMost.trans (scanned_atMost_partition hpos (placePivot rule s st))
  | done => exact .refl _

theorem atMost_split (rule : PivotRule) (s : Segment n) (h : 2 ≤ s.size) (depth : Nat)
    (st : State n) :
    st.session.tally.AtMost (split rule s h (st.reach depth)).2.session.tally := by
  obtain ⟨c, st', hs⟩ : ∃ c st', split rule s h (st.reach depth) = (c, st') := ⟨_, _, rfl⟩
  obtain ⟨w, -, hw⟩ := split_work hs
  have hreach : st.session.tally.AtMost (st.reach depth).session.tally :=
    .of_eq_add (Tally.reach_eq _ depth)
  rw [hs]
  exact hreach.trans (.of_eq_add hw)

/-! ## The recursive schedules -/

/-- A side of a cut, and the depth at which it is sorted. -/
abbrev Nested (n : Nat) : Type := Nat × Segment n

/-- The sides of a cut in the order in which a sort at the given depth takes them. -/
abbrev SideOrder (n : Nat) : Type := Nat → (s : Segment n) → Cut s → Nested n × Nested n

/-- Both sides are nested. -/
def SideOrder.leftThenRight : SideOrder n :=
  fun depth _ c => ((depth + 1, c.left), (depth + 1, c.right))

/-- Only the smaller side is nested. -/
def SideOrder.smallerThenLarger : SideOrder n := fun depth _ c =>
  if c.left.size < c.right.size then ((depth + 1, c.left), (depth, c.right))
  else ((depth + 1, c.right), (depth, c.left))

/-- A sort that splits, then sorts the sides in the given order. -/
structure Recurs (rule : PivotRule) (order : SideOrder n)
    (sort : Nat → Segment n → State n → State n) : Prop where
  of_split : ∀ {depth : Nat} {s : Segment n} {st st' : State n} {h : 2 ≤ s.size} {c : Cut s},
    split rule s h (st.reach depth) = (c, st') →
    sort depth s st = sort (order depth s c).2.1 (order depth s c).2.2
      (sort (order depth s c).1.1 (order depth s c).1.2 st')
  atMost : ∀ (depth : Nat) (s : Segment n) (st : State n),
    st.session.tally.AtMost (sort depth s st).session.tally

theorem recurs_sortLeftFirst (rule : PivotRule) :
    Recurs rule (.leftThenRight : SideOrder n) (sortLeftFirst rule) where
  of_split {depth s st st' h c} hs := by
    rw [sortLeftFirst, dif_pos h, hs]
    rfl
  atMost depth s st := by
    obtain ⟨o, -, ht⟩ := sortLeftFirst_outline rule depth s st
    exact .of_eq_add ht

theorem recurs_sortSmallerFirst (rule : PivotRule) :
    Recurs rule (.smallerThenLarger : SideOrder n) (sortSmallerFirst rule) where
  of_split {depth s st st' h c} hs := by
    by_cases hlt : c.left.size < c.right.size
    · simp only [SideOrder.smallerThenLarger, if_pos hlt]
      exact sortSmallerFirst_of_left_smaller h hs hlt
    · simp only [SideOrder.smallerThenLarger, if_neg hlt]
      exact sortSmallerFirst_of_right_smaller h hs hlt
  atMost depth s st := by
    obtain ⟨o, -, ht⟩ := sortSmallerFirst_outline rule depth s st
    exact .of_eq_add ht

/-- The tally shows at some moment of a sort that recurs. -/
inductive ShowsInCall (rule : PivotRule) (order : SideOrder n)
    (sort : Nat → Segment n → State n → State n) : Nat → Segment n → State n → Tally → Prop
  | enter {depth : Nat} {s : Segment n} {st : State n} :
      ShowsInCall rule order sort depth s st st.session.tally
  | split {depth : Nat} {s : Segment n} {st : State n} {t : Tally} (h : 2 ≤ s.size)
      (ht : ShowsInSplit rule s h (st.reach depth) t) : ShowsInCall rule order sort depth s st t
  | first {depth : Nat} {s : Segment n} {st st' : State n} {c : Cut s} {t : Tally} (h : 2 ≤ s.size)
      (hs : split rule s h (st.reach depth) = (c, st'))
      (ht : ShowsInCall rule order sort (order depth s c).1.1 (order depth s c).1.2 st' t) :
      ShowsInCall rule order sort depth s st t
  | second {depth : Nat} {s : Segment n} {st st' : State n} {c : Cut s} {t : Tally}
      (h : 2 ≤ s.size) (hs : split rule s h (st.reach depth) = (c, st'))
      (ht : ShowsInCall rule order sort (order depth s c).2.1 (order depth s c).2.2
        (sort (order depth s c).1.1 (order depth s c).1.2 st') t) :
      ShowsInCall rule order sort depth s st t

theorem ShowsInCall.atMost {order : SideOrder n} {sort : Nat → Segment n → State n → State n}
    (hr : Recurs rule order sort) (h : ShowsInCall rule order sort depth s st t) :
    t.AtMost (sort depth s st).session.tally := by
  induction h with
  | enter => exact hr.atMost ..
  | split h ht =>
    rw [hr.of_split (h := h) rfl]
    exact ht.atMost.trans ((hr.atMost ..).trans (hr.atMost ..))
  | first h hs ht ih =>
    rw [hr.of_split hs]
    exact ih.trans (hr.atMost ..)
  | second h hs ht ih =>
    rw [hr.of_split hs]
    exact ih

/-! ## The explicit stack -/

namespace Agenda

/-- The tally shows at some moment while the agenda is worked off. -/
inductive Shows (rule : PivotRule) : Agenda n → Tally → Prop
  | here {a : Agenda n} : Shows rule a a.state.session.tally
  | split {a : Agenda n} {t : Tally} (h : 2 ≤ a.current.size)
      (ht : ShowsInSplit rule a.current h (a.state.reach (a.pending.length + 1)) t) :
      Shows rule a t
  | step {a : Agenda n} {t : Tally} (hd : ¬ a.Done) (ht : Shows rule (a.step rule) t) :
      Shows rule a t

theorem state_step_of_two_le (rule : PivotRule) (a : Agenda n) (h : 2 ≤ a.current.size) :
    (a.step rule).state =
      (Quicksort.split rule a.current h (a.state.reach (a.pending.length + 1))).2 := by
  simp only [step, dif_pos h, descendInto]
  split <;> rfl

theorem state_step_of_lt_two (rule : PivotRule) (a : Agenda n) (h : ¬ 2 ≤ a.current.size) :
    (a.step rule).state = a.state := by
  simp only [step, dif_neg h]
  split <;> rfl

theorem atMost_step (rule : PivotRule) (a : Agenda n) :
    a.state.session.tally.AtMost (a.step rule).state.session.tally := by
  by_cases h : 2 ≤ a.current.size
  · rw [state_step_of_two_le rule a h]
    exact atMost_split ..
  · rw [state_step_of_lt_two rule a h]
    exact .refl _

theorem atMost_run (rule : PivotRule) (a : Agenda n) :
    a.state.session.tally.AtMost (a.run rule).session.tally := by
  fun_induction Agenda.run rule a with
  | case1 a hd => exact .refl _
  | case2 a hd ih => exact (a.atMost_step rule).trans ih

theorem Shows.atMost {a : Agenda n} (h : a.Shows rule t) : t.AtMost (a.run rule).session.tally := by
  induction h with
  | here => exact atMost_run ..
  | @split a t h ht =>
    have hd : ¬ a.Done := fun hd => Nat.not_lt.mpr h hd.1
    rw [Agenda.run, if_neg hd]
    apply Tally.AtMost.trans _ (atMost_run ..)
    rw [state_step_of_two_le rule a h]
    exact ht.atMost
  | step hd ht ih =>
    rw [Agenda.run, if_neg hd]
    exact ih

end Agenda

/-! ## A sort -/

/-- The tally shows at some moment of the sort. -/
def Shows (cfg : Config) (s : Segment n) (st : State n) (t : Tally) : Prop :=
  match cfg.schedule with
  | .leftFirst => ShowsInCall cfg.pivot .leftThenRight (sortLeftFirst cfg.pivot) 1 s st t
  | .smallerFirst => ShowsInCall cfg.pivot .smallerThenLarger (sortSmallerFirst cfg.pivot) 1 s st t
  | .workStack => Agenda.Shows cfg.pivot ⟨st, s, []⟩ t

/-- No counter ever shows more than at the end. -/
theorem Shows.atMost {cfg : Config} (h : Shows cfg s st t) :
    t.AtMost (sortSegment cfg s st).session.tally := by
  obtain ⟨rule, schedule⟩ := cfg
  cases schedule with
  | leftFirst => exact ShowsInCall.atMost (recurs_sortLeftFirst rule) h
  | smallerFirst => exact ShowsInCall.atMost (recurs_sortSmallerFirst rule) h
  | workStack => exact Agenda.Shows.atMost h

end Quicksort
