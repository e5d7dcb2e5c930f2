import Quicksort.Split

/-
  The schedule with an explicit stack.

  An agenda holds the segment that is worked on and the segments that still
  wait. A step splits the current segment, goes on with its smaller side and
  lets the larger wait (of two sides of equal size the left one waits); when the
  current segment has fewer than two values, the last one that was put aside
  takes its place. The depth of a split is one more than the number of segments
  that wait.

  A split takes the pivot's slot off the agenda and makes one more segment wait.
  Taking up a waiting segment adds no slot and makes one fewer wait. So every
  step makes the weight smaller, twice the slots that are left and the number of
  segments that wait, and the steps end.
-/

namespace Quicksort

variable {n : Nat}

/-- The state of the sort and the segments that are left to sort. -/
structure Agenda (n : Nat) where
  state : State n
  current : Segment n
  /-- The segments that wait, the last one put aside at the front. -/
  pending : List (Segment n)
  deriving DecidableEq, Repr

namespace Agenda

/-- The number of slots in the current and the waiting segments. -/
def load (a : Agenda n) : Nat :=
  (a.current :: a.pending).foldr (fun s total => s.size + total) 0

def Done (a : Agenda n) : Prop := a.current.size < 2 ∧ a.pending = []

instance (a : Agenda n) : Decidable a.Done :=
  inferInstanceAs (Decidable (a.current.size < 2 ∧ a.pending = []))

/-- Goes on with the smaller side of a cut and puts the larger aside. -/
def descendInto {s : Segment n} (cut : Cut s) (st : State n) (pending : List (Segment n)) :
    Agenda n :=
  if cut.left.size < cut.right.size then ⟨st, cut.left, cut.right :: pending⟩
  else ⟨st, cut.right, cut.left :: pending⟩

/-- One step: split the current segment, or take up the last one that was put aside. -/
def step (rule : PivotRule) (a : Agenda n) : Agenda n :=
  if h : 2 ≤ a.current.size then
    let r := split rule a.current h (a.state.reach (a.pending.length + 1))
    descendInto r.1 r.2 a.pending
  else
    match a.pending with
    | [] => a
    | next :: rest => { a with current := next, pending := rest }

theorem load_descendInto {s : Segment n} (cut : Cut s) (st st' : State n)
    (pending : List (Segment n)) :
    (descendInto cut st pending).load + 1 = load ⟨st', s, pending⟩ := by
  have := cut.size_left_add_size_right
  simp only [descendInto]
  split <;> simp only [load, List.foldr_cons] <;> omega

theorem length_pending_descendInto {s : Segment n} (cut : Cut s) (st : State n)
    (pending : List (Segment n)) :
    (descendInto cut st pending).pending.length = pending.length + 1 := by
  simp only [descendInto]
  split <;> rfl

/-- A split takes one slot, the pivot's, off the agenda. -/
theorem load_step_of_two_le (rule : PivotRule) (a : Agenda n) (h : 2 ≤ a.current.size) :
    (a.step rule).load + 1 = a.load := by
  simp only [step, dif_pos h]
  exact load_descendInto ..

theorem length_pending_step_of_two_le (rule : PivotRule) (a : Agenda n)
    (h : 2 ≤ a.current.size) :
    (a.step rule).pending.length = a.pending.length + 1 := by
  simp only [step, dif_pos h]
  exact length_pending_descendInto ..

theorem load_step_of_lt_two (rule : PivotRule) (a : Agenda n) (h : ¬ 2 ≤ a.current.size)
    (hd : ¬ a.Done) :
    (a.step rule).load ≤ a.load ∧ (a.step rule).pending.length < a.pending.length := by
  simp only [step, dif_neg h]
  cases hp : a.pending with
  | nil => exact absurd ⟨Nat.lt_of_not_le h, hp⟩ hd
  | cons next rest => simp [load, hp]

/-- Twice the slots that are left and the number of segments that wait. -/
def weight (a : Agenda n) : Nat := 2 * a.load + a.pending.length

/-- A split takes off two and adds one; any other step takes off one at least. -/
theorem weight_step_lt (rule : PivotRule) (a : Agenda n) (hd : ¬ a.Done) :
    (a.step rule).weight < a.weight := by
  simp only [weight]
  by_cases h : 2 ≤ a.current.size
  · have := a.load_step_of_two_le rule h
    have := a.length_pending_step_of_two_le rule h
    omega
  · have := a.load_step_of_lt_two rule h hd
    omega

def run (rule : PivotRule) (a : Agenda n) : State n :=
  if a.Done then a.state else (a.step rule).run rule
termination_by a.weight
decreasing_by exact a.weight_step_lt rule ‹_›

end Agenda

/-- Sorts a segment with the sides that wait on an explicit stack. -/
def sortWorkStack (rule : PivotRule) (s : Segment n) (st : State n) : State n :=
  Agenda.run rule ⟨st, s, []⟩

end Quicksort
