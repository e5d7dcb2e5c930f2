import Quicksort.Proofs.Sorting
import Quicksort.Script

/-
  Calls that do nothing.

  A script may ask for ranges that do not fit and for ranges with nothing to
  sort. The first are refused, with an error that names the range and the length
  (`RangeCall.run_of_overruns`); the others are accepted and take no work
  (`RangeCall.run_of_empty`). Both leave the buffer as it is, and every call
  starts a session of its own. So the other calls cannot tell whether an idle
  call was made before them: the transcript of a script without its idle calls
  is the transcript of the whole script without their entries
  (`transcript_busy`).
-/

namespace Quicksort

variable {length : Nat} {xs ys : Array Int32}

/-! ## A call -/

theorem size_sortFresh (cfg : Config) (xs : Array Int32) (s : Segment xs.size) :
    (sortFresh cfg xs s).buffer.size = xs.size := by
  simp only [sortFresh, Vector.size_toArray]

theorem sortFresh_of_size_lt_two (cfg : Config) (xs : Array Int32) {s : Segment xs.size}
    (h : s.size < 2) : sortFresh cfg xs s = { buffer := xs, tally := {} } := by
  simp only [sortFresh, sortSegment_of_size_lt_two cfg _ h]
  rfl

/-- A sort of the slots from `first` to `last`, both included: with a configuration and a
report of the work, or with the default configuration and no report. -/
structure RangeCall where
  first : Nat
  last : Nat
  cfg? : Option Config
  deriving DecidableEq, Repr

namespace RangeCall

def command : RangeCall → Command
  | ⟨first, last, none⟩ => .sort first last
  | ⟨first, last, some cfg⟩ => .sortWith cfg first last

/-- What is replied if the range fits and its sort took the work `t`. -/
def reply (call : RangeCall) (t : Tally) : Reply :=
  match call.cfg? with
  | none => .sorted
  | some _ => .worked t

/-- The range is not empty, and it ends outside a buffer of the given length. -/
def Overruns (call : RangeCall) (length : Nat) : Prop :=
  call.first ≤ call.last ∧ length ≤ call.last

/-- The call is refused, or it has nothing to sort. -/
def Idle (call : RangeCall) (length : Nat) : Prop :=
  call.Overruns length ∨ call.last ≤ call.first

instance (call : RangeCall) (length : Nat) : Decidable (call.Overruns length) :=
  inferInstanceAs (Decidable (call.first ≤ call.last ∧ length ≤ call.last))

instance (call : RangeCall) (length : Nat) : Decidable (call.Idle length) :=
  inferInstanceAs (Decidable (call.Overruns length ∨ call.last ≤ call.first))

/-- The two commands differ in the configuration and in the reply alone. -/
theorem run_command (call : RangeCall) (xs : Array Int32) :
    call.command.run xs =
      match sortWith (call.cfg?.getD {}) xs call.first call.last with
      | .ok out => (call.reply out.tally, out.buffer)
      | .error e => (.refused e, xs) := by
  obtain ⟨first, last, cfg?⟩ := call
  cases cfg? with
  | none =>
    simp only [command, Command.run, sort, Option.getD_none]
    cases sortWith {} xs first last with
    | ok out => rfl
    | error e => rfl
  | some cfg => rfl

theorem run_of_overruns {call : RangeCall} (h : call.Overruns xs.size) :
    call.command.run xs = (.refused ⟨call.first, call.last, xs.size⟩, xs) := by
  have hrange : Segment.ofRange xs.size call.first call.last =
      .error ⟨call.first, call.last, xs.size⟩ :=
    Segment.ofRange_eq_error_iff.mpr ⟨h.1, h.2, rfl⟩
  rw [run_command, sortWith, hrange]
  rfl

theorem run_of_not_overruns {call : RangeCall} (h : ¬ call.Overruns xs.size) :
    ∃ s : Segment xs.size, Segment.ofRange xs.size call.first call.last = .ok s ∧
      call.command.run xs = (call.reply (sortFresh (call.cfg?.getD {}) xs s).tally,
        (sortFresh (call.cfg?.getD {}) xs s).buffer) := by
  cases hrange : Segment.ofRange xs.size call.first call.last with
  | error e =>
    obtain ⟨hle, hlast, -⟩ := Segment.ofRange_eq_error_iff.mp hrange
    exact absurd ⟨hle, hlast⟩ h
  | ok s =>
    refine ⟨s, rfl, ?_⟩
    rw [run_command, sortWith, hrange]
    rfl

theorem run_of_empty {call : RangeCall} (h : ¬ call.Overruns xs.size)
    (hle : call.last ≤ call.first) : call.command.run xs = (call.reply {}, xs) := by
  obtain ⟨s, hrange, hrun⟩ := run_of_not_overruns h
  rw [hrun, sortFresh_of_size_lt_two _ _ (Segment.size_lt_two_of_ofRange hrange hle)]

theorem reply_ne_refused (call : RangeCall) (t : Tally) (e : RangeError) :
    call.reply t ≠ .refused e := by
  simp only [reply]
  cases call.cfg? with
  | none => exact Reply.noConfusion
  | some cfg => exact Reply.noConfusion

theorem refused_iff (call : RangeCall) (xs : Array Int32) (e : RangeError) :
    (call.command.run xs).1 = .refused e ↔
      call.Overruns xs.size ∧ e = ⟨call.first, call.last, xs.size⟩ := by
  by_cases h : call.Overruns xs.size
  · rw [run_of_overruns h]
    constructor
    · intro he
      exact ⟨h, (Reply.refused.inj he).symm⟩
    · rintro ⟨-, rfl⟩
      rfl
  · obtain ⟨s, -, hrun⟩ := run_of_not_overruns h
    rw [hrun]
    constructor
    · intro he
      exact absurd he (call.reply_ne_refused _ e)
    · rintro ⟨hover, -⟩
      exact absurd hover h

theorem unchanged_of_idle {call : RangeCall} (h : call.Idle xs.size) :
    (call.command.run xs).2 = xs := by
  by_cases hover : call.Overruns xs.size
  · rw [run_of_overruns hover]
  · rw [run_of_empty hover (h.resolve_left hover)]

theorem size_run (call : RangeCall) (xs : Array Int32) :
    (call.command.run xs).2.size = xs.size := by
  by_cases h : call.Overruns xs.size
  · rw [run_of_overruns h]
  · obtain ⟨s, -, hrun⟩ := run_of_not_overruns h
    rw [hrun]
    exact size_sortFresh ..

/-- How a call on `xs` that replies `reply` and leaves `ys` has to be answered. -/
structure Answered (call : RangeCall) (xs : Array Int32) (reply : Reply) (ys : Array Int32) :
    Prop where
  refused_iff : ∀ e : RangeError,
    reply = .refused e ↔ call.Overruns xs.size ∧ e = ⟨call.first, call.last, xs.size⟩
  accepted : ¬ call.Overruns xs.size → ∃ t, reply = call.reply t
  empty : ¬ call.Overruns xs.size → call.last ≤ call.first → reply = call.reply {}
  unchanged : call.Idle xs.size → ys = xs

theorem answered (call : RangeCall) (xs : Array Int32) :
    call.Answered xs (call.command.run xs).1 (call.command.run xs).2 where
  refused_iff := call.refused_iff xs
  accepted h := by
    obtain ⟨s, -, hrun⟩ := run_of_not_overruns h
    exact ⟨_, congrArg Prod.fst hrun⟩
  empty h hle := congrArg Prod.fst (run_of_empty h hle)
  unchanged := unchanged_of_idle

end RangeCall

/-! ## Many calls -/

/-- The calls of a script, each with its reply and the buffer after it. -/
def transcript (calls : List RangeCall) (xs : Array Int32) :
    List (RangeCall × Reply × Array Int32) :=
  calls.zip (Script.run (calls.map RangeCall.command) xs)

def bufferAfter (calls : List RangeCall) (xs : Array Int32) : Array Int32 :=
  Script.finalBuffer (calls.map RangeCall.command) xs

/-- The calls that are not refused and have something to sort. -/
def busy (length : Nat) (calls : List RangeCall) : List RangeCall :=
  calls.filter fun call => ¬ call.Idle length

theorem transcript_cons (call : RangeCall) (calls : List RangeCall) (xs : Array Int32) :
    transcript (call :: calls) xs =
      (call, call.command.run xs) :: transcript calls (call.command.run xs).2 := rfl

theorem bufferAfter_cons (call : RangeCall) (calls : List RangeCall) (xs : Array Int32) :
    bufferAfter (call :: calls) xs = bufferAfter calls (call.command.run xs).2 := rfl

theorem map_fst_transcript (calls : List RangeCall) (xs : Array Int32) :
    (transcript calls xs).map Prod.fst = calls := by
  induction calls generalizing xs with
  | nil => rfl
  | cons call calls ih => rw [transcript_cons, List.map_cons, ih]

theorem transcript_append (before after : List RangeCall) (xs : Array Int32) :
    transcript (before ++ after) xs =
      transcript before xs ++ transcript after (bufferAfter before xs) := by
  induction before generalizing xs with
  | nil => rfl
  | cons call before ih =>
    rw [List.cons_append, transcript_cons, ih, transcript_cons, bufferAfter_cons, List.cons_append]

theorem size_bufferAfter (calls : List RangeCall) (xs : Array Int32) :
    (bufferAfter calls xs).size = xs.size := by
  induction calls generalizing xs with
  | nil => rfl
  | cons call calls ih =>
    rw [bufferAfter_cons, ih, call.size_run]

/-- A call stands in the transcript where it stands in the script, with its answer on the
buffer that the calls before it have left. -/
theorem getElem?_transcript (before after : List RangeCall) (call : RangeCall)
    (xs : Array Int32) :
    (transcript (before ++ call :: after) xs)[before.length]? =
      some (call, call.command.run (bufferAfter before xs)) := by
  have hlength : (transcript before xs).length = before.length := by
    rw [← List.length_map Prod.fst, map_fst_transcript]
  rw [transcript_append, transcript_cons, ← hlength,
    List.getElem?_append_right (Nat.le_refl _), Nat.sub_self]
  rfl

/-! ## Without the idle calls -/

theorem busy_cons_of_idle {call : RangeCall} (h : call.Idle length) (calls : List RangeCall) :
    busy length (call :: calls) = busy length calls :=
  List.filter_cons_of_neg (by simpa using h)

theorem busy_cons_of_not_idle {call : RangeCall} (h : ¬ call.Idle length)
    (calls : List RangeCall) : busy length (call :: calls) = call :: busy length calls :=
  List.filter_cons_of_pos (by simpa using h)

theorem transcript_busy (calls : List RangeCall) (h : xs.size = length) :
    bufferAfter (busy length calls) xs = bufferAfter calls xs ∧
      transcript (busy length calls) xs =
        (transcript calls xs).filter fun entry => ¬ entry.1.Idle length := by
  induction calls generalizing xs with
  | nil => exact ⟨rfl, rfl⟩
  | cons call calls ih =>
    rw [transcript_cons, bufferAfter_cons]
    by_cases hidle : call.Idle length
    · -- An idle call hands the buffer on as it is, so the calls after it start there.
      have hsame : (call.command.run xs).2 = xs := RangeCall.unchanged_of_idle (h ▸ hidle)
      rw [busy_cons_of_idle hidle, hsame, List.filter_cons_of_neg (by simpa using hidle)]
      exact ih h
    · obtain ⟨hbuffer, htranscript⟩ := ih ((call.size_run xs).trans h)
      rw [busy_cons_of_not_idle hidle, transcript_cons, bufferAfter_cons,
        List.filter_cons_of_pos (by simpa using hidle)]
      exact ⟨hbuffer, congrArg _ htranscript⟩

/-- In every script of calls, each call is refused exactly if its range is not empty and ends
outside the buffer, the error names the range and the length, and a call that is refused or
has nothing to sort leaves the buffer as it is. All these calls can be left out: the final
buffer and the answers to the other calls stay the same. -/
theorem idle_calls_leave_no_trace (xs : Array Int32) :
    (∀ (before after : List RangeCall) (call : RangeCall),
      let zs := bufferAfter before xs
      zs.size = xs.size ∧ ∃ reply ys,
        (transcript (before ++ call :: after) xs)[before.length]? = some (call, reply, ys) ∧
          call.Answered zs reply ys) ∧
    (∀ calls : List RangeCall,
      bufferAfter (busy xs.size calls) xs = bufferAfter calls xs ∧
        transcript (busy xs.size calls) xs =
          (transcript calls xs).filter fun entry => ¬ entry.1.Idle xs.size) := by
  refine ⟨?_, fun calls => transcript_busy calls rfl⟩
  intro before after call zs
  refine ⟨size_bufferAfter before xs, _, _, getElem?_transcript before after call xs, ?_⟩
  exact call.answered zs

end Quicksort
