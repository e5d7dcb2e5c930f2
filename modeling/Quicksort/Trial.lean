import Quicksort.Mismatch
import Quicksort.Sort
import Quicksort.Workload

/-
  A trial sorts descending values and checks the result: slot `k` has to hold
  the value `k`. It reports the work, the first slot that is wrong, and a log.

  An event of the log is what happened; its level, its message and its named
  fields are read off it.
-/

namespace Quicksort

def Trial.referenceLength : Nat := 8192

/-- How important an event is. -/
inductive Level where
  | debug
  | info
  | warn
  deriving DecidableEq, Repr

namespace Level

def label : Level → String
  | debug => "DEBUG"
  | info => "INFO"
  | warn => "WARN"

end Level

/-- What happens in a trial. -/
inductive Event where
  /-- A buffer of the given length is about to be sorted. -/
  | started (length : Nat) (cfg : Config)
  /-- The sort has returned. -/
  | sorted (length : Nat)
  /-- The sort took this work. -/
  | worked (tally : Tally)
  /-- Every slot holds its value. -/
  | passed (length : Nat)
  /-- The first wrong slot, and what it holds. -/
  | failed (index : Nat) (value : Int32)
  deriving DecidableEq, Repr

/-- The value of a named field of an event. -/
inductive FieldValue where
  | number (value : Int)
  | text (value : String)
  deriving DecidableEq, Repr

namespace Event

def level : Event → Level
  | started .. | sorted .. | passed .. => .info
  | worked .. => .debug
  | failed .. => .warn

def message : Event → String
  | started .. => "start to sort"
  | sorted .. => "sorted"
  | worked .. => "sort stats"
  | passed .. => "sort is successful"
  | failed .. => "sort is wrong"

def fields : Event → List (String × FieldValue)
  | started length cfg => [("len", .number length), ("params", .text cfg.name)]
  | sorted length | passed length => [("len", .number length)]
  | worked t =>
    [("comparisons", .number t.comparisons), ("swaps", .number t.swaps),
      ("partitions", .number t.partitions), ("max_depth", .number t.maxDepth)]
  | failed index value => [("index", .number index), ("value", .number value.toInt)]

end Event

namespace Trial

/-- What a trial finds. -/
structure Report where
  length : Nat
  tally : Tally
  firstMismatch : Option Nat
  deriving DecidableEq, Repr

/-- Every slot holds its value. -/
def Report.passed (r : Report) : Bool := r.firstMismatch.isNone

/-- The verdict on a sorted buffer. -/
def verdict (xs : Array Int32) : Event :=
  match firstMismatch xs with
  | none => .passed xs.size
  | some k => .failed k (xs.getD k 0)

/-- Sorts `n` descending values and checks the result. -/
def run (n : Nat) (cfg : Config) : Report × List Event :=
  let out := sortAll cfg (descending n)
  ({ length := n, tally := out.tally, firstMismatch := firstMismatch out.buffer },
    [.started n cfg, .sorted n, .worked out.tally, verdict out.buffer])

end Trial

end Quicksort
