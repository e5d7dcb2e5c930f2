import Quicksort.Mismatch
import Quicksort.Sort

/-
  Scripts: commands carried out one after the other on one buffer.

  A sort of a range that does not fit is refused; the buffer is then left as it
  is, and the script goes on.
-/

namespace Quicksort

/-- A command on a buffer. -/
inductive Command where
  /-- Writes a value to a slot. -/
  | set (index : Nat) (value : Int32)
  /-- Adds a value at the end. -/
  | push (value : Int32)
  /-- Removes the last value, if there is one. -/
  | pop
  /-- Turns the order round. -/
  | reverse
  /-- Asks for the first slot `k` whose value is not `k`. -/
  | firstMismatch
  /-- Sorts a range with the default configuration. -/
  | sort (first last : Nat)
  /-- Sorts a range and asks for the work. -/
  | sortWith (cfg : Config) (first last : Nat)
  /-- Sorts the whole buffer and asks for the work. -/
  | sortAll (cfg : Config)
  deriving DecidableEq, Repr

/-- What a command answers, the buffer apart. -/
inductive Reply where
  /-- The buffer was edited. -/
  | edited
  /-- The first slot whose value is wrong. -/
  | mismatch (index : Option Nat)
  /-- The range is sorted. -/
  | sorted
  /-- The sort took this work. -/
  | worked (tally : Tally)
  /-- The range does not fit, and nothing was done. -/
  | refused (error : RangeError)
  deriving DecidableEq, Repr

namespace Command

/-- Carries out one command: its reply, and the buffer afterwards. -/
def run : Command → Array Int32 → Reply × Array Int32
  | set index value, xs => (.edited, xs.setIfInBounds index value)
  | push value, xs => (.edited, xs.push value)
  | pop, xs => (.edited, xs.pop)
  | reverse, xs => (.edited, xs.reverse)
  | firstMismatch, xs => (.mismatch (Quicksort.firstMismatch xs), xs)
  | sort first last, xs =>
    match Quicksort.sort xs first last with
    | .ok ys => (.sorted, ys)
    | .error e => (.refused e, xs)
  | sortWith cfg first last, xs =>
    match Quicksort.sortWith cfg xs first last with
    | .ok out => (.worked out.tally, out.buffer)
    | .error e => (.refused e, xs)
  | sortAll cfg, xs =>
    let out := Quicksort.sortAll cfg xs
    (.worked out.tally, out.buffer)

end Command

/-- Commands in the order in which they are carried out. -/
abbrev Script := List Command

namespace Script

/-- The reply to each command, with the buffer after it. -/
def run : Script → Array Int32 → List (Reply × Array Int32)
  | [], _ => []
  | c :: cs, xs =>
    let (reply, xs) := c.run xs
    (reply, xs) :: run cs xs

def finalBuffer (cs : Script) (xs : Array Int32) : Array Int32 :=
  cs.foldl (fun xs c => (c.run xs).2) xs

end Script

end Quicksort
