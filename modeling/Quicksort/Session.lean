import Quicksort.Generator.Basic
import Quicksort.Segment
import Quicksort.Tally

/-
  What a sort carries along: the work counters, the generator that random
  pivots are drawn from, and the buffer.

  A session can be kept over several sorts. Then its counters add up and its
  draws go on where they stopped. Every sort of the public interface starts a
  fresh session, so equal calls give equal answers.
-/

namespace Quicksort

/-- The work done and the generator, over one or more sorts. -/
structure Session where
  tally : Tally
  generator : Generator
  deriving DecidableEq, Repr

namespace Session

def pivotSeed : UInt64 := 0x5EED2026

/-- No work done, no number drawn. -/
def fresh : Session where
  tally := {}
  generator := .ofSeed pivotSeed

def reach (se : Session) (depth : Nat) : Session := { se with tally := se.tally.reach depth }

end Session

/-- A buffer of `n` values and the session that works on it. -/
structure State (n : Nat) where
  buffer : Vector Int32 n
  session : Session
  deriving DecidableEq, Repr

def State.reach {n : Nat} (st : State n) (depth : Nat) : State n :=
  { st with session := st.session.reach depth }

end Quicksort
