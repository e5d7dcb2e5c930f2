/-
  How long a sort is measured for: small inputs take more and shorter samples.
-/

namespace Quicksort

/-- The number of samples, and the times in milliseconds to warm up and to measure. -/
structure Sampling where
  samples : Nat
  warmUp : Nat
  measurement : Nat
  deriving DecidableEq, Repr

namespace Sampling

def small : Sampling where
  samples := 15
  warmUp := 100
  measurement := 200

def large : Sampling where
  samples := 10
  warmUp := 300
  measurement := 1500

/-- The greatest length of a small input. -/
def smallLimit : Nat := 4096

def forLength (length : Nat) : Sampling := if length ≤ smallLimit then small else large

def lengths : List Nat := [1024, 4096, 8192]

end Sampling

end Quicksort
