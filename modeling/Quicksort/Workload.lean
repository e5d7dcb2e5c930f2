import Quicksort.Generator.Basic

/-
  Data to sort: drawn from a generator, or descending.

  Drawn data goes on from the generator it is given, so several draws in a row
  make one sequence. A named data set starts a generator of its own and depends
  on its length alone.
-/

namespace Quicksort

/-- The values `n - 1, …, 1, 0`. What is too large for a value is the largest value. -/
def descending (n : Nat) : Array Int32 :=
  Array.ofFn fun k : Fin n => Int32.ofNat (min (n - 1 - k) Int32.maxValue.toNatClampNeg)

@[simp] theorem size_descending (n : Nat) : (descending n).size = n := by
  simp [descending]

/-- How data is drawn from a generator. -/
inductive Recipe where
  /-- Numbers from the whole 32-bit range. -/
  | uniform (length : Nat)
  /-- Numbers from `0` up to but not including `distinct`, so that most of them repeat. -/
  | fewDistinct (length : Nat) (distinct : Int32)
  deriving DecidableEq, Repr

namespace Recipe

/-- Draws one number below `distinct`. -/
def drawKey (distinct : Int32) (g : Generator) : Int32 × Generator :=
  ((Int32.ofNat (g.below distinct.toNatClampNeg).1), (g.below distinct.toNatClampNeg).2)

/-- Draws the data. With no number to choose from all values are zero and nothing is drawn. -/
def draw : Recipe → Generator → Array Int32 × Generator
  | uniform length, g => g.collect Generator.int32 length
  | fewDistinct length distinct, g =>
    if distinct ≤ 0 then (Array.replicate length 0, g)
    else g.collect (drawKey distinct) length

/-- Draws data by one recipe after the other. -/
def drawAll : List Recipe → Generator → List (Array Int32) × Generator
  | [], g => ([], g)
  | r :: rs, g =>
    let (xs, g) := r.draw g
    let (xss, g) := drawAll rs g
    (xs :: xss, g)

end Recipe

/-- The named kinds of data. -/
inductive Distribution where
  | descending
  | uniform
  | fewDistinct
  deriving DecidableEq, Repr

namespace Distribution

def label : Distribution → String
  | descending => "descending"
  | uniform => "random_uniform"
  | fewDistinct => "few_distinct"

def all : List Distribution := [descending, uniform, fewDistinct]

def ofLabel? (label : String) : Option Distribution := all.find? (·.label == label)

theorem ofLabel?_label (d : Distribution) : ofLabel? d.label = some d := by
  cases d <;> decide

end Distribution

namespace Workload

def seed : UInt64 := 0x5EED2026

def generator : Generator := .ofSeed seed

/-- How many different numbers a data set with few distinct values is drawn from. -/
def distinctKeys : Int32 := 16

/-- The data set of a kind and a length. -/
def dataset (d : Distribution) (length : Nat) : Array Int32 :=
  match d with
  | .descending => Quicksort.descending length
  | .uniform => ((Recipe.uniform length).draw generator).1
  | .fewDistinct => ((Recipe.fewDistinct length distinctKeys).draw generator).1

end Workload

end Quicksort
