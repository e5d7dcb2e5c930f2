import Quicksort.Generator.ChaCha

/-
  A seeded generator of 32-bit words, and draws from it.

  A key determines an endless sequence of words: the ChaCha blocks 0, 1, 2, …
  one after the other. A generator is a key and a position in that sequence, so
  a draw reads one word and moves on by one.

  `below` draws a number under a bound by multiplication: the upper half of the
  product of a word and the bound. Where the lower half is so large that a finer
  word could carry into the upper half, a second word decides the carry.
  `below_lt` says that the bound is kept, and `below_eq` which number is drawn.
-/

namespace Quicksort

/-- A place in the sequence of words that belongs to a key. -/
structure Generator where
  key : Vector UInt32 8
  /-- How many words have been drawn. -/
  position : Nat
  deriving DecidableEq, Repr

namespace Generator

def word (key : Vector UInt32 8) (position : Nat) : UInt32 :=
  (ChaCha.block key (position / 16))[position % 16]

def next (g : Generator) : UInt32 × Generator :=
  (word g.key g.position, { g with position := g.position + 1 })

/-- One step of the congruential sequence that expands a seed. -/
def expandStep (s : UInt64) : UInt64 := s * 6364136223846793005 + 11634580027462260723

/-- A word of the key, read off a state of the expanding sequence: a xor-shift
of the state, rotated by its topmost bits. -/
def expandWord (s : UInt64) : UInt32 :=
  let x := (((s >>> 18) ^^^ s) >>> 27).toUInt32
  let r := (s >>> 59).toUInt32
  (x >>> r) ||| (x <<< ((32 - r) % 32))

/-- The generator with the given seed, at the start of its sequence. -/
def ofSeed (seed : UInt64) : Generator where
  key := Vector.ofFn fun k : Fin 8 => expandWord (Nat.repeat expandStep (k + 1) seed)
  position := 0

/-- Draws a number below `n`, for `n` from one to the number of words. -/
def below (g : Generator) (n : Nat) : Nat × Generator :=
  let first := g.next
  let upper := first.1.toNat * n / UInt32.size
  let lower := first.1.toNat * n % UInt32.size
  if UInt32.size - n < lower then
    let second := first.2.next
    let carry := if UInt32.size ≤ lower + second.1.toNat * n / UInt32.size then 1 else 0
    (upper + carry, second.2)
  else
    (upper, first.2)

/-- The bound is kept. A carry cannot break it: the product is at most `n * UInt32.size - n`,
so an upper half of `n - 1` leaves a lower half too small for a second draw. -/
theorem below_lt (g : Generator) {n : Nat} (h : 0 < n) : (g.below n).1 < n := by
  have hw : g.next.1.toNat < UInt32.size := g.next.1.toNat_lt_size
  have hp : g.next.1.toNat * n + n ≤ n * UInt32.size := by
    calc g.next.1.toNat * n + n
        = (g.next.1.toNat + 1) * n := by rw [Nat.succ_mul]
      _ ≤ UInt32.size * n := Nat.mul_le_mul_right n hw
      _ = n * UInt32.size := Nat.mul_comm ..
  have hd := Nat.div_add_mod (g.next.1.toNat * n) UInt32.size
  have hm := Nat.mod_lt (g.next.1.toNat * n) (show 0 < UInt32.size by decide)
  simp only [below]
  split
  · simp only [UInt32.size] at *
    split <;> omega
  · simp only [UInt32.size] at *
    omega

/-- A draw is the upper half of the product of the bound and the 64-bit number that two words
make. Where the second word is not drawn, no word could carry. -/
theorem below_eq (g : Generator) {n : Nat} (h : 0 < n) (hn : n ≤ UInt32.size) :
    (g.below n).1 =
      (g.next.1.toNat * UInt32.size + g.next.2.next.1.toNat) * n / UInt32.size / UInt32.size := by
  have hw : g.next.2.next.1.toNat < UInt32.size := g.next.2.next.1.toNat_lt_size
  have hp : g.next.2.next.1.toNat * n < UInt32.size * n := Nat.mul_lt_mul_of_pos_right hw h
  have hsplit : (g.next.1.toNat * UInt32.size + g.next.2.next.1.toNat) * n =
      g.next.1.toNat * n * UInt32.size + g.next.2.next.1.toNat * n := by
    rw [Nat.add_mul, Nat.mul_right_comm]
  rw [hsplit]
  simp only [below, UInt32.size] at *
  split
  · split <;> omega
  · omega

/-- Draws a slot offset of a range of `n` slots. -/
def belowFin (g : Generator) (n : Nat) (h : 0 < n) : Fin n × Generator :=
  (⟨(g.below n).1, g.below_lt h⟩, (g.below n).2)

/-- Draws a signed number from the whole 32-bit range. -/
def int32 (g : Generator) : Int32 × Generator :=
  (g.next.1.toInt32, g.next.2)

/-- Repeats a draw `count` times and collects the results in order. -/
def collect {α : Type} (draw : Generator → α × Generator) (count : Nat) (g : Generator) :
    Array α × Generator :=
  count.fold (fun _ _ (xs, g) => let (x, g) := draw g; (xs.push x, g)) (#[], g)

end Generator

end Quicksort
