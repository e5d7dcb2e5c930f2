/-
  The ChaCha block function with twelve rounds.

  A state is sixteen 32-bit words. A quarter round mixes four of them by
  addition, exclusive or and rotation; a double round mixes the four columns
  and then the four diagonals. A block is the sum of a starting state and the
  same state after six double rounds.
-/

namespace Quicksort.ChaCha

/-- The sixteen words of a state, row by row. -/
abbrev Words := Vector UInt32 16

/-- Rotates a word left by `k` bits, for `0 < k < 32`. -/
def rotateLeft (x k : UInt32) : UInt32 := (x <<< k) ||| (x >>> (32 - k))

/-- One quarter round on the words `a`, `b`, `c`, `d`. -/
def quarterRound (w : Words) (a b c d : Fin 16) : Words :=
  let w := w.set a (w[a] + w[b])
  let w := w.set d (rotateLeft (w[d] ^^^ w[a]) 16)
  let w := w.set c (w[c] + w[d])
  let w := w.set b (rotateLeft (w[b] ^^^ w[c]) 12)
  let w := w.set a (w[a] + w[b])
  let w := w.set d (rotateLeft (w[d] ^^^ w[a]) 8)
  let w := w.set c (w[c] + w[d])
  w.set b (rotateLeft (w[b] ^^^ w[c]) 7)

/-- The columns, then the diagonals. -/
def doubleRound (w : Words) : Words :=
  let w := quarterRound w 0 4 8 12
  let w := quarterRound w 1 5 9 13
  let w := quarterRound w 2 6 10 14
  let w := quarterRound w 3 7 11 15
  let w := quarterRound w 0 5 10 15
  let w := quarterRound w 1 6 11 12
  let w := quarterRound w 2 7 8 13
  quarterRound w 3 4 9 14

/-- The starting state: four fixed words, the key, the block number as a 64-bit
number with its low word first, and two zero words. -/
def start (key : Vector UInt32 8) (block : Nat) : Words :=
  #v[0x61707865, 0x3320646e, 0x79622d32, 0x6b206574,
     key[0], key[1], key[2], key[3], key[4], key[5], key[6], key[7],
     block.toUInt32, (block / UInt32.size).toUInt32, 0, 0]

/-- The output words of the block with the given number. -/
def block (key : Vector UInt32 8) (number : Nat) : Words :=
  let w := start key number
  w.zipWith (· + ·) (Nat.repeat doubleRound 6 w)

end Quicksort.ChaCha
