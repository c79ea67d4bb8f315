import LineBasic.Number.Binary64

/-!
# Random numbers

Random numbers come from the ChaCha stream cipher with twelve rounds. A seed of 64 bits gives the
key, and the cipher turns the key and a block number into a block of sixteen words; two words make
one random number. A `Generator` is a key and how many numbers have been drawn with it, so a draw is
a function of these two.
-/

namespace LineBasic

namespace Cipher

/-- Sixteen words that are mixed with one another. -/
abbrev Block := Vector UInt32 16

/-- A word turned left. -/
def rotateLeft (x n : UInt32) : UInt32 :=
  (x <<< n) ||| (x >>> (32 - n))

/-- Mixes four words. -/
def quarterRound (a b c d : UInt32) : UInt32 × UInt32 × UInt32 × UInt32 :=
  let a := a + b
  let d := rotateLeft (d ^^^ a) 16
  let c := c + d
  let b := rotateLeft (b ^^^ c) 12
  let a := a + b
  let d := rotateLeft (d ^^^ a) 8
  let c := c + d
  let b := rotateLeft (b ^^^ c) 7
  (a, b, c, d)

/-- Mixes the four words of a block at the given places. -/
def mix (x : Block) (i j k l : Fin 16) : Block :=
  let (a, b, c, d) := quarterRound x[i] x[j] x[k] x[l]
  (((x.set i a).set j b).set k c).set l d

/-- Mixes the columns of a block and then its diagonals. -/
def doubleRound (x : Block) : Block :=
  let x := mix x 0 4 8 12
  let x := mix x 1 5 9 13
  let x := mix x 2 6 10 14
  let x := mix x 3 7 11 15
  let x := mix x 0 5 10 15
  let x := mix x 1 6 11 12
  let x := mix x 2 7 8 13
  mix x 3 4 9 14

/-- The block that the cipher begins with: four constants, the key, the block number and no
nonce. -/
def initial (key : Vector UInt32 8) (number : UInt64) : Block :=
  let constants : Vector UInt32 4 := #v[0x61707865, 0x3320646e, 0x79622d32, 0x6b206574]
  let position : Vector UInt32 4 := #v[number.toUInt32, (number >>> 32).toUInt32, 0, 0]
  constants ++ key ++ position

/-- The block of a key with the given number. -/
def block (key : Vector UInt32 8) (number : UInt64) : Block :=
  let x := initial key number
  (Nat.repeat doubleRound 6 x).zipWith (· + ·) x

/-- The step from one state of the key schedule to the next. -/
def nextState (state : UInt64) : UInt64 :=
  state * 6364136223846793005 + 11634580027462260723

/-- The key word that a state of the key schedule gives. -/
def keyWord (state : UInt64) : UInt32 :=
  let x := (((state >>> 18) ^^^ state) >>> 27).toUInt32
  let r := (state >>> 59).toUInt32
  (x >>> r) ||| (x <<< ((32 - r) % 32))

/-- The key that a seed gives: the words of the eight states after it. -/
def keyOfSeed (seed : UInt64) : Vector UInt32 8 :=
  Vector.ofFn fun i => keyWord (Nat.repeat nextState (i + 1) seed)

end Cipher

/-- A source of random numbers. -/
structure Generator where
  key : Vector UInt32 8
  /-- How many numbers have been drawn. -/
  drawn : Nat
  deriving DecidableEq, Repr

namespace Generator

/-- The generator of a seed. -/
def ofSeed (seed : UInt64) : Generator :=
  ⟨Cipher.keyOfSeed seed, 0⟩

/-- The 64 bits of the draw with the given index: the low word before the high one, eight draws to a
block. -/
def bits (key : Vector UInt32 8) (index : Nat) : UInt64 :=
  let block := Cipher.block key (UInt64.ofNat (index / 8))
  let word (i : Nat) : UInt64 := (block[2 * (index % 8) + i]?.getD 0).toUInt64
  word 0 ||| (word 1 <<< 32)

/-- A number from zero up to one, made of the 53 highest bits. -/
def unit (bits : UInt64) : Float :=
  Number.ofQuotient (bits >>> 11).toNat (1 <<< 53)

/-- Draws a number. -/
def draw (g : Generator) : Float × Generator :=
  (unit (bits g.key g.drawn), { g with drawn := g.drawn + 1 })

end Generator

end LineBasic
