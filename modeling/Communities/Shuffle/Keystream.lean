/-!
# Keystreams

A reproducible sequence of 32-bit words: the output of ChaCha with twenty rounds, under a key that
is grown from a 64-bit seed, with the blocks counted from zero.

* `expandSeed` grows the key: eight steps of a congruential generator, each folded to 32 bits.
* `Keystream.block` is one block of sixteen words.
* `Keystream.next` draws the next word.
-/

namespace Communities

/-- A word rotated to the left. -/
def rotateLeft (w n : UInt32) : UInt32 := (w <<< n) ||| (w >>> (32 - n))

/-- A word rotated to the right. -/
def rotateRight (w n : UInt32) : UInt32 := (w >>> n) ||| (w <<< (32 - n))

/-- The words that a key is made of. -/
abbrev Key := Vector UInt32 8

/-- One step of the generator that grows a key from a seed. -/
def stepSeed (s : UInt64) : UInt64 := s * 6364136223846793005 + 11634580027462260723

/-- A state of that generator folded to 32 bits and rotated to the right by its five top bits. -/
def foldSeed (s : UInt64) : UInt32 :=
  let folded := (((s >>> 18) ^^^ s) >>> 27).toUInt32
  rotateRight folded (s >>> 59).toUInt32

/-- The key of a seed. -/
def expandSeed (seed : UInt64) : Key :=
  .ofFn fun i => foldSeed (Nat.repeat stepSeed (i + 1) seed)

/-- The state that a block is computed in. -/
abbrev Block := Vector UInt32 16

/-- The words that every block starts with. -/
def blockConstants : Vector UInt32 4 := #v[0x61707865, 0x3320646e, 0x79622d32, 0x6b206574]

/-- One quarter round on four words of a block. -/
def quarterRound (b : Block) (i j k l : Fin 16) : Block :=
  let b := b.set i (b[i] + b[j])
  let b := b.set l (rotateLeft (b[l] ^^^ b[i]) 16)
  let b := b.set k (b[k] + b[l])
  let b := b.set j (rotateLeft (b[j] ^^^ b[k]) 12)
  let b := b.set i (b[i] + b[j])
  let b := b.set l (rotateLeft (b[l] ^^^ b[i]) 8)
  let b := b.set k (b[k] + b[l])
  b.set j (rotateLeft (b[j] ^^^ b[k]) 7)

/-- Two rounds: four columns, then four diagonals. -/
def doubleRound (b : Block) : Block :=
  let b := quarterRound b 0 4 8 12
  let b := quarterRound b 1 5 9 13
  let b := quarterRound b 2 6 10 14
  let b := quarterRound b 3 7 11 15
  let b := quarterRound b 0 5 10 15
  let b := quarterRound b 1 6 11 12
  let b := quarterRound b 2 7 8 13
  quarterRound b 3 4 9 14

/-- A place in the sequence of words of a key. -/
structure Keystream where
  /-- The key. -/
  key : Key
  /-- The number of blocks made so far. -/
  counter : UInt64
  /-- The words of the last block that are still to come. -/
  pending : List UInt32
  deriving DecidableEq

namespace Keystream

/-- The start of the sequence of a seed. -/
def ofSeed (seed : UInt64) : Keystream := ⟨expandSeed seed, 0, []⟩

/-- The block with the given number: constants, key, number and zeros, and twenty rounds on top. -/
def block (key : Key) (number : UInt64) : Block :=
  let start : Block := blockConstants ++ key ++ #v[number.toUInt32, (number >>> 32).toUInt32, 0, 0]
  start.zipWith (· + ·) (Nat.repeat doubleRound 10 start)

/-- The next word, and the place after it. -/
def next (stream : Keystream) : UInt32 × Keystream :=
  match stream.pending with
  | word :: rest => (word, { stream with pending := rest })
  | [] =>
    let made := block stream.key stream.counter
    (made[0], ⟨stream.key, stream.counter + 1, made.toList.tail⟩)

end Keystream

end Communities
