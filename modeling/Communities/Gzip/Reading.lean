/-!
# Reading compressed data

A computation that walks through compressed bytes bit by bit and collects the bytes they stand for.
It can stop early; what has been collected until then is kept.

Numbers are stored with their lowest bit first, bits fill a byte from the lowest on.
-/

namespace Communities.Gzip

/-- Why reading stops early. -/
inductive Stop where
  /-- The bytes end too soon. -/
  | truncated
  /-- The header is not one of this format. -/
  | badHeader
  /-- The compressed data makes no sense. -/
  | badData
  /-- A checksum does not agree with the data. -/
  | badChecksum
  deriving DecidableEq, Repr

/-- How far reading has come. -/
structure Progress where
  /-- The number of bits that have been read. -/
  position : Nat
  /-- The bytes that have been collected. -/
  output : ByteArray

/-- A computation that reads from given bytes. -/
abbrev Reading := ReaderT ByteArray (ExceptT Stop (StateM Progress))

/-- The bits of the bytes, as a bound for loops that read one in each round. -/
def bitBound : Reading Nat := do return 8 * (← read).size + 1

/-- The next bit. -/
def nextBit : Reading Nat := do
  let data ← read
  let position := (← get).position
  if h : position / 8 < data.size then
    modify fun s => { s with position := position + 1 }
    return data[position / 8].toNat >>> (position % 8) % 2
  else
    throw .truncated

/-- The number in the next `n` bits. -/
def nextBits : Nat → Reading Nat
  | 0 => return 0
  | n + 1 => do
    let low ← nextBit
    return low + 2 * (← nextBits n)

/-- The number in the next `n` bytes. -/
def nextBytes (n : Nat) : Reading Nat := nextBits (8 * n)

/-- Goes on to the start of a byte. -/
def align : Reading Unit :=
  modify fun s => { s with position := (s.position + 7) / 8 * 8 }

/-- Collects a byte. -/
def emit (byte : Nat) : Reading Unit :=
  modify fun s => { s with output := s.output.push (.ofNat byte) }

/-- Collects `length` bytes again that were collected `distance` bytes ago; the new ones may be
among them. -/
def copyBack (distance : Nat) : Nat → Reading Unit
  | 0 => return
  | length + 1 => do
    let output := (← get).output
    if h : 0 < distance ∧ distance ≤ output.size then
      emit output[output.size - distance].toNat
      copyBack distance length
    else
      throw .badData

/-- Does `body` again and again until it answers `true`, at most `rounds` times. -/
def repeatUntil (body : Reading Bool) : Nat → Reading Unit
  | 0 => throw .truncated
  | rounds + 1 => do
    if ← body then return else repeatUntil body rounds

end Communities.Gzip
