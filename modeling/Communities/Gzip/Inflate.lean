import Communities.Gzip.PrefixCode

/-!
# Inflate

The data format Deflate: a sequence of blocks, each either stored as it is, or a sequence of words
of two prefix codes. A word stands for a byte, for a number of bytes to repeat, or for the end of
the block. The codes are fixed ones, or are described at the start of the block by the lengths of
their words, which are themselves coded.
-/

namespace Communities.Gzip

/-- The two codes of a block. -/
structure BlockCodes where
  /-- Bytes, the end of the block, and lengths. -/
  literals : PrefixCode
  /-- Distances. -/
  distances : PrefixCode

/-- The symbol for the end of a block; smaller ones are bytes, larger ones lengths. -/
def endOfBlock : Nat := 256

/-- The least length of each length symbol, and how many bits are added to it. -/
def lengthTable : Array (Nat × Nat) := #[
  (3, 0), (4, 0), (5, 0), (6, 0), (7, 0), (8, 0), (9, 0), (10, 0), (11, 1), (13, 1), (15, 1),
  (17, 1), (19, 2), (23, 2), (27, 2), (31, 2), (35, 3), (43, 3), (51, 3), (59, 3), (67, 4),
  (83, 4), (99, 4), (115, 4), (131, 5), (163, 5), (195, 5), (227, 5), (258, 0)]

/-- The least distance of each distance symbol, and how many bits are added to it. -/
def distanceTable : Array (Nat × Nat) := #[
  (1, 0), (2, 0), (3, 0), (4, 0), (5, 1), (7, 1), (9, 2), (13, 2), (17, 3), (25, 3), (33, 4),
  (49, 4), (65, 5), (97, 5), (129, 6), (193, 6), (257, 7), (385, 7), (513, 8), (769, 8),
  (1025, 9), (1537, 9), (2049, 10), (3073, 10), (4097, 11), (6145, 11), (8193, 12), (12289, 12),
  (16385, 13), (24577, 13)]

/-- A number by its symbol and the bits that follow. -/
def extended (table : Array (Nat × Nat)) (symbol : Nat) : Reading Nat := do
  match table[symbol]? with
  | some (least, bits) => return least + (← nextBits bits)
  | none => throw .badData

/-- One word of a block, and whether it ends the block. -/
def inflateWord (codes : BlockCodes) : Reading Bool := do
  let symbol ← codes.literals.next
  if symbol = endOfBlock then
    return true
  else if symbol < endOfBlock then
    emit symbol
    return false
  else
    let length ← extended lengthTable (symbol - endOfBlock - 1)
    let distance ← extended distanceTable (← codes.distances.next)
    copyBack distance length
    return false

/-- A code that has to exist. -/
def codeOf (lengths : List Nat) : Reading PrefixCode :=
  match PrefixCode.ofLengths? lengths with
  | some code => return code
  | none => throw .badData

/-- The codes that need no description. -/
def fixedCodes : Reading BlockCodes := do
  let literals := List.replicate 144 8 ++ List.replicate 112 9 ++ List.replicate 24 7 ++
    List.replicate 8 8
  return ⟨← codeOf literals, ← codeOf (List.replicate 32 5)⟩

/-- The order in which the lengths of the words for lengths are given. -/
def lengthOrder : List Nat := [16, 17, 18, 0, 8, 7, 9, 6, 10, 5, 11, 4, 12, 3, 13, 2, 14, 1, 15]

/-- Lengths in coded form until there are `count`, the ones so far latest first. Three of the
symbols stand for repetitions. -/
def codedLengths (code : PrefixCode) (count : Nat) : Nat → List Nat → Reading (List Nat)
  | 0, _ => throw .truncated
  | rounds + 1, lengths => do
    if count < lengths.length then throw .badData
    else if lengths.length = count then return lengths.reverse
    else
      let again (n length : Nat) :=
        codedLengths code count rounds (List.replicate n length ++ lengths)
      match ← code.next, lengths with
      | 16, [] => throw .badData
      | 16, last :: _ => again (3 + (← nextBits 2)) last
      | 17, _ => again (3 + (← nextBits 3)) 0
      | 18, _ => again (11 + (← nextBits 7)) 0
      | length, _ => again 1 length

/-- The codes that a block describes. -/
def describedCodes : Reading BlockCodes := do
  let literals := 257 + (← nextBits 5)
  let distances := 1 + (← nextBits 5)
  let given := lengthOrder.take (4 + (← nextBits 4))
  let lengths ← given.mapM fun symbol => return (symbol, ← nextBits 3)
  let code ← codeOf ((List.range 19).map fun symbol => (lengths.lookup symbol).getD 0)
  let all ← codedLengths code (literals + distances) (← bitBound) []
  return ⟨← codeOf (all.take literals), ← codeOf (all.drop literals)⟩

/-- The largest length of a stored block. -/
def maxStored : Nat := 65535

/-- A stored block. -/
def storedBlock : Reading Unit := do
  align
  let length ← nextBytes 2
  let check ← nextBytes 2
  if length + check = maxStored then
    for _ in [0:length] do emit (← nextBytes 1)
  else
    throw .badData

/-- One block, and whether it is the last one. -/
def inflateBlock : Reading Bool := do
  let last ← nextBit
  match ← nextBits 2 with
  | 0 => storedBlock
  | 1 => repeatUntil (inflateWord (← fixedCodes)) (← bitBound)
  | 2 => repeatUntil (inflateWord (← describedCodes)) (← bitBound)
  | _ => throw .badData
  return last = 1

/-- All blocks. -/
def inflate : Reading Unit := do repeatUntil inflateBlock (← bitBound)

end Communities.Gzip
