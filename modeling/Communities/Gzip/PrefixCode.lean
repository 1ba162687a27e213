import Communities.Gzip.Reading

/-!
# Prefix codes

A canonical prefix code is given by the lengths of its words: shorter words come first, and words
of one length stand in the order of their symbols. Words have at most 15 bits.

* `PrefixCode.ofLengths?` is the code with given lengths, if there is one.
* `PrefixCode.next` reads one word.
-/

namespace Communities.Gzip

/-- The largest length of a word. -/
def maxWordLength : Nat := 15

/-- A canonical prefix code. -/
structure PrefixCode where
  /-- For each length from one on, the symbols with words of that length. -/
  symbols : List (Array Nat)
  deriving DecidableEq, Repr

namespace PrefixCode

/-- The symbols with words of the given length. -/
def withLength (lengths : List Nat) (n : Nat) : Array Nat :=
  ((lengths.zipIdx.filter fun (length, _) => length = n).map (·.2)).toArray

/-- The number of words. -/
def wordCount (code : PrefixCode) : Nat := code.symbols.foldl (fun n symbols => n + symbols.size) 0

/-- The number of longest bit strings that begin with a word. -/
def covered (code : PrefixCode) : Nat :=
  code.symbols.foldl (fun sum symbols => 2 * sum + symbols.size) 0

/-- The code with the given lengths, where zero means no word. The words have to use up all bit
strings, unless there is at most one of them. -/
def ofLengths? (lengths : List Nat) : Option PrefixCode :=
  let code : PrefixCode := ⟨(List.range maxWordLength).map fun n => withLength lengths (n + 1)⟩
  if code.covered = 1 <<< maxWordLength ∨ code.wordCount ≤ 1 then some code else none

/-- The symbol of the next word, given the bits read so far as a number, less the first word of
that length. -/
def nextAmong : List (Array Nat) → Nat → Reading Nat
  | [], _ => throw .badData
  | symbols :: longer, offset => do
    let offset := 2 * offset + (← nextBit)
    if h : offset < symbols.size then return symbols[offset]
    else nextAmong longer (offset - symbols.size)

/-- The symbol of the next word. -/
def next (code : PrefixCode) : Reading Nat := nextAmong code.symbols 0

end PrefixCode

end Communities.Gzip
