/-!
# The parts of a double

A finite double is a whole number times a power of two, with a sign. `Parts.ofFloat` takes it
apart.
-/

namespace Communities.Decimal

/-- What a double stands for. -/
inductive Parts where
  /-- No number. -/
  | nan
  /-- Positive or negative infinity. -/
  | infinite (negative : Bool)
  /-- The number `mantissa * 2 ^ exponent`, or its negative. -/
  | finite (negative : Bool) (mantissa : Nat) (exponent : Int)
  deriving DecidableEq, Repr

/-- The least mantissa that the largest exponents go with; of a mantissa from there on only what it
exceeds that by is stored. -/
def leastNormal : Nat := 4503599627370496

/-- The number of values of the exponent field; the last one marks what is not finite. -/
def exponentFields : Nat := 2048

/-- The least exponent. -/
def minExponent : Int := -1074

/-- The parts that the bits of a double encode. -/
def Parts.ofBits (bits : Nat) : Parts :=
  let fraction : Nat := bits % leastNormal
  let field : Nat := bits / leastNormal % exponentFields
  let negative := bits / leastNormal / exponentFields = 1
  if field + 1 = exponentFields then
    if fraction = 0 then .infinite negative else .nan
  else if field = 0 then
    .finite negative fraction minExponent
  else
    .finite negative (leastNormal + fraction) (minExponent + field - 1)

/-- The parts of a double. -/
def Parts.ofFloat (x : Float) : Parts := .ofBits x.toBits.toNat

end Communities.Decimal
