/-!
# Read numbers

* `natural?` reads a whole number below a bound: an optional plus, then digits.
* `double?` reads a double: an optional sign, then digits with an optional point and an optional
  exponent, or one of the words for what is not finite, in any case. The value is rounded to the
  nearest double; too large a value is infinite, too small a one zero.
-/

namespace Communities.Decimal

/-- A text split after its leading digits. -/
def spanDigits (cs : List Char) : List Char × List Char :=
  (cs.takeWhile (·.isDigit), cs.dropWhile (·.isDigit))

/-- The number that digits stand for. -/
def ofDigits (ds : List Char) : Nat := Nat.ofDigitChars 10 ds 0

/-- A text without the plus it may begin with. -/
def dropPlus : List Char → List Char
  | '+' :: cs => cs
  | cs => cs

/-- A whole number below `bound`. -/
def natural? (bound : Nat) (cs : List Char) : Option Nat :=
  let ds := dropPlus cs
  if !ds.isEmpty && ds.all (·.isDigit) then
    let n := ofDigits ds
    if n < bound then some n else none
  else
    none

/-- The absolute value that a text stands for. -/
inductive Absolute where
  /-- No number. -/
  | nan
  /-- Infinity. -/
  | infinite
  /-- The number `digits * 10 ^ exponent`. -/
  | finite (digits : Nat) (exponent : Int)
  deriving DecidableEq, Repr

/-- A sign, minus if it is `true`, and the text after it. -/
def takeSign : List Char → Bool × List Char
  | '-' :: cs => (true, cs)
  | '+' :: cs => (false, cs)
  | cs => (false, cs)

/-- An exponent; a text that is empty stands for zero. -/
def exponent? : List Char → Option Int
  | [] => some 0
  | c :: cs =>
    if c = 'e' ∨ c = 'E' then
      let (negative, ds) := takeSign cs
      if !ds.isEmpty && ds.all (·.isDigit) then
        some (if negative then -(ofDigits ds : Int) else ofDigits ds)
      else
        none
    else
      none

/-- Digits, a point and more digits; the point and the digits on one side of it may be missing. What
follows is an exponent. -/
def decimal? (cs : List Char) : Option Absolute :=
  let (whole, rest) := spanDigits cs
  let (places, rest) := match rest with
    | '.' :: rest => spanDigits rest
    | rest => ([], rest)
  if whole.isEmpty && places.isEmpty then
    none
  else
    (exponent? rest).map fun e => .finite (ofDigits (whole ++ places)) (e - places.length)

/-- A number without a sign. -/
def absolute? (cs : List Char) : Option Absolute :=
  let word := String.ofList (cs.map (·.toLower))
  if word = "inf" ∨ word = "infinity" then some .infinite
  else if word = "nan" then some .nan
  else decimal? cs

/-- The double nearest to an absolute value. The exponent is looked at first: powers of ten that
are out of reach are not computed. -/
def Absolute.toFloat : Absolute → Float
  | nan => 0 / 0
  | infinite => 1 / 0
  | finite m e =>
    let length : Int := (Nat.toDigits 10 m).length
    if m = 0 ∨ length + e < -400 then 0
    else if 400 < e then 1 / 0
    else .ofScientific m (e < 0) e.natAbs

/-- A double. -/
def double? (cs : List Char) : Option Float :=
  let (negative, cs) := takeSign cs
  (absolute? cs).map fun x => if negative then -x.toFloat else x.toFloat

end Communities.Decimal
