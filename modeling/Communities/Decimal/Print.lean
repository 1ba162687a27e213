import Communities.Decimal.Shortest

/-!
# Written doubles

Three ways to write a double:

* `plain`, the shortest decimal without an exponent: `0.0000001`, `-5`;
* `scientific`, the shortest decimal with one digit before the point and an exponent: `1.6e-1`;
* `fixed`, the value to six places, where a half goes to the even neighbour: `0.357143`.

The sign of a negative number is kept also where only zeros follow. What is not finite is written
`NaN`, `inf` or `-inf` in all three.
-/

namespace Communities.Decimal

/-- So many zeros. -/
def zeros (n : Nat) : String := .ofList (List.replicate n '0')

/-- The digits of a whole number. -/
def digitsOf (n : Nat) : List Char := Nat.toDigits 10 n

/-- A numeral without an exponent. -/
def Numeral.plain (d : Numeral) : String :=
  let ds := digitsOf d.digits
  let places := (-d.exponent).toNat
  if places = 0 then .ofList ds ++ zeros d.exponent.toNat
  else if places < ds.length then
    .ofList (ds.take (ds.length - places)) ++ "." ++ .ofList (ds.drop (ds.length - places))
  else "0." ++ zeros (places - ds.length) ++ .ofList ds

/-- A numeral with one digit before the point and an exponent. -/
def Numeral.scientific (d : Numeral) : String :=
  let ds := digitsOf d.digits
  let power := d.exponent + (ds.length - 1 : Nat)
  let tail := ds.drop 1
  let point := if tail.isEmpty then "" else "."
  .ofList (ds.take 1) ++ point ++ .ofList tail ++ "e" ++ toString power

/-- The whole number nearest to `num / den`; a half goes to the even neighbour. -/
def roundDiv (num den : Nat) : Nat :=
  let q := num / den
  let twice := 2 * (num % den)
  if den < twice ∨ (twice = den ∧ q % 2 = 1) then q + 1 else q

/-- What six places are counted in. -/
def million : Nat := 1000000

/-- The number `m * 2 ^ e` to six places. -/
def fixedParts (m : Nat) (e : Int) : String :=
  let millionths := roundDiv (m * million * Nat.pow 2 e.toNat) (Nat.pow 2 (-e).toNat)
  let tail := digitsOf (millionths % million)
  .ofList (digitsOf (millionths / million)) ++ "." ++ zeros (6 - tail.length) ++ .ofList tail

/-- A double whose absolute value is written by `digits` if it is finite. -/
def signed (digits : Nat → Int → String) (x : Float) : String :=
  let sign (negative : Bool) := if negative then "-" else ""
  match Parts.ofFloat x with
  | .nan => "NaN"
  | .infinite negative => sign negative ++ "inf"
  | .finite negative m e => sign negative ++ digits m e

/-- A double without an exponent. -/
def plain (x : Float) : String := signed (fun m e => (shortest m e).plain) x

/-- A double with an exponent. -/
def scientific (x : Float) : String := signed (fun m e => (shortest m e).scientific) x

/-- A double to six places. -/
def fixed (x : Float) : String := signed fixedParts x

end Communities.Decimal
