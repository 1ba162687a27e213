import Communities.Decimal.Parts

/-!
# Shortest decimals

The shortest decimal of a double is the one with the fewest digits among all those that are read
back as that double, and the nearest to it among those; of two that are equally near it is the
upper one.

A decimal with few digits lies on a coarse grid of powers of ten. If any point of a grid is read
back as the double, one of the double's two neighbours on that grid is; so the grids are tried from
the coarsest on, two points each.
-/

namespace Communities.Decimal

/-- The number `digits * 10 ^ exponent`. -/
structure Numeral where
  /-- The digits, as a whole number. -/
  digits : Nat
  /-- The exponent of ten. -/
  exponent : Int
  deriving DecidableEq, Repr

/-- The numbers that are rounded to a double, all of them as fractions over `unit`. -/
structure Rounding where
  /-- The lower end. -/
  low : Nat
  /-- The double itself. -/
  value : Nat
  /-- The upper end. -/
  high : Nat
  /-- The common denominator. -/
  unit : Nat
  /-- Whether the ends are rounded to the double too. -/
  closed : Bool
  deriving DecidableEq, Repr

namespace Rounding

/-- The numbers rounded to `m * 2 ^ e`: those within half the distance to the next double on either
side, of which the lower is nearer to a power of two. -/
def ofParts (m : Nat) (e : Int) : Rounding :=
  let scale := Nat.pow 2 (e - 2).toNat
  let down := if m = leastNormal ∧ minExponent < e then 1 else 2
  ⟨(4 * m - down) * scale, 4 * m * scale, (4 * m + 2) * scale, Nat.pow 2 (2 - e).toNat,
    m % 2 = 0⟩

/-- The least `k` with `value / unit < 10 ^ k`. -/
def magnitude (r : Rounding) : Int :=
  if r.unit ≤ r.value then (Nat.toDigits 10 (r.value / r.unit)).length
  else 1 - (Nat.toDigits 10 ((r.unit - 1) / r.value)).length

/-- The multiple of `10 ^ p` that is rounded to the double and nearest to it, divided by
`10 ^ p`. -/
def onGrid (r : Rounding) (p : Int) : Option Nat :=
  let step := r.unit * Nat.pow 10 p.toNat
  let scale := Nat.pow 10 (-p).toNat
  let value := r.value * scale
  let rounds (c : Nat) : Bool :=
    if r.closed then r.low * scale ≤ c * step && c * step ≤ r.high * scale
    else r.low * scale < c * step && c * step < r.high * scale
  let below := value / step
  let above := below + 1
  if rounds above && (!rounds below || above * step - value ≤ value - below * step) then some above
  else if rounds below then some below
  else none

end Rounding

/-- A numeral without zeros at the end of its digits. -/
def trimZeros (digits : Nat) (exponent : Int) : Numeral :=
  if h : digits ≠ 0 ∧ digits % 10 = 0 then trimZeros (digits / 10) (exponent + 1)
  else ⟨digits, exponent⟩
termination_by digits
decreasing_by omega

/-- The shortest decimal of `m * 2 ^ e`. Seventeen digits are always enough. -/
def shortest (m : Nat) (e : Int) : Numeral :=
  if m = 0 then
    ⟨0, 0⟩
  else
    let r := Rounding.ofParts m e
    let k := r.magnitude
    let found := (List.range 17).findSome? fun (n : Nat) =>
      let p : Int := k - (n + 1)
      (r.onGrid p).map fun c => (c, p)
    match found with
    | some (c, p) => trimZeros c p
    | none => ⟨m, 0⟩

end Communities.Decimal
