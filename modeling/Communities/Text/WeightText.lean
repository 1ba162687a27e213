import Communities.Decimal.Print
import Communities.Decimal.Read

/-!
# Weights in text

How weights are read and written. The text layer takes a `WeightText` as an argument and knows
nothing else about the way numbers look.
-/

namespace Communities.Text

/-- A way to read and write weights. -/
structure WeightText (W : Type) where
  /-- The weight that a field stands for. -/
  read : List Char → Option W
  /-- A weight in a message. -/
  plain : W → String
  /-- A weight in a list of moves. -/
  scientific : W → String
  /-- A weight in a report. -/
  fixed : W → String

/-- Doubles in decimal. -/
def WeightText.decimal : WeightText Float where
  read := Decimal.double?
  plain := Decimal.plain
  scientific := Decimal.scientific
  fixed := Decimal.fixed

end Communities.Text
