import Communities.Text.WeightText

/-!
# Text errors

What can be wrong with a text. A line is named by its number, counted from one.
-/

namespace Communities.Text

/-- What is wrong with a text. -/
inductive TextError (W : Type) where
  /-- The text cannot be read to its end. -/
  | broken (reason : String)
  /-- A line that is not UTF-8. -/
  | invalidUtf8
  /-- An edge with more than three fields. -/
  | tooManyFields (line : Nat)
  /-- Fewer fields than are needed. -/
  | tooFewFields (line needed : Nat)
  /-- A field that is no number of the right kind. -/
  | badField (line : Nat) (field : List Char)
  /-- An edge with a negative, infinite or undefined weight. -/
  | badWeight (line : Nat) (weight : W)
  /-- More vertices than 32-bit ids can count. -/
  | tooManyVertices (count : Nat)
  /-- A vertex in a seed that no edge has. -/
  | unknownVertex (line vertex : Nat)
  /-- A vertex that a seed names again. -/
  | assignedTwice (line vertex : Nat)
  /-- A vertex that a seed does not name. -/
  | unassigned (vertex : Nat)
  deriving DecidableEq, Repr

/-- The wording of a text error. -/
def TextError.message {W : Type} (weights : WeightText W) : TextError W → String
  | broken reason => reason
  | invalidUtf8 => "stream did not contain valid UTF-8"
  | tooManyFields line => s!"line {line}: expected 'src dst [weight]'"
  | tooFewFields line needed => s!"line {line}: expected at least {needed} fields"
  | badField line field => s!"line {line}: cannot parse '{String.ofList field}'"
  | badWeight line weight =>
    s!"line {line}: weight must be finite and non-negative, got {weights.plain weight}"
  | tooManyVertices count => s!"too many vertices: {count}"
  | unknownVertex line vertex => s!"line {line}: vertex {vertex} is not in the graph"
  | assignedTwice line vertex => s!"line {line}: vertex {vertex} assigned twice"
  | unassigned vertex => s!"vertex {vertex} has no community"

end Communities.Text
