import Communities.Bounds
import Communities.Text.Blank
import Communities.Text.TextError

/-!
# Records

A text is split into lines at line feeds. What follows the first `#` of a line is a comment; the
rest is split into fields at blanks, and a line with fields is a record. Each line has to be UTF-8
for itself, comment included, and is looked at only when those before it have been accepted.

* `Source.lines` are the lines of a text, `fieldsOf` gives the fields of a line.
* `Source.mapRecords` and `Source.foldRecords` read the records one after the other, up to the
  first error.
* `number` reads one field of a record.
-/

namespace Communities.Text

/-- A text to read. -/
structure Source where
  /-- The bytes that can be read. -/
  bytes : ByteArray
  /-- Why reading fails behind them, if it does. -/
  failure : Option String := none

/-- A text with nothing wrong about it. -/
def Source.ofString (s : String) : Source := { bytes := s.toUTF8 }

/-- The characters of a line. -/
def decodeLine {W : Type} (bytes : List UInt8) : Except (TextError W) (List Char) :=
  match String.fromUTF8? bytes.toByteArray with
  | some s => .ok s.toList
  | none => .error .invalidUtf8

/-- The lines of a text. A failure to read takes the place of the line it falls into. -/
def Source.lines {W : Type} (s : Source) : List (Except (TextError W) (List Char)) :=
  let pieces := s.bytes.toList.splitOn 10
  match s.failure with
  | some reason => pieces.dropLast.map decodeLine ++ [.error (.broken reason)]
  | none => pieces.map decodeLine

/-- The fields of a line. -/
def fieldsOf (line : List Char) : List (List Char) :=
  ((line.takeWhile (· ≠ '#')).splitOnP isBlank).filter (!·.isEmpty)

/-- A line with fields. -/
structure Record where
  /-- The number of the line, counted from one. -/
  line : Nat
  /-- The fields, of which there is at least one. -/
  fields : List (List Char)
  deriving DecidableEq, Repr

/-- The record on a line, if there is one. -/
def Record.ofLine? (number : Nat) (line : List Char) : Option Record :=
  match fieldsOf line with
  | [] => none
  | fs => some ⟨number, fs⟩

/-- The results of reading every record. -/
def Source.mapRecords {W α : Type} (s : Source) (f : Record → Except (TextError W) α) :
    Except (TextError W) (List α) :=
  (s.lines.zipIdx 1).filterMapM fun (line, number) => do
    match Record.ofLine? number (← line) with
    | some record => some <$> f record
    | none => return none

/-- The result of reading every record, each with the result before it at hand. -/
def Source.foldRecords {W α : Type} (s : Source) (init : α)
    (f : α → Record → Except (TextError W) α) : Except (TextError W) α :=
  (s.lines.zipIdx 1).foldlM
    (fun x (line, number) => do
      match Record.ofLine? number (← line) with
      | some record => f x record
      | none => return x)
    init

/-- The field at place `i`, read by `read`. -/
def Record.field {W α : Type} (r : Record) (read : List Char → Option α) (i : Nat) :
    Except (TextError W) α :=
  match r.fields[i]? with
  | none => .error (.tooFewFields r.line (i + 1))
  | some field =>
    match read field with
    | some x => .ok x
    | none => .error (.badField r.line field)

/-- The 64-bit number at place `i`. -/
def Record.number {W : Type} (r : Record) (i : Nat) : Except (TextError W) Nat :=
  r.field (Decimal.natural? countBound) i

end Communities.Text
