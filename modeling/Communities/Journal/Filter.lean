import Communities.Journal.Entry
import Communities.Text.Blank
import Communities.Text.Pattern.Parse

/-!
# Log filters

A filter says which entries of a log are shown. It is written as directives separated by commas: a
severity for all topics, a topic, or a topic, an equals sign and a severity. Topics are given by how
they begin, and the longest that fits an entry decides. A pattern behind a slash has to occur in
the text of an entry too.

* `Filter.parse` reads a filter; what makes no sense in it is left out.
* `Filter.accepts` says whether an entry is shown.
-/

namespace Communities

open Text

/-- One part of a filter. -/
structure Directive where
  /-- How the topics begin that it is about; `none` for all. -/
  topic : Option (List Char)
  /-- The rank up to which entries are shown. -/
  bound : Nat
  deriving DecidableEq, Repr

/-- A choice of log entries. -/
structure Filter where
  /-- The directives, the most special ones last. -/
  directives : List Directive
  /-- What has to occur in the text of an entry. -/
  pattern : Option Pattern
  deriving DecidableEq, Repr

/-- A text without the blanks around it. -/
def trimBlanks (cs : List Char) : List Char :=
  ((cs.dropWhile isBlank).reverse.dropWhile isBlank).reverse

/-- The names of bounds, from nothing to everything. -/
def boundNames : List String := ["off", "error", "warn", "info", "debug", "trace"]

/-- The bound that lets everything pass. -/
def maxBound : Nat := 5

/-- A bound by its name, in any case. -/
def bound? (cs : List Char) : Option Nat :=
  boundNames.findIdx? (· = String.ofList (cs.map (·.toLower)))

namespace Directive

/-- The directive that a text stands for. -/
def parse? (cs : List Char) : Option Directive :=
  match cs.splitOn '=' with
  | [word] =>
    match bound? word with
    | some bound => some ⟨none, bound⟩
    | none => some ⟨some word, maxBound⟩
  | [topic, name] =>
    let name := trimBlanks name
    if name.isEmpty then some ⟨some topic, maxBound⟩
    else (bound? name).map fun bound => ⟨some topic, bound⟩
  | _ => none

/-- Whether a directive is about a topic. -/
def covers (d : Directive) (topic : List Char) : Bool :=
  match d.topic with
  | some start => start.isPrefixOf topic
  | none => true

/-- How special a directive is. -/
def length (d : Directive) : Nat :=
  match d.topic with
  | some start => (String.ofList start).utf8ByteSize
  | none => 0

/-- A list of directives with one more, which takes the place of one about the same topic. -/
def insert (ds : List Directive) (d : Directive) : List Directive :=
  if ds.any (·.topic = d.topic) then ds.map fun old => if old.topic = d.topic then d else old
  else ds ++ [d]

end Directive

namespace Filter

/-- The filter of some directives; without any, errors are shown. -/
def ofDirectives (ds : List Directive) (pattern : Option Pattern) : Filter :=
  let ds := ds.foldl Directive.insert []
  if ds.isEmpty then ⟨[⟨none, Severity.error.rank⟩], pattern⟩
  else ⟨ds.mergeSort fun a b => a.length ≤ b.length, pattern⟩

/-- The filter that a text stands for. -/
def parse (spec : String) : Filter :=
  let directives (cs : List Char) := (cs.splitOn ',').filterMap fun part =>
    let part := trimBlanks part
    if part.isEmpty then none else Directive.parse? part
  match spec.toList.splitOn '/' with
  | [ds] => ofDirectives (directives ds) none
  | [ds, pattern] => ofDirectives (directives ds) (Pattern.parse? pattern)
  | _ => ofDirectives [] none

/-- Whether an entry is shown. -/
def accepts (f : Filter) (e : Entry) : Bool :=
  let shown := match f.directives.reverse.find? (·.covers e.topic.toList) with
    | some d => e.severity.rank ≤ d.bound
    | none => false
  let fits := match f.pattern with
    | some p => p.occursIn e.text.toList
    | none => true
  shown && fits

end Filter

end Communities
