/-!
# Patterns

Regular expressions. `Pattern.occursIn` says whether some part of a text fits a pattern; it works
with what is left of the text after a part that fits, of which there can be several.
-/

namespace Communities.Text

/-- A set of characters: those in one of the ranges, or all others. -/
structure CharSet where
  /-- The first and the last character of each range. -/
  ranges : List (Char × Char)
  /-- Whether the set holds all others instead. -/
  inverted : Bool
  deriving DecidableEq, Repr

/-- Whether a set holds a character. -/
def CharSet.has (s : CharSet) (c : Char) : Bool :=
  (s.ranges.any fun (first, last) => first ≤ c && c ≤ last) != s.inverted

/-- A regular expression. -/
inductive Pattern where
  /-- The empty text. -/
  | empty
  /-- One character. -/
  | one (set : CharSet)
  /-- The place before the text. -/
  | start
  /-- The place behind the text. -/
  | finish
  /-- One pattern behind another. -/
  | seq (first second : Pattern)
  /-- One of two patterns. -/
  | either (first second : Pattern)
  /-- A pattern, any number of times. -/
  | many (body : Pattern)
  deriving DecidableEq, Repr

/-- What is left after any number of steps, each of which leaves less than it is given. -/
def stepsFrom (step : List Char → List (List Char)) : Nat → List (List Char) → List (List Char)
  | 0, texts => texts
  | rounds + 1, texts =>
    let further := texts.flatMap fun cs => (step cs).filter (·.length < cs.length)
    texts ++ stepsFrom step rounds further.eraseDups

namespace Pattern

/-- What can be left of the rest `cs` of a text of `n` characters after a part that fits. -/
def rests (n : Nat) : Pattern → List Char → List (List Char)
  | empty, cs => [cs]
  | one _, [] => []
  | one set, c :: cs => if set.has c then [cs] else []
  | start, cs => if cs.length = n then [cs] else []
  | finish, cs => if cs.isEmpty then [cs] else []
  | seq first second, cs => ((first.rests n cs).flatMap (second.rests n)).eraseDups
  | either first second, cs => (first.rests n cs ++ second.rests n cs).eraseDups
  | many body, cs => (stepsFrom (body.rests n) cs.length [cs]).eraseDups

/-- Whether a part of a text fits, from one of the places in its rest `cs` on. -/
def occursFrom (p : Pattern) (n : Nat) : List Char → Bool
  | [] => !(p.rests n []).isEmpty
  | c :: cs => !(p.rests n (c :: cs)).isEmpty || p.occursFrom n cs

/-- Whether some part of a text fits. -/
def occursIn (p : Pattern) (text : List Char) : Bool := p.occursFrom text.length text

/-- A pattern from `least` to `least + more` times. -/
def times (p : Pattern) (least more : Nat) : Pattern :=
  let optional := (List.replicate more p).foldr (fun p rest => either (seq p rest) empty) empty
  (List.replicate least p).foldr seq optional

end Pattern

end Communities.Text
