import Communities.Text.Pattern

/-!
# Written patterns

The usual notation for regular expressions: characters stand for themselves; a dot, sets in square
brackets and some letters behind a backslash for one of several; `^` and `$` for the ends of the
text; parentheses group, a bar separates alternatives, and `*`, `+`, `?` and numbers in curly
brackets repeat what is before them.
-/

namespace Communities.Text.Pattern

/-- A pattern for one of the characters in some ranges. -/
def inRanges (ranges : List (Char × Char)) : Pattern := one ⟨ranges, false⟩

/-- A pattern for any character but a line feed. -/
def anyChar : Pattern := one ⟨[('\n', '\n')], true⟩

/-- The decimal digits. -/
def digitRanges : List (Char × Char) := [('0', '9')]

/-- The characters of words. -/
def wordRanges : List (Char × Char) := [('0', '9'), ('A', 'Z'), ('_', '_'), ('a', 'z')]

/-- The blanks. -/
def spaceRanges : List (Char × Char) := [('\t', '\x0d'), (' ', ' ')]

/-- The set that a letter stands for behind a backslash. -/
def letterSet? : Char → Option CharSet
  | 'd' => some ⟨digitRanges, false⟩
  | 'D' => some ⟨digitRanges, true⟩
  | 'w' => some ⟨wordRanges, false⟩
  | 'W' => some ⟨wordRanges, true⟩
  | 's' => some ⟨spaceRanges, false⟩
  | 'S' => some ⟨spaceRanges, true⟩
  | _ => none

/-- The character that another one stands for behind a backslash; marks stand for themselves. -/
def escaped? : Char → Option Char
  | 'n' => some '\n'
  | 't' => some '\t'
  | 'r' => some '\r'
  | c => if c.isAlphanum || c == '<' || c == '>' then none else some c

/-- The ranges up to the closing bracket, and what follows it. -/
def ranges? : List Char → Option (List (Char × Char) × List Char)
  | [] => none
  | ']' :: cs => some ([], cs)
  | '[' :: _ => none
  | '\\' :: c :: cs => do
    let (more, rest) ← ranges? cs
    match letterSet? c with
    | some ⟨ranges, false⟩ => return (ranges ++ more, rest)
    | some ⟨_, true⟩ => none
    | none => return (((← escaped? c), (← escaped? c)) :: more, rest)
  | a :: '-' :: b :: cs =>
    if b = ']' then
      match ranges? (b :: cs) with
      | some (more, rest) => some ((a, a) :: ('-', '-') :: more, rest)
      | none => none
    else if a ≤ b ∧ b ≠ '[' ∧ b ≠ '\\' then
      match ranges? cs with
      | some (more, rest) => some ((a, b) :: more, rest)
      | none => none
    else
      none
  | c :: cs => do
    let (more, rest) ← ranges? cs
    return ((c, c) :: more, rest)

/-- A set in square brackets, behind the opening one. A closing bracket at its start is one of its
characters. -/
def set? (cs : List Char) : Option (CharSet × List Char) := do
  let (inverted, cs) := match cs with
    | '^' :: cs => (true, cs)
    | cs => (false, cs)
  match cs with
  | ']' :: cs =>
    let (ranges, rest) ← ranges? cs
    return (⟨(']', ']') :: ranges, inverted⟩, rest)
  | cs =>
    let (ranges, rest) ← ranges? cs
    return (⟨ranges, inverted⟩, rest)

/-- A number and what follows it. -/
def count? (cs : List Char) : Option (Nat × List Char) :=
  let ds := cs.takeWhile (·.isDigit)
  if ds.isEmpty || 3 < ds.length then none
  else some (Nat.ofDigitChars 10 ds 0, cs.dropWhile (·.isDigit))

/-- The numbers in curly brackets behind a pattern, from behind the opening one. -/
def counted? (p : Pattern) (cs : List Char) : Option (Pattern × List Char) := do
  let (least, cs) ← count? cs
  match cs with
  | '\x7d' :: cs => return (p.times least 0, cs)
  | ',' :: '\x7d' :: cs => return (seq (p.times least 0) (many p), cs)
  | ',' :: cs =>
    let (most, cs) ← count? cs
    match cs with
    | '\x7d' :: cs => if least ≤ most then return (p.times least (most - least), cs) else none
    | _ => none
  | _ => none

/-- A pattern with the repetitions that follow it, in at most so many rounds. Whether a repetition
prefers to be short does not matter here. -/
def repeated? : Nat → Pattern → List Char → Option (Pattern × List Char)
  | 0, _, _ => none
  | rounds + 1, p, cs =>
    let lazy (cs : List Char) := match cs with
      | '?' :: cs => cs
      | cs => cs
    match cs with
    | '*' :: cs => repeated? rounds (many p) (lazy cs)
    | '+' :: cs => repeated? rounds (seq p (many p)) (lazy cs)
    | '?' :: cs => repeated? rounds (either p empty) (lazy cs)
    | '\x7b' :: cs => do
      let (p, cs) ← counted? p cs
      repeated? rounds p (lazy cs)
    | cs => some (p, cs)

/-- One character, set or place, and what follows it. -/
def atom? : List Char → Option (Pattern × List Char)
  | '.' :: cs => some (anyChar, cs)
  | '^' :: cs => some (start, cs)
  | '$' :: cs => some (finish, cs)
  | '[' :: cs => do
    let (set, cs) ← set? cs
    return (one set, cs)
  | '\\' :: c :: cs =>
    match letterSet? c with
    | some set => some (one set, cs)
    | none => (escaped? c).map fun c => (inRanges [(c, c)], cs)
  | c :: cs =>
    if c ∈ ['\\', '*', '+', '?', '\x7b', ')', '|', '('] then none
    else some (inRanges [(c, c)], cs)
  | [] => none

/-- Alternatives up to a closing parenthesis or the end, and what follows, in at most so many
rounds; `before` is what the current alternative begins with. -/
def alternatives? : Nat → Pattern → List Char → Option (Pattern × List Char)
  | 0, _, _ => none
  | rounds + 1, before, cs =>
    match cs with
    | [] => some (before, [])
    | ')' :: _ => some (before, cs)
    | '|' :: cs => do
      let (others, cs) ← alternatives? rounds empty cs
      return (either before others, cs)
    | '(' :: cs => do
      let cs ← match cs with
        | '?' :: ':' :: cs => some cs
        | '?' :: _ => none
        | cs => some cs
      let (group, cs) ← alternatives? rounds empty cs
      match cs with
      | ')' :: cs =>
        let (p, cs) ← repeated? rounds group cs
        alternatives? rounds (seq before p) cs
      | _ => none
    | cs => do
      let (p, cs) ← atom? cs
      let (p, cs) ← repeated? rounds p cs
      alternatives? rounds (seq before p) cs

/-- The pattern that a text stands for, if it is well formed. -/
def parse? (cs : List Char) : Option Pattern :=
  match alternatives? (cs.length + 1) empty cs with
  | some (p, []) => some p
  | _ => none

end Communities.Text.Pattern
