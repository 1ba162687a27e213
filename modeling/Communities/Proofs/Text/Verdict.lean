import Communities.Proofs.Loop.Failure
import Communities.Proofs.Text.Record

/-!
# Texts line by line

A text is read line by line, and only up to the first line that is rejected. Where none is, the
lines yield the data that their fields stand for; else the error is that of the first one, and names
its number, which counts all lines before it, with and without fields.

* `Shows`: which bytes are a line with the given fields; `Yields`: what lines yield in their order.
* `Rejects`: the first thing that is wrong with a line; `TextError.exists_message`: an error that
  names a line does so in its message.
* `Source.foldRecords_eq_ok_iff_yields`, `Source.mapRecords_eq_ok_iff_yields`: what is read.
* `Source.foldRecords_eq_error_iff`, `Source.mapRecords_eq_error_iff`: why nothing is read.
-/

namespace Communities.Text

variable {W α β : Type}

/-- The lines of bytes. -/
def linesOf (bytes : ByteArray) : List (List UInt8) := bytes.toList.splitOn 10

/-- The bytes of a line are UTF-8 and show the fields. -/
def Shows (fs : List (List Char)) (line : List UInt8) : Prop :=
  ∃ cs, line = encode cs ∧ Spells fs cs

/-- The lines yield the data: each shows no fields, or fields that stand for the next datum. -/
inductive Yields (P : List (List Char) → α → Prop) : List (List UInt8) → List α → Prop
  | nil : Yields P [] []
  | blank {line : List UInt8} {lines : List (List UInt8)} {xs : List α} (shows : Shows [] line)
      (rest : Yields P lines xs) : Yields P (line :: lines) xs
  | datum {line : List UInt8} {lines : List (List UInt8)} {fs : List (List Char)} {x : α}
      {xs : List α} (shows : Shows fs line) (ne_nil : fs ≠ []) (stands : P fs x)
      (rest : Yields P lines xs) : Yields P (line :: lines) (x :: xs)

/-- The first thing that is wrong with a line: it is no UTF-8, or a record to which something is
objected. -/
inductive Rejects (objections : Record → List (TextError W)) (number : Nat) (line : List UInt8) :
    TextError W → Prop
  | undecodable (undecodable : ∀ cs, line ≠ encode cs) : Rejects objections number line .invalidUtf8
  | objection {fs : List (List Char)} {e : TextError W} (shows : Shows fs line) (ne_nil : fs ≠ [])
      (first : (objections ⟨number, fs⟩).head? = some e) : Rejects objections number line e

/-! ## Lines in messages -/

/-- The line that an error names, if it names one. -/
def TextError.line? : TextError W → Option Nat
  | tooManyFields line | tooFewFields line _ | badField line _ | badWeight line _
  | unknownVertex line _ | assignedTwice line _ => some line
  | broken _ | invalidUtf8 | tooManyVertices _ | unassigned _ => none

/-- A message about a line. -/
def atLine (line : Nat) (cause : String) : String := s!"line {line}: {cause}"

/-- A message that goes on behind the number of a line with a colon is about that line. -/
private theorem exists_atLine (line : Nat) (text cause : String) (rest : List String)
    (h : text = ": " ++ cause) :
    ∃ cause, rest.foldl (· ++ ·) ("line " ++ toString line ++ text) = atLine line cause := by
  have hfold : ∀ a b : String, rest.foldl (· ++ ·) (a ++ b) = a ++ rest.foldl (· ++ ·) b := by
    induction rest with
    | nil => simp
    | cons s rest ih => simp [String.append_assoc, ih]
  refine ⟨rest.foldl (· ++ ·) cause, ?_⟩
  rw [h, hfold, hfold]
  change _ = "line " ++ toString line ++ ": " ++ rest.foldl (· ++ ·) cause
  simp only [String.append_assoc]

/-- The message names the line. -/
theorem TextError.exists_message (weights : WeightText W) {e : TextError W} {line : Nat}
    (h : e.line? = some line) : ∃ cause, e.message weights = atLine line cause := by
  cases e with
  | broken | invalidUtf8 | tooManyVertices | unassigned => cases h
  | tooManyFields =>
    cases h
    exact exists_atLine line ": expected 'src dst [weight]'" "expected 'src dst [weight]'" []
      (by decide)
  | tooFewFields _ needed =>
    cases h
    exact exists_atLine line ": expected at least " "expected at least "
      [toString needed, " fields"] (by decide)
  | badField _ field =>
    cases h
    exact exists_atLine line ": cannot parse '" "cannot parse '" [String.ofList field, "'"]
      (by decide)
  | badWeight _ weight =>
    cases h
    exact exists_atLine line ": weight must be finite and non-negative, got "
      "weight must be finite and non-negative, got " [weights.plain weight] (by decide)
  | unknownVertex _ vertex =>
    cases h
    exact exists_atLine line ": vertex " "vertex " [toString vertex, " is not in the graph"]
      (by decide)
  | assignedTwice _ vertex =>
    cases h
    exact exists_atLine line ": vertex " "vertex " [toString vertex, " assigned twice"]
      (by decide)

/-! ## One line -/

section Line

variable {fs : List (List Char)} {line : List UInt8}

theorem shows_iff : Shows fs line ↔
    ∃ cs, (decodeLine line : Except (TextError W) (List Char)) = .ok cs ∧ fieldsOf cs = fs := by
  simp only [Shows, decodeLine_eq_ok_iff, spells_iff]

theorem shows_encode (cs : List Char) : Shows (fieldsOf cs) (encode cs) :=
  ⟨cs, rfl, spells_iff.2 rfl⟩

theorem decodeLine_eq_error_iff {e : TextError W} :
    (decodeLine line : Except (TextError W) (List Char)) = .error e ↔
      (∀ cs, line ≠ encode cs) ∧ e = .invalidUtf8 := by
  constructor
  · intro h
    refine ⟨fun cs hcs => ?_, ?_⟩
    · rw [decodeLine_eq_ok_iff.2 hcs] at h
      cases h
    · rw [decodeLine] at h
      split at h
      · cases h
      · cases h
        rfl
  · rintro ⟨hline, rfl⟩
    rw [decodeLine]
    split
    · next s hs =>
      exact absurd (decodeLine_eq_ok_iff (W := W).1 (by rw [decodeLine, hs])) (hline s.toList)
    · rfl

/-- What a line makes of what there was before it. -/
private def lineStep (f : β → Record → Except (TextError W) β) (x : β) (l : List UInt8 × Nat) :
    Except (TextError W) β := do
  match Record.ofLine? l.2 (← decodeLine l.1) with
  | some r => f x r
  | none => return x

variable {f : β → Record → Except (TextError W) β} {x x' : β} {number : Nat} {e : TextError W}

private theorem lineStep_eq_ok_iff : lineStep f x (line, number) = .ok x' ↔
    (Shows [] line ∧ x' = x) ∨ ∃ fs, Shows fs line ∧ fs ≠ [] ∧ f x ⟨number, fs⟩ = .ok x' := by
  simp only [shows_iff (W := W)]
  cases h : (decodeLine line : Except (TextError W) (List Char)) with
  | error e => simp [lineStep, h]
  | ok cs =>
    rw [lineStep, h, ok_bind, Record.ofLine?]
    cases hfs : fieldsOf cs with
    | nil => simpa [hfs] using eq_comm
    | cons => simp [hfs]

private theorem lineStep_eq_error_iff : lineStep f x (line, number) = .error e ↔
    ((∀ cs, line ≠ encode cs) ∧ e = .invalidUtf8) ∨
      ∃ fs, Shows fs line ∧ fs ≠ [] ∧ f x ⟨number, fs⟩ = .error e := by
  simp only [shows_iff (W := W), ← decodeLine_eq_error_iff]
  cases h : (decodeLine line : Except (TextError W) (List Char)) with
  | error e => simp [lineStep, h]
  | ok cs =>
    rw [lineStep, h, ok_bind, Record.ofLine?]
    cases hfs : fieldsOf cs with
    | nil => simp [hfs]
    | cons => simp [hfs]

theorem rejects_iff {objections : Record → List (TextError W)} : Rejects objections number line e ↔
    ((∀ cs, line ≠ encode cs) ∧ e = .invalidUtf8) ∨
      ∃ fs, Shows fs line ∧ fs ≠ [] ∧ (objections ⟨number, fs⟩).head? = some e := by
  constructor
  · rintro (h | ⟨hshows, hne, hfirst⟩)
    · exact .inl ⟨h, rfl⟩
    · exact .inr ⟨_, hshows, hne, hfirst⟩
  · rintro (⟨h, rfl⟩ | ⟨fs, hshows, hne, hfirst⟩)
    · exact .undecodable h
    · exact .objection hshows hne hfirst

/-! ## All lines -/

section Fold

variable {P : List (List Char) → α → Prop} {step : β → α → Option β}
  (hf : ∀ x r x', f x r = .ok x' ↔ ∃ a, P r.fields a ∧ step x a = some x')
include hf

private theorem foldlM_lineStep_eq_ok_iff {lines : List (List UInt8)} {start : Nat} :
    (lines.zipIdx start).foldlM (lineStep f) x = .ok x' ↔
      ∃ as, Yields P lines as ∧ as.foldlM step x = some x' := by
  constructor
  -- Line by line: a blank one passes on what there is, any other one takes a step.
  · intro h
    induction lines generalizing start x with
    | nil =>
      cases h
      exact ⟨[], .nil, rfl⟩
    | cons line lines ih =>
      rw [List.zipIdx_cons, List.foldlM_cons] at h
      obtain ⟨y, hline, h⟩ := bind_eq_ok_iff.1 h
      obtain ⟨as, has, hfold⟩ := ih h
      obtain ⟨hblank, rfl⟩ | ⟨fs, hshows, hne, hrecord⟩ := lineStep_eq_ok_iff.1 hline
      · exact ⟨as, .blank hblank has, hfold⟩
      · obtain ⟨a, ha, hstep⟩ := (hf _ _ _).1 hrecord
        exact ⟨a :: as, .datum hshows hne ha has, by simp [hstep, hfold]⟩
  · rintro ⟨as, has, hfold⟩
    induction has generalizing start x with
    | nil =>
      cases hfold
      rfl
    | blank hshows _ ih =>
      rw [List.zipIdx_cons, List.foldlM_cons, lineStep_eq_ok_iff.2 (.inl ⟨hshows, rfl⟩), ok_bind]
      exact ih hfold
    | datum hshows hne hstands _ ih =>
      rw [List.foldlM_cons, Option.bind_eq_bind, Option.bind_eq_some_iff] at hfold
      obtain ⟨y, hstep, hfold⟩ := hfold
      rw [List.zipIdx_cons, List.foldlM_cons, lineStep_eq_ok_iff.2
        (.inr ⟨_, hshows, hne, (hf _ _ _).2 ⟨_, hstands, hstep⟩⟩), ok_bind]
      exact ih hfold

end Fold

end Line

namespace Source

variable {f : β → Record → Except (TextError W) β} {x x' : β} {e : TextError W}

private theorem foldRecords_eq (bytes : ByteArray) (x : β)
    (f : β → Record → Except (TextError W) β) :
    (mk bytes none).foldRecords x f = ((linesOf bytes).zipIdx 1).foldlM (lineStep f) x := by
  have hlines : ((mk bytes none).lines : List (Except (TextError W) (List Char))) =
      (linesOf bytes).map decodeLine := rfl
  rw [foldRecords, hlines, List.zipIdx_map, List.foldlM_map]
  rfl

section Fold

variable {bytes : ByteArray} {P : List (List Char) → α → Prop} {step : β → α → Option β}
  (hf : ∀ x r x', f x r = .ok x' ↔ ∃ a, P r.fields a ∧ step x a = some x')
include hf

theorem foldRecords_eq_ok_iff_yields : (mk bytes none).foldRecords x f = .ok x' ↔
    ∃ as, Yields P (linesOf bytes) as ∧ as.foldlM step x = some x' := by
  rw [foldRecords_eq, foldlM_lineStep_eq_ok_iff hf]

/-- The error is that of the first line that is rejected; what is objected to a record can hang on
the data before it. -/
theorem foldRecords_eq_error_iff {objections : List α → Record → List (TextError W)}
    (hobjections : ∀ as y, as.foldlM step x = some y → ∀ r, Heeds (f y r) (objections as r)) :
    (mk bytes none).foldRecords x f = .error e ↔
      ∃ before line after as y, linesOf bytes = before ++ line :: after ∧ Yields P before as ∧
        as.foldlM step x = some y ∧ Rejects (objections as) (before.length + 1) line e := by
  rw [foldRecords_eq, foldlM_eq_error_iff]
  constructor
  · rintro ⟨_, _, _, y, hzip, hbefore, hline⟩
    obtain ⟨before, _, hlines, rfl, hrest⟩ := List.zipIdx_eq_append_iff.1 hzip
    obtain ⟨line, after, rfl, rfl, -⟩ := List.zipIdx_eq_cons_iff.1 hrest.symm
    obtain ⟨as, has, hfold⟩ := (foldlM_lineStep_eq_ok_iff hf).1 hbefore
    rw [lineStep_eq_error_iff] at hline
    simp only [hobjections as y hfold _ e] at hline
    refine ⟨before, line, after, as, y, hlines, has, hfold, ?_⟩
    rwa [rejects_iff, Nat.add_comm]
  · rintro ⟨before, line, after, as, y, hlines, has, hfold, hrejects⟩
    refine ⟨before.zipIdx 1, (line, 1 + before.length), after.zipIdx (1 + before.length + 1), y, ?_,
      (foldlM_lineStep_eq_ok_iff hf).2 ⟨as, has, hfold⟩, ?_⟩
    · rw [hlines, List.zipIdx_append, List.zipIdx_cons]
    · rw [lineStep_eq_error_iff]
      simp only [hobjections as y hfold _ e]
      rwa [← rejects_iff, Nat.add_comm]

end Fold

section Map

variable {bytes : ByteArray} {read : Record → Except (TextError W) α}
  {P : List (List Char) → α → Prop} {as : List α}

private theorem mapRecords_eq (s : Source) (read : Record → Except (TextError W) α) :
    s.mapRecords read = s.foldRecords [] fun as r => (read r).map (as ++ [·]) := by
  have hnil : ∀ x : Except (TextError W) (List α), x = x.map ([] ++ ·) := fun x => by
    cases x <;> rfl
  rw [hnil (s.mapRecords read), mapRecords, map_filterMapM_eq_foldlM, foldRecords]
  refine foldlM_congr (fun l _ as => ?_) []
  obtain ⟨line, number⟩ := l
  cases line with
  | error e => rfl
  | ok cs =>
    dsimp only
    rw [ok_bind, ok_bind]
    cases Record.ofLine? number cs with
    | none => simp [Except.map]
    | some r =>
      dsimp only
      cases read r <;> rfl

private theorem foldlM_concat (as bs : List α) :
    bs.foldlM (fun as a => some (as ++ [a])) as = some (as ++ bs) := by
  induction bs generalizing as with
  | nil => simp
  | cons b bs ih => simp [ih]

variable (hread : ∀ r a, read r = .ok a ↔ P r.fields a)
include hread

private theorem map_concat_eq_ok_iff (as : List α) (r : Record) (as' : List α) :
    (read r).map (as ++ [·]) = .ok as' ↔ ∃ a, P r.fields a ∧ some (as ++ [a]) = some as' := by
  simp [map_eq_ok_iff, hread]

theorem mapRecords_eq_ok_iff_yields :
    (mk bytes none).mapRecords read = .ok as ↔ Yields P (linesOf bytes) as := by
  rw [mapRecords_eq, foldRecords_eq_ok_iff_yields (map_concat_eq_ok_iff hread)]
  simp [foldlM_concat]

theorem mapRecords_eq_error_iff {objections : Record → List (TextError W)}
    (hobjections : ∀ r, Heeds (read r) (objections r)) :
    (mk bytes none).mapRecords read = .error e ↔
      ∃ before line after as, linesOf bytes = before ++ line :: after ∧ Yields P before as ∧
        Rejects objections (before.length + 1) line e := by
  have hconcat : ∀ (as y : List α), as.foldlM (fun as a => some (as ++ [a])) [] = some y →
      ∀ r, Heeds ((read r).map (y ++ [·])) (objections r) := fun _ y _ r e => by
    rw [map_eq_error_iff]
    exact hobjections r e
  rw [mapRecords_eq, foldRecords_eq_error_iff (map_concat_eq_ok_iff hread) hconcat]
  simp [foldlM_concat]

end Map

end Source

end Communities.Text
