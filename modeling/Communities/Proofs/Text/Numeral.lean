import Communities.Proofs.Text.Verdict

/-!
# Numerals

The numbers of a text are below `2 ^ 64` and written in digits.

* `IsNumeral`: which fields are such a number; `number?_eq_some_iff`: these are read as it.
* `Record.numberObjections`: what is wrong with a field that is none; `Record.heeds_number`: that is
  why it is not read.
* `number?_toString`: a number that is written out is read back.
-/

namespace Communities.Text

variable {field : List Char} {n : Nat}

/-- The field is a number below `2 ^ 64`: digits, and maybe a plus before them. -/
def IsNumeral (n : Nat) (field : List Char) : Prop :=
  ∃ digits, (field = digits ∨ field = '+' :: digits) ∧ digits ≠ [] ∧ (∀ d ∈ digits, d.isDigit) ∧
    Decimal.ofDigits digits = n ∧ n < countBound

theorem IsNumeral.lt (h : IsNumeral n field) : n < countBound := by
  obtain ⟨-, -, -, -, -, hlt⟩ := h
  exact hlt

private theorem number?_of_digits {digits : List Char} (hdrop : Decimal.dropPlus field = digits)
    (hne : digits ≠ []) (hdigits : ∀ d ∈ digits, d.isDigit)
    (hlt : Decimal.ofDigits digits < countBound) :
    number? field = some (Decimal.ofDigits digits) := by
  have hcond : (!digits.isEmpty && digits.all (·.isDigit)) = true := by
    simp [hne, List.all_eq_true.2 hdigits]
  rw [number?, Decimal.natural?, hdrop]
  dsimp only
  rw [if_pos hcond, if_pos hlt]

theorem number?_eq_some_iff : number? field = some n ↔ IsNumeral n field := by
  constructor
  · intro h
    rw [number?, Decimal.natural?] at h
    dsimp only at h
    split at h
    · next hcond =>
      split at h
      · next hlt =>
        obtain rfl := Option.some.inj h
        simp only [Bool.and_eq_true, Bool.not_eq_true', List.isEmpty_eq_false_iff, List.all_eq_true]
          at hcond
        refine ⟨_, ?_, hcond.1, hcond.2, rfl, hlt⟩
        unfold Decimal.dropPlus
        split
        · exact .inr rfl
        · exact .inl rfl
      · cases h
    · cases h
  · rintro ⟨digits, hfield, hne, hdigits, rfl, hlt⟩
    refine number?_of_digits ?_ hne hdigits hlt
    obtain rfl | rfl := hfield
    · unfold Decimal.dropPlus
      split
      · exact absurd (hdigits '+' List.mem_cons_self) (by decide)
      · rfl
    · rfl

/-- A number that is written out is read back. -/
theorem number?_toString (hn : n < countBound) : number? (toString n).toList = some n := by
  rw [number?_eq_some_iff, Nat.toString_eq_ofList_toDigits, String.toList_ofList]
  exact ⟨_, .inl rfl, Nat.toDigits_ne_nil,
    fun d hd => Nat.isDigit_of_mem_toDigits (by decide) (by decide) hd,
    Nat.ofDigitChars_ten_toDigits, hn⟩

/-! ## Fields that are no numbers -/

/-- What can be said against the field at place `i` as a number. -/
def Record.numberObjections {W : Type} (r : Record) (i : Nat) : List (TextError W) :=
  match r.fields[i]? with
  | none => [.tooFewFields r.line (i + 1)]
  | some field => if (number? field).isSome then [] else [.badField r.line field]

theorem Record.heeds_number {W : Type} (r : Record) (i : Nat) :
    Heeds (r.number i : Except (TextError W) Nat) (r.numberObjections i) := by
  have hread : ∀ field, Decimal.natural? countBound field = number? field := fun _ => rfl
  rw [number, field, numberObjections]
  simp only [hread]
  cases r.fields[i]? with
  | none => exact .error _ _
  | some field =>
    cases hfield : number? field with
    | none => simpa [hfield] using Heeds.error _ _
    | some n => simpa [hfield] using Heeds.ok n

theorem Record.line?_of_mem_numberObjections {W : Type} {r : Record} {i : Nat} {e : TextError W}
    (he : e ∈ r.numberObjections i) : e.line? = some r.line := by
  rw [numberObjections] at he
  split at he
  · obtain rfl := List.mem_singleton.1 he
    rfl
  · split at he
    · cases he
    · obtain rfl := List.mem_singleton.1 he
      rfl

end Communities.Text
