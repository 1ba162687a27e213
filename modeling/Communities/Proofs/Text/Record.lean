import Communities.Proofs.Loop
import Communities.Proofs.Text.Lines
import Mathlib.Data.List.Forall2

/-!
# What a text holds

A line shows fields, with blanks around and between them and maybe a comment behind them. How many
blanks there are, and of which kind, and what the comment says, makes no difference: a line has one
list of fields, and a text one list of records. Where nothing about a text is wrong, reading it
comes down to reading the records one after the other.

* `Spells`: which lines show which fields, and `spells_iff`: these are the fields that are found.
* `Source.Holds`: which texts hold which records.
* `Source.mapRecords_eq_ok_iff` and `Source.foldRecords_eq_ok_iff`: where each record is read without
  regard to the number of its line, only the records matter.
-/

namespace Communities.Text

/-! ## Fields -/

/-- The characters of a field: at least one, none of them a blank or the start of a comment. -/
def IsField (f : List Char) : Prop := f ≠ [] ∧ ∀ c ∈ f, isBlank c = false ∧ c ≠ '#'

/-- Fields in a row, with blanks around them, and at least one blank between two of them. -/
inductive Spaced : List (List Char) → List Char → Prop
  | nil : Spaced [] []
  | blank {c : Char} {cs : List Char} {fs : List (List Char)} (isBlank_c : isBlank c)
      (rest : Spaced fs cs) : Spaced fs (c :: cs)
  | field {f cs : List Char} {fs : List (List Char)} (isField : IsField f)
      (ends : ∀ c ∈ cs.head?, isBlank c) (rest : Spaced fs cs) : Spaced (f :: fs) (f ++ cs)

/-- The line shows the fields: these in a row, and maybe a comment behind them. -/
def Spells (fs : List (List Char)) (line : List Char) : Prop :=
  ∃ body comment, line = body ++ comment ∧ Spaced fs body ∧ ∀ c ∈ comment.head?, c = '#'

variable {fs : List (List Char)} {cs line : List Char}

private theorem ne_hash_of_isBlank {c : Char} (h : isBlank c) : c ≠ '#' := by
  rintro rfl
  revert h
  decide

theorem Spaced.ne_hash (h : Spaced fs cs) : ∀ c ∈ cs, c ≠ '#' := by
  induction h with
  | nil => simp
  | blank hc _ ih => exact List.forall_mem_cons.2 ⟨ne_hash_of_isBlank hc, ih⟩
  | field hf _ _ ih => exact List.forall_mem_append.2 ⟨fun c hc => (hf.2 c hc).2, ih⟩

/-- Splitting at blanks finds the fields. -/
theorem Spaced.splitOnP_eq (h : Spaced fs cs) :
    (cs.splitOnP isBlank).filter (!·.isEmpty) = fs := by
  induction h with
  | nil => rfl
  | blank hc _ ih => simpa [List.splitOnP_cons_eq_if_modifyHead, hc] using ih
  | @field f cs fs hf hends _ ih =>
    have hnone : ∀ c ∈ f, isBlank c = false := fun c hc => (hf.2 c hc).1
    have hne : f.isEmpty = false := by simpa using hf.1
    cases cs with
    | nil => simpa [List.splitOnP_eq_singleton hnone, hne] using ih
    | cons c cs =>
      have hc : isBlank c := hends c rfl
      rw [List.splitOnP_append_cons_of_forall_mem hnone c hc, List.filter_cons_of_pos (by simp [hne])]
      simpa [List.splitOnP_cons_eq_if_modifyHead, hc] using ih

/-- Characters before a comment show fields. -/
theorem exists_spaced (h : ∀ c ∈ cs, c ≠ '#') : ∃ fs, Spaced fs cs := by
  induction cs with
  | nil => exact ⟨[], .nil⟩
  | cons c cs ih =>
    rw [List.forall_mem_cons] at h
    obtain ⟨fs, hfs⟩ := ih h.2
    by_cases hc : isBlank c
    · exact ⟨fs, .blank hc hfs⟩
    have hc' : isBlank c = false := by simpa using hc
    have hsingle : IsField [c] := ⟨by simp, by simpa using ⟨hc', h.1⟩⟩
    cases hfs with
    | nil => exact ⟨[[c]], .field hsingle (by simp) .nil⟩
    | blank hb hrest => exact ⟨[c] :: fs, .field hsingle (by simpa using hb) (.blank hb hrest)⟩
    | @field f _ fs hf hends hrest =>
      have hlonger : IsField (c :: f) := ⟨by simp, List.forall_mem_cons.2 ⟨⟨hc', h.1⟩, hf.2⟩⟩
      exact ⟨(c :: f) :: fs, .field hlonger hends hrest⟩

/-- The fields that are found in a line are those that it shows. -/
theorem spells_iff : Spells fs line ↔ fieldsOf line = fs := by
  constructor
  · rintro ⟨body, comment, rfl, hbody, hcomment⟩
    have htake : (body ++ comment).takeWhile (· ≠ '#') = body := by
      rw [List.takeWhile_append_of_pos (by simpa using hbody.ne_hash)]
      cases comment with
      | nil => simp
      | cons c comment => simp [hcomment c rfl]
    rw [fieldsOf, htake, hbody.splitOnP_eq]
  · intro h
    obtain ⟨fs', hfs'⟩ : ∃ fs', Spaced fs' (line.takeWhile (· ≠ '#')) :=
      exists_spaced fun c hc => by simpa using List.all_eq_true.1 List.all_takeWhile c hc
    have hfields : fs' = fs := by rw [← h, fieldsOf, hfs'.splitOnP_eq]
    refine ⟨_, _, List.takeWhile_append_dropWhile.symm, hfields ▸ hfs', fun c hc => ?_⟩
    have hstop := List.head?_dropWhile_not (· ≠ '#') line
    rw [Option.mem_def.1 hc] at hstop
    simpa using hstop

/-! ## Records -/

/-- The records on the lines of a text. -/
def numbered (ls : List (List Char)) : List Record :=
  (ls.zipIdx 1).filterMap fun (line, number) => Record.ofLine? number line

/-- The text holds the records: the fields of each line that shows any, in the order of the lines. -/
def Source.Holds (s : Source) (rs : List (List (List Char))) : Prop :=
  ∃ text all, s = .ofString text ∧ List.Forall₂ Spells all (text.toList.splitOn '\n') ∧
    rs = all.filter (· ≠ [])

private theorem fields_ofLine? (number : Nat) (line : List Char) :
    (Record.ofLine? number line).map (·.fields) =
      if fieldsOf line ≠ [] then some (fieldsOf line) else none := by
  rw [Record.ofLine?]
  cases fieldsOf line <;> simp

theorem map_fields_numbered (ls : List (List Char)) :
    (numbered ls).map (·.fields) = (ls.map fieldsOf).filter (· ≠ []) := by
  rw [numbered, List.map_filterMap]
  simp only [fields_ofLine?]
  generalize 1 = start
  induction ls generalizing start with
  | nil => rfl
  | cons l ls ih =>
    rw [List.zipIdx_cons, List.filterMap_cons, List.map_cons, List.filter_cons, ← ih (start + 1)]
    by_cases hl : fieldsOf l = [] <;> simp [hl]

namespace Source

variable {s : Source} {rs : List (List (List Char))}

theorem holds_iff : s.Holds rs ↔
    ∃ text, s = .ofString text ∧ rs = (numbered (text.toList.splitOn '\n')).map (·.fields) := by
  simp only [map_fields_numbered]
  constructor
  · rintro ⟨text, all, rfl, hall, rfl⟩
    refine ⟨text, rfl, ?_⟩
    have hmap : all = (text.toList.splitOn '\n').map fieldsOf := by
      generalize text.toList.splitOn '\n' = ls at hall
      induction hall with
      | nil => rfl
      | cons h _ ih => rw [List.map_cons, spells_iff.1 h, ← ih]
    rw [hmap]
  · rintro ⟨text, rfl, rfl⟩
    exact ⟨text, _, rfl, List.forall₂_map_left_iff.2 (List.forall₂_same.2 fun l _ =>
      spells_iff.2 rfl), rfl⟩

/-- A text holds one list of records. -/
theorem Holds.unique {rs' : List (List (List Char))} (h : s.Holds rs) (h' : s.Holds rs') :
    rs = rs' := by
  obtain ⟨text, rfl, rfl⟩ := holds_iff.1 h
  obtain ⟨text', htext, rfl⟩ := holds_iff.1 h'
  rw [ofString, ofString, mk.injEq] at htext
  rw [String.toByteArray_inj.1 htext.1]

/-- The other text holds the same records, each rewritten by `R`, in any order. -/
def Rewritten (R : List (List Char) → List (List Char) → Prop) (s s' : Source) : Prop :=
  ∃ rs rewritten rs', s.Holds rs ∧ List.Forall₂ R rs rewritten ∧ rewritten.Perm rs' ∧ s'.Holds rs'

/-! ## Reading -/

variable {W α : Type}

/-- A source of which every line is accepted is a text. -/
private theorem exists_ofString
    (h : ∀ x ∈ (s.lines : List (Except (TextError W) (List Char))).zipIdx 1,
      ∃ line, x.1 = .ok line) : ∃ text, s = .ofString text := by
  have hlines : ∃ ls : List (List Char),
      (s.lines : List (Except (TextError W) (List Char))) = ls.map .ok := by
    generalize 1 = start at h
    generalize (s.lines : List (Except (TextError W) (List Char))) = lines at h
    induction lines generalizing start with
    | nil => exact ⟨[], rfl⟩
    | cons x lines ih =>
      rw [List.zipIdx_cons, List.forall_mem_cons] at h
      obtain ⟨l, rfl⟩ := h.1
      obtain ⟨ls, rfl⟩ := ih _ h.2
      exact ⟨l :: ls, rfl⟩
  obtain ⟨ls, hls⟩ := hlines
  obtain ⟨text, hs, -⟩ := lines_eq_map_ok_iff.1 hls
  exact ⟨text, hs⟩

theorem mapRecords_ofString (text : String) (f : Record → Except (TextError W) α) :
    (ofString text).mapRecords f = (numbered (text.toList.splitOn '\n')).mapM f := by
  rw [mapRecords, lines_ofString, numbered]
  generalize text.toList.splitOn '\n' = ls
  generalize 1 = start
  induction ls generalizing start with
  | nil => rfl
  | cons l ls ih =>
    rw [List.map_cons, List.zipIdx_cons, List.zipIdx_cons, List.filterMapM_cons, ih (start + 1),
      List.filterMap_cons]
    dsimp only
    rw [ok_bind]
    cases Record.ofLine? start l with
    | none => rfl
    | some r =>
      dsimp only
      rw [List.mapM_cons]
      cases f r <;> rfl

theorem foldRecords_ofString (text : String) (init : α)
    (f : α → Record → Except (TextError W) α) :
    (ofString text).foldRecords init f = (numbered (text.toList.splitOn '\n')).foldlM f init := by
  rw [foldRecords, lines_ofString, numbered]
  generalize text.toList.splitOn '\n' = ls
  generalize 1 = start
  induction ls generalizing start init with
  | nil => rfl
  | cons l ls ih =>
    rw [List.map_cons, List.zipIdx_cons, List.zipIdx_cons, List.foldlM_cons, List.filterMap_cons]
    dsimp only
    rw [ok_bind]
    cases Record.ofLine? start l with
    | none => exact ih init (start + 1)
    | some r =>
      dsimp only
      rw [List.foldlM_cons]
      exact bind_congr fun x => ih x (start + 1)

theorem ofString_of_mapRecords {f : Record → Except (TextError W) α} {xs : List α}
    (h : s.mapRecords f = .ok xs) : ∃ text, s = .ofString text :=
  exists_ofString fun x hx => by
    obtain ⟨_, h⟩ := exists_of_filterMapM h x hx
    obtain ⟨line, hline, -⟩ := bind_eq_ok_iff.1 h
    exact ⟨line, hline⟩

theorem ofString_of_foldRecords {init x : α} {f : α → Record → Except (TextError W) α}
    (h : s.foldRecords init f = .ok x) : ∃ text, s = .ofString text :=
  exists_ofString fun x hx => by
    obtain ⟨_, _, h⟩ := exists_of_foldlM h x hx
    obtain ⟨line, hline, -⟩ := bind_eq_ok_iff.1 h
    exact ⟨line, hline⟩

/-- What is read from the records of a rewritten text. -/
theorem Rewritten.exists_forall₂ {β : Type} {s' : Source}
    {R : List (List Char) → List (List Char) → Prop} {P : List (List Char) → α → Prop} {xs : List α}
    (h : s.Rewritten R s') (hs : s.Holds rs) (hxs : List.Forall₂ P rs xs) (key key' : α → β)
    (hR : ∀ fs fs' x, R fs fs' → P fs x → ∃ x', P fs' x' ∧ key' x' = key x) :
    ∃ rs' xs', s'.Holds rs' ∧ List.Forall₂ P rs' xs' ∧ (xs.map key).Perm (xs'.map key') := by
  obtain ⟨rs₀, rewritten, rs', hs₀, hrewritten, hperm, hs'⟩ := h
  obtain rfl := hs₀.unique hs
  obtain ⟨ys, hys, hkeys⟩ : ∃ ys, List.Forall₂ P rewritten ys ∧ ys.map key' = xs.map key := by
    clear hs hs₀ hperm
    induction hrewritten generalizing xs with
    | nil =>
      cases hxs
      exact ⟨[], .nil, rfl⟩
    | cons hr _ ih =>
      obtain _ | ⟨hx, hxs⟩ := hxs
      obtain ⟨y, hy, hkey⟩ := hR _ _ _ hr hx
      obtain ⟨ys, hys, hkeys⟩ := ih hxs
      exact ⟨y :: ys, .cons hy hys, by rw [List.map_cons, List.map_cons, hkey, hkeys]⟩
  obtain ⟨xs', hxs', hperm'⟩ := List.perm_comp_forall₂ hperm.symm hys
  exact ⟨rs', xs', hs', hxs', hkeys ▸ (hperm'.map key').symm⟩

theorem mapRecords_eq_ok_iff {f : Record → Except (TextError W) α}
    {g : List (List Char) → Option α} (hfg : ∀ r x, f r = .ok x ↔ g r.fields = some x)
    {xs : List α} : s.mapRecords f = .ok xs ↔
      ∃ rs, s.Holds rs ∧ List.Forall₂ (fun fs x => g fs = some x) rs xs := by
  have hrecords : ∀ records : List Record, records.mapM f = .ok xs ↔
      List.Forall₂ (fun fs x => g fs = some x) (records.map (·.fields)) xs := fun records => by
    rw [mapM_eq_ok_iff, List.forall₂_map_left_iff]
    simp only [hfg]
  constructor
  · intro h
    obtain ⟨text, rfl⟩ := ofString_of_mapRecords h
    rw [mapRecords_ofString, hrecords] at h
    exact ⟨_, holds_iff.2 ⟨text, rfl, rfl⟩, h⟩
  · rintro ⟨rs, hs, h⟩
    obtain ⟨text, rfl, rfl⟩ := holds_iff.1 hs
    rwa [mapRecords_ofString, hrecords]

theorem foldRecords_eq_ok_iff {f : α → Record → Except (TextError W) α}
    {g : α → List (List Char) → Option α} (hfg : ∀ x r x', f x r = .ok x' ↔ g x r.fields = some x')
    {init x : α} : s.foldRecords init f = .ok x ↔
      ∃ rs, s.Holds rs ∧ rs.foldlM g init = some x := by
  have hrecords : ∀ records : List Record, records.foldlM f init = .ok x ↔
      (records.map (·.fields)).foldlM g init = some x := fun records => by
    induction records generalizing init with
    | nil => simp
    | cons r records ih =>
      rw [List.foldlM_cons, List.map_cons, List.foldlM_cons, bind_eq_ok_iff,
        Option.bind_eq_bind, Option.bind_eq_some_iff]
      simp only [hfg, ih]
  constructor
  · intro h
    obtain ⟨text, rfl⟩ := ofString_of_foldRecords h
    rw [foldRecords_ofString, hrecords] at h
    exact ⟨_, holds_iff.2 ⟨text, rfl, rfl⟩, h⟩
  · rintro ⟨rs, hs, h⟩
    obtain ⟨text, rfl, rfl⟩ := holds_iff.1 hs
    rwa [foldRecords_ofString, hrecords]

end Source

/-! ## Fields of a record -/

/-- The 64-bit number in a field. -/
def number? (field : List Char) : Option Nat := Decimal.natural? countBound field

theorem Record.field_eq_ok_iff {r : Record} {read : List Char → Option α} {i : Nat} {x : α} :
    (r.field read i : Except (TextError W) α) = .ok x ↔
      ∃ field, r.fields[i]? = some field ∧ read field = some x := by
  rw [Record.field]
  cases r.fields[i]? with
  | none => simp
  | some field => cases hread : read field <;> simp [hread]

theorem Record.number_eq_ok_iff {r : Record} {i x : Nat} :
    (r.number i : Except (TextError W) Nat) = .ok x ↔
      ∃ field, r.fields[i]? = some field ∧ number? field = some x :=
  field_eq_ok_iff

/-- The first `k` fields give way to fields with the images of their numbers. -/
def Relabels (f : Nat → Nat) (k : Nat) (fs fs' : List (List Char)) : Prop :=
  fs'.drop k = fs.drop k ∧ List.Forall₂ (fun field field' => ∀ x, number? field = some x →
    number? field' = some (f x)) (fs.take k) (fs'.take k)

end Communities.Text
