import Communities.CommandLine.Folder
import Communities.Proofs.Gzip
import Communities.Proofs.Loop

/-!
# Files that are written

A text that is written to a file, compressed or not, is the text that is read from there afterwards,
and no other file is touched.

* `fileText_fileBytes`: the text of the bytes for a text is that text.
* `Folder.open?_write`: what has been written can be read; `Folder.lookup_write`: the other files
  stay as they are.
-/

namespace Communities.CommandLine

open Text (Source)

theorem fileText_fileBytes (path text : String) :
    fileText path (fileBytes path text) = .ofString text := by
  rw [fileText, fileBytes]
  cases isCompressed path with
  | false => rfl
  | true => rw [if_pos rfl, if_pos rfl, Gzip.decode_encode, Source.ofString]

namespace Folder

variable {folder after : Folder} {path text name : String}

theorem write_eq_ok_iff : folder.write path text = .ok after ↔
    path.startsWith "/" = false ∧ isFolderPath path = false ∧ ∃ name,
      folder.resolve path = .ok name ∧
        after = ⟨folder.files.filter (·.1 ≠ name) ++ [(name, fileBytes path text)]⟩ := by
  rw [write]
  cases path.startsWith "/" with
  | true => simp
  | false =>
    cases folder.resolve path with
    | error e => simp
    | ok name => cases isFolderPath path <;> simp [eq_comm]

/-- The name that a path leads to does not depend on what is in a folder. -/
theorem resolve_of_eq_ok (h : folder.resolve path = .ok name) (other : Folder) :
    other.resolve path = .ok name := by
  rw [resolve] at h ⊢
  split at h
  · cases h
  · cases h
  · exact h
  · split at h <;> cases h

/-- A path to a file is looked up by the name it leads to. -/
theorem read_eq_lookup (hroot : path.startsWith "/" = false) (hfile : isFolderPath path = false)
    (hname : folder.resolve path = .ok name) :
    folder.read path = (folder.files.lookup name).elim (.error .missing) .ok := by
  rw [read, if_neg (by simp [hroot]), hname, ok_bind]
  cases folder.files.lookup name with
  | none => rfl
  | some bytes => exact if_neg (by simp [hfile])

theorem open?_of_lookup (hroot : path.startsWith "/" = false) (hfile : isFolderPath path = false)
    (hname : folder.resolve path = .ok name)
    (hbytes : folder.files.lookup name = some (fileBytes path text)) :
    folder.open? path = .ofString text := by
  rw [open?, read_eq_lookup hroot hfile hname, hbytes]
  exact fileText_fileBytes path text

private theorem lookup_others (files : List (String × ByteArray)) {name other : String}
    (h : other ≠ name) : (files.filter (·.1 ≠ name)).lookup other = files.lookup other := by
  induction files with
  | nil => rfl
  | cons file files ih =>
    obtain ⟨key, bytes⟩ := file
    by_cases hkey : key = name
    · have hne : (other == key) = false := beq_false_of_ne (hkey ▸ h)
      rw [List.filter_cons_of_neg (by simpa using hkey), ih, List.lookup_cons, hne]
    · rw [List.filter_cons_of_pos (by simpa using hkey), List.lookup_cons, List.lookup_cons, ih]

/-- Only the file at the path is touched. -/
theorem lookup_write (h : folder.write path text = .ok after) (hname : folder.resolve path ≠ .ok name) :
    after.files.lookup name = folder.files.lookup name := by
  obtain ⟨-, -, target, htarget, rfl⟩ := write_eq_ok_iff.1 h
  have hne : name ≠ target := fun heq => hname (heq ▸ htarget)
  rw [List.lookup_append, lookup_others _ hne, List.lookup_cons, beq_false_of_ne hne, List.lookup_nil,
    Option.or_none]

/-- What has been written can be read. -/
theorem open?_write (h : folder.write path text = .ok after) : after.open? path = .ofString text := by
  obtain ⟨hroot, hfile, name, hname, rfl⟩ := write_eq_ok_iff.1 h
  have hgone : (folder.files.filter (·.1 ≠ name)).lookup name = none := by
    rw [List.lookup_eq_none_iff]
    intro file hfile
    have hne : file.1 ≠ name := by simpa using (List.mem_filter.1 hfile).2
    exact bne_iff_ne.2 hne.symm
  refine open?_of_lookup hroot hfile (resolve_of_eq_ok hname _) ?_
  rw [List.lookup_append, hgone, List.lookup_cons, beq_self_eq_true, Option.none_or]

end Folder

end Communities.CommandLine
