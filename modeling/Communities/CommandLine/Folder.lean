import Communities.Gzip

/-!
# Folders

The paths of the command line, and a folder of files held in memory for them to lead into. A folder
has no folders in it. It fails in the way that a system does: what is not there cannot be read,
and what is a folder can be neither read nor written.

A path whose last name ends in `.gz` leads to a compressed file; `fileText` and `fileBytes` go
between the text and the bytes of a file.
-/

namespace Communities.CommandLine

open Text (Source)

/-- Why a file cannot be read or written. -/
inductive FileError where
  /-- There is no such file or folder. -/
  | missing
  /-- A file is used as a folder. -/
  | notFolder
  /-- A folder is used as a file. -/
  | isFolder
  deriving DecidableEq, Repr

/-- The wording of a file error. -/
def FileError.message : FileError → String
  | missing => "No such file or directory (os error 2)"
  | notFolder => "Not a directory (os error 20)"
  | isFolder => "Is a directory (os error 21)"

/-- The names on a path; a dot stands for no name. -/
def pathNames (path : String) : List (List Char) :=
  (path.toList.splitOn '/').filter fun name => !name.isEmpty && name ≠ ['.']

/-- Whether a path can only be that of a folder: it ends with a slash or with a dot for a name. -/
def isFolderPath (path : String) : Bool :=
  match (path.toList.splitOn '/').getLast? with
  | some name => name.isEmpty || name = ['.']
  | none => true

/-- Whether a path leads to a compressed file: the last name has more before `.gz`. -/
def isCompressed (path : String) : Bool :=
  match (pathNames path).getLast? with
  | some name => ['.', 'g', 'z'].isSuffixOf name && 3 < name.length
  | none => false

/-- The text in the bytes of the file at a path. -/
def fileText (path : String) (bytes : ByteArray) : Source :=
  if isCompressed path then Gzip.decode bytes else { bytes }

/-- The bytes for a text in the file at a path. -/
def fileBytes (path : String) (text : String) : ByteArray :=
  if isCompressed path then Gzip.encode text.toUTF8 else text.toUTF8

/-- Files by their names. -/
structure Folder where
  /-- The names and contents. -/
  files : List (String × ByteArray)

namespace Folder

/-- The name of the file in a folder that a path leads to; that file need not be there. -/
def resolve (folder : Folder) (path : String) : Except FileError String :=
  match pathNames path with
  | [] => .error .isFolder
  | [['.', '.']] => .error .isFolder
  | [name] => .ok (.ofList name)
  | name :: _ =>
    if (folder.files.lookup (.ofList name)).isSome then .error .notFolder else .error .missing

/-- The bytes of the file at a path. -/
def read (folder : Folder) (path : String) : Except FileError ByteArray := do
  if path.startsWith "/" then
    .error .missing
  else
    match folder.files.lookup (← folder.resolve path) with
    | some bytes => if isFolderPath path then .error .notFolder else return bytes
    | none => .error .missing

/-- The text of the file at a path. A file that cannot be read is a text that fails at once. -/
def open? (folder : Folder) (path : String) : Source :=
  match folder.read path with
  | .ok bytes => fileText path bytes
  | .error e => { bytes := .empty, failure := some e.message }

/-- The folder with a text written to the file at a path. -/
def write (folder : Folder) (path text : String) : Except FileError Folder := do
  if path.startsWith "/" then
    .error .missing
  else
    let name ← folder.resolve path
    if isFolderPath path then .error .isFolder
    else
      let others := folder.files.filter (·.1 ≠ name)
      return ⟨others ++ [(name, fileBytes path text)]⟩

end Folder

end Communities.CommandLine
