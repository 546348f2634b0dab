import Treewalk.Table

/-!
# Files and directories

A `Path` is the list of names that lead from the top directory to a file, outermost first. `Disk`
holds files and directories by their path. `Disk.locate` walks a written path name by name, as a
file system does: a name that is not there, or a step out of something that is no directory, ends
the walk, whatever comes after.
-/

namespace Treewalk

/-- The names that lead to a file, outermost first. -/
abbrev Path := List String

namespace Path

/-- A path in full. -/
def text (p : Path) : String := "/" ++ "/".intercalate p

/-- The names of a path from the directory `dir` on, or the path in full if it does not lead through
that directory. -/
def textFrom (p dir : Path) : String :=
  if dir.isPrefixOf p then "/".intercalate (p.drop dir.length) else p.text

/-- What `p` written in the directory `dir` means. A path from the top stands for itself. -/
def join (dir p : String) : String :=
  if p.toList.head? == some '/' then p
  else if dir.toList.getLast? == some '/' then dir ++ p
  else dir ++ "/" ++ p

/-- The characters between slashes, before the first and after the last included. -/
def cut : List Char → List (List Char)
  | [] => [[]]
  | c :: cs =>
    if c = '/' then [] :: cut cs
    else
      match cut cs with
      | name :: names => (c :: name) :: names
      | [] => [[c]]

/-- The texts between the slashes of a written path. -/
def split (p : String) : List String := (cut p.toList).map String.ofList

/-- The names in a written path; those that name no step are left out. -/
def names (p : String) : Path := (split p).filter fun name => name != "" && name != "."

end Path

/-- What is found under a path. -/
inductive Entry where
  | file (content : ByteArray)
  | dir

/-- Why a file cannot be read. -/
inductive DiskError where
  | notFound
  | notDirectory
  | isDirectory
  | nameTooLong
  | nulInName
  | notText
deriving DecidableEq, Repr

/-- The wording of an error, with the number that the system gives it. -/
def DiskError.message : DiskError → String
  | .notFound => "No such file or directory (os error 2)"
  | .notDirectory => "Not a directory (os error 20)"
  | .isDirectory => "Is a directory (os error 21)"
  | .nameTooLong => "File name too long (os error 36)"
  | .nulInName => "file name contained an unexpected NUL byte"
  | .notText => "stream did not contain valid UTF-8"

/-- Files and directories by their path. The top directory is always there. -/
structure Disk where
  entries : Table Path Entry := {}

namespace Disk

instance : Inhabited Disk := ⟨{}⟩

/-- What is under a path. -/
def entry? (d : Disk) (p : Path) : Option Entry :=
  match p with
  | [] => some .dir
  | _ => d.entries.get? p

/-- The most bytes in a name. -/
def maxNameBytes : Nat := 255

/-- Walks on from `at_`, name by name. -/
def walk (d : Disk) : List String → (at_ : Path) → Except DiskError Path
  | [], at_ => .ok at_
  | name :: names, at_ =>
    match d.entry? at_ with
    | none => .error .notFound
    | some (.file _) => .error .notDirectory
    | some .dir =>
      if name == "" || name == "." then walk d names at_
      else if name == ".." then walk d names at_.dropLast
      else if maxNameBytes < name.utf8ByteSize then .error .nameTooLong
      else if (d.entry? (at_ ++ [name])).isSome then walk d names (at_ ++ [name])
      else .error .notFound

/-- The one path of the file or directory that is written `p`, from the top. -/
@[irreducible] def locate (d : Disk) (p : String) : Except DiskError Path :=
  if p.toList.contains '\x00' then .error .nulInName else d.walk ((Path.split p).drop 1) []

/-- The text of a file. -/
def read (d : Disk) (p : Path) : Except DiskError String :=
  match d.entry? p with
  | none => .error .notFound
  | some .dir => .error .isDirectory
  | some (.file content) =>
    match String.fromUTF8? content with
    | some s => .ok s
    | none => .error .notText

/-- Walks on from `at_`, name by name, and makes the directories that are not there. Answers where
the walk ends. -/
def reach (d : Disk) : List String → (at_ : Path) → Disk × Path
  | [], at_ => (d, at_)
  | name :: names, at_ =>
    if name == "" || name == "." then reach d names at_
    else if name == ".." then reach d names at_.dropLast
    else if (d.entry? (at_ ++ [name])).isSome then reach d names (at_ ++ [name])
    else reach ⟨d.entries.insert (at_ ++ [name]) .dir⟩ names (at_ ++ [name])

/-- The disk with the directory that is written `p`, from the top, and all that lead to it. -/
def addDir (d : Disk) (p : String) : Disk := (d.reach (Path.split p) []).1

/-- The disk with the file that is written `p`, from the top, and all directories that its path
names on the way, also those it leaves again. -/
def addFile (d : Disk) (p : String) (content : ByteArray) : Disk :=
  let names := Path.split p
  let (d, dir) := d.reach names.dropLast []
  ⟨d.entries.insert (dir ++ [names.getLastD ""]) (.file content)⟩

/-- The disk without the file that is written `p`, from the top, if there is one. -/
def removeFile (d : Disk) (p : String) : Disk :=
  match d.locate p with
  | .error _ => d
  | .ok p =>
    match d.entry? p with
    | some (.file _) => ⟨⟨d.entries.entries.filter (·.1 != p)⟩⟩
    | _ => d

end Disk

end Treewalk
