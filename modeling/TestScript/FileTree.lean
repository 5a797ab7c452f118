import TestScript.Text.Pieces

/-!
# Files

A file tree is a set of files and directories below one directory, its base. A path is resolved
step by step: every step but the last must lead into a directory. The directories around the
base, and the root of all paths, are there as well, but nothing is known of what else they hold.

Not all that a disk can hold is in a file tree. There are no files and directories that are there
but may not be opened, and no symbolic links. A name is a text; one whose octets are not UTF-8 is
not in the tree.
-/

namespace TestScript

/-- What stands at a place of a file tree. -/
inductive FileEntry where
  /-- A file, with its text if its bytes are UTF-8. -/
  | file (text : Option String)
  | directory
  deriving DecidableEq, Repr

/-- Why a text cannot be read. -/
inductive ReadFault where
  | missing
  | notDirectory
  | isDirectory
  | nameTooLong
  | nulInName
  | notText
  deriving DecidableEq, Repr

/-- The words in which a fault is reported. -/
def ReadFault.message : ReadFault → String
  | .missing => "No such file or directory (os error 2)"
  | .notDirectory => "Not a directory (os error 20)"
  | .isDirectory => "Is a directory (os error 21)"
  | .nameTooLong => "File name too long (os error 36)"
  | .nulInName => "file name contained an unexpected NUL byte"
  | .notText => "stream did not contain valid UTF-8"

/-- Files and directories, each with the names that lead to it. -/
structure FileTree where
  entries : List (List String × FileEntry) := []
  deriving Repr

namespace FileTree

/-- The place of the root of all paths. -/
def root : List String := ["/"]

/-- Whether a place is the root, the base, or a directory around the base. -/
def isOuter (place : List String) : Bool :=
  place = root || place.all (· = "..")

/-- What stands at a place. -/
def entry? (t : FileTree) (place : List String) : Option FileEntry :=
  if isOuter place then some .directory else t.entries.lookup place

/-- The directory around a place; around the root there is none. -/
def parent (place : List String) : List String :=
  if place = root then root
  else if isOuter place then ".." :: place
  else place.dropLast

/-- One step of a path: to the place itself, to the directory around it, or to a name in it. -/
def follow (place : List String) (name : String) : List String :=
  if name = "" ∨ name = "." then place
  else if name = ".." then parent place
  else place ++ [name]

/-- Where a path starts and the steps it takes. -/
def steps (path : String) : List String × List String :=
  match path.toList with
  | '/' :: cs => (root, Text.split '/' cs)
  | cs => ([], Text.split '/' cs)

/-- Puts something at a path, and directories where the path leads through. -/
def add (t : FileTree) (path : String) (e : FileEntry) : FileTree :=
  let (start, names) := steps path
  let passed := (List.range names.length).map fun n => (names.take n).foldl follow start
  let directories := (passed.filter fun p => (t.entry? p).isNone).map (·, FileEntry.directory)
  let place := names.foldl follow start
  ⟨(t.entries ++ directories).filter (·.1 ≠ place) ++ [(place, e)]⟩

/-- A name takes at most this many octets. -/
def maxName : Nat := 255

/-- A path takes at most this many octets. -/
def maxPath : Nat := 4095

/-- Resolves the rest of a path from a place. -/
def walk (t : FileTree) (place : List String) :
    List String → Except ReadFault (List String × FileEntry)
  | [] =>
    match t.entry? place with
    | some e => .ok (place, e)
    | none => .error .missing
  | name :: names =>
    match t.entry? place with
    | some .directory =>
      if maxName < name.utf8ByteSize then .error .nameTooLong
      else walk t (follow place name) names
    | some (.file _) => .error .notDirectory
    | none => .error .missing

/-- Resolves a path. -/
def resolve (t : FileTree) (path : String) : Except ReadFault (List String × FileEntry) :=
  if path.toList.contains '\x00' then .error .nulInName
  else if maxPath < path.utf8ByteSize then .error .nameTooLong
  else if path.isEmpty then .error .missing
  else walk t (steps path).1 (steps path).2

/-- Whether something stands at a path. -/
def has (t : FileTree) (path : String) : Bool :=
  (t.resolve path).isOk

/-- Whether a directory stands at a path. -/
def isDirectory (t : FileTree) (path : String) : Bool :=
  match t.resolve path with
  | .ok (_, .directory) => true
  | _ => false

/-- Whether a file stands at a path. -/
def isFile (t : FileTree) (path : String) : Bool :=
  match t.resolve path with
  | .ok (_, .file _) => true
  | _ => false

/-- The text of the file at a path. -/
def read (t : FileTree) (path : String) : Except ReadFault String :=
  match t.resolve path with
  | .error e => .error e
  | .ok (_, .directory) => .error .isDirectory
  | .ok (_, .file none) => .error .notText
  | .ok (_, .file (some text)) => .ok text

/-- The name of a file that stands right below a place. -/
def childFile? (place : List String) : List String × FileEntry → Option String
  | (names, .file _) => if names.dropLast = place then names.getLast? else none
  | (_, .directory) => none

/-- The names of the files right below the directory at a path, in order. -/
def filesIn (t : FileTree) (path : String) : List String :=
  match t.resolve path with
  | .ok (place, .directory) => (t.entries.filterMap (childFile? place)).mergeSort (· ≤ ·)
  | _ => []

end FileTree

/-- The path of a name below the directory at a path. -/
def joinPath (path name : String) : String :=
  if path.isEmpty ∨ path.toList.getLast? = some '/' then path ++ name
  else path ++ "/" ++ name

/-- What stands behind the last dot of a file name, unless the name begins with that dot. -/
def fileExtension? (name : String) : Option String :=
  let fromEnd := name.toList.reverse
  let extension := fromEnd.takeWhile (· ≠ '.')
  match fromEnd.drop extension.length with
  | '.' :: _ :: _ => some (String.ofList extension.reverse)
  | _ => none

end TestScript
