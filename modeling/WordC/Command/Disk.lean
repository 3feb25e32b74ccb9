import WordC.Error
/-!
# Files

The files there are and the paths that reach them, from the root or from a
working directory. Directories exist because files lie in them; the working
directory and the directories around it exist in any case.
-/

namespace WordC

/-- The names on the way from the root to a file. -/
abbrev Location := List String

/-- A file. -/
structure StoredFile where
  location : Location
  content : List UInt8
  deriving DecidableEq, Repr

/-- The files, and the working directory. -/
structure Disk where
  files : List StoredFile := []
  here : Location := []
  deriving DecidableEq, Repr

/-- The parts of a path between slashes. -/
def pathParts (path : String) : List String :=
  (path.toList.splitOn '/').map String.ofList

/-- The extension of the file that a path names: what follows the last dot of
its name, unless the name begins with that dot. -/
def pathExtension? (path : String) : Option String :=
  match ((pathParts path).filter fun part => part ≠ "" && part ≠ ".").getLast? with
  | none => none
  | some name =>
    let reversed := name.toList.reverse
    let extension := reversed.takeWhile (· ≠ '.')
    match reversed.drop extension.length with
    | [] | ['.'] => none
    | _ => if name = ".." then none else some (String.ofList extension.reverse)

namespace Disk

/-- The file at a location. -/
def file? (d : Disk) (l : Location) : Option (List UInt8) :=
  (d.files.find? fun f => f.location = l).map (·.content)

/-- The location is a directory. -/
def isDirectory (d : Disk) (l : Location) : Bool :=
  l.isPrefixOf d.here ||
    d.files.any fun f => l.isPrefixOf f.location && f.location.length > l.length

/-- Goes into a part of a directory. The directory around the root is the root. -/
def enter (d : Disk) (l : Location) (part : String) : Except FileCause Location :=
  if part = "" || part = "." then .ok l
  else if part = ".." then .ok l.dropLast
  else if d.isDirectory (l ++ [part]) then .ok (l ++ [part])
  else if (d.file? (l ++ [part])).isSome then .error .notADirectory
  else .error .missing

/-- The directory that a path with these parts begins in. -/
def start (d : Disk) (parts : List String) : Location :=
  if parts.length > 1 && parts.head? = some "" then [] else d.here

/-- The directory that the parts of a path lead into, and the last part. -/
def resolve (d : Disk) (parts : List String) : Except FileCause (Location × String) := do
  return (← parts.dropLast.foldlM d.enter (d.start parts), parts.getLast?.getD "")

/-- The content of the file at a path. -/
def read (d : Disk) (path : String) : Except FileCause (List UInt8) := do
  let (l, name) ← d.resolve (pathParts path)
  match d.file? (l ++ [name]) with
  | some content => return content
  | none =>
    let _ ← d.enter l name
    throw .isADirectory

/-- The files below the working directory, by the way from there. -/
def inside (d : Disk) : List StoredFile :=
  (d.files.filter fun f => d.here.isPrefixOf f.location).map fun f =>
    { f with location := f.location.drop d.here.length }

/-- Puts content at a location. -/
def put (d : Disk) (l : Location) (content : List UInt8) : Disk :=
  if (d.file? l).isSome then
    { d with files := d.files.map fun f => if f.location = l then { f with content } else f }
  else { d with files := d.files ++ [⟨l, content⟩] }

/-- Writes the file at a path. Its directory must exist. A path that ends in a
slash means a directory. -/
def write (d : Disk) (path : String) (content : List UInt8) : Except FileCause Disk := do
  let parts := pathParts path
  let (l, name) ← d.resolve (parts.reverse.dropWhile (· = "")).reverse
  if parts.getLast? = some "" || name = "." || name = ".." || d.isDirectory (l ++ [name]) then
    throw .isADirectory
  return d.put (l ++ [name]) content

end Disk

end WordC
