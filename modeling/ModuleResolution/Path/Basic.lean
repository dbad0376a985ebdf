/-!
# Paths as text

A path is written as names between slashes.  This module holds what can be said of the text alone:
its pieces, joining it to another, the directory it stands in and the name it ends in.  Repeated
slashes, and the piece `.` anywhere but at the start, mean nothing; `..` is kept.

* `Path.pieces` : what stands between the slashes.
* `Path.components` : the pieces that mean something; paths with the same components are one path.
* `Path.join` : a path seen from a directory.
* `Path.parent`, `Path.stem` : the directory of a file, and its name without the last extension.
-/

namespace ModuleResolution

namespace Path

/-! ### Splitting -/

/-- What stands between the occurrences of `mark`. -/
def split (mark : Char) : List Char → List (List Char)
  | [] => [[]]
  | c :: rest =>
    if c = mark then [] :: split mark rest
    else
      match split mark rest with
      | [] => [[c]]
      | piece :: pieces => (c :: piece) :: pieces

theorem split_ne_nil (mark : Char) (cs : List Char) : split mark cs ≠ [] := by
  cases cs with
  | nil => simp [split]
  | cons c rest =>
    simp only [split]
    split
    · simp
    · split <;> simp

/-- What stands between the slashes of a path. -/
def pieces (path : String) : List String := (split '/' path.toList).map String.ofList

/-- A path that starts with a slash does not depend on where it is seen from. -/
def isAbsolute (path : String) : Bool := path.toList.head? == some '/'

/-- The piece moves nowhere. -/
def isIdle (piece : String) : Bool := piece == "" || piece == "."

/-- The pieces of a path that mean something, behind a slash if it is absolute. -/
def components (path : String) : List String :=
  if isAbsolute path then "/" :: (pieces path).filter (!isIdle ·)
  else
    match pieces path with
    | "." :: rest => "." :: rest.filter (!isIdle ·)
    | pieces => pieces.filter (!isIdle ·)

/-- `path`, seen from `directory`: behind a slash, unless the directory ends in one or is empty. -/
def join (directory path : String) : String :=
  if isAbsolute path then path
  else if directory.toList.getLast?.all (· == '/') then directory ++ path
  else directory ++ "/" ++ path

/-! ### Files -/

/-- The pieces without the idle ones at the end. -/
def trimmed (pieces : List String) : List String := (pieces.reverse.dropWhile isIdle).reverse

/-- The directory that a file with an absolute path stands in. -/
def parent (path : String) : String :=
  "/" ++ "/".intercalate (trimmed (trimmed (pieces path).tail).dropLast)

/-- A name without its last extension; a dot at its start starts no extension. -/
def withoutExtension (name : String) : String :=
  match name.toList.reverse.dropWhile (· != '.') with
  | _ :: c :: before => String.ofList (c :: before).reverse
  | _ => name

/-- The name that a path ends in, without its last extension; nothing if the path ends in `..`. -/
def stem (path : String) : String :=
  match (trimmed (pieces path)).getLast? with
  | none | some ".." => ""
  | some name => withoutExtension name

end Path

end ModuleResolution
