import ModuleResolution.Module.Project

/-!
# A tree of files

Files and directories as a disk has them.  A path is followed from the top, piece by piece: `.`
stays, `..` goes up, and only a directory can be gone through.

* `FileTree.write` : puts something at the end of a path, and makes the directories on the way.
* `FileTree.follow` : where a path leads.
* `FileTree.read` : the text of the file there, if it is one.
* `FileTree.loader` : the tree as a source of texts.
-/

namespace ModuleResolution

/-- What stands at a location. -/
inductive FileTree.Node where
  | directory
  | file (content : ByteArray)

/-- Files and directories by location.  Where a location is listed twice the first counts, and the
directories above a location need not be listed. -/
structure FileTree where
  nodes : List (Location × FileTree.Node)

namespace FileTree

/-- There is nothing but the top directory. -/
def empty : FileTree := ⟨[]⟩

/-- The locations that a path from `l` leads through before its end. -/
def way (l : Location) (path : String) : List Location :=
  let pieces := Path.pieces path
  let start : Location := if Path.isAbsolute path then [] else l
  (List.range pieces.length).map fun n => start.walk (pieces.take n)

/-- Puts a node at the end of a path from `l`, in place of what is there.  What the path leads
through becomes a directory, if there is nothing yet. -/
def write (l : Location) (path : String) (node : Node) (tree : FileTree) : FileTree :=
  ⟨(l.look path, node) :: (tree.nodes ++ (way l path).map (·, .directory))⟩

/-- What a disk says of a path that goes through a file. -/
def throughFile : String := "Not a directory (os error 20)"

/-- What a disk says of a directory that is read. -/
def isDirectory : String := "Is a directory (os error 21)"

/-- What a disk says of a name or a path that is too long for it. -/
def tooLong : String := "File name too long (os error 36)"

/-- The length in bytes of the longest name of a file. -/
def longestName : Nat := 255

/-- The length in bytes of the longest path of a file. -/
def longestPath : Nat := 4095

/-- What is said of a file that holds no text. -/
def noText : String := "stream did not contain valid UTF-8"

/-- What is said of a path that no file can have. -/
def noPath : String := "file name contained an unexpected NUL byte"

/-- What stands at a location. -/
def node? (tree : FileTree) (l : Location) : Option Node :=
  match tree.nodes.find? (·.1 == l) with
  | some (_, node) => some node
  | none => if l = [] ∨ tree.nodes.any (l.isPrefixOf ·.1) then some .directory else none

/-- Where some pieces of a path lead from a location. -/
def follow (tree : FileTree) (l : Location) : List String → Except ReadFault Node
  | [] =>
    match tree.node? l with
    | some node => .ok node
    | none => .error .missing
  | piece :: rest =>
    match tree.node? l with
    | some .directory =>
      if piece.utf8ByteSize ≤ longestName then follow tree (l.step piece) rest
      else .error (.unreadable tooLong)
    | some (.file _) => .error (.unreadable throughFile)
    | none => .error .missing

/-- Reads the text of the file with an absolute path. -/
def read (tree : FileTree) (path : String) : Except ReadFault String :=
  if path.toList.contains '\x00' then .error (.unreadable noPath)
  else if longestPath < path.utf8ByteSize then .error (.unreadable tooLong)
  else
    match tree.follow [] (Path.pieces path) with
    | .ok (.file content) =>
      match String.fromUTF8? content with
      | some text => .ok text
      | none => .error (.unreadable noText)
    | .ok .directory => .error (.unreadable isDirectory)
    | .error fault => .error fault

/-- The tree as a source of texts for modules of the given layout. -/
def loader (tree : FileTree) (layout : Layout) : Loader :=
  .serving (tree.nodes.flatMap fun node => layout.keysUpTo node.1) fun key => tree.read key.path

end FileTree

end ModuleResolution
