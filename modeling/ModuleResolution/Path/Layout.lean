import ModuleResolution.Path.Key
import ModuleResolution.Text.Quoted

/-!
# The layout of a project

A project has a root directory, which no import may leave, and an extension for the files of its
modules.  From these a path becomes the key of a module.

* `Layout.importKey` : the key of the module that an import names, seen from the directory of the
  importing file.
* `Layout.entryKey` : the key of the module to start from.
* `PathFault` : why a path has no key, in the order in which the reasons are tried.
-/

namespace ModuleResolution

/-- Why a path has no key. -/
inductive PathFault where
  /-- There is no path. -/
  | empty
  /-- The path does not start at the importing file. -/
  | absolute
  /-- The path holds a control character, or one that names of files had better not hold. -/
  | unsupported (c : Char)
  /-- The path does not end in a name. -/
  | noFileName
  /-- The path leads out of the project, or it is seen from outside. -/
  | outside (root : Location)
  /-- The root of the project is not an absolute path. -/
  | rootNotAbsolute (root : String)
deriving DecidableEq

/-- The message of a path error. -/
def PathFault.message : PathFault → String
  | empty => "the path is empty"
  | absolute =>
    "absolute paths are not supported, import paths are relative to the importing file"
  | unsupported c => "unsupported character " ++ Text.quoteChar c
  | noFileName => "the path does not name a module file"
  | outside root => "the path escapes the project root `" ++ root.path ++ "`"
  | rootNotAbsolute root => "the project root must be an absolute path, got `" ++ root ++ "`"

/-- What a project is set up with. -/
structure Settings where
  /-- Path of the root directory. -/
  root : String
  /-- Extension of the files of modules. -/
  extension : String

namespace Settings

/-- The extension where none is chosen. -/
def usualExtension : String := "hash"

/-- The whole tree of directories, with the usual extension. -/
def default : Settings := ⟨"/", usualExtension⟩

/-- The settings with another root. -/
def setRoot (root : String) (s : Settings) : Settings := { s with root }

/-- The settings with another extension; dots in front of it are not part of it. -/
def setExtension (extension : String) (s : Settings) : Settings :=
  { s with extension := String.ofList (extension.toList.dropWhile (· == '.')) }

end Settings

/-- The root directory of a project and the extension of its modules. -/
structure Layout where
  root : Location
  extension : String
deriving DecidableEq

namespace Layout

/-- The layout for the given settings, whose root must be an absolute path. -/
def ofSettings (s : Settings) : Except PathFault Layout :=
  match Location.ofPath? s.root with
  | some root => .ok ⟨root, s.extension⟩
  | none => .error (.rootNotAbsolute s.root)

variable (layout : Layout)

/-! ### Keys -/

/-- The dot and the extension. -/
def suffix : String := "." ++ layout.extension

/-- The name ends in the extension, with something in front of it. -/
def carriesExtension (name : String) : Bool :=
  layout.suffix.toList.isSuffixOf name.toList && name != layout.suffix

/-- The name of the file of a module: the extension is added where it is not written. -/
def fileName (name : String) : String :=
  if layout.carriesExtension name then name else name ++ layout.suffix

/-- The key of the module with the given names below the root.  Where the extension holds slashes,
the name of the file goes on over several pieces. -/
def key (names : List String) : Except PathFault Key :=
  match names.getLast? with
  | none => .error .noFileName
  | some last => .ok ⟨layout.root, names.dropLast ++ Path.pieces (layout.fileName last)⟩

/-- The names from the root down to a location in the project. -/
def inside (l : Location) : Except PathFault (List String) :=
  match layout.root.below? l with
  | some names => .ok names
  | none => .error (.outside layout.root)

/-- The name without the mark at its end. -/
def withoutSuffix? (mark name : String) : Option String :=
  if mark.toList.isSuffixOf name.toList then
    some (String.ofList (name.toList.take (name.toList.length - mark.toList.length)))
  else none

/-- The key whose file is at a location.  Where the extension holds slashes, the location is that of
the first piece of the name of the file. -/
def keyAt? (l : Location) : Option Key := do
  let names ← layout.root.below? l
  let name ← withoutSuffix? ("." ++ (Path.pieces layout.extension).headD "") (← names.getLast?)
  some ⟨layout.root, names.dropLast ++ Path.pieces (name ++ layout.suffix)⟩

/-- The keys whose files are at a location or above it. -/
def keysUpTo (l : Location) : List Key :=
  (List.range (l.length + 1)).filterMap fun n => layout.keyAt? (l.take n)

/-! ### Import paths -/

/-- The control characters of Unicode. -/
def isControl (c : Char) : Bool := c.toNat < 0x20 || (0x7f ≤ c.toNat && c.toNat < 0xa0)

/-- The characters that no import path may hold. -/
def isUnsupported (c : Char) : Bool :=
  isControl c || ['*', '?', '"', '<', '>', '|', ':'].contains c

/-- What stands between the slashes and backslashes of an import path. -/
def importPieces (path : String) : List String :=
  (Path.split '/' (path.toList.map fun c => if c = '\\' then '/' else c)).map String.ofList

/-- The piece names a file. -/
def namesFile (piece : String) : Bool := !Path.isIdle piece && piece != ".."

/-- The pieces of an import path, if it is well formed. -/
def importPath (path : String) : Except PathFault (List String) :=
  if path = "" then .error .empty
  else
    match path.toList.find? isUnsupported with
    | some c => .error (.unsupported c)
    | none =>
      let pieces := importPieces path
      if pieces.head? = some "" then .error .absolute
      else if pieces.getLast?.all namesFile then .ok pieces
      else .error .noFileName

/-- The key of the module that `path` names in a file of the directory `directory`. -/
def importKey (directory path : String) : Except PathFault Key := do
  let pieces ← importPath path
  let names ←
    match Location.ofPath? directory with
    | some l => layout.inside l
    | none => .error (.outside layout.root)
  match Location.descend? names pieces with
  | some names => layout.key names
  | none => .error (.outside layout.root)

/-- The key of the module with the path `path`, seen from the root. -/
def entryKey (path : String) : Except PathFault Key := do
  layout.key (← layout.inside (layout.root.look path))

end Layout

end ModuleResolution
