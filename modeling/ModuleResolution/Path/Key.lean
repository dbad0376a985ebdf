import ModuleResolution.Path.Location

/-!
# Keys

A key identifies a module: it is the location of its file, written as the root of the project and
the names below it.  Two spellings of one file have one key.

* `Key.relative` : the names below the root, as messages show the module.
* `Key.path`, `Key.directory` : where the file is, and where its own imports are seen from.
* `Key.defaultName` : the name an import binds when it gives none.
-/

namespace ModuleResolution

/-- The location of a module: the root of its project, and the names below it. -/
structure Key where
  root : Location
  names : List String
deriving DecidableEq

namespace Key

/-- The names below the root. -/
def relative (k : Key) : String := "/".intercalate k.names

/-- The absolute path of the file. -/
def path (k : Key) : String := Location.path (k.root ++ k.names)

/-- The directory of the file; imports in it are seen from there. -/
def directory (k : Key) : String := Path.parent k.path

/-- The name of the file without its last extension. -/
def defaultName (k : Key) : String := Path.stem k.path

end Key

end ModuleResolution
