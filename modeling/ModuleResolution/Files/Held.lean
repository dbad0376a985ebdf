import ModuleResolution.Module.Project

/-!
# Files held in memory

Texts under their paths, for a project whose files are not on a disk.  Paths with the same
components are one path; `..` is a component as any other.  A path may also be refused: then reading
it fails, whatever text it has.

* `HeldFiles.write`, `refuse` : put a text or a refusal under a path.
* `HeldFiles.loader` : the files as a source of texts.
-/

namespace ModuleResolution

/-- Files held in memory, the latest first. -/
structure HeldFiles where
  /-- Paths with their texts. -/
  texts : List (String × String)
  /-- Paths that cannot be read, with the reasons. -/
  refusals : List (String × String)

namespace HeldFiles

/-- There are no files. -/
def empty : HeldFiles := ⟨[], []⟩

/-- Puts a text under a path. -/
def write (path text : String) (files : HeldFiles) : HeldFiles :=
  { files with texts := (path, text) :: files.texts }

/-- Makes a path unreadable. -/
def refuse (path reason : String) (files : HeldFiles) : HeldFiles :=
  { files with refusals := (path, reason) :: files.refusals }

/-- What a list holds under a path. -/
def under? (path : String) (held : List (String × String)) : Option String :=
  (held.find? fun h => Path.components h.1 == Path.components path).map (·.2)

/-- There is a text under the path. -/
def contains (files : HeldFiles) (path : String) : Bool := (under? path files.texts).isSome

/-- Reads the text under a path. -/
def read (files : HeldFiles) (path : String) : Except ReadFault String :=
  match under? path files.refusals, under? path files.texts with
  | some reason, _ => .error (.unreadable reason)
  | none, some text => .ok text
  | none, none => .error .missing

/-- The files as a source of texts for modules of the given layout. -/
def loader (files : HeldFiles) (layout : Layout) : Loader :=
  .serving (files.texts.flatMap fun file => layout.keysUpTo (Path.components file.1).tail)
    fun key => files.read key.path

end HeldFiles

end ModuleResolution
