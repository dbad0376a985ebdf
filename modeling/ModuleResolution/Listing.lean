import ModuleResolution.Module.Registry

/-!
# Listings

What is printed of the modules of a run.

* `Listing.dependencies` : the modules that are ready, each with the modules it imports.
* `Listing.exports` : the names a module exports, each with what it is.
* `Listing.summary` : one line about a module and the run that loaded it.
-/

namespace ModuleResolution

namespace Listing

/-- A module and the modules it imports. -/
def dependencyLine (r : Registry) (h : Handle) : String :=
  let m := r.record h
  let targets := m.dependencies.map fun d => (r.record d).key.relative
  m.key.relative ++ (if targets.isEmpty then "" else " -> " ++ ", ".intercalate targets) ++ "\n"

/-- The modules that are ready, in the order in which they became so, each on its line. -/
def dependencies (r : Registry) : String := String.join (r.finished.map (dependencyLine r))

/-- A text with blanks behind it, up to the given length. -/
def padded (width : Nat) (text : String) : String :=
  text ++ String.ofList (List.replicate (width - text.length) ' ')

/-- The length in bytes of the longest exported name. -/
def exportWidth (e : Exports) : Nat := (e.names.map String.utf8ByteSize).foldl max 0

/-- The exported names in a column, each with what it is. -/
def exports (m : Module) : String :=
  String.join <| m.exports.entries.filterMap fun entry =>
    m.declarations[entry.2]?.map fun d =>
      padded (exportWidth m.exports) entry.1 ++ "  " ++ d.kind.text ++ "\n"

/-- The module behind a handle, how many modules there are, and how many names it exports. -/
def summary (r : Registry) (h : Handle) : String :=
  let m := r.record h
  "✓ " ++ m.key.relative ++ " resolved: " ++ toString r.size ++ " module(s), " ++
    toString m.exports.size ++ " export(s)\n"

end Listing

end ModuleResolution
