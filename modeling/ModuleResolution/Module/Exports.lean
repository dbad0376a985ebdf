import ModuleResolution.Module.Failure
import ModuleResolution.Source.Item

/-!
# Exports

The names that a module offers to others, in the order of its declarations.  A module may declare a
name once only, exported or not.

* `Exports.repeated?` : the first declaration that takes the name of an earlier one.
* `Exports.build` : the exports of a list of declarations, unless a name is repeated.
-/

namespace ModuleResolution

/-- The exported names of a module, each with the position of its declaration: a map in the order
of insertion, since a name is declared once (`Exports.build`). -/
structure Exports where
  entries : List (String × Nat)
deriving DecidableEq

namespace Exports

/-- Nothing is exported. -/
def empty : Exports := ⟨[]⟩

/-- The position of the declaration of an exported name. -/
def index? (e : Exports) (name : String) : Option Nat :=
  (e.entries.find? (·.1 == name)).map (·.2)

/-- The name is exported. -/
def contains (e : Exports) (name : String) : Bool := e.entries.any (·.1 == name)

/-- The exported names. -/
def names (e : Exports) : List String := e.entries.map (·.1)

/-- How many names are exported. -/
def size (e : Exports) : Nat := e.entries.length

/-- Nothing is exported. -/
def isEmpty (e : Exports) : Bool := e.entries.isEmpty

/-- The exported ones among some declarations, with their positions. -/
def ofDeclarations (declarations : List Declaration) : Exports :=
  ⟨(declarations.zipIdx.filter (·.1.isExported)).map fun d => (d.1.name.value, d.2)⟩

/-- The first of some declarations that takes the name of an earlier one, and that earlier one;
`seen` are the declarations before them. -/
def repeatedAfter (seen : List Declaration) : List Declaration → Option (Declaration × Declaration)
  | [] => none
  | d :: rest =>
    match seen.find? (·.name.value == d.name.value) with
    | some first => some (first, d)
    | none => repeatedAfter (seen ++ [d]) rest

/-- The first declaration that takes the name of an earlier one, behind that earlier one. -/
def repeated? (declarations : List Declaration) : Option (Declaration × Declaration) :=
  repeatedAfter [] declarations

/-- The exports of the module `key` with the given declarations. -/
def build (key : Key) (declarations : List Declaration) : Except Failure Exports :=
  match repeated? declarations with
  | some (first, second) =>
    .error (.duplicate key second.name.value first.name.span second.name.span)
  | none => .ok (ofDeclarations declarations)

end Exports

end ModuleResolution
