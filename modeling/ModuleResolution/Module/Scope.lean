import ModuleResolution.Module.Failure

/-!
# Scopes

What the names at the top level of a module stand for: its own declarations, modules it imports, and
declarations it imports from other modules.  A name is bound once.

* `Scope.insert` : binds one more name, behind the others.
* `Scope.meaning?` : what a name stands for.
-/

namespace ModuleResolution

/-- A module, by its position among the modules of a run.  A position has no bound here; held in
32 bits it is the same as long as a run knows fewer than `2 ^ 32` modules. -/
structure Handle where
  index : Nat
deriving DecidableEq, Inhabited

/-- A declaration, by its module and its position in it. -/
structure DeclarationHandle where
  owner : Handle
  index : Nat
deriving DecidableEq

/-- What a name stands for. -/
inductive Meaning where
  /-- A declaration of the module itself, by its position. -/
  | own (index : Nat)
  /-- An imported module. -/
  | whole (target : Handle)
  /-- A declaration of another module. -/
  | imported (declaration : DeclarationHandle)
deriving DecidableEq

/-- A name, what it stands for, and where it was bound. -/
structure Scope.Entry where
  name : String
  meaning : Meaning
  span : Span
deriving DecidableEq

/-- The names at the top level of a module, in the order in which they were bound: a map in the
order of insertion, since a name is bound once (`Scope.insert`). -/
structure Scope where
  entries : List Scope.Entry
deriving DecidableEq

namespace Scope

/-- No name is bound. -/
def empty : Scope := ⟨[]⟩

/-- The entry of a name. -/
def find? (s : Scope) (name : String) : Option Entry := s.entries.find? (·.name == name)

/-- What a name stands for. -/
def meaning? (s : Scope) (name : String) : Option Meaning := (s.find? name).map Entry.meaning

/-- The name is bound. -/
def contains (s : Scope) (name : String) : Bool := s.entries.any (·.name == name)

/-- How many names are bound. -/
def size (s : Scope) : Nat := s.entries.length

/-- No name is bound. -/
def isEmpty (s : Scope) : Bool := s.entries.isEmpty

/-- Binds a name in the scope of the module `key`, unless it is bound. -/
def insert (key : Key) (name : String) (meaning : Meaning) (span : Span) (s : Scope) :
    Except Failure Scope :=
  match s.find? name with
  | some previous => .error (.collision key name previous.span span)
  | none => .ok ⟨s.entries ++ [⟨name, meaning, span⟩]⟩

end Scope

end ModuleResolution
