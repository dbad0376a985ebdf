import ModuleResolution.Source.Span

/-!
# Items of a module

What the top level of a module consists of: declarations, whose values stay opaque except for the
qualified names in them, and imports.

* `Declaration` : a named definition.
* `Reference` : a qualified name such as `geo::Point`.
* `Import` : an import of another module, whole or name by name.
* `Item` : one or the other.
-/

namespace ModuleResolution

/-- A name qualified by others, such as `geo::Point`. -/
structure Reference where
  /-- The names, outermost first. -/
  path : List String
  /-- The name stands in front of `{`, so a value of it is built. -/
  builds : Bool
deriving DecidableEq

namespace Reference

/-- The names joined by `::`. -/
def join (path : List String) : String := "::".intercalate path

/-- The qualified name as written. -/
def text (r : Reference) : String := join r.path

/-- The outermost name, which the scope of the module knows. -/
def root (r : Reference) : String := r.path.headD ""

/-- The innermost name. -/
def last (r : Reference) : String := r.path.getLastD ""

end Reference

/-- What a declaration defines, judged from the first tokens of its value. -/
inductive Declaration.Kind where
  /-- A value. -/
  | value
  /-- A function. -/
  | function
  /-- A type. -/
  | type
deriving DecidableEq

/-- The word for a kind of declaration. -/
def Declaration.Kind.text : Kind → String
  | value => "variable"
  | function => "function"
  | type => "type"

/-- Who may use a declaration. -/
inductive Visibility where
  /-- Every module. -/
  | exported
  /-- Only the module it stands in. -/
  | hidden
deriving DecidableEq

/-- A named definition. -/
structure Declaration where
  name : Located String
  kind : Declaration.Kind
  visibility : Visibility
  /-- Where the value stands. -/
  body : Span
  /-- The qualified names in its type and then in its value, in order. -/
  references : List (Located Reference)
deriving DecidableEq

namespace Declaration

/-- Other modules may use it. -/
def isExported (d : Declaration) : Bool := d.visibility == .exported

/-- The declaration, hidden if its name is one of `names`. -/
def hide (names : List String) (d : Declaration) : Declaration :=
  if names.contains d.name.value then { d with visibility := .hidden } else d

end Declaration

/-- A name asked of the imported module. -/
structure Import.Request where
  /-- The name over there. -/
  exported : Located String
  /-- The name over here, if it is another one. -/
  renamed : Option (Located String)
deriving DecidableEq

/-- The name a request introduces. -/
def Import.Request.introduced (r : Request) : Located String := r.renamed.getD r.exported

/-- What an import introduces. -/
inductive Import.Form where
  /-- The module itself, under an alias or under the name of its file. -/
  | whole (alias? : Option (Located String))
  /-- Some of the names the module exports. -/
  | selected (requests : List Request)
deriving DecidableEq

/-- An import of another module. -/
structure Import where
  /-- The path of the module, as written. -/
  path : Located String
  form : Import.Form
deriving DecidableEq

/-- What the top level of a module consists of. -/
inductive Item where
  | declaration (declaration : Declaration)
  | importing (it : Import)
deriving DecidableEq

namespace Item

/-- The item, if it is a declaration. -/
def declaration? : Item → Option Declaration
  | declaration d => some d
  | importing _ => none

/-- The item, if it is an import. -/
def import? : Item → Option Import
  | declaration _ => none
  | importing i => some i

/-- The item, hidden if it declares one of `names`. -/
def hide (names : List String) : Item → Item
  | declaration d => declaration (d.hide names)
  | importing i => importing i

end Item

end ModuleResolution
