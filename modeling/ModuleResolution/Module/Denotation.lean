import ModuleResolution.Module.Registry

/-!
# What qualified names denote

A qualified name such as `geo::shapes::Point` is followed from the module it stands in: its
outermost name is looked up in the scope of that module, each further one among the exports of the
module reached so far and then among the aliases in its scope.  Where a type is reached, the names
behind it are members of the type, and nothing more is said about them here.

* `Registry.denotation` : what a qualified name denotes.
* `Registry.dangling?` : the first qualified name in some declarations that denotes nothing.
-/

namespace ModuleResolution

/-- What a qualified name denotes. -/
inductive Denotation where
  /-- A declaration, perhaps a type whose members are named. -/
  | declaration (declaration : DeclarationHandle)
  /-- A module. -/
  | whole (target : Handle)
deriving DecidableEq

namespace Registry

variable (r : Registry)

/-- The declaration behind a handle is a type. -/
def isType (d : DeclarationHandle) : Bool := (r.declaration? d).any (·.kind == .type)

/-- A declaration with more names behind it, which must be a type.  `walked` are the names up to
the declaration. -/
def subject (importer : Key) (span : Span) (walked : List String) (d : DeclarationHandle) :
    Except Failure Denotation :=
  if r.isType d then .ok (.declaration d)
  else .error (.notNamespace importer (Reference.join walked) span)

/-- Follows names from the module `target`, which the names `walked` have led to. -/
def follow (importer : Key) (reference : Reference) (span : Span) (walked : List String)
    (target : Handle) : List String → Except Failure Denotation
  | [] => .error (.notNamespace importer (Reference.join walked) span)
  | name :: rest =>
    match (r.record target).exports.index? name with
    | some index =>
      if rest ≠ [] then subject r importer span (walked ++ [name]) ⟨target, index⟩
      else if reference.builds && !r.isType ⟨target, index⟩ then
        .error (.notType importer reference.text span)
      else .ok (.declaration ⟨target, index⟩)
    | none =>
      match (r.record target).scope.meaning? name with
      | some (.whole next) =>
        if rest ≠ [] then follow importer reference span (walked ++ [name]) next rest
        else if reference.builds then .error (.notType importer reference.text span)
        else .ok (.whole next)
      | _ => .error (.notExported (r.record target).key importer name span)

/-- What a qualified name in the module behind `h` denotes. -/
def denotation (h : Handle) (reference : Reference) (span : Span) : Except Failure Denotation :=
  let importer := r.record h
  match reference.path with
  | [] => .error (.notNamespace importer.key "" span)
  | root :: rest =>
    match importer.scope.meaning? root with
    | some (.whole target) => follow r importer.key reference span [root] target rest
    | some (.own index) => subject r importer.key span [root] ⟨h, index⟩
    | some (.imported d) => subject r importer.key span [root] d
    | none => .error (.notNamespace importer.key root span)

/-- What is wrong with a qualified name in the module behind `h`. -/
def fault? (h : Handle) (reference : Located Reference) : Option Failure :=
  match r.denotation h reference.value reference.span with
  | .ok _ => none
  | .error failure => some failure

/-- What is wrong with the first qualified name in some declarations of the module behind `h` that
denotes nothing. -/
def dangling? (h : Handle) (declarations : List Declaration) : Option Failure :=
  (declarations.flatMap Declaration.references).findSome? (r.fault? h)

end Registry

end ModuleResolution
