import ModuleResolution.Path.Layout
import ModuleResolution.Source.Problem

/-!
# Failures

Why a module could not be loaded, or a name in it not be resolved.

* `Failure` : the causes, each with what is needed to tell it.
* `Failure.underlying` : the failure behind a repeated one.
* `Failure.message`, `code`, `help`, `labels` : how a failure is told, and which places in which
  source text (`pointsInto?`) it points at.
-/

namespace ModuleResolution

/-- Why a module could not be loaded, or a name in it not be resolved. -/
inductive Failure where
  /-- A path without a key; the entry of the project has no importer and no span. -/
  | badPath (importer : Option Key) (path : String) (reason : PathFault) (span : Option Span)
  /-- There is no file for the module. -/
  | missing (key : Key)
  /-- The file of the module cannot be read. -/
  | unreadable (key : Key) (reason : String)
  /-- The text of the module has syntax errors. -/
  | malformed (key : Key) (errors : List SyntaxError)
  /-- The module is imported while it is being loaded; the chain leads from it back to it. -/
  | circular (key : Key) (chain : List Key)
  /-- Two declarations of the module have one name. -/
  | duplicate (key : Key) (name : String) (first second : Span)
  /-- The module does not export a name that the importer asks for. -/
  | notExported (key importer : Key) (name : String) (span : Span)
  /-- A name is bound in the module that is bound already. -/
  | collision (key : Key) (name : String) (previous span : Span)
  /-- A name is qualified by one that is neither a module nor a type. -/
  | notNamespace (key : Key) (name : String) (span : Span)
  /-- A value is built of something that is no type. -/
  | notType (key : Key) (name : String) (span : Span)
  /-- The module failed when it was loaded before. -/
  | repeated (key : Key) (cause : Failure)
deriving DecidableEq

namespace Failure

/-- The failure behind a repeated one. -/
def underlying : Failure → Failure
  | repeated _ cause => cause.underlying
  | failure => failure

/-- The failure is a repeated one. -/
def isRepeated : Failure → Bool
  | repeated .. => true
  | _ => false

theorem underlying_eq_self {f : Failure} (h : f.isRepeated = false) : f.underlying = f := by
  cases f <;> first | rfl | simp [isRepeated] at h

theorem isRepeated_underlying (f : Failure) : f.underlying.isRepeated = false := by
  fun_induction underlying f with
  | case1 _ _ ih => exact ih
  | case2 f h =>
    cases f with
    | repeated key cause => exact absurd rfl (h key cause)
    | _ => rfl

/-- The module that the failure is about. -/
def key? : Failure → Option Key
  | badPath importer .. => importer
  | missing key | unreadable key _ | malformed key _ | circular key _ | duplicate key ..
  | notExported key .. | collision key .. | notNamespace key .. | notType key ..
  | repeated key _ => some key

/-- The module whose source text the failure points into. -/
def pointsInto? : Failure → Option Key
  | badPath importer .. => importer
  | notExported _ importer .. => some importer
  | malformed key _ | duplicate key .. | collision key .. | notNamespace key ..
  | notType key .. => some key
  | missing _ | unreadable .. | circular .. | repeated .. => none

/-- The places that the failure points at, each with a caption. -/
def labels : Failure → List (Located String)
  | badPath _ _ _ (some span) => [⟨"imported here", span⟩]
  | duplicate _ _ first second => [⟨"first defined here", first⟩, ⟨"redefined here", second⟩]
  | notExported _ _ name span => [⟨"`" ++ name ++ "` is not exported", span⟩]
  | collision _ _ previous span => [⟨"previously bound here", previous⟩, ⟨"bound again here", span⟩]
  | notNamespace _ _ span => [⟨"used as a module here", span⟩]
  | notType _ _ span => [⟨"constructed here", span⟩]
  | badPath _ _ _ none | missing _ | unreadable .. | malformed .. | circular ..
  | repeated .. => []

/-- A name as a message shows it. -/
def ticked (name : String) : String := "`" ++ name ++ "`"

/-- The message of a failure. -/
def message : Failure → String
  | badPath _ path reason _ => "invalid import path \"" ++ path ++ "\": " ++ reason.message
  | missing key => "module " ++ ticked key.relative ++ " was not found"
  | unreadable key reason => "failed to read module " ++ ticked key.relative ++ ": " ++ reason
  | malformed key _ => "module " ++ ticked key.relative ++ " could not be parsed"
  | circular _ chain =>
    "circular import: " ++ " imports ".intercalate (chain.map fun key => ticked key.relative)
  | duplicate key name .. =>
    ticked name ++ " is defined more than once in module " ++ ticked key.relative
  | notExported key _ name _ =>
    "module " ++ ticked key.relative ++ " has no export named " ++ ticked name
  | collision key name .. => ticked name ++ " is already bound in module " ++ ticked key.relative
  | notNamespace key name _ =>
    ticked name ++ " is not an imported module or a type in " ++ ticked key.relative
  | notType key name _ =>
    ticked name ++ " is not a type and cannot be constructed in " ++ ticked key.relative
  | repeated key cause =>
    "module " ++ ticked key.relative ++ " failed to load earlier: " ++ cause.message

/-- The code that stands for the kind of failure. -/
def code : Failure → String
  | badPath .. => "hash::modules::invalid_path"
  | missing _ => "hash::modules::not_found"
  | unreadable .. => "hash::modules::io"
  | malformed .. => "hash::modules::parse"
  | circular .. => "hash::modules::circular_import"
  | duplicate .. => "hash::modules::duplicate_export"
  | notExported .. => "hash::modules::unknown_export"
  | collision .. => "hash::modules::name_collision"
  | notNamespace .. => "hash::modules::not_a_namespace"
  | notType .. => "hash::modules::not_a_type"
  | repeated .. => "hash::modules::propagated_failure"

/-- Advice on how to get rid of the failure. -/
def help : Failure → Option String
  | badPath .. =>
    some "import paths are relative to the importing file and must stay inside the project root"
  | circular .. => some "move the shared definitions into a module that neither side imports"
  | collision .. =>
    some ("give one of the bindings a different local name, e.g. `Name: OtherName` in a " ++
      "destructuring import")
  | _ => none

end Failure

end ModuleResolution
