import ModuleResolution.Module.Denotation
import ModuleResolution.Module.Project

/-!
# Loading modules

A module is loaded once.  Loading reads its text and its items, collects its exports, takes the
items in order (a declaration enters the scope, an import loads the imported module and binds what
it asks for), and at last checks the qualified names in the declarations.  The first mistake ends
it, and the module stays failed.

Loading a module loads the modules it imports, each of which is loaded in the same way.  How deep
this goes is bounded: every module being loaded but the innermost has a text, and no module is being
loaded twice.  `Project.visit` counts the depth down, and `Project.obtain` gives it one more than
there are texts.

* `Session` : a registry, and the requests made so far for texts and for items.
* `Project.obtain`, `Project.obtainEntry` : the module with a key or a path, loaded if it has to be.
* `Project.bind` : what an import binds.
-/

namespace ModuleResolution

/-- A request to a loader or a reader of items. -/
inductive Call where
  /-- The text of a module was asked for, with this answer. -/
  | read (key : Key) (answer : Except ReadFault String)
  /-- The items of a text were asked for. -/
  | items (key : Key) (source : String)

/-- The state of a run. -/
structure Session where
  registry : Registry
  /-- The requests made so far, in order. -/
  calls : List Call

namespace Session

/-- Nothing has been asked for. -/
def empty : Session := ⟨.empty, []⟩

/-- One more request. -/
def log (call : Call) (s : Session) : Session := { s with calls := s.calls ++ [call] }

/-- The session with another registry. -/
def on (f : Registry → Registry) (s : Session) : Session := { s with registry := f s.registry }

end Session

/-- A step of a run, which may fail. -/
def Loading (α : Type) : Type := Session → Except Failure α × Session

namespace Loading

variable {α β : Type}

instance : Monad Loading where
  pure value := fun s => (.ok value, s)
  bind step next := fun s =>
    match step s with
    | (.ok value, s) => next value s
    | (.error failure, s) => (.error failure, s)

/-- The result is known. -/
def done (result : Except Failure α) : Loading α := fun s => (result, s)

/-- The result depends on the registry alone. -/
def ask (f : Registry → Except Failure α) : Loading α := fun s => (f s.registry, s)

/-- The registry is changed. -/
def change (f : Registry → Registry) : Loading Unit := fun s => (.ok (), s.on f)

/-- Asks for the text of a module. -/
def readText (loader : Loader) (key : Key) : Loading String := fun s =>
  let answer := loader.read key
  (answer.mapError (ReadFault.failure key), s.log (.read key answer))

/-- Asks for the items of a text. -/
def readItems (items : ItemReader) (key : Key) (source : String) : Loading (List Item) := fun s =>
  ((items key source).mapError (.malformed key), s.log (.items key source))

end Loading

/-! ### What an import binds -/

namespace Import

/-- Binds the requested names in the scope of `importer`, in order, up to the first that the target
does not export or that is bound already.  The names before it stay bound. -/
def bindNames (importer key : Key) (exports : Exports) (target : Handle) :
    List Request → Scope → Except Failure (List Binding.Name) × Scope
  | [], scope => (.ok [], scope)
  | request :: rest, scope =>
    match exports.index? request.exported.value with
    | none =>
      (.error (.notExported key importer request.exported.value request.exported.span), scope)
    | some index =>
      let name := request.introduced
      match scope.insert importer name.value (.imported ⟨target, index⟩) name.span with
      | .error failure => (.error failure, scope)
      | .ok scope =>
        let (names, scope) := bindNames importer key exports target rest scope
        (names.map (⟨request.exported.value, name.value, ⟨target, index⟩⟩ :: ·), scope)

/-- The name that an import of a whole module introduces: its alias, or the name of the file. -/
def introduced (i : Import) (alias? : Option (Located String)) (key : Key) : Located String :=
  alias?.getD ⟨key.defaultName, i.path.span⟩

/-- Binds in the scope of `importer` what is asked of the module behind `target`, whose key is `key`
and which exports `exports`. -/
def introduce (i : Import) (importer key : Key) (exports : Exports) (target : Handle)
    (scope : Scope) : Except Failure Binding × Scope :=
  match i.form with
  | .whole alias? =>
    let name := i.introduced alias? key
    match scope.insert importer name.value (.whole target) name.span with
    | .error failure => (.error failure, scope)
    | .ok scope => (.ok (.whole name.value target), scope)
  | .selected requests =>
    let (names, scope) := bindNames importer key exports target requests scope
    (names.map (.selected target), scope)

/-- The key of the module that an import in the module `importer` names. -/
def key (layout : Layout) (importer : Key) (i : Import) : Except Failure Key :=
  (layout.importKey importer.directory i.path.value).mapError fun reason =>
    .badPath (some importer) i.path.value reason (some i.path.span)

/-- Loads by `visit` the module that an import in the module `importer` names, and binds what is
asked of it.  Says what was bound, and what the scope is then. -/
def bindBy (visit : Key → Loading Handle) (layout : Layout) (importer : Key) (i : Import)
    (scope : Scope) : Session → (Except Failure Binding × Scope) × Session := fun s =>
  match i.key layout importer with
  | .error failure => ((.error failure, scope), s)
  | .ok key =>
    match visit key s with
    | (.error failure, s) => ((.error failure, scope), s)
    | (.ok target, s) =>
      (i.introduce importer key (s.registry.record target).exports target scope, s)

end Import

/-! ### The items of a module -/

/-- What the items of a module so far have come to. -/
structure Draft where
  scope : Scope
  bindings : List Binding
  dependencies : List Handle
  /-- How many of them were declarations. -/
  declared : Nat

namespace Draft

/-- There are no items so far. -/
def empty : Draft := ⟨.empty, [], [], 0⟩

/-- One more declaration. -/
def declare (key : Key) (d : Declaration) (draft : Draft) : Except Failure Draft :=
  (draft.scope.insert key d.name.value (.own draft.declared) d.name.span).map fun scope =>
    { draft with scope, declared := draft.declared + 1 }

/-- One more import, which has bound `binding` and left `scope`. -/
def bound (binding : Binding) (scope : Scope) (draft : Draft) : Draft :=
  { draft with
    scope
    bindings := draft.bindings ++ [binding]
    dependencies :=
      if draft.dependencies.contains binding.target then draft.dependencies
      else draft.dependencies ++ [binding.target] }

variable (visit : Key → Loading Handle) (layout : Layout) (key : Key)

/-- Takes one more item of the module `key`. -/
def take (draft : Draft) : Item → Loading Draft
  | .declaration d => .done (draft.declare key d)
  | .importing i => fun s =>
    match i.bindBy visit layout key draft.scope s with
    | ((.ok binding, scope), s) => (.ok (draft.bound binding scope), s)
    | ((.error failure, _), s) => (.error failure, s)

/-- Takes some more items of the module `key`, in order. -/
def takeAll (draft : Draft) : List Item → Loading Draft
  | [] => pure draft
  | item :: rest => do takeAll (← take visit layout key draft item) rest

/-- The record of a module with the given declarations and exports, when all its items are taken. -/
def record (declarations : List Declaration) (exports : Exports) (draft : Draft) (m : Module) :
    Module :=
  { m with
    declarations, exports
    scope := draft.scope
    bindings := draft.bindings
    dependencies := draft.dependencies }

end Draft

/-! ### Modules -/

namespace Project

variable (project : Project)

/-- Loads the module `key`, which has entered the registry under the handle `h`, and by `visit` the
modules it imports. -/
def loadBy (visit : Key → Loading Handle) (h : Handle) (key : Key) : Loading Unit := do
  let source ← Loading.readText project.loader key
  Loading.change fun r => r.update h fun m => { m with source }
  let items ← Loading.readItems project.items key source
  let declarations := items.filterMap Item.declaration?
  let exports ← Loading.done (Exports.build key declarations)
  let draft ← Draft.takeAll visit project.layout key .empty items
  Loading.change fun r => r.update h (draft.record declarations exports)
  Loading.ask fun r =>
    match r.dangling? h declarations with
    | some failure => .error failure
    | none => .ok ()

/-- The module `key`, loaded if it is not known, with up to `depth` modules being loaded at a
time. -/
def visit : (depth : Nat) → Key → Loading Handle
  | 0, key => .done (.error (.missing key))
  | depth + 1, key => fun s =>
    match s.registry.find? key with
    | some h => (s.registry.remembered key h, s)
    | none =>
      let h := s.registry.fresh
      match project.loadBy (visit depth) h key (s.on (·.enter key)) with
      | (.ok (), s) => (.ok h, s.on (·.finish h))
      | (.error failure, s) => (.error failure, s.on (·.fail h failure))

/-- How many modules can be being loaded at a time: all that have a text, and one more. -/
def depth : Nat := project.loader.served.length + 1

/-- The module `key`, loaded if it is not known. -/
def obtain (key : Key) : Loading Handle := project.visit project.depth key

/-- The module with the given path, seen from the root, loaded if it is not known. -/
def obtainEntry (path : String) : Loading Handle := do
  let key ← Loading.done
    ((project.layout.entryKey path).mapError fun reason => .badPath none path reason none)
  project.obtain key

/-- Loads the module that an import in the module `importer` names, and binds what is asked of it.
Says what was bound, and what the scope is then. -/
def bind (importer : Key) (i : Import) (scope : Scope) :
    Session → (Except Failure Binding × Scope) × Session :=
  i.bindBy project.obtain project.layout importer scope

end Project

end ModuleResolution
