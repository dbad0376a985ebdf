import ModuleResolution.Module.Exports
import ModuleResolution.Module.Scope

/-!
# The registry of modules

A run of the program knows each module once, under its key, from the moment it is first asked for.
The registry holds them in that order, together with the handle of each key, with the keys of those
being loaded and with the handles of those that are ready, in the order in which they became so.

* `Module` : what is known of one module.
* `Registry.find?` : the handle of a key.
* `Registry.enter`, `finish`, `fail` : a module starts to load, and ends it one way or the other.
-/

namespace ModuleResolution

/-- A name bound by an import of selected names. -/
structure Binding.Name where
  /-- The name over there. -/
  exported : String
  /-- The name over here. -/
  introduced : String
  declaration : DeclarationHandle
deriving DecidableEq

/-- What an import has bound. -/
inductive Binding where
  /-- The module itself, under a name. -/
  | whole (name : String) (target : Handle)
  /-- Some of the names that the module exports. -/
  | selected (target : Handle) (names : List Binding.Name)
deriving DecidableEq

/-- The imported module. -/
def Binding.target : Binding → Handle
  | whole _ target => target
  | selected target _ => target

/-- How far a module has come. -/
inductive Module.State where
  | loading
  | ready
  | failed (failure : Failure)
deriving DecidableEq

/-- What is known of a module. -/
structure Module where
  key : Key
  state : Module.State
  source : String
  declarations : List Declaration
  exports : Exports
  scope : Scope
  /-- What its imports have bound, in the order of the imports. -/
  bindings : List Binding
  /-- The modules it imports, each once. -/
  dependencies : List Handle
deriving DecidableEq

namespace Module

/-- A module that starts to load. -/
def start (key : Key) : Module := ⟨key, .loading, "", [], .empty, .empty, [], []⟩

/-- The module is ready. -/
def isReady (m : Module) : Bool := m.state == .ready

/-- The declaration of an exported name. -/
def export? (m : Module) (name : String) : Option Declaration := do
  m.declarations[← m.exports.index? name]?

end Module

/-- The modules of a run. -/
structure Registry where
  /-- The modules, in the order in which they were first asked for. -/
  modules : List Module
  /-- The keys that are known, each with its handle. -/
  handles : List (Key × Handle)
  /-- The keys of the modules being loaded, the outermost first. -/
  active : List Key
  /-- The modules that are ready, in the order in which they became so. -/
  finished : List Handle
deriving DecidableEq

namespace Registry

/-- No module is known. -/
def empty : Registry := ⟨[], [], [], []⟩

variable (r : Registry)

/-! ### Modules and handles -/

/-- The handle of a key. -/
def find? (key : Key) : Option Handle := r.handles.lookup key

/-- The module behind a handle. -/
def module? (h : Handle) : Option Module := r.modules[h.index]?

/-- The module behind a handle; a handle that was never given out stands for a module without any
names. -/
def record (h : Handle) : Module := (r.module? h).getD (.start ⟨[], []⟩)

/-- The declaration behind a handle. -/
def declaration? (d : DeclarationHandle) : Option Declaration := do
  (← r.module? d.owner).declarations[d.index]?

/-- How many modules are known. -/
def size : Nat := r.modules.length

/-- No module is known. -/
def isEmpty : Bool := r.modules.isEmpty

/-! ### Loading -/

/-- The module behind `h` is changed by `f`. -/
def update (h : Handle) (f : Module → Module) : Registry :=
  { r with modules := r.modules.modify h.index f }

/-- The handle that the next module gets. -/
def fresh : Handle := ⟨r.modules.length⟩

/-- The module `key` starts to load. -/
def enter (key : Key) : Registry :=
  { r with
    modules := r.modules ++ [.start key]
    handles := r.handles ++ [(key, r.fresh)]
    active := r.active ++ [key] }

/-- The innermost module being loaded is no more. -/
def leave : Registry := { r with active := r.active.dropLast }

/-- The module behind `h` has become ready. -/
def finish (h : Handle) : Registry :=
  { r.leave.update h fun m => { m with state := .ready } with finished := r.finished ++ [h] }

/-- The module behind `h` has failed. -/
def fail (h : Handle) (failure : Failure) : Registry :=
  r.leave.update h fun m => { m with state := .failed failure }

/-- The chain of imports that leads from `key`, at its first occurrence among the modules being
loaded, back to it. -/
def chain (key : Key) : List Key :=
  (if r.active.contains key then r.active.dropWhile (· != key) else r.active) ++ [key]

/-- What is answered for a module that is known: its handle if it is ready. -/
def remembered (key : Key) (h : Handle) : Except Failure Handle :=
  match (r.record h).state with
  | .ready => .ok h
  | .loading => .error (.circular key (r.chain key))
  | .failed failure => .error (.repeated key failure.underlying)

end Registry

end ModuleResolution
