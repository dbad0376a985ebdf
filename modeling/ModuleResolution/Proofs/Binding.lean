import Mathlib.Data.List.Basic
import ModuleResolution.Module.Loading

/-!
# What an import binds

An import that is bound puts fixed entries behind the scope.  Whether it is bound depends on the
names that it claims alone: each must be offered and not be bound yet.

* `Import.entries`, `Import.binding` : what a bound import puts into the scope and into the record.
* `claim` : names are claimed one after the other, up to the first that cannot be had.
* `Import.introduce_spec`, `Draft.declare_spec` : an import is bound, and a declaration is taken, if
  it can have the names that it claims.
-/

namespace ModuleResolution

/-! ### Claims on names -/

/-- Binds more names behind `names` in the module `key`, up to the first that cannot be bound: it is
not there to be bound, or it is bound already. -/
def claim (key : Key) (names : List (Located String)) :
    List (Except Failure (Located String)) → Except Failure (List (Located String))
  | [] => .ok names
  | .error failure :: _ => .error failure
  | .ok name :: rest =>
    match names.find? (·.value == name.value) with
    | some previous => .error (.collision key name.value previous.span name.span)
    | none => claim key (names ++ [name]) rest

namespace Scope

/-- The names of a scope, each with the place where it was bound. -/
def names (s : Scope) : List (Located String) := s.entries.map fun e => ⟨e.name, e.span⟩

/-- The scope with some entries behind the others. -/
def append (s : Scope) (entries : List Entry) : Scope := ⟨s.entries ++ entries⟩

theorem names_append (s : Scope) (entries : List Entry) :
    (s.append entries).names = s.names ++ entries.map fun e => ⟨e.name, e.span⟩ :=
  List.map_append

theorem append_append (s : Scope) (entries more : List Entry) :
    (s.append entries).append more = s.append (entries ++ more) := by
  simp [append, List.append_assoc]

theorem find?_names (s : Scope) (name : String) :
    s.names.find? (·.value == name) = (s.find? name).map fun e => ⟨e.name, e.span⟩ := by
  simp only [names, find?, List.find?_map, Function.comp_def]

/-- A name is bound as a claim on it says. -/
theorem insert_spec (s : Scope) (key : Key) (name : String) (meaning : Meaning) (span : Span)
    (rest : List (Except Failure (Located String))) :
    (∃ s', s.insert key name meaning span = .ok s' ∧ s' = s.append [⟨name, meaning, span⟩] ∧
        claim key s.names (.ok ⟨name, span⟩ :: rest) = claim key s'.names rest) ∨
      ∃ failure, s.insert key name meaning span = .error failure ∧
        claim key s.names (.ok ⟨name, span⟩ :: rest) = .error failure := by
  have hc : claim key s.names (.ok ⟨name, span⟩ :: rest) =
      match s.names.find? (·.value == name) with
      | some previous => .error (.collision key name previous.span span)
      | none => claim key (s.names ++ [⟨name, span⟩]) rest := rfl
  rw [hc, find?_names, insert]
  cases s.find? name with
  | none => exact .inl ⟨_, rfl, rfl, by rw [← append, names_append]; rfl⟩
  | some previous => exact .inr ⟨_, rfl, rfl⟩

end Scope

/-! ### Imports -/

namespace Import

/-- The entry that a request puts into a scope. -/
def Request.entry? (exports : Exports) (target : Handle) (q : Request) : Option Scope.Entry :=
  (exports.index? q.exported.value).map fun index =>
    ⟨q.introduced.value, .imported ⟨target, index⟩, q.introduced.span⟩

/-- The name that a request binds. -/
def Request.bound? (exports : Exports) (target : Handle) (q : Request) : Option Binding.Name :=
  (exports.index? q.exported.value).map fun index =>
    ⟨q.exported.value, q.introduced.value, ⟨target, index⟩⟩

/-- The entries that an import of the module `key` puts into a scope. -/
def entries (i : Import) (key : Key) (exports : Exports) (target : Handle) : List Scope.Entry :=
  match i.form with
  | .whole alias? =>
    [⟨(i.introduced alias? key).value, .whole target, (i.introduced alias? key).span⟩]
  | .selected requests => requests.filterMap (Request.entry? exports target)

/-- What an import of the module `key` binds. -/
def binding (i : Import) (key : Key) (exports : Exports) (target : Handle) : Binding :=
  match i.form with
  | .whole alias? => .whole (i.introduced alias? key).value target
  | .selected requests => .selected target (requests.filterMap (Request.bound? exports target))

/-- The claim of a request in the module `importer` for a name of the module `key`. -/
def Request.claimed (importer key : Key) (exports : Exports) (q : Request) :
    Except Failure (Located String) :=
  if (exports.index? q.exported.value).isSome then .ok q.introduced
  else .error (.notExported key importer q.exported.value q.exported.span)

/-- The names that an import in the module `importer` of the module `key` claims. -/
def claims (i : Import) (importer key : Key) (exports : Exports) :
    List (Except Failure (Located String)) :=
  match i.form with
  | .whole alias? => [.ok (i.introduced alias? key)]
  | .selected requests => requests.map (Request.claimed importer key exports)

variable {importer key : Key} {exports : Exports} {target : Handle}

theorem bindNames_spec (importer key : Key) (exports : Exports) (target : Handle)
    (requests : List Request) (scope : Scope) :
    (bindNames importer key exports target requests scope =
        (.ok (requests.filterMap (Request.bound? exports target)),
          scope.append (requests.filterMap (Request.entry? exports target))) ∧
      claim importer scope.names (requests.map (Request.claimed importer key exports)) =
        .ok (scope.append (requests.filterMap (Request.entry? exports target))).names) ∨
    ∃ failure scope',
      bindNames importer key exports target requests scope = (.error failure, scope') ∧
      claim importer scope.names (requests.map (Request.claimed importer key exports)) =
        .error failure := by
  induction requests generalizing scope with
  | nil => exact .inl ⟨by simp [bindNames, Scope.append], by simp [claim, Scope.append]⟩
  | cons q rest ih =>
    rw [bindNames, List.map_cons, Request.claimed]
    cases hx : exports.index? q.exported.value with
    | none => exact .inr ⟨_, _, rfl, rfl⟩
    | some index =>
      simp only [Option.isSome_some, if_true]
      rcases scope.insert_spec importer q.introduced.value (.imported ⟨target, index⟩)
        q.introduced.span (rest.map (Request.claimed importer key exports)) with
        ⟨s', hi, hs', hcl⟩ | ⟨failure, hi, hcl⟩
      · have he : s'.append (rest.filterMap (Request.entry? exports target)) =
            scope.append ((q :: rest).filterMap (Request.entry? exports target)) := by
          rw [hs', Scope.append_append, List.filterMap_cons, Request.entry?, hx]; rfl
        rw [hcl, ← he]
        simp only [hi]
        rcases ih s' with ⟨hb, hcl'⟩ | ⟨failure, scope', hb, hcl'⟩
        · refine .inl ⟨?_, hcl'⟩
          rw [hb, List.filterMap_cons, Request.bound?, hx]
          rfl
        · exact .inr ⟨failure, scope', by rw [hb]; rfl, hcl'⟩
      · exact .inr ⟨failure, scope, by simp only [hi], hcl⟩

/-- **An import is bound if it can have the names that it claims**, and fails as its claims do. -/
theorem introduce_spec (i : Import) (scope : Scope) :
    (i.introduce importer key exports target scope =
        (.ok (i.binding key exports target), scope.append (i.entries key exports target)) ∧
      claim importer scope.names (i.claims importer key exports) =
        .ok (scope.append (i.entries key exports target)).names) ∨
    ∃ failure scope', i.introduce importer key exports target scope = (.error failure, scope') ∧
      claim importer scope.names (i.claims importer key exports) = .error failure := by
  unfold introduce claims entries binding
  cases i.form with
  | whole alias? =>
    simp only
    rcases scope.insert_spec importer (i.introduced alias? key).value (.whole target)
      (i.introduced alias? key).span [] with
      ⟨s', hi, rfl, hcl⟩ | ⟨failure, hi, hcl⟩
    · exact .inl ⟨by simp only [hi], hcl⟩
    · exact .inr ⟨failure, scope, by simp only [hi], hcl⟩
  | selected requests =>
    simp only
    rcases bindNames_spec importer key exports target requests scope with
      ⟨hb, hcl⟩ | ⟨failure, scope', hb, hcl⟩
    · exact .inl ⟨by rw [hb]; rfl, hcl⟩
    · exact .inr ⟨failure, scope', by rw [hb]; rfl, hcl⟩

theorem importKey_of_key {i : Import} {layout : Layout} (h : i.key layout importer = .ok key) :
    layout.importKey importer.directory i.path.value = .ok key := by
  rw [Import.key] at h
  cases hk : layout.importKey importer.directory i.path.value with
  | error reason =>
    rw [hk] at h
    cases h
  | ok key' =>
    rw [hk] at h
    cases h
    rfl

end Import

/-! ### Drafts -/

namespace Draft

/-- The draft with one more declaration. -/
def declaring (draft : Draft) (d : Declaration) : Draft :=
  { draft with
    scope := draft.scope.append [⟨d.name.value, .own draft.declared, d.name.span⟩]
    declared := draft.declared + 1 }

theorem declare_spec (draft : Draft) (key : Key) (d : Declaration) :
    (draft.declare key d = .ok (draft.declaring d) ∧
        claim key draft.scope.names [.ok d.name] = .ok (draft.declaring d).scope.names) ∨
      ∃ failure, draft.declare key d = .error failure ∧
        claim key draft.scope.names [.ok d.name] = .error failure := by
  rw [declare]
  rcases draft.scope.insert_spec key d.name.value (.own draft.declared) d.name.span [] with
    ⟨s', hi, hs', hcl⟩ | ⟨failure, hi, hcl⟩
  · refine .inl ⟨by rw [hi, hs']; rfl, ?_⟩
    rw [declaring, ← hs']
    exact hcl
  · exact .inr ⟨failure, by rw [hi]; rfl, hcl⟩

end Draft

end ModuleResolution
