import ModuleResolution.Proofs.Mirror

/-!
# Binding appends

What is bound in a scope stays as it is, and an import puts its names behind it.  An import of
selected names takes its requests in order, up to the first that is refused: what the requests
before it have bound stays bound.

* `Scope.Admits` : entries that can be put behind a scope.
* `Import.Refuses` : why a request is refused.
* `Import.Appends` : how binding an import ends, and the entries that it has put behind the scope.
* `Session.bind_appends` : after any demands, binding an import ends in one of these ways.
-/

namespace ModuleResolution

namespace Scope

variable {s : Scope} {name : String} {entry : Entry} {entries : List Entry}

/-- The names of the entries are not bound in the scope, and none of them is that of another. -/
structure Admits (s : Scope) (entries : List Entry) : Prop where
  unbound : ∀ e ∈ entries, s.find? e.name = none
  nodup : (entries.map Entry.name).Nodup

theorem find?_append :
    (s.append entries).find? name = (s.find? name).or (entries.find? (·.name == name)) :=
  List.find?_append

theorem append_nil (s : Scope) : s.append [] = s := by
  rw [append, List.append_nil]

theorem insert_of_none {key : Key} {meaning : Meaning} {span : Span} (h : s.find? name = none) :
    s.insert key name meaning span = .ok (s.append [⟨name, meaning, span⟩]) := by
  simp only [insert, h, append]

theorem insert_of_some {key : Key} {meaning : Meaning} {span : Span}
    (h : s.find? name = some entry) :
    s.insert key name meaning span = .error (.collision key name entry.span span) := by
  simp only [insert, h]

namespace Admits

theorem nil : s.Admits [] where
  unbound := by
    intro e he
    cases he
  nodup := List.nodup_nil

/-- What a scope with one more entry admits, the scope admits behind that entry. -/
theorem cons (h : (s.append [entry]).Admits entries) (he : s.find? entry.name = none) :
    s.Admits (entry :: entries) where
  unbound := by
    intro e hmem
    rcases List.mem_cons.1 hmem with rfl | hmem
    · exact he
    · have hfind := h.unbound e hmem
      rw [find?_append, Option.or_eq_none_iff] at hfind
      exact hfind.1
  nodup := by
    rw [List.map_cons, List.nodup_cons]
    refine ⟨?_, h.nodup⟩
    intro hmem
    obtain ⟨e, hmem, hname⟩ := List.mem_map.1 hmem
    have hfind := h.unbound e hmem
    rw [find?_append, Option.or_eq_none_iff, hname] at hfind
    simp at hfind

end Admits

end Scope

namespace Import

variable {importer key : Key} {exports : Exports} {target : Handle} {scope : Scope}

/-- A request in the module `importer` for a name of the module `key`, which exports `exports`, is
refused, and the failure says why. -/
inductive Refuses (importer key : Key) (exports : Exports) (scope : Scope) (q : Request) :
    Failure → Prop
  /-- The name is not exported over there. -/
  | notExported (hx : exports.index? q.exported.value = none) :
    Refuses importer key exports scope q
      (.notExported key importer q.exported.value q.exported.span)
  /-- It is, but the name it takes over here is bound. -/
  | collided {index previous} (hx : exports.index? q.exported.value = some index)
    (hf : scope.find? q.introduced.value = some previous) :
    Refuses importer key exports scope q
      (.collision importer q.introduced.value previous.span q.introduced.span)

/-- What requests for names of the module behind `target` come to: the entries that they put behind
the scope, and the bound names, or the failure of the first request that is refused. -/
inductive Requests (importer key : Key) (exports : Exports) (target : Handle) (scope : Scope) :
    List Request → Except Failure (List Binding.Name) → List Scope.Entry → Prop
  /-- All of them are met. -/
  | granted {requests more names} (hg : Grants exports target requests more names)
    (hadmits : scope.Admits more) :
    Requests importer key exports target scope requests (.ok names) more
  /-- Those before `q` are met, and `q` is refused. -/
  | refused {before q after more names failure} (hg : Grants exports target before more names)
    (hadmits : scope.Admits more)
    (hq : Refuses importer key exports (scope.append more) q failure) :
    Requests importer key exports target scope (before ++ q :: after) (.error failure) more

theorem Requests.none_met {q : Request} {after : List Request} {failure : Failure}
    (hq : Refuses importer key exports scope q failure) :
    Requests importer key exports target scope (q :: after) (.error failure) [] := by
  rw [← scope.append_nil] at hq
  exact .refused .nil .nil hq

theorem Requests.cons {q : Request} {rest : List Request} {index : Nat} {more : List Scope.Entry}
    {result : Except Failure (List Binding.Name)}
    (hx : exports.index? q.exported.value = some index)
    (hf : scope.find? q.introduced.value = none)
    (h : Requests importer key exports target
      (scope.append [⟨q.introduced.value, .imported ⟨target, index⟩, q.introduced.span⟩]) rest
      result more) :
    Requests importer key exports target scope (q :: rest)
      (result.map (⟨q.exported.value, q.introduced.value, ⟨target, index⟩⟩ :: ·))
      (⟨q.introduced.value, .imported ⟨target, index⟩, q.introduced.span⟩ :: more) := by
  cases h with
  | granted hg hadmits => exact .granted (hg.cons hx) (hadmits.cons hf)
  | refused hg hadmits hq =>
    rw [← List.cons_append]
    refine .refused (hg.cons hx) (hadmits.cons hf) ?_
    rwa [Scope.append_append] at hq

/-- The requests of an import are taken in order. -/
theorem bindNames_appends (requests : List Request) (scope : Scope) :
    ∃ more, (bindNames importer key exports target requests scope).2 = scope.append more ∧
      Requests importer key exports target scope requests
        (bindNames importer key exports target requests scope).1 more := by
  induction requests generalizing scope with
  | nil => exact ⟨[], scope.append_nil.symm, .granted .nil .nil⟩
  | cons q rest ih =>
    rw [bindNames]
    cases hx : exports.index? q.exported.value with
    | none =>
      exact ⟨[], scope.append_nil.symm, .none_met (.notExported hx)⟩
    | some index =>
      cases hf : scope.find? q.introduced.value with
      | some previous =>
        simp only [Scope.insert_of_some hf]
        exact ⟨[], scope.append_nil.symm, .none_met (.collided hx hf)⟩
      | none =>
        simp only [Scope.insert_of_none hf]
        obtain ⟨more, hmore, hrest⟩ := ih (scope.append [_])
        exact ⟨_ :: more, by rw [hmore, Scope.append_append]; rfl, hrest.cons hx hf⟩

/-- A name that an earlier request has bound is bound, and stays. -/
example (importer key : Key) (target : Handle) (a b c : Span) :
    bindNames importer key ⟨[("x", 0), ("y", 1)]⟩ target
        [⟨⟨"x", a⟩, none⟩, ⟨⟨"y", b⟩, some ⟨"x", c⟩⟩] .empty =
      (.error (.collision importer "x" a c), ⟨[⟨"x", .imported ⟨target, 0⟩, a⟩]⟩) := by
  rfl

/-- How the import `i` of the module behind `target` is bound in the scope `scope`, or is not, and
the entries that it puts behind the scope. -/
inductive Enters (i : Import) (importer key : Key) (exports : Exports) (target : Handle)
    (scope : Scope) : Except Failure Binding → List Scope.Entry → Prop
  /-- The whole module is bound, under the alias or the name of its file. -/
  | whole {alias? name} (form : i.form = .whole alias?)
    (hname : name = alias?.getD ⟨key.defaultName, i.path.span⟩)
    (hadmits : scope.Admits [⟨name.value, .whole target, name.span⟩]) :
    Enters i importer key exports target scope (.ok (.whole name.value target))
      [⟨name.value, .whole target, name.span⟩]
  /-- That name is bound. -/
  | collided {alias? name previous} (form : i.form = .whole alias?)
    (hname : name = alias?.getD ⟨key.defaultName, i.path.span⟩)
    (hf : scope.find? name.value = some previous) :
    Enters i importer key exports target scope
      (.error (.collision importer name.value previous.span name.span)) []
  /-- Names are requested. -/
  | selected {requests result more} (form : i.form = .selected requests)
    (hr : Requests importer key exports target scope requests result more) :
    Enters i importer key exports target scope (result.map (.selected target)) more

theorem introduce_enters (i : Import) (scope : Scope) :
    ∃ more, (i.introduce importer key exports target scope).2 = scope.append more ∧
      i.Enters importer key exports target scope (i.introduce importer key exports target scope).1
        more := by
  unfold introduce
  cases form : i.form with
  | whole alias? =>
    simp only
    cases hf : scope.find? (i.introduced alias? key).value with
    | none =>
      rw [Scope.insert_of_none hf]
      exact ⟨_, rfl, .whole form rfl (Scope.Admits.nil.cons hf)⟩
    | some previous =>
      rw [Scope.insert_of_some hf]
      exact ⟨[], scope.append_nil.symm, .collided form rfl hf⟩
  | selected requests =>
    obtain ⟨more, hmore, hr⟩ := bindNames_appends requests scope
    exact ⟨more, hmore, .selected form hr⟩

/-- How a request for what the import `i` of the module `importer` binds in the scope `scope` ends,
from the session `s` to the session `s'`, and the entries that it has put behind the scope. -/
inductive Appends (project : Project) (importer : Key) (i : Import) (scope : Scope) (s : Session) :
    Except Failure Binding → Session → List Scope.Entry → Prop
  /-- The path names no module. -/
  | astray {reason}
    (hk : project.layout.importKey importer.directory i.path.value = .error reason) :
    Appends project importer i scope s
      (.error (.badPath (some importer) i.path.value reason (some i.path.span))) s []
  /-- The module does not load. -/
  | unloaded {key failure s'}
    (hk : project.layout.importKey importer.directory i.path.value = .ok key)
    (hv : project.obtain key s = (.error failure, s')) :
    Appends project importer i scope s (.error failure) s' []
  /-- The module is known, by what it exports. -/
  | loaded {key target s' result more}
    (hk : project.layout.importKey importer.directory i.path.value = .ok key)
    (hv : project.obtain key s = (.ok target, s')) (ht : s'.registry.find? key = some target)
    (hi : i.Enters importer key (s'.registry.record target).exports target scope result more) :
    Appends project importer i scope s result s' more

end Import

/-- **Binding appends.**  After any demands, whatever import is bound in a scope, what was bound
there stays, and behind it stands what the way says in which the request ends. -/
theorem Session.bind_appends (demands : List (Project × Demand)) (project : Project)
    (importer : Key) (i : Import) (scope : Scope) :
    let s := Session.after demands
    let out := project.bind importer i scope s
    ∃ more, out.1.2.entries = scope.entries ++ more ∧
      Import.Appends project importer i scope s out.1.1 out.2 more := by
  intro s out
  obtain ⟨hc, -⟩ := Session.coherent_after demands
  simp only [out, Project.bind, Import.bindBy, Import.key]
  cases hk : project.layout.importKey importer.directory i.path.value with
  | error reason => exact ⟨[], (List.append_nil _).symm, .astray hk⟩
  | ok key =>
    simp only [mapError_ok]
    rcases hv : project.obtain key s with ⟨failure | target, s'⟩
    · exact ⟨[], (List.append_nil _).symm, .unloaded hk hv⟩
    · obtain ⟨more, hmore, hi⟩ := i.introduce_enters scope
      exact ⟨more, congrArg Scope.entries hmore,
        .loaded hk hv (project.find?_of_visit hc hv) hi⟩

end ModuleResolution
