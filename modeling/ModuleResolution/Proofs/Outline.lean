import Mathlib.Data.List.Dedup
import ModuleResolution.Proofs.Coherence

/-!
# Outlines

The record of a module names other modules by their handles, which say in what order modules were
asked for.  Its outline names them by their keys, which say nothing of the kind: what outline a
module comes to, the project alone says.

* `Registry.outline` : the record of a module, told by keys.
* `Project.outline` : the outline of a module, as the project says.
* `Draft.Follows` : the items of a module so far have come to what the project says.
-/

namespace ModuleResolution

/-! ### Records told by keys -/

/-- What a name stands for. -/
inductive Sense where
  /-- A declaration of the module itself, by its position. -/
  | own (index : Nat)
  /-- An imported module. -/
  | whole (target : Key)
  /-- A declaration of another module, by its position there. -/
  | imported (owner : Key) (index : Nat)
deriving DecidableEq

/-- A name, what it stands for, and where it was bound. -/
structure Introduction where
  name : String
  sense : Sense
  span : Span
deriving DecidableEq

/-- A name bound by an import of selected names. -/
structure Bond.Name where
  exported : String
  introduced : String
  owner : Key
  index : Nat
deriving DecidableEq

/-- What an import has bound. -/
inductive Bond where
  /-- The module itself, under a name. -/
  | whole (name : String) (target : Key)
  /-- Some of the names that the module exports. -/
  | selected (target : Key) (names : List Bond.Name)
deriving DecidableEq

/-- What the items of a module come to. -/
structure Links where
  scope : List Introduction
  bonds : List Bond
  dependencies : List Key
deriving DecidableEq

/-- What is known of a module that is ready. -/
structure Outline where
  source : String
  declarations : List Declaration
  exports : Exports
  links : Links
deriving DecidableEq

section Told

variable (keyOf : Handle → Key)

/-- A meaning, told by keys. -/
def Meaning.told : Meaning → Sense
  | own index => .own index
  | whole target => .whole (keyOf target)
  | imported d => .imported (keyOf d.owner) d.index

/-- An entry of a scope, told by keys. -/
def Scope.Entry.told (e : Scope.Entry) : Introduction := ⟨e.name, e.meaning.told keyOf, e.span⟩

/-- A bound name, told by keys. -/
def Binding.Name.told (n : Binding.Name) : Bond.Name :=
  ⟨n.exported, n.introduced, keyOf n.declaration.owner, n.declaration.index⟩

/-- What an import has bound, told by keys. -/
def Binding.told : Binding → Bond
  | whole name target => .whole name (keyOf target)
  | selected target names => .selected (keyOf target) (names.map (Binding.Name.told keyOf))

/-- What the items of a module have come to, told by keys. -/
def Links.told (scope : Scope) (bindings : List Binding) (dependencies : List Handle) : Links where
  scope := scope.entries.map (Scope.Entry.told keyOf)
  bonds := bindings.map (Binding.told keyOf)
  dependencies := dependencies.map keyOf

end Told

/-- The record of a module, told by keys. -/
def Registry.outline (r : Registry) (m : Module) : Outline where
  source := m.source
  declarations := m.declarations
  exports := m.exports
  links := .told r.keyOf m.scope m.bindings m.dependencies

section Congr

variable {keyOf keyOf' : Handle → Key}

theorem Meaning.told_congr {meaning : Meaning} (h : ∀ t ∈ meaning.handles, keyOf t = keyOf' t) :
    meaning.told keyOf = meaning.told keyOf' := by
  cases meaning with
  | own => rfl
  | whole target => rw [told, told, h target (List.mem_singleton_self _)]
  | imported d => rw [told, told, h d.owner (List.mem_singleton_self _)]

theorem Binding.told_congr {b : Binding} (h : ∀ t ∈ b.handles, keyOf t = keyOf' t) :
    b.told keyOf = b.told keyOf' := by
  cases b with
  | whole name target => rw [told, told, h target (List.mem_singleton_self _)]
  | selected target names =>
    rw [told, told, h target List.mem_cons_self]
    congr 1
    refine List.map_congr_left fun n hn => ?_
    rw [Binding.Name.told, Binding.Name.told,
      h _ (List.mem_cons_of_mem _ (List.mem_map_of_mem hn))]

/-- What is told by keys depends on the keys of the modules that are mentioned. -/
theorem Links.told_congr {scope : Scope} {bindings : List Binding} {dependencies : List Handle}
    (h : ∀ t ∈ scope.handles ++ bindings.flatMap Binding.handles ++ dependencies,
      keyOf t = keyOf' t) :
    Links.told keyOf scope bindings dependencies =
      Links.told keyOf' scope bindings dependencies := by
  simp only [List.mem_append] at h
  rw [told, told, Links.mk.injEq]
  refine ⟨List.map_congr_left fun e he => ?_, List.map_congr_left fun b hb => ?_,
    List.map_congr_left fun t ht => h t (.inr ht)⟩
  · rw [Scope.Entry.told, Scope.Entry.told, Meaning.told_congr]
    exact fun t ht => h t (.inl (.inl (List.mem_flatMap.2 ⟨e, he, ht⟩)))
  · exact Binding.told_congr fun t ht => h t (.inl (.inr (List.mem_flatMap.2 ⟨b, hb, ht⟩)))

end Congr

namespace Registry

variable {r r' : Registry} {h : Handle} {m : Module}

theorem Coherent.keyOf_mono (hr : r.Coherent) (hp : r.modules <+: r'.modules) {t : Handle}
    (ht : t ∈ r.finished) : r'.keyOf t = r.keyOf t := by
  obtain ⟨m, hm, -⟩ := hr.mem_finished.1 ht
  rw [keyOf_eq hm, keyOf_eq (module?_mono hp hm)]

/-- More modules do not change the outline of another one. -/
theorem Coherent.outline_mono (hr : r.Coherent) (hp : r.modules <+: r'.modules)
    (hm : r.module? h = some m) : r'.outline m = r.outline m := by
  rw [outline, outline, Links.told_congr]
  exact fun t ht => hr.keyOf_mono hp (hr.mentioned hm ht)

end Registry

/-! ### What the project says -/

namespace Import

/-- The names that an import of the module `target`, which exports `exports`, introduces, each with
what it stands for. -/
def introductions (i : Import) (target : Key) (exports : Exports) : List Introduction :=
  match i.form with
  | .whole alias? =>
    [⟨(i.introduced alias? target).value, .whole target, (i.introduced alias? target).span⟩]
  | .selected requests => requests.filterMap fun q =>
    (exports.index? q.exported.value).map fun index =>
      ⟨q.introduced.value, .imported target index, q.introduced.span⟩

/-- What an import of the module `target`, which exports `exports`, binds. -/
def bond (i : Import) (target : Key) (exports : Exports) : Bond :=
  match i.form with
  | .whole alias? => .whole (i.introduced alias? target).value target
  | .selected requests => .selected target <| requests.filterMap fun q =>
    (exports.index? q.exported.value).map fun index =>
      ⟨q.exported.value, q.introduced.value, target, index⟩

variable {i : Import} {target : Key} {exports : Exports} {keyOf : Handle → Key} {h : Handle}

theorem told_entries (hk : keyOf h = target) :
    (i.entries target exports h).map (Scope.Entry.told keyOf) = i.introductions target exports := by
  unfold entries introductions
  cases i.form with
  | whole alias? => simp [Scope.Entry.told, Meaning.told, hk]
  | selected requests =>
    simp [List.map_filterMap, Request.entry?, Function.comp_def, Scope.Entry.told, Meaning.told, hk]

theorem told_binding (hk : keyOf h = target) :
    (i.binding target exports h).told keyOf = i.bond target exports := by
  unfold binding bond
  cases i.form with
  | whole alias? => simp [Binding.told, hk]
  | selected requests =>
    simp [Binding.told, List.map_filterMap, Request.bound?, Function.comp_def, Binding.Name.told,
      hk]

end Import

namespace Project

variable (project : Project)

/-- The declarations of a module. -/
def declarations (key : Key) : List Declaration :=
  (project.itemsAt key).filterMap Item.declaration?

/-- The exports of a module. -/
def exports (key : Key) : Exports := .ofDeclarations (project.declarations key)

/-- The names that some items of the module `key` introduce, `n` declarations being in front of
them. -/
def introductions (key : Key) : (n : Nat) → List Item → List Introduction
  | _, [] => []
  | n, .declaration d :: rest =>
    ⟨d.name.value, .own n, d.name.span⟩ :: introductions key (n + 1) rest
  | n, .importing i :: rest =>
    ((i.key project.layout key).toOption.elim [] fun target =>
      i.introductions target (project.exports target)) ++ introductions key n rest

/-- What the imports among some items of the module `key` bind. -/
def bonds (key : Key) (items : List Item) : List Bond :=
  items.filterMap fun item => item.import?.bind fun i =>
    (i.key project.layout key).toOption.map fun target => i.bond target (project.exports target)

/-- What the items of a module come to. -/
def links (key : Key) : Links where
  scope := project.introductions key 0 (project.itemsAt key)
  bonds := project.bonds key (project.itemsAt key)
  dependencies := (project.imports key).eraseDups

/-- What is known of a module when it is ready. -/
def outline (key : Key) : Outline where
  source := project.source key
  declarations := project.declarations key
  exports := project.exports key
  links := project.links key

end Project

/-! ### Drafts on the way -/

theorem eraseDups_append_cons {α : Type} [DecidableEq α] {l l' : List α} {a : α}
    (h : a ∈ l) : (l ++ a :: l').eraseDups = (l ++ l').eraseDups := by
  rw [List.eraseDups_append, List.eraseDups_append]
  congr 2
  simp [List.removeAll, h]

theorem eraseDups_of_nodup {α : Type} [DecidableEq α] {l : List α} (h : l.Nodup) :
    l.eraseDups = l := by
  induction l with
  | nil => rfl
  | cons a l ih =>
    rw [List.nodup_cons] at h
    rw [List.eraseDups_cons, List.filter_eq_self.2, ih h.2]
    intro b hb
    have : b ≠ a := fun he => h.1 (he ▸ hb)
    simpa using this

/-- The draft `draft` of the module `key` is what the project says of the items in front of
`items`. -/
structure Draft.Follows (project : Project) (key : Key) (r : Registry) (draft : Draft)
    (items : List Item) : Prop where
  scope : draft.scope.entries.map (Scope.Entry.told r.keyOf) ++
    project.introductions key draft.declared items = (project.links key).scope
  bonds : draft.bindings.map (Binding.told r.keyOf) ++ project.bonds key items =
    (project.links key).bonds
  dependencies : (draft.dependencies.map r.keyOf ++ project.targets key items).eraseDups =
    (project.links key).dependencies
  dependencies_nodup : (draft.dependencies.map r.keyOf).Nodup

namespace Draft.Follows

variable {project : Project} {key target : Key} {r r' : Registry} {draft : Draft} {h : Handle}
  {m : Module} {d : Declaration} {i : Import} {rest items : List Item}

theorem empty : Follows project key r .empty (project.itemsAt key) :=
  ⟨rfl, rfl, rfl, List.nodup_nil⟩

theorem grows (hf : Follows project key r draft items) (hr : r.Coherent)
    (hp : r.modules <+: r'.modules) (hd : ∀ t ∈ draft.handles, t ∈ r.finished) :
    Follows project key r' draft items := by
  have htold : Links.told r'.keyOf draft.scope draft.bindings draft.dependencies =
      Links.told r.keyOf draft.scope draft.bindings draft.dependencies :=
    Links.told_congr fun t ht => hr.keyOf_mono hp (hd t ht)
  simp only [Links.told, Links.mk.injEq] at htold
  obtain ⟨hscope, hbonds, hdependencies⟩ := htold
  exact ⟨hscope ▸ hf.scope, hbonds ▸ hf.bonds, hdependencies ▸ hf.dependencies,
    hdependencies ▸ hf.dependencies_nodup⟩

theorem declaring (hf : Follows project key r draft (.declaration d :: rest)) :
    Follows project key r (draft.declaring d) rest := by
  refine ⟨?_, hf.bonds, hf.dependencies, hf.dependencies_nodup⟩
  rw [← hf.scope]
  simp [Draft.declaring, Scope.append, Scope.Entry.told, Meaning.told, Project.introductions]

theorem bound (hf : Follows project key r draft (.importing i :: rest))
    (hr : r.Coherent) (hd : ∀ t ∈ draft.handles, t ∈ r.finished)
    (hk : i.key project.layout key = .ok target) (hm : r.module? h = some m)
    (hmk : m.key = target) :
    Follows project key r (draft.bound (i.binding target (project.exports target) h)
      (draft.scope.append (i.entries target (project.exports target) h))) rest := by
  have hkey : r.keyOf h = target := (Registry.keyOf_eq hm).trans hmk
  -- two modules with one key are the same, so that keys repeat as handles do
  have hmem : h ∈ draft.dependencies ↔ target ∈ draft.dependencies.map r.keyOf := by
    refine ⟨fun hh => hkey ▸ List.mem_map_of_mem hh, fun hh => ?_⟩
    obtain ⟨t, ht, htk⟩ := List.mem_map.1 hh
    obtain ⟨n, hn, -⟩ := hr.mem_finished.1 (hd t (List.mem_append_right _ ht))
    rw [Registry.keyOf_eq hn, ← hmk] at htk
    exact hr.handle_unique hn hm htk ▸ ht
  have hdeps := hf.dependencies
  rw [Project.targets_importing hk] at hdeps
  refine ⟨?_, ?_, ?_, ?_⟩
  · rw [← hf.scope]
    simp [Draft.bound, Scope.append, Import.told_entries hkey, Project.introductions, hk,
      Except.toOption]
  · rw [← hf.bonds]
    simp [Draft.bound, Import.told_binding hkey, Project.bonds, Item.import?, hk, Except.toOption]
  · rw [← hdeps]
    simp only [Draft.bound, Import.target_binding, List.contains_iff_mem, hmem]
    split_ifs with hc
    · exact (eraseDups_append_cons hc).symm
    · simp [hkey]
  · simp only [Draft.bound, Import.target_binding, List.contains_iff_mem, hmem]
    split_ifs with hc
    · exact hf.dependencies_nodup
    · rw [List.map_append, List.map_singleton, hkey, ← List.concat_eq_append]
      exact hf.dependencies_nodup.concat hc

/-- When all items are taken, the module is filled in as the project says. -/
theorem outline (hf : Follows project key r draft []) (hi : project.itemsAt key = items) :
    r.outline (draft.fill items { Module.start key with source := project.source key }) =
      project.outline key := by
  have hscope := hf.scope
  have hbonds := hf.bonds
  have hdeps := hf.dependencies
  simp only [Project.introductions, Project.bonds, Project.targets, List.filterMap_nil,
    List.append_nil, eraseDups_of_nodup hf.dependencies_nodup] at hscope hbonds hdeps
  simp only [Registry.outline, Project.outline, Draft.fill, Draft.record, Project.exports,
    Project.declarations, hi, Links.told, hscope, hbonds, hdeps]

end Draft.Follows

end ModuleResolution
