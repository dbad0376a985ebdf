import ModuleResolution.Proofs.Outline

/-!
# Qualified names in a project

What a qualified name denotes depends on the names that its module introduces, and on those that the
modules do to which it leads.  These the project says, so that it says also what the name denotes.

* `Project.Denotes` : the rules by which a qualified name denotes something.
* `Project.resolve` : what a qualified name denotes, or why it denotes nothing.
* `Project.resolve_eq_ok_iff` : a qualified name denotes what the rules say.
* `Project.Tells.denotation_eq` : a registry whose modules are as the project says makes the same of
  it.
-/

namespace ModuleResolution

/-- What a qualified name denotes. -/
inductive Referent where
  /-- A declaration, by its module and its position there. -/
  | declaration (owner : Key) (index : Nat)
  /-- A module. -/
  | whole (target : Key)
deriving DecidableEq

/-- What a qualified name denotes, told by keys. -/
def Registry.referent (r : Registry) : Denotation → Referent
  | .declaration d => .declaration (r.keyOf d.owner) d.index
  | .whole target => .whole (r.keyOf target)

theorem Module.mem_handles_of_meaning? {m : Module} {name : String} {meaning : Meaning} {t : Handle}
    (hm : m.scope.meaning? name = some meaning) (ht : t ∈ meaning.handles) : t ∈ m.handles :=
  List.mem_append_left _ (List.mem_append_left _ (Scope.mem_handles_of_meaning? hm ht))

theorem Registry.keyOf_update {r : Registry} {h : Handle} {f : Module → Module}
    (hf : ∀ m, (f m).key = m.key) : (r.update h f).keyOf = r.keyOf := by
  funext t
  rw [keyOf, record, module?_update, keyOf, record]
  split_ifs
  · cases r.module? t with
    | none => rfl
    | some m => exact hf m
  · rfl

namespace Project

variable (project : Project)

/-- What a name stands for in a module. -/
def sense? (key : Key) (name : String) : Option Sense :=
  ((project.links key).scope.find? (·.name == name)).map Introduction.sense

/-- The declaration at a position in a module is a type. -/
def isType (key : Key) (index : Nat) : Bool :=
  ((project.declarations key)[index]?).any (·.kind == .type)

/-! ### The rules -/

/-- The rules by which names lead from a module to what they denote; `builds` says that a value is
built of it. -/
inductive Leads (builds : Bool) : Key → List String → Referent → Prop
  /-- The last name is exported.  If a value is built of it, it is a type. -/
  | exported {target name index} (hx : (project.exports target).index? name = some index)
    (hb : builds = true → project.isType target index = true) :
    Leads builds target [name] (.declaration target index)
  /-- A name in front of others is exported, and is a type, whose members the others are. -/
  | member {target name next rest index}
    (hx : (project.exports target).index? name = some index)
    (ht : project.isType target index = true) :
    Leads builds target (name :: next :: rest) (.declaration target index)
  /-- The last name is not exported, but an alias.  No value is built of it. -/
  | aliased {target name next} (hx : (project.exports target).index? name = none)
    (hs : project.sense? target name = some (.whole next)) (hb : builds = false) :
    Leads builds target [name] (.whole next)
  /-- A name in front of others is not exported, but an alias, and they lead on from there. -/
  | through {target name next rest referent}
    (hx : (project.exports target).index? name = none)
    (hs : project.sense? target name = some (.whole next))
    (hrest : Leads builds next rest referent) :
    Leads builds target (name :: rest) referent

/-- The rules by which a qualified name in the module `key` denotes something. -/
inductive Denotes (key : Key) (reference : Reference) : Referent → Prop
  /-- Its outermost name is a type of the module. -/
  | own {root rest index} (hp : reference.path = root :: rest)
    (hs : project.sense? key root = some (.own index)) (ht : project.isType key index = true) :
    Denotes key reference (.declaration key index)
  /-- Its outermost name is a type that is imported. -/
  | imported {root rest owner index} (hp : reference.path = root :: rest)
    (hs : project.sense? key root = some (.imported owner index))
    (ht : project.isType owner index = true) :
    Denotes key reference (.declaration owner index)
  /-- Its outermost name is an alias, and the others lead on from there. -/
  | whole {root rest target referent} (hp : reference.path = root :: rest)
    (hs : project.sense? key root = some (.whole target))
    (hrest : project.Leads reference.builds target rest referent) :
    Denotes key reference referent

/-! ### The rules as a function -/

/-- A declaration with more names behind it, which must be a type.  `walked` are the names up to
the declaration. -/
def subject (importer : Key) (span : Span) (walked : List String) (owner : Key) (index : Nat) :
    Except Failure Referent :=
  if project.isType owner index then .ok (.declaration owner index)
  else .error (.notNamespace importer (Reference.join walked) span)

/-- Follows names from the module `target`, which the names `walked` have led to. -/
def follow (importer : Key) (reference : Reference) (span : Span) (walked : List String)
    (target : Key) : List String → Except Failure Referent
  | [] => .error (.notNamespace importer (Reference.join walked) span)
  | name :: rest =>
    match (project.exports target).index? name with
    | some index =>
      if rest ≠ [] then project.subject importer span (walked ++ [name]) target index
      else if reference.builds && !project.isType target index then
        .error (.notType importer reference.text span)
      else .ok (.declaration target index)
    | none =>
      match project.sense? target name with
      | some (.whole next) =>
        if rest ≠ [] then follow importer reference span (walked ++ [name]) next rest
        else if reference.builds then .error (.notType importer reference.text span)
        else .ok (.whole next)
      | _ => .error (.notExported target importer name span)

/-- What a qualified name in the module `key` denotes. -/
def resolve (key : Key) (reference : Reference) (span : Span) : Except Failure Referent :=
  match reference.path with
  | [] => .error (.notNamespace key "" span)
  | root :: rest =>
    match project.sense? key root with
    | some (.whole target) => project.follow key reference span [root] target rest
    | some (.own index) => project.subject key span [root] key index
    | some (.imported owner index) => project.subject key span [root] owner index
    | none => .error (.notNamespace key root span)

/-- What is wrong with a qualified name in the module `key`. -/
def fault? (key : Key) (reference : Located Reference) : Option Failure :=
  match project.resolve key reference.value reference.span with
  | .ok _ => none
  | .error failure => some failure

/-- What is wrong with the first qualified name in the declarations of a module that denotes
nothing. -/
def dangling? (key : Key) : Option Failure :=
  ((project.declarations key).flatMap Declaration.references).findSome? (project.fault? key)

variable {project} {importer key target : Key} {reference : Reference} {span : Span}
  {walked names : List String} {referent : Referent}

theorem subject_eq_ok_iff {owner : Key} {index : Nat} :
    project.subject importer span walked owner index = .ok referent ↔
      project.isType owner index = true ∧ referent = .declaration owner index := by
  unfold subject
  split_ifs with ht
  · simp [ht, eq_comm]
  · simp [ht]

/-- Names that lead somewhere by the rules are followed there. -/
theorem Leads.follow_eq (h : project.Leads reference.builds target names referent) :
    project.follow importer reference span walked target names = .ok referent := by
  induction h generalizing walked with
  | exported hx hb =>
    rw [follow, hx]
    cases hr : reference.builds with
    | false => rfl
    | true => simp [hb hr]
  | member hx ht =>
    rw [follow, hx]
    exact subject_eq_ok_iff.2 ⟨ht, rfl⟩
  | aliased hx hs hb => simp [follow, hx, hs, hb]
  | @through _ _ _ rest _ hx hs hrest ih =>
    -- no names lead nowhere, so there is one more
    have hne : rest ≠ [] := by
      rintro rfl
      cases hrest
    simp only [follow, hx, hs, if_pos hne, ih]

theorem leads_of_follow_eq
    (h : project.follow importer reference span walked target names = .ok referent) :
    project.Leads reference.builds target names referent := by
  induction names generalizing walked target with
  | nil => cases h
  | cons name rest ih =>
    rw [follow] at h
    split at h
    · rename_i index hx
      cases rest with
      | nil =>
        simp only [ne_eq, not_true_eq_false, if_false] at h
        split at h
        · cases h
        · rename_i hb
          cases h
          exact .exported hx fun hbuilds => by simpa [hbuilds] using hb
      | cons next rest =>
        obtain ⟨ht, rfl⟩ := subject_eq_ok_iff.1 h
        exact .member hx ht
    · rename_i hx
      split at h
      · rename_i next hs
        cases rest with
        | nil =>
          simp only [ne_eq, not_true_eq_false, if_false] at h
          split at h
          · cases h
          · rename_i hb
            cases h
            exact .aliased hx hs (by simpa using hb)
        | cons => exact .through hx hs (ih h)
      · cases h

/-- **A qualified name denotes what the rules say**, and nothing where they say nothing. -/
theorem resolve_eq_ok_iff :
    project.resolve key reference span = .ok referent ↔
      project.Denotes key reference referent := by
  constructor
  · intro h
    unfold resolve at h
    split at h
    · cases h
    · rename_i root rest hp
      split at h
      · rename_i target hs
        exact .whole hp hs (leads_of_follow_eq h)
      · rename_i index hs
        obtain ⟨ht, rfl⟩ := subject_eq_ok_iff.1 h
        exact .own hp hs ht
      · rename_i owner index hs
        obtain ⟨ht, rfl⟩ := subject_eq_ok_iff.1 h
        exact .imported hp hs ht
      · cases h
  · rintro (⟨hp, hs, ht⟩ | ⟨hp, hs, ht⟩ | ⟨hp, hs, hrest⟩)
    · simp only [resolve, hp, hs]
      exact subject_eq_ok_iff.2 ⟨ht, rfl⟩
    · simp only [resolve, hp, hs]
      exact subject_eq_ok_iff.2 ⟨ht, rfl⟩
    · simp only [resolve, hp, hs]
      exact hrest.follow_eq

theorem fault?_eq_none_iff {reference : Located Reference} :
    project.fault? key reference = none ↔
      ∃ referent, project.Denotes key reference.value referent := by
  have hiff : ∀ referent, project.resolve key reference.value reference.span = .ok referent ↔
      project.Denotes key reference.value referent := fun _ => resolve_eq_ok_iff
  simp only [← hiff, fault?]
  cases project.resolve key reference.value reference.span with
  | ok referent => simp
  | error failure => simp

/-- No qualified name in a module is wrong if each denotes something. -/
theorem dangling?_eq_none_iff : project.dangling? key = none ↔
    ∀ d ∈ project.declarations key, ∀ reference ∈ d.references,
      ∃ referent, project.Denotes key reference.value referent := by
  simp only [dangling?, List.findSome?_eq_none_iff, List.mem_flatMap, fault?_eq_none_iff]
  exact ⟨fun h d hd reference hr => h reference ⟨d, hd, hr⟩,
    fun h reference ⟨d, hd, hr⟩ => h d hd reference hr⟩

/-! ### Registries as the project says -/

/-- The module behind `h` is as the project says. -/
def Shows (project : Project) (r : Registry) (h : Handle) : Prop :=
  r.outline (r.record h) = project.outline (r.keyOf h)

/-- The modules that are ready are as the project says, and they mention each other only. -/
structure Tells (project : Project) (r : Registry) : Prop where
  shows : ∀ h ∈ r.finished, project.Shows r h
  closed : ∀ h ∈ r.finished, ∀ t ∈ (r.record h).handles, t ∈ r.finished

namespace Shows

variable {r : Registry} {h : Handle} (hs : project.Shows r h)

include hs

theorem exports_eq : (r.record h).exports = project.exports (r.keyOf h) :=
  congrArg Outline.exports hs

theorem meaning?_eq (name : String) :
    ((r.record h).scope.meaning? name).map (Meaning.told r.keyOf) =
      project.sense? (r.keyOf h) name := by
  have hscope : (project.links (r.keyOf h)).scope =
      (r.record h).scope.entries.map (Scope.Entry.told r.keyOf) :=
    (congrArg (fun o : Outline => o.links.scope) hs).symm
  rw [sense?, hscope, List.find?_map]
  simp only [Scope.meaning?, Scope.find?, Option.map_map]
  rfl

theorem isType_eq (index : Nat) : r.isType ⟨h, index⟩ = project.isType (r.keyOf h) index := by
  have hdecls : (r.record h).declarations = project.declarations (r.keyOf h) :=
    congrArg Outline.declarations hs
  rw [isType, ← hdecls, Registry.isType, Registry.declaration?, Registry.record]
  cases r.module? h <;> rfl

theorem subject_eq (index : Nat) :
    (r.subject importer span walked ⟨h, index⟩).map r.referent =
      project.subject importer span walked (r.keyOf h) index := by
  rw [Registry.subject, hs.isType_eq, subject]
  split_ifs <;> rfl

end Shows

namespace Tells

variable {r : Registry} {h : Handle}

theorem follow_eq (hr : project.Tells r) {t : Handle} (ht : t ∈ r.finished) :
    (r.follow importer reference span walked t names).map r.referent =
      project.follow importer reference span walked (r.keyOf t) names := by
  induction names generalizing walked t with
  | nil => rfl
  | cons name rest ih =>
    have hs := hr.shows t ht
    rw [Registry.follow, follow, hs.exports_eq, ← hs.meaning?_eq]
    cases (project.exports (r.keyOf t)).index? name with
    | some index =>
      simp only [hs.isType_eq]
      split_ifs
      · exact hs.subject_eq index
      · rfl
      · rfl
    | none =>
      cases hm : (r.record t).scope.meaning? name with
      | none => rfl
      | some meaning =>
        cases meaning with
        | own | imported => rfl
        | whole next =>
          -- a module that is ready mentions modules that are ready
          have hnext : next ∈ r.finished :=
            hr.closed t ht next (Module.mem_handles_of_meaning? hm (List.mem_singleton_self _))
          simp only [Option.map_some, Meaning.told]
          split_ifs
          · exact ih hnext
          · rfl
          · rfl

/-- **A qualified name denotes what the project says**, if its module and those that are ready are
as the project says. -/
theorem denotation_eq (hr : project.Tells r) (hs : project.Shows r h)
    (hh : ∀ t ∈ (r.record h).handles, t ∈ r.finished) :
    (r.denotation h reference span).map r.referent =
      project.resolve (r.keyOf h) reference span := by
  unfold Registry.denotation resolve
  cases reference.path with
  | nil => rfl
  | cons root rest =>
    simp only [← hs.meaning?_eq]
    cases hm : (r.record h).scope.meaning? root with
    | none => rfl
    | some meaning =>
      have hmem := fun t ht => hh t (Module.mem_handles_of_meaning? (t := t) hm ht)
      cases meaning with
      | own index => exact hs.subject_eq index
      | whole target => exact hr.follow_eq (hmem target (List.mem_singleton_self _))
      | imported d =>
        exact (hr.shows d.owner (hmem d.owner (List.mem_singleton_self _))).subject_eq d.index

/-- The qualified names of a module have the mistakes that the project says. -/
theorem dangling?_eq (hr : project.Tells r) (hs : project.Shows r h)
    (hh : ∀ t ∈ (r.record h).handles, t ∈ r.finished) :
    r.dangling? h (project.declarations (r.keyOf h)) = project.dangling? (r.keyOf h) := by
  have hfault : r.fault? h = project.fault? (r.keyOf h) := by
    funext reference
    rw [Registry.fault?, fault?, ← hr.denotation_eq hs hh]
    cases r.denotation h reference.value reference.span <;> rfl
  rw [Registry.dangling?, dangling?, hfault]

/-- Filling in a module that is not ready changes nothing about those that are. -/
theorem update (hr : project.Tells r) (hh : h ∉ r.finished) {f : Module → Module}
    (hf : ∀ m, (f m).key = m.key) : project.Tells (r.update h f) := by
  have hkey : (r.update h f).keyOf = r.keyOf := Registry.keyOf_update hf
  have hrecord : ∀ t ∈ r.finished, (r.update h f).record t = r.record t := by
    intro t ht
    rw [Registry.record, Registry.module?_update, if_neg fun he : h = t => hh (he ▸ ht),
      Registry.record]
  refine ⟨fun t ht => ?_, fun t ht => ?_⟩
  · rw [Shows, hkey, hrecord t ht, Registry.outline, hkey]
    exact hr.shows t ht
  · rw [hrecord t ht]
    exact hr.closed t ht

end Tells

end Project

end ModuleResolution
