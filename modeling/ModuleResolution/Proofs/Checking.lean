import ModuleResolution.Proofs.Lasting

/-!
# Qualified names that stay checked

What a qualified name denotes is read off the modules that the scope of its module leads to.  Where
two registries tell the same of these, the name denotes the same.  So the names that are checked
when a module becomes ready denote something ever after.

* `Registry.Agrees` : two registries tell the same of some modules, but for how far they have come.
* `Registry.Agrees.denotation` : they make the same of the qualified names in these modules.
* `Session.checked_after` : the qualified names in modules that are ready denote something.
-/

namespace ModuleResolution

/-- The module, as if it were ready. -/
def Module.face (m : Module) : Module := { m with state := .ready }

namespace Registry

/-- The registries tell the same of the modules behind `handles`, but for how far these have come,
and the scopes of these lead to such modules only. -/
structure Agrees (handles : List Handle) (r r' : Registry) : Prop where
  module? : ∀ t ∈ handles, (r'.module? t).map Module.face = (r.module? t).map Module.face
  closed : ∀ t ∈ handles, ∀ u ∈ (r.record t).scope.handles, u ∈ handles

namespace Agrees

variable {handles : List Handle} {r r' : Registry} {h target : Handle} {importer : Key}
  {reference : Reference} {span : Span} {walked names : List String} {d : DeclarationHandle}

theorem face_record (ha : Agrees handles r r') (hh : h ∈ handles) :
    (r'.record h).face = (r.record h).face := by
  have hm := ha.module? h hh
  rw [record, record]
  cases hr : r.module? h with
  | none =>
    rw [hr, Option.map_none, Option.map_eq_none_iff] at hm
    rw [hm]
  | some m =>
    rw [hr, Option.map_some, Option.map_eq_some_iff] at hm
    obtain ⟨m', hr', hface⟩ := hm
    rw [hr']
    exact hface

theorem key (ha : Agrees handles r r') (hh : h ∈ handles) :
    (r'.record h).key = (r.record h).key := congrArg (·.key) (ha.face_record hh)

theorem scope (ha : Agrees handles r r') (hh : h ∈ handles) :
    (r'.record h).scope = (r.record h).scope := congrArg (·.scope) (ha.face_record hh)

theorem exports (ha : Agrees handles r r') (hh : h ∈ handles) :
    (r'.record h).exports = (r.record h).exports := congrArg (·.exports) (ha.face_record hh)

theorem isType (ha : Agrees handles r r') (hd : d.owner ∈ handles) : r'.isType d = r.isType d := by
  have hface : ∀ r : Registry, r.declaration? d =
      ((r.module? d.owner).map Module.face).bind fun m => m.declarations[d.index]? := by
    intro r
    rw [declaration?]
    cases r.module? d.owner <;> rfl
  rw [Registry.isType, Registry.isType, hface, hface, ha.module? d.owner hd]

theorem subject (ha : Agrees handles r r') (hd : d.owner ∈ handles) :
    r'.subject importer span walked d = r.subject importer span walked d := by
  rw [Registry.subject, Registry.subject, ha.isType hd]

theorem follow (ha : Agrees handles r r') (ht : target ∈ handles) :
    r'.follow importer reference span walked target names =
      r.follow importer reference span walked target names := by
  induction names generalizing walked target with
  | nil => rfl
  | cons name rest ih =>
    rw [Registry.follow, Registry.follow, ha.exports ht, ha.scope ht, ha.key ht]
    cases (r.record target).exports.index? name with
    | some index =>
      have hd : (DeclarationHandle.mk target index).owner ∈ handles := ht
      simp only [ha.subject hd, ha.isType hd]
    | none =>
      cases hm : (r.record target).scope.meaning? name with
      | none => rfl
      | some meaning =>
        cases meaning with
        | own | imported => rfl
        | whole next =>
          -- the alias of a module leads to a module of which the registries tell the same
          have hnext : next ∈ (r.record target).scope.handles :=
            Scope.mem_handles_of_meaning? hm (List.mem_singleton_self next)
          simp only [ih (ha.closed target ht next hnext)]

/-- Registries that tell the same of the modules that a module leads to make the same of the
qualified names in it. -/
theorem denotation (ha : Agrees handles r r') (hh : h ∈ handles) :
    r'.denotation h reference span = r.denotation h reference span := by
  unfold Registry.denotation
  simp only [ha.scope hh, ha.key hh]
  cases reference.path with
  | nil => rfl
  | cons root rest =>
    cases hm : (r.record h).scope.meaning? root with
    | none => simp only [hm]
    | some meaning =>
      have hmem : ∀ t ∈ meaning.handles, t ∈ handles := fun t ht =>
        ha.closed h hh t (Scope.mem_handles_of_meaning? hm ht)
      simp only [hm]
      cases meaning with
      | own index =>
        have hd : (DeclarationHandle.mk h index).owner ∈ handles := hh
        exact ha.subject hd
      | whole target => exact ha.follow (hmem target (List.mem_singleton_self target))
      | imported d => exact ha.subject (hmem d.owner (List.mem_singleton_self d.owner))

theorem dangling? (ha : Agrees handles r r') (hh : h ∈ handles) (declarations : List Declaration) :
    r'.dangling? h declarations = r.dangling? h declarations := by
  have hfault : r'.fault? h = r.fault? h := by
    funext reference
    rw [fault?, fault?, ha.denotation hh]
  rw [Registry.dangling?, Registry.dangling?, hfault]

end Agrees

theorem Coherent.mem_finished_of_scope {r : Registry} {h t : Handle} (hr : r.Coherent)
    (ht : t ∈ (r.record h).scope.handles) : t ∈ r.finished := by
  cases hm : r.module? h with
  | none =>
    rw [record, hm] at ht
    cases ht
  | some m =>
    rw [record_eq hm] at ht
    exact hr.mentioned hm (List.mem_append_left _ (List.mem_append_left _ ht))

theorem Preserves.agrees {r r' : Registry} (hp : r.Preserves r') (hr : r.Coherent) :
    Agrees r.finished r r' where
  module? t ht := by rw [hp.module? ht]
  closed _ _ _ hu := hr.mem_finished_of_scope hu

/-- The qualified names in the declarations of the module denote something. -/
def Checked (r : Registry) (h : Handle) (m : Module) : Prop :=
  r.dangling? h m.declarations = none

end Registry

/-- When a module becomes ready, nothing changes for the qualified names in it. -/
theorem Project.Readies.agrees {project : Project} {depth : Nat} {s s' : Session} {key : Key}
    {items : List Item} {draft : Draft} (hr : project.Readies depth s key items draft s') :
    Registry.Agrees (s.registry.fresh :: s'.registry.finished)
      (s'.filled s.registry.fresh items draft).registry
      ((s'.filled s.registry.fresh items draft).on (·.finish s.registry.fresh)).registry := by
  obtain ⟨hc, hdraft⟩ := hr.taken_coherent
  have hi := hr.innermost
  have hfilled : ∀ t, (s'.filled s.registry.fresh items draft).registry.module? t =
      if s.registry.fresh = t then (s'.registry.module? t).map (draft.fill items)
      else s'.registry.module? t := fun t => Registry.module?_update _
  refine ⟨?_, ?_⟩
  · intro t _
    rw [Session.registry_finish_filled, Registry.module?_ended hi.module?, hfilled]
    by_cases ht : s.registry.fresh = t
    · subst ht
      rw [if_pos rfl, if_pos rfl, hi.module?]
      rfl
    · rw [if_neg ht, if_neg ht]
  · intro t _ u hu
    refine List.mem_cons_of_mem _ ?_
    rw [Registry.record, hfilled] at hu
    by_cases ht : s.registry.fresh = t
    · subst ht
      rw [if_pos rfl, hi.module?] at hu
      exact hdraft u (List.mem_append_left _ (List.mem_append_left _ hu))
    · rw [if_neg ht] at hu
      exact hc.mem_finished_of_scope hu

/-- **The qualified names in a module are checked when it becomes ready**, and denote something ever
after. -/
theorem Project.establishes_checked (project : Project) : project.Establishes Registry.Checked where
  lasts := by
    intro r r' h m hr hp hm hs hchecked
    have hfin : h ∈ r.finished := hr.mem_finished.2 ⟨m, hm, hs⟩
    rw [Registry.Checked, (hp.agrees hr).dangling? hfin]
    exact hchecked
  ready := by
    intro depth s key items draft s' hr
    rw [Registry.Checked, hr.agrees.dangling? List.mem_cons_self]
    exact hr.checked

/-! ### Where names stand -/

section Span

variable {r : Registry} {importer : Key} {reference : Reference} {span span' : Span}
  {walked names : List String} {h target : Handle} {d : DeclarationHandle} {x : Denotation}

theorem Registry.subject_of_span (hx : r.subject importer span walked d = .ok x) :
    r.subject importer span' walked d = .ok x := by
  rw [subject] at hx ⊢
  split at hx
  · rwa [if_pos ‹_›]
  · cases hx

theorem Registry.follow_of_span
    (hx : r.follow importer reference span walked target names = .ok x) :
    r.follow importer reference span' walked target names = .ok x := by
  induction names generalizing walked target with
  | nil => cases hx
  | cons name rest ih =>
    rw [follow] at hx ⊢
    split at hx
    · split at hx
      · rw [if_pos ‹_›]
        exact subject_of_span hx
      · rw [if_neg ‹_›]
        split at hx
        · cases hx
        · rwa [if_neg ‹_›]
    · split at hx
      · split at hx
        · rw [if_pos ‹_›]
          exact ih hx
        · rw [if_neg ‹_›]
          split at hx
          · cases hx
          · rwa [if_neg ‹_›]
      · cases hx

/-- What a qualified name denotes does not depend on where it stands in its module. -/
theorem Registry.denotation_of_span (hx : r.denotation h reference span = .ok x) (span' : Span) :
    r.denotation h reference span' = .ok x := by
  unfold denotation at hx ⊢
  dsimp only at hx ⊢
  split at hx
  · cases hx
  · split at hx
    · exact follow_of_span hx
    · exact subject_of_span hx
    · exact subject_of_span hx
    · cases hx

end Span

/-! ### After all requests -/

/-- After all requests from outside, every qualified name in the declarations of a module that is
ready denotes something. -/
theorem Session.checked_after (demands : List (Project × Demand)) {h : Handle} {m : Module}
    (hm : (Session.after demands).registry.module? h = some m) (hs : m.state = .ready)
    {d : Declaration} (hd : d ∈ m.declarations) {reference : Located Reference}
    (hx : reference ∈ d.references) :
    ∃ x, (Session.after demands).registry.denotation h reference.value reference.span = .ok x := by
  have hchecked := Session.each_after (fun d _ => d.1.establishes_checked) h m hm hs
  rw [Registry.Checked, Registry.dangling?, List.findSome?_eq_none_iff] at hchecked
  have hfault := hchecked reference (List.mem_flatMap.2 ⟨d, hd, hx⟩)
  rw [Registry.fault?] at hfault
  cases hden : (Session.after demands).registry.denotation h reference.value reference.span with
  | ok x => exact ⟨x, rfl⟩
  | error failure =>
    rw [hden] at hfault
    cases hfault

end ModuleResolution
