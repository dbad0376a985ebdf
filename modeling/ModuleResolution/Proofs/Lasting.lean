import ModuleResolution.Proofs.Coherence

/-!
# What lasts of modules that are ready

A registry that goes on still knows what it knew of the modules that are ready.  So what depends on
these alone, and holds of a module when it becomes ready, holds of it ever after.

* `Registry.Preserves` : one registry knows what another knows of the modules that are ready.
* `Project.Readies` : the ways in which a module becomes ready.
* `Project.Establishes` : modules get a property when they become ready, and keep it.
* `Project.visit_each` : a request keeps such a property of all modules that are ready.
-/

namespace ModuleResolution

/-! ### Registries that go on -/

namespace Registry

/-- `r'` knows what `r` knows of the modules that are ready. -/
structure Preserves (r r' : Registry) : Prop where
  find? : ∀ {key t}, r.find? key = some t → r'.find? key = some t
  module? : ∀ {t}, t ∈ r.finished → r'.module? t = r.module? t

variable {r r' : Registry} {key : Key} {h : Handle} {m : Module}

theorem Preserves.record (hp : r.Preserves r') (hh : h ∈ r.finished) :
    r'.record h = r.record h := by
  rw [Registry.record, hp.module? hh, Registry.record]

/-- A registry that goes on behind another one knows what it knows. -/
theorem Coherent.preserves (hr : r.Coherent) (hm : r.modules <+: r'.modules)
    (hh : r.handles <+: r'.handles) : r.Preserves r' where
  find? hf := hh.lookup_eq_some hf
  module? ht := by
    obtain ⟨m, hmod, -⟩ := hr.mem_finished.1 ht
    rw [hmod, module?_mono hm hmod]

/-- What becomes of a module being loaded changes nothing about those that are ready. -/
theorem Coherent.preserves_update {outer : List Key} (hr : r.Coherent) (hi : r.Innermost h m outer)
    (f : Module → Module) : r.Preserves (r.update h f) where
  find? hf := hf
  module? := by
    intro t ht
    have hne : h ≠ t := by
      rintro rfl
      exact hr.not_mem_finished hi ht
    rw [module?_update, if_neg hne]

theorem Coherent.preserves_ended {outer : List Key} (hr : r.Coherent) (hi : r.Innermost h m outer)
    (f : Module → Module) (finished : List Handle) : r.Preserves (r.ended h f finished) where
  find? hf := hf
  module? ht := (hr.preserves_update hi f).module? ht

/-! ### Properties of modules that are ready -/

/-- Each module that is ready has the property `P`. -/
def Each (P : Registry → Handle → Module → Prop) (r : Registry) : Prop :=
  ∀ h m, r.module? h = some m → m.state = .ready → P r h m

end Registry

/-- The module `key`, which is asked for in the session `s`, becomes ready: its items `items` are
taken, which come to `draft` and lead to the session `s'`, and its qualified names denote
something. -/
structure Project.Readies (project : Project) (depth : Nat) (s : Session) (key : Key)
    (items : List Item) (draft : Draft) (s' : Session) : Prop where
  coherent : s.registry.Coherent
  unknown : s.registry.find? key = none
  opened : project.opened key = .ok items
  takes : Draft.Takes (project.visit depth) project.layout key .empty items (project.opening key s)
    (.ok draft, s')
  checked : (s'.filled s.registry.fresh items draft).registry.dangling? s.registry.fresh
    (items.filterMap Item.declaration?) = none

namespace Project.Readies

variable {project : Project} {depth : Nat} {s s' : Session} {key : Key} {items : List Item}
  {draft : Draft}

theorem innermost (hr : project.Readies depth s key items draft s') :
    s'.registry.Innermost s.registry.fresh
      { Module.start key with source := project.source key } s.registry.active :=
  project.innermost_of_grows (hr.takes.grows (project.visit_grows depth))

theorem opening_coherent (hr : project.Readies depth s key items draft s') :
    (project.opening key s).registry.Coherent := by
  rw [project.registry_opening]
  exact hr.coherent.started hr.unknown _

theorem taken_coherent (hr : project.Readies depth s key items draft s') :
    s'.registry.Coherent ∧ ∀ t ∈ draft.handles, t ∈ s'.registry.finished := by
  have hc := hr.takes.coherent (project.visit_grows depth) (project.visit_coherent depth)
    hr.opening_coherent (fun _ h => by cases h)
  exact ⟨hc.1, hc.2 draft rfl⟩

end Project.Readies

/-- Modules that become ready get the property `P`, and they keep it while the registry goes on. -/
structure Project.Establishes (project : Project) (P : Registry → Handle → Module → Prop) :
    Prop where
  lasts : ∀ {r r' : Registry} {h m}, r.Coherent → r.Preserves r' → r.module? h = some m →
    m.state = .ready → P r h m → P r' h m
  ready : ∀ {depth s key items draft s'}, project.Readies depth s key items draft s' →
    P ((s'.filled s.registry.fresh items draft).on (·.finish s.registry.fresh)).registry
      s.registry.fresh
      { draft.fill items { Module.start key with source := project.source key } with
        state := .ready }

section Each

variable {project : Project} {P : Registry → Handle → Module → Prop} {r : Registry} {key : Key}
  {h : Handle} {m : Module} {outer : List Key} {f : Module → Module}

theorem Project.Establishes.started (hP : project.Establishes P) (he : r.Each P) (hr : r.Coherent)
    (source : String) : (r.started key source).Each P := by
  intro h m hm hs
  rw [Registry.module?_started] at hm
  by_cases hh : h = r.fresh
  · rw [if_pos hh] at hm
    cases hm
    cases hs
  · rw [if_neg hh] at hm
    have hp : r.Preserves (r.started key source) :=
      hr.preserves (List.prefix_append _ _) (List.prefix_append _ _)
    exact hP.lasts hr hp hm hs (he h m hm hs)

/-- The module loaded innermost may end, if it has the property when it is ready. -/
theorem Project.Establishes.ended (hP : project.Establishes P) (he : r.Each P) (hr : r.Coherent)
    (hi : r.Innermost h m outer) (finished : List Handle)
    (hf : (f m).state = .ready → P (r.ended h f finished) h (f m)) :
    (r.ended h f finished).Each P := by
  intro t n hn hs
  rw [Registry.module?_ended hi.module?] at hn
  by_cases hh : h = t
  · subst hh
    rw [if_pos rfl] at hn
    cases hn
    exact hf hs
  · rw [if_neg hh] at hn
    exact hP.lasts hr (hr.preserves_ended hi f finished) hn hs (he t n hn hs)

end Each

/-! ### Requests -/

theorem Draft.Takes.each {project : Project} {P : Registry → Handle → Module → Prop} {depth : Nat}
    {key : Key} {draft : Draft} {items : List Item} {s : Session}
    {out : Except Failure Draft × Session}
    (hvisit : ∀ target (s : Session), s.registry.Coherent → s.registry.Each P →
      (project.visit depth target s).2.registry.Each P)
    (ht : Takes (project.visit depth) project.layout key draft items s out)
    (hr : s.registry.Coherent) (he : s.registry.Each P) : out.2.registry.Each P := by
  induction ht with
  | done | collided | astray => exact he
  | declared _ _ ih => exact ih hr he
  | @failed _ _ _ s target _ _ _ hv | @refused _ _ _ s target _ _ _ _ _ hv =>
    have heach := hvisit target s hr he
    rwa [hv] at heach
  | @bound _ _ _ s target _ _ _ _ _ _ hv _ _ ih =>
    have hc := (project.visit_coherent depth target s hr).1
    have heach := hvisit target s hr he
    rw [hv] at hc heach
    exact ih hc heach

/-- **A request for a module keeps what modules get when they become ready.** -/
theorem Project.visit_each (project : Project) {P : Registry → Handle → Module → Prop}
    (hP : project.Establishes P) (depth : Nat) (key : Key) (s : Session)
    (hr : s.registry.Coherent) (he : s.registry.Each P) :
    (project.visit depth key s).2.registry.Each P := by
  induction depth generalizing key s with
  | zero => exact he
  | succ depth ih =>
    have hvisit := project.visits_visit depth key s
    generalize project.visit (depth + 1) key s = out at hvisit
    -- the module has entered, and the requests of its imports keep the property
    have hopening : s.registry.find? key = none → (project.opening key s).registry.Coherent ∧
        (project.opening key s).registry.Each P := by
      intro hf
      rw [project.registry_opening]
      exact ⟨hr.started hf _, hP.started he hr _⟩
    have htakes : ∀ {items out}, s.registry.find? key = none →
        Draft.Takes (project.visit depth) project.layout key .empty items (project.opening key s)
          out →
        out.2.registry.Coherent ∧ out.2.registry.Each P := by
      intro items out hf ht
      obtain ⟨hc, heach⟩ := hopening hf
      exact ⟨(ht.coherent (project.visit_grows depth) (project.visit_coherent depth) hc
        (fun _ h => by cases h)).1, ht.each ih hc heach⟩
    cases hvisit with
    | known => exact he
    | refused hf =>
      obtain ⟨hc, heach⟩ := hopening hf
      have hi := project.innermost_of_grows (.refl (project.opening key s).registry)
      exact hP.ended heach hc hi _ (fun hs => by cases hs)
    | stopped hf _ ht =>
      obtain ⟨hc, heach⟩ := htakes hf ht
      have hi := project.innermost_of_grows (ht.grows (project.visit_grows depth))
      exact hP.ended heach hc hi _ (fun hs => by cases hs)
    | dangling hf _ ht =>
      obtain ⟨hc, heach⟩ := htakes hf ht
      have hi := project.innermost_of_grows (ht.grows (project.visit_grows depth))
      rw [Session.registry_fail_filled]
      exact hP.ended heach hc hi _ (fun hs => by cases hs)
    | ready hf ho ht hx =>
      obtain ⟨hc, heach⟩ := htakes hf ht
      have hreadies : project.Readies depth s key _ _ _ := ⟨hr, hf, ho, ht, hx⟩
      have hready := hP.ready hreadies
      rw [Session.registry_finish_filled] at hready ⊢
      exact hP.ended heach hc hreadies.innermost _ fun _ => hready

/-- What modules get when they become ready holds of each that is ready, after all requests from
outside. -/
theorem Session.each_after {P : Registry → Handle → Module → Prop}
    {demands : List (Project × Demand)} (hP : ∀ d ∈ demands, d.1.Establishes P) :
    (Session.after demands).registry.Each P := by
  have h : (Session.after demands).registry.Coherent ∧
      (Session.after demands).registry.Each P := by
    refine Session.after_induction (P := fun s => s.registry.Coherent ∧ s.registry.Each P)
      ⟨Registry.coherent_empty, fun h m hm => by cases hm⟩ fun d hd key s hs => ?_
    exact ⟨(d.1.visit_coherent d.1.depth key s hs.1).1,
      d.1.visit_each (hP d hd) d.1.depth key s hs.1 hs.2⟩
  exact h.2

end ModuleResolution
