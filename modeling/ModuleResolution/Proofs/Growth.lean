import Mathlib.Data.List.Basic
import ModuleResolution.Proofs.Course

/-!
# Registries only grow

A request for a module leaves everything that the registry holds as it is, and puts new modules
behind the old ones.  Each module is filled in and ended by the request that entered it.

* `Registry.Grows` : one registry continues another.
* `Project.visit_grows` : a request continues the registry it is made in.
-/

namespace ModuleResolution

namespace Registry

variable {r r' r'' : Registry} {key : Key} {h h' : Handle} {m : Module}

/-! ### The modules of a changed registry -/

theorem module?_update (f : Module → Module) :
    (r.update h f).module? h' = if h = h' then (r.module? h').map f else r.module? h' := by
  obtain ⟨n⟩ := h
  obtain ⟨n'⟩ := h'
  simp only [module?, update, List.getElem?_modify, Handle.mk.injEq]
  split <;> simp

theorem lt_of_module? (hm : r.module? h = some m) : h.index < r.modules.length :=
  (List.getElem?_eq_some_iff.1 hm).1

theorem ne_fresh_of_module? (hm : r.module? h = some m) : h ≠ r.fresh := by
  rintro rfl
  exact Nat.lt_irrefl _ (lt_of_module? hm)

theorem record_eq (hm : r.module? h = some m) : r.record h = m := by rw [record, hm]; rfl

/-- The key of the module behind a handle. -/
def keyOf (r : Registry) (h : Handle) : Key := (r.record h).key

theorem keyOf_eq (hm : r.module? h = some m) : r.keyOf h = m.key := by rw [keyOf, record_eq hm]

/-- The module `key` with the text `source` starts to load. -/
def started (r : Registry) (key : Key) (source : String) : Registry where
  modules := r.modules ++ [{ Module.start key with source }]
  handles := r.handles ++ [(key, r.fresh)]
  active := r.active ++ [key]
  finished := r.finished

theorem module?_started (source : String) :
    (r.started key source).module? h =
      if h = r.fresh then some { Module.start key with source } else r.module? h := by
  obtain ⟨n⟩ := h
  simp only [module?, started, fresh, Handle.mk.injEq, List.getElem?_append]
  by_cases hn : n = r.modules.length
  · simp [hn]
  · simp only [hn, if_false]
    split_ifs with hlt
    · rfl
    · rw [List.getElem?_eq_none (Nat.not_lt.1 hlt), List.getElem?_eq_none]
      simp only [List.length_singleton]
      omega

theorem modify_middle (l more : List Module) (m : Module) (f : Module → Module) :
    (l ++ m :: more).modify l.length f = l ++ f m :: more := by
  induction l with
  | nil => rfl
  | cons m' l ih => simpa using ih

theorem update_enter (source : String) :
    (r.enter key).update r.fresh (fun m => { m with source }) = r.started key source := by
  simp only [enter, update, started, fresh, modify_middle]

/-- The innermost module being loaded, which is behind `h`, ends: `f` changes its record, and
`finished` are the modules that are ready then. -/
def ended (r : Registry) (h : Handle) (f : Module → Module) (finished : List Handle) : Registry :=
  { r.leave.update h f with finished }

theorem fail_update (f : Module → Module) (failure : Failure) :
    (r.update h f).fail h failure =
      r.ended h (fun m => { f m with state := .failed failure }) r.finished := by
  simp only [fail, ended, leave, update, List.modify_modify_eq, Function.comp_def]

theorem finish_update (f : Module → Module) :
    (r.update h f).finish h =
      r.ended h (fun m => { f m with state := .ready }) (r.finished ++ [h]) := by
  simp only [finish, ended, leave, update, List.modify_modify_eq, Function.comp_def]

theorem module?_ended (hm : r.module? h = some m) (f : Module → Module) (finished : List Handle) :
    (r.ended h f finished).module? h' = if h = h' then some (f m) else r.module? h' := by
  change (r.leave.update h f).module? h' = _
  rw [module?_update]
  split_ifs with hh
  · rw [← hh]
    change (r.module? h).map f = _
    rw [hm, Option.map_some]
  · rfl

theorem module?_ended_self (hm : r.module? h = some m) (f : Module → Module)
    (finished : List Handle) : (r.ended h f finished).module? h = some (f m) := by
  rw [module?_ended hm, if_pos rfl]

/-! ### Continuations -/

theorem module?_mono (hp : r.modules <+: r'.modules) (hm : r.module? h = some m) :
    r'.module? h = some m := by
  obtain ⟨more, hmore⟩ := hp
  rw [module?, ← hmore, List.getElem?_append_left (lt_of_module? hm)]
  exact hm

/-- `r'` continues `r`: it holds more modules behind those of `r`, of which some more are ready. -/
structure Grows (r r' : Registry) : Prop where
  modules : r.modules <+: r'.modules
  handles : r.handles <+: r'.handles
  active : r'.active = r.active
  finished : r.finished <+: r'.finished

namespace Grows

theorem refl (r : Registry) : r.Grows r :=
  ⟨List.prefix_rfl, List.prefix_rfl, rfl, List.prefix_rfl⟩

theorem trans (h₁ : r.Grows r') (h₂ : r'.Grows r'') : r.Grows r'' :=
  ⟨h₁.modules.trans h₂.modules, h₁.handles.trans h₂.handles, h₂.active.trans h₁.active,
    h₁.finished.trans h₂.finished⟩

theorem module? (hg : r.Grows r') (hm : r.module? h = some m) : r'.module? h = some m :=
  module?_mono hg.modules hm

theorem mem_finished (hg : r.Grows r') (hh : h ∈ r.finished) : h ∈ r'.finished :=
  hg.finished.subset hh

theorem module?_fresh {source : String} (hg : (r.started key source).Grows r') :
    r'.module? r.fresh = some { Module.start key with source } :=
  hg.module? (by rw [module?_started, if_pos rfl])

/-- When the module that has started to load has ended, the registry continues the one that it was
started in. -/
theorem ended {source : String} {finished : List Handle} (hg : (r.started key source).Grows r')
    (f : Module → Module) (hf : r'.finished <+: finished) :
    r.Grows (r'.ended r.fresh f finished) where
  modules := by
    obtain ⟨more, hmore⟩ := hg.modules
    refine ⟨f { Module.start key with source } :: more, ?_⟩
    simp only [Registry.ended, update, leave, fresh, ← hmore, started, List.append_assoc,
      List.singleton_append, modify_middle]
  handles := (List.prefix_append _ _).trans hg.handles
  active := by simp [Registry.ended, update, leave, hg.active, started]
  finished := hg.finished.trans hf

end Grows

end Registry

/-! ### Requests -/

theorem Project.registry_opening (project : Project) (key : Key) (s : Session) :
    (project.opening key s).registry = s.registry.started key (project.source key) := by
  unfold opening source
  cases project.loader.read key with
  | error fault => rfl
  | ok source => exact Registry.update_enter source

variable {layout : Layout} {key : Key} {draft : Draft} {items : List Item} {s : Session}
  {out : Except Failure Draft × Session}

theorem Session.registry_fail_filled (h : Handle) (failure : Failure) :
    ((s.filled h items draft).on (·.fail h failure)).registry =
      s.registry.ended h (fun m => { draft.fill items m with state := .failed failure })
        s.registry.finished :=
  Registry.fail_update _ failure

theorem Session.registry_finish_filled (h : Handle) :
    ((s.filled h items draft).on (·.finish h)).registry =
      s.registry.ended h (fun m => { draft.fill items m with state := .ready })
        (s.registry.finished ++ [h]) :=
  Registry.finish_update _

theorem Draft.Takes.grows {visit : Key → Loading Handle}
    (hv : ∀ target (s : Session), s.registry.Grows (visit target s).2.registry)
    (h : Takes visit layout key draft items s out) : s.registry.Grows out.2.registry := by
  induction h with
  | done => exact .refl _
  | collided => exact .refl _
  | declared _ _ ih => exact ih
  | astray => exact .refl _
  | @failed _ _ _ s target _ _ _ hvisit => simpa only [hvisit] using hv target s
  | @refused _ _ _ s target _ _ _ _ _ hvisit => simpa only [hvisit] using hv target s
  | @bound _ _ _ s target _ _ _ _ _ _ hvisit _ _ ih =>
    have hg := hv target s
    rw [hvisit] at hg
    exact hg.trans ih

/-- **A request for a module only adds to the registry.**  The modules being loaded are the same
before and after it. -/
theorem Project.visit_grows (project : Project) (depth : Nat) (key : Key) (s : Session) :
    s.registry.Grows (project.visit depth key s).2.registry := by
  induction depth generalizing key s with
  | zero => exact .refl _
  | succ depth ih =>
    have hvisit := project.visits_visit depth key s
    generalize project.visit (depth + 1) key s = out at hvisit
    -- the requests in between continue the registry that the module was started in
    have htakes : ∀ {items draft? s'}, Draft.Takes (project.visit depth) project.layout key .empty
        items (project.opening key s) (draft?, s') →
        (s.registry.started key (project.source key)).Grows s'.registry := by
      intro items draft? s' ht
      rw [← project.registry_opening]
      exact ht.grows ih
    cases hvisit with
    | known => exact .refl _
    | refused =>
      have hstarted : (s.registry.started key (project.source key)).Grows
          (project.opening key s).registry := by
        rw [project.registry_opening]
        exact .refl _
      exact hstarted.ended _ List.prefix_rfl
    | stopped _ _ ht => exact (htakes ht).ended _ List.prefix_rfl
    | dangling _ _ ht =>
      rw [Session.registry_fail_filled]
      exact (htakes ht).ended _ List.prefix_rfl
    | ready _ _ ht =>
      rw [Session.registry_finish_filled]
      exact (htakes ht).ended _ (List.prefix_append _ _)

end ModuleResolution
