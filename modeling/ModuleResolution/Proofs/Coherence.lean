import Mathlib.Data.List.Basic
import Mathlib.Data.List.Nodup
import Mathlib.Logic.Relation
import ModuleResolution.Proofs.Binding
import ModuleResolution.Proofs.Growth

/-!
# Coherent registries

The parts of a registry tell the same of its modules: the keys and the handles belong together, the
active keys are those of the modules being loaded, and the finished handles are those of the modules
that are ready.  A module mentions modules that are ready only, and when it becomes ready itself
they stand in front of it.

* `Registry.Coherent` : this, while modules may be being loaded.
* `Project.visit_coherent` : a request for a module keeps it.
* `Registry.Settled` : this, when no module is being loaded.
* `Session.settled_after` : it holds after all requests, whatever they are.
-/

namespace ModuleResolution

/-! ### The modules that a module mentions -/

/-- The modules that a name leads to. -/
def Meaning.handles : Meaning → List Handle
  | own _ => []
  | whole target => [target]
  | imported d => [d.owner]

/-- The modules that a binding mentions. -/
def Binding.handles : Binding → List Handle
  | whole _ target => [target]
  | selected target names => target :: names.map (·.declaration.owner)

/-- The modules that the names of a scope lead to. -/
def Scope.handles (s : Scope) : List Handle := s.entries.flatMap (·.meaning.handles)

theorem Scope.mem_handles_of_meaning? {s : Scope} {name : String} {meaning : Meaning} {t : Handle}
    (hm : s.meaning? name = some meaning) (ht : t ∈ meaning.handles) : t ∈ s.handles := by
  obtain ⟨e, he, rfl⟩ := Option.map_eq_some_iff.1 hm
  exact List.mem_flatMap.2 ⟨e, List.mem_of_find?_eq_some he, ht⟩

/-- The modules that a draft mentions. -/
def Draft.handles (draft : Draft) : List Handle :=
  draft.scope.handles ++ draft.bindings.flatMap Binding.handles ++ draft.dependencies

/-- The modules that a module mentions. -/
def Module.handles (m : Module) : List Handle :=
  m.scope.handles ++ m.bindings.flatMap Binding.handles ++ m.dependencies

theorem Binding.target_mem_handles (b : Binding) : b.target ∈ b.handles := by
  cases b <;> exact List.mem_cons_self

namespace Import

variable {i : Import} {key : Key} {exports : Exports} {target t : Handle}

theorem target_binding : (i.binding key exports target).target = target := by
  unfold binding
  cases i.form <;> rfl

theorem eq_of_mem_handles_binding (h : t ∈ (i.binding key exports target).handles) :
    t = target := by
  unfold binding at h
  cases hf : i.form with
  | whole alias? => simpa [hf, Binding.handles] using h
  | selected requests =>
    simp only [hf, Binding.handles, List.mem_cons, List.mem_map, List.mem_filterMap,
      Request.bound?, Option.map_eq_some_iff] at h
    rcases h with h | ⟨name, ⟨q, -, index, -, rfl⟩, rfl⟩
    · exact h
    · rfl

theorem eq_of_mem_handles_entries {e : Scope.Entry} (he : e ∈ i.entries key exports target)
    (h : t ∈ e.meaning.handles) : t = target := by
  unfold entries at he
  cases hf : i.form with
  | whole alias? =>
    simp only [hf, List.mem_singleton] at he
    simpa [he, Meaning.handles] using h
  | selected requests =>
    simp only [hf, List.mem_filterMap, Request.entry?, Option.map_eq_some_iff] at he
    obtain ⟨q, -, index, -, rfl⟩ := he
    simpa [Meaning.handles] using h

end Import

namespace Draft

variable {draft : Draft} {t : Handle}

theorem handles_declaring (d : Declaration) : (draft.declaring d).handles = draft.handles := by
  simp [handles, declaring, Scope.handles, Scope.append, Meaning.handles]

theorem mem_handles_bound {i : Import} {key : Key} {exports : Exports} {target : Handle}
    (h : t ∈ (draft.bound (i.binding key exports target)
      (draft.scope.append (i.entries key exports target))).handles) :
    t ∈ draft.handles ∨ t = target := by
  simp only [handles, bound, Scope.handles, Scope.append, List.flatMap_append, List.mem_append,
    List.flatMap_singleton, Import.target_binding] at h ⊢
  rcases h with ((h | h) | (h | h)) | h
  · exact .inl (.inl (.inl h))
  · obtain ⟨e, he, ht⟩ := List.mem_flatMap.1 h
    exact .inr (Import.eq_of_mem_handles_entries he ht)
  · exact .inl (.inl (.inr h))
  · exact .inr (Import.eq_of_mem_handles_binding h)
  · split at h
    · exact .inl (.inr h)
    · rcases List.mem_append.1 h with h | h
      · exact .inl (.inr h)
      · exact .inr (List.mem_singleton.1 h)

end Draft

/-! ### Coherence -/

namespace Registry

/-- The parts of the registry tell the same of its modules, some of which may be being loaded. -/
structure Coherent (r : Registry) : Prop where
  /-- The keys and the handles belong together. -/
  find?_iff : ∀ {key h}, r.find? key = some h ↔ ∃ m, r.module? h = some m ∧ m.key = key
  active_nodup : r.active.Nodup
  /-- The active keys are those of the modules being loaded. -/
  mem_active : ∀ {key},
    key ∈ r.active ↔ ∃ h m, r.module? h = some m ∧ m.key = key ∧ m.state = .loading
  finished_nodup : r.finished.Nodup
  /-- The finished handles are those of the modules that are ready. -/
  mem_finished : ∀ {h}, h ∈ r.finished ↔ ∃ m, r.module? h = some m ∧ m.state = .ready
  /-- Only modules that are ready are mentioned. -/
  mentioned : ∀ {h m t}, r.module? h = some m → t ∈ m.handles → t ∈ r.finished
  /-- What a module mentions that is ready became ready before it. -/
  before : ∀ {h m t}, r.module? h = some m → m.state = .ready → t ∈ m.handles →
    [t, h].Sublist r.finished

/-- The module behind `h` is the innermost one being loaded. -/
structure Innermost (r : Registry) (h : Handle) (m : Module) (outer : List Key) : Prop where
  module? : r.module? h = some m
  active : r.active = outer ++ [m.key]

variable {r r' : Registry} {key : Key} {h : Handle} {m : Module}

theorem coherent_empty : Registry.empty.Coherent := by
  have hnone : ∀ h, Registry.empty.module? h = none := fun _ => rfl
  have hfind : ∀ key, Registry.empty.find? key = none := fun _ => rfl
  have hactive : Registry.empty.active = [] := rfl
  have hfinished : Registry.empty.finished = [] := rfl
  refine ⟨?_, List.nodup_nil, ?_, List.nodup_nil, ?_, ?_, ?_⟩ <;>
    simp [hnone, hfind, hactive, hfinished]

/-- The chain of imports back to a module being loaded starts where its key stands among the active
ones. -/
theorem chain_eq {outer inner : List Key} (ha : r.active = outer ++ key :: inner)
    (hn : r.active.Nodup) : r.chain key = key :: inner ++ [key] := by
  rw [ha, List.nodup_append] at hn
  have houter : ∀ k ∈ outer, (k != key) = true := by
    intro k hk
    have : k ≠ key := hn.2.2 k hk key List.mem_cons_self
    simpa using this
  have hmem : r.active.contains key = true := by
    rw [List.contains_iff_mem, ha]
    exact List.mem_append_right _ List.mem_cons_self
  rw [chain, if_pos hmem, ha, List.dropWhile_append_of_pos houter]
  simp

namespace Coherent

theorem handle_unique (hr : r.Coherent) {h' : Handle} {m' : Module} (hm : r.module? h = some m)
    (hm' : r.module? h' = some m') (hk : m.key = m'.key) : h = h' := by
  have hf := hr.find?_iff.2 ⟨m, hm, hk⟩
  rw [hr.find?_iff.2 ⟨m', hm', rfl⟩] at hf
  exact (Option.some.inj hf).symm

theorem find?_started (hf : r.find? key = none) {source : String} {key' : Key} :
    (r.started key source).find? key' = if key' = key then some r.fresh else r.find? key' := by
  rw [find?] at hf ⊢
  rw [Registry.started, List.lookup_append]
  by_cases hk : key' = key
  · subst hk
    rw [hf, if_pos rfl]
    simp
  · have hb : (key' == key) = false := by simpa using hk
    rw [if_neg hk, List.lookup_cons, hb]
    simp [find?]

theorem key_ne (hr : r.Coherent) (hf : r.find? key = none) (hm : r.module? h = some m) :
    m.key ≠ key := by
  rintro rfl
  cases hf.symm.trans (hr.find?_iff.2 ⟨m, hm, rfl⟩)

theorem not_mem_active (hr : r.Coherent) (hf : r.find? key = none) : key ∉ r.active := by
  rw [hr.mem_active]
  rintro ⟨h, m, hm, hk, -⟩
  exact hr.key_ne hf hm hk

theorem started (hr : r.Coherent) (hf : r.find? key = none) (source : String) :
    (r.started key source).Coherent where
  find?_iff := by
    intro key' h
    rw [find?_started hf, module?_started]
    split_ifs with hk hh hh
    · simp [hk, hh, Module.start]
    · simp only [hk, Option.some.injEq]
      refine ⟨fun he => absurd he.symm hh, ?_⟩
      rintro ⟨m, hm, rfl⟩
      exact absurd rfl (hr.key_ne hf hm)
    · simp only [hh, Option.some.injEq, exists_eq_left']
      refine ⟨fun he => ?_, fun he => absurd he.symm hk⟩
      obtain ⟨m, hm, -⟩ := hr.find?_iff.1 he
      exact absurd rfl (ne_fresh_of_module? hm)
    · exact hr.find?_iff
  active_nodup := by
    change (r.active ++ [key]).Nodup
    rw [← List.concat_eq_append]
    exact hr.active_nodup.concat (hr.not_mem_active hf)
  mem_active := by
    intro key'
    change key' ∈ r.active ++ [key] ↔ _
    rw [List.mem_append, List.mem_singleton, hr.mem_active]
    constructor
    · rintro (⟨h, m, hm, hk, hs⟩ | rfl)
      · exact ⟨h, m, by rw [module?_started, if_neg (ne_fresh_of_module? hm), hm], hk, hs⟩
      · exact ⟨r.fresh, _, by rw [module?_started, if_pos rfl], rfl, rfl⟩
    · rintro ⟨h, m, hm, hk, hs⟩
      rw [module?_started] at hm
      split_ifs at hm with hh
      · cases hm; exact .inr hk.symm
      · exact .inl ⟨h, m, hm, hk, hs⟩
  finished_nodup := hr.finished_nodup
  mem_finished := by
    intro h
    change h ∈ r.finished ↔ _
    rw [hr.mem_finished, module?_started]
    split_ifs with hh
    · -- the new module is being loaded, and no old one has its handle
      subst hh
      constructor
      · rintro ⟨m, hm, -⟩
        exact absurd rfl (ne_fresh_of_module? hm)
      · rintro ⟨m, hm, hs⟩
        cases hm; cases hs
    · rfl
  mentioned := by
    intro h m t hm ht
    rw [module?_started] at hm
    split_ifs at hm
    · cases hm; cases ht
    · exact hr.mentioned hm ht
  before := by
    intro h m t hm hs ht
    rw [module?_started] at hm
    split_ifs at hm
    · cases hm; cases ht
    · exact hr.before hm hs ht

section Ended

variable {outer : List Key} {f : Module → Module} {finished : List Handle}

theorem loading_of_innermost (hr : r.Coherent) (hi : r.Innermost h m outer) :
    m.state = .loading := by
  obtain ⟨h', m', hm', hk', hs'⟩ := hr.mem_active.1 (show m.key ∈ r.active by simp [hi.active])
  obtain rfl := hr.handle_unique hm' hi.module? hk'
  rw [hi.module?] at hm'
  cases hm'
  exact hs'

theorem not_mem_finished (hr : r.Coherent) (hi : r.Innermost h m outer) : h ∉ r.finished := by
  rw [hr.mem_finished]
  rintro ⟨m', hm', hs'⟩
  rw [hi.module?] at hm'
  cases hm'
  rw [hr.loading_of_innermost hi] at hs'
  cases hs'

theorem mem_outer (hr : r.Coherent) (hi : r.Innermost h m outer) (hs : (f m).state ≠ .loading) :
    key ∈ outer ↔ ∃ h' m', (r.ended h f finished).module? h' = some m' ∧ m'.key = key ∧
      m'.state = .loading := by
  have hnodup := hr.active_nodup
  rw [hi.active, List.nodup_append] at hnodup
  constructor
  · intro hkey
    obtain ⟨h', m', hm', hk', hs'⟩ := hr.mem_active.1
      (show key ∈ r.active by rw [hi.active]; exact List.mem_append_left _ hkey)
    refine ⟨h', m', ?_, hk', hs'⟩
    rw [module?_ended hi.module?, if_neg, hm']
    rintro rfl
    rw [hi.module?] at hm'
    cases hm'
    exact hnodup.2.2 _ hkey _ (List.mem_singleton_self _) hk'.symm
  · rintro ⟨h', m', hm', hk', hs'⟩
    rw [module?_ended hi.module?] at hm'
    split_ifs at hm' with hh
    · cases hm'
      exact absurd hs' hs
    · have hkey := hr.mem_active.2 ⟨h', m', hm', hk', hs'⟩
      rw [hi.active, List.mem_append, List.mem_singleton] at hkey
      exact hkey.resolve_right fun he => hh (hr.handle_unique hi.module? hm' (he ▸ hk').symm)

/-- The module loaded innermost may end, if it mentions modules that are ready only. -/
theorem ended (hr : r.Coherent) (hi : r.Innermost h m outer) (hk : (f m).key = m.key)
    (hs : (f m).state ≠ .loading) (ht : ∀ t ∈ (f m).handles, t ∈ r.finished)
    (hfin : finished = r.finished ++ if (f m).state = .ready then [h] else []) :
    (r.ended h f finished).Coherent where
  find?_iff := by
    intro key' h'
    change r.find? key' = _ ↔ _
    rw [hr.find?_iff, module?_ended hi.module?]
    split_ifs with hh
    · subst hh
      simp [hi.module?, hk]
    · rfl
  active_nodup := by
    change r.active.dropLast.Nodup
    exact hr.active_nodup.sublist (List.dropLast_sublist _)
  mem_active := by
    intro key'
    change key' ∈ r.active.dropLast ↔ _
    rw [hi.active, List.dropLast_concat]
    exact hr.mem_outer hi hs
  finished_nodup := by
    change finished.Nodup
    rw [hfin]
    split_ifs
    · rw [← List.concat_eq_append]
      exact hr.finished_nodup.concat (hr.not_mem_finished hi)
    · simpa using hr.finished_nodup
  mem_finished := by
    intro h'
    change h' ∈ finished ↔ _
    rw [module?_ended hi.module?, hfin, List.mem_append]
    by_cases hh : h = h'
    · subst hh
      by_cases hready : (f m).state = .ready <;> simp [hready, hr.not_mem_finished hi]
    · rw [if_neg hh, ← hr.mem_finished]
      refine or_iff_left fun hmem => ?_
      split_ifs at hmem
      · exact hh (List.mem_singleton.1 hmem).symm
      · cases hmem
  mentioned := by
    intro h' m' t hm' ht'
    change t ∈ finished
    rw [module?_ended hi.module?] at hm'
    rw [hfin]
    refine List.mem_append_left _ ?_
    split_ifs at hm' with hh
    · cases hm'
      exact ht t ht'
    · exact hr.mentioned hm' ht'
  before := by
    intro h' m' t hm' hs' ht'
    change [t, h'].Sublist finished
    rw [module?_ended hi.module?] at hm'
    split_ifs at hm' with hh
    · cases hm'
      rw [hfin, if_pos hs', ← hh]
      exact (List.singleton_sublist.2 (ht t ht')).append_right [h]
    · rw [hfin]
      exact (hr.before hm' hs' ht').trans (List.sublist_append_left _ _)

end Ended

end Coherent

end Registry

/-! ### Requests -/

theorem Project.innermost_of_grows (project : Project) {key : Key} {s : Session} {r : Registry}
    (hg : (project.opening key s).registry.Grows r) :
    r.Innermost s.registry.fresh { Module.start key with source := project.source key }
      s.registry.active := by
  rw [project.registry_opening] at hg
  exact ⟨hg.module?_fresh, hg.active⟩

/-- Requests met by `visit` keep registries coherent and answer with modules that are ready. -/
def KeepsCoherence (visit : Key → Loading Handle) : Prop :=
  ∀ target (s : Session), s.registry.Coherent →
    (visit target s).2.registry.Coherent ∧
      ∀ h, (visit target s).1 = .ok h → h ∈ (visit target s).2.registry.finished

theorem Draft.Takes.coherent {visit : Key → Loading Handle} {layout : Layout} {key : Key}
    {draft : Draft} {items : List Item} {s : Session} {out : Except Failure Draft × Session}
    (hgrows : ∀ target (s : Session), s.registry.Grows (visit target s).2.registry)
    (hvisit : KeepsCoherence visit) (h : Takes visit layout key draft items s out)
    (hs : s.registry.Coherent) (hd : ∀ t ∈ draft.handles, t ∈ s.registry.finished) :
    out.2.registry.Coherent ∧
      ∀ draft', out.1 = .ok draft' → ∀ t ∈ draft'.handles, t ∈ out.2.registry.finished := by
  induction h with
  | done =>
    refine ⟨hs, fun draft' he => ?_⟩
    cases he
    exact hd
  | collided | astray => exact ⟨hs, fun _ he => by cases he⟩
  | @declared draft d _ _ _ _ hdecl _ ih =>
    refine ih hs ?_
    rcases draft.declare_spec key d with ⟨he, -⟩ | ⟨failure, he, -⟩
    · rw [hdecl] at he
      cases he
      rwa [handles_declaring]
    · rw [hdecl] at he
      cases he
  | @failed _ _ _ s target _ _ _ hv | @refused _ _ _ s target _ _ _ _ _ hv =>
    have hc := hvisit target s hs
    rw [hv] at hc
    exact ⟨hc.1, fun _ he => by cases he⟩
  | @bound draft i _ s target h _ _ _ _ _ hv hi _ ih =>
    have hc := hvisit target s hs
    have hg := hgrows target s
    rw [hv] at hc hg
    rcases i.introduce_spec draft.scope with ⟨he, -⟩ | ⟨_, _, he, -⟩
    · rw [hi] at he
      cases he
      refine ih hc.1 fun t ht => ?_
      rcases Draft.mem_handles_bound ht with ht | rfl
      · exact hg.mem_finished (hd t ht)
      · exact hc.2 _ rfl
    · rw [hi] at he
      cases he

/-- **A request for a module keeps the registry coherent**, and it answers with a module that is
ready. -/
theorem Project.visit_coherent (project : Project) (depth : Nat) :
    KeepsCoherence (project.visit depth) := by
  induction depth with
  | zero => exact fun _ _ hs => ⟨hs, fun _ he => by cases he⟩
  | succ depth ih =>
    intro key s hs
    have hvisit := project.visits_visit depth key s
    generalize project.visit (depth + 1) key s = out at hvisit
    -- the module has entered, and the requests of its imports keep the registry coherent
    have hopening : s.registry.find? key = none → (project.opening key s).registry.Coherent := by
      rw [project.registry_opening]
      exact fun hf => hs.started hf _
    have htakes : ∀ {items out}, s.registry.find? key = none →
        Draft.Takes (project.visit depth) project.layout key .empty items (project.opening key s)
          out →
        out.2.registry.Coherent ∧
          ∀ draft, out.1 = .ok draft → ∀ t ∈ draft.handles, t ∈ out.2.registry.finished :=
      fun hf ht => ht.coherent (project.visit_grows depth) ih (hopening hf) (fun _ h => by cases h)
    cases hvisit with
    | @known h hf =>
      refine ⟨hs, fun h' he => ?_⟩
      obtain ⟨m, hm, -⟩ := hs.find?_iff.1 hf
      simp only [Registry.remembered, Registry.record_eq hm] at he
      split at he
      · rename_i hready
        cases he
        exact hs.mem_finished.2 ⟨m, hm, hready⟩
      · cases he
      · cases he
    | refused hf =>
      refine ⟨?_, fun _ he => by cases he⟩
      exact (hopening hf).ended (project.innermost_of_grows (.refl _)) rfl (by simp)
        (fun _ h => by cases h) (by simp [Registry.leave])
    | stopped hf _ ht =>
      obtain ⟨hc, -⟩ := htakes hf ht
      have hi := project.innermost_of_grows (ht.grows (project.visit_grows depth))
      exact ⟨hc.ended hi rfl (by simp) (fun _ h => by cases h) (by simp [Registry.leave]),
        fun _ he => by cases he⟩
    | dangling hf _ ht =>
      obtain ⟨hc, hd⟩ := htakes hf ht
      have hi := project.innermost_of_grows (ht.grows (project.visit_grows depth))
      refine ⟨?_, fun _ he => by cases he⟩
      rw [Session.registry_fail_filled]
      exact hc.ended hi rfl (by simp) (hd _ rfl) (by simp)
    | ready hf _ ht =>
      obtain ⟨hc, hd⟩ := htakes hf ht
      have hi := project.innermost_of_grows (ht.grows (project.visit_grows depth))
      rw [Session.registry_finish_filled]
      refine ⟨hc.ended hi rfl (by simp) (hd _ rfl) (by simp), fun h he => ?_⟩
      cases he
      exact List.mem_append_right _ (List.mem_singleton_self _)

theorem Project.coherent_of_obtain {project : Project} {key : Key} {h : Handle} {s : Session}
    (hv : project.obtain key .empty = (.ok h, s)) : s.registry.Coherent := by
  have hc := (project.visit_coherent project.depth key .empty Registry.coherent_empty).1
  rwa [show project.visit project.depth key .empty = (.ok h, s) from hv] at hc

/-! ### Registries at rest -/

/-- What a module imports, as its dependencies and its bindings say. -/
def Module.imported (m : Module) : List Handle := m.dependencies ++ m.bindings.map Binding.target

theorem Module.handle_of_imported {m : Module} {t : Handle} (h : t ∈ m.imported) :
    t ∈ m.handles := by
  simp only [imported, handles, List.mem_append, List.mem_map, List.mem_flatMap] at h ⊢
  rcases h with h | ⟨b, hb, rfl⟩
  · exact .inr h
  · exact .inl (.inr ⟨b, hb, b.target_mem_handles⟩)

namespace Registry

/-- The module behind `h` is ready and imports the one behind `t`. -/
def ReadyImports (r : Registry) (h t : Handle) : Prop :=
  ∃ m, r.module? h = some m ∧ m.isReady ∧ t ∈ m.imported

/-- The parts of the registry tell the same of its modules, none of which is being loaded. -/
structure Settled (r : Registry) : Prop where
  /-- The handle of a key leads to the module with the key, and no other does. -/
  find?_iff : ∀ key h, r.find? key = some h ↔ ∃ m, r.module? h = some m ∧ m.key = key
  /-- No two modules have one key. -/
  keys_nodup : (r.modules.map Module.key).Nodup
  not_loading : ∀ m ∈ r.modules, m.state ≠ .loading
  active_eq_nil : r.active = []
  /-- The finished modules are those that are ready, each once. -/
  finished_nodup : r.finished.Nodup
  mem_finished : ∀ h, h ∈ r.finished ↔ ∃ m, r.module? h = some m ∧ m.isReady
  /-- A module, however it ended, imports modules that are ready. -/
  imported_ready : ∀ h m t, r.module? h = some m → t ∈ m.imported →
    ∃ n, r.module? t = some n ∧ n.isReady
  /-- What a module that is ready imports became ready before it. -/
  imported_before : ∀ h t, r.ReadyImports h t → [t, h].Sublist r.finished
  /-- The modules that are ready do not import each other in a circle. -/
  acyclic : ∀ h, ¬ Relation.TransGen r.ReadyImports h h

variable {r : Registry}

theorem isReady_iff {m : Module} : m.isReady ↔ m.state = .ready := by simp [Module.isReady]

theorem Coherent.keys_nodup (hr : r.Coherent) : (r.modules.map Module.key).Nodup := by
  rw [List.Nodup, List.pairwise_iff_getElem]
  intro i j hi hj hij he
  rw [List.length_map] at hi hj
  rw [List.getElem_map, List.getElem_map] at he
  have hm : r.module? ⟨i⟩ = some r.modules[i] := List.getElem?_eq_getElem hi
  have hm' : r.module? ⟨j⟩ = some r.modules[j] := List.getElem?_eq_getElem hj
  cases hr.handle_unique hm hm' he
  exact Nat.lt_irrefl _ hij

theorem idxOf_lt_of_sublist {l : List Handle} (hl : l.Nodup) {t h : Handle}
    (hs : [t, h].Sublist l) : l.idxOf t < l.idxOf h := by
  obtain ⟨l₁, l₂, rfl, ht, hh⟩ := List.cons_sublist_iff.1 hs
  have hh₂ := List.singleton_sublist.1 hh
  have hh₁ : h ∉ l₁ := fun hh₁ => (List.nodup_append.1 hl).2.2 h hh₁ h hh₂ rfl
  rw [List.idxOf_append_of_mem ht, List.idxOf_append_of_notMem hh₁]
  exact Nat.lt_add_right _ (List.idxOf_lt_length_iff.2 ht)

/-- Along imports of modules that are ready, the place in the order of readiness goes down. -/
theorem Coherent.idxOf_lt_of_transGen (hr : r.Coherent) {h t : Handle}
    (hp : Relation.TransGen r.ReadyImports h t) : r.finished.idxOf t < r.finished.idxOf h := by
  -- one import goes down, by the order in which modules become ready
  have hstep : ∀ {h t}, r.ReadyImports h t → r.finished.idxOf t < r.finished.idxOf h := by
    rintro h t ⟨m, hm, hs, ht⟩
    exact idxOf_lt_of_sublist hr.finished_nodup
      (hr.before hm (isReady_iff.1 hs) (Module.handle_of_imported ht))
  induction hp with
  | single h => exact hstep h
  | tail _ h ih => exact Nat.lt_trans (hstep h) ih

theorem Coherent.settled (hr : r.Coherent) (ha : r.active = []) : r.Settled where
  find?_iff _ _ := hr.find?_iff
  keys_nodup := hr.keys_nodup
  not_loading m hm hs := by
    obtain ⟨i, hi, rfl⟩ := List.getElem_of_mem hm
    have := hr.mem_active.2 ⟨⟨i⟩, _, List.getElem?_eq_getElem hi, rfl, hs⟩
    rw [ha] at this
    cases this
  active_eq_nil := ha
  finished_nodup := hr.finished_nodup
  mem_finished h := by simp only [isReady_iff, hr.mem_finished]
  imported_ready h m t hm ht := by
    simp only [isReady_iff, ← hr.mem_finished]
    exact hr.mentioned hm (Module.handle_of_imported ht)
  imported_before h t := fun ⟨m, hm, hs, ht⟩ =>
    hr.before hm (isReady_iff.1 hs) (Module.handle_of_imported ht)
  acyclic _ hp := Nat.lt_irrefl _ (hr.idxOf_lt_of_transGen hp)

end Registry

/-- After all requests from outside, the registry is coherent, and no module is being loaded. -/
theorem Session.coherent_after (demands : List (Project × Demand)) :
    (Session.after demands).registry.Coherent ∧ (Session.after demands).registry.active = [] := by
  refine Session.after_induction (P := fun s => s.registry.Coherent ∧ s.registry.active = [])
    ⟨Registry.coherent_empty, rfl⟩ fun d _ key s hs => ?_
  exact ⟨(d.1.visit_coherent d.1.depth key s hs.1).1,
    (d.1.visit_grows d.1.depth key s).active.trans hs.2⟩

/-- **The registry is settled after all requests from outside**, whatever is asked, and with
whatever project each request is met. -/
theorem Session.settled_after (demands : List (Project × Demand)) :
    (Session.after demands).registry.Settled := by
  obtain ⟨hr, ha⟩ := Session.coherent_after demands
  exact hr.settled ha

end ModuleResolution
