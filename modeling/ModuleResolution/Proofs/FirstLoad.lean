import ModuleResolution.Proofs.Depth
import ModuleResolution.Proofs.Traversal

/-!
# The first load of a project

A load that starts from nothing and succeeds is a depth-first traversal of the imports: modules
enter the registry in its preorder and become ready in its postorder.

* `Registry.keys`, `Registry.finishedKeys` : the modules in the order in which they were asked for,
  and those that are ready in the order in which they became so.
* `Project.obtainEntry_traversal` : what a successful first load leaves behind.
-/

namespace ModuleResolution

namespace Registry

/-- The keys of the modules, in the order in which they were first asked for. -/
def keys (r : Registry) : List Key := r.modules.map Module.key

/-- The keys of the modules that are ready, in the order in which they became so. -/
def finishedKeys (r : Registry) : List Key := r.finished.map r.keyOf

variable {r r' : Registry} {key : Key} {h : Handle} {m : Module}

theorem keys_started (source : String) : (r.started key source).keys = r.keys ++ [key] := by
  simp [keys, started, Module.start]

theorem keys_ended {f : Module → Module} (hf : ∀ m, (f m).key = m.key) (finished : List Handle) :
    (r.ended h f finished).keys = r.keys := by
  change (r.modules.modify h.index f).map Module.key = _
  refine List.ext_getElem? fun i => ?_
  simp only [keys, List.getElem?_map, List.getElem?_modify]
  split_ifs <;> simp [Function.comp_def, hf]

theorem mem_keys : key ∈ r.keys ↔ ∃ h m, r.module? h = some m ∧ m.key = key := by
  rw [keys, List.mem_map]
  constructor
  · rintro ⟨m, hm, hk⟩
    obtain ⟨i, hi⟩ := List.getElem?_of_mem hm
    exact ⟨⟨i⟩, m, hi, hk⟩
  · rintro ⟨h, m, hm, hk⟩
    exact ⟨m, List.mem_of_getElem? hm, hk⟩

theorem Coherent.not_mem_keys (hr : r.Coherent) : key ∉ r.keys ↔ r.find? key = none := by
  rw [mem_keys, Option.eq_none_iff_forall_ne_some]
  simp only [ne_eq, hr.find?_iff]
  exact not_exists

theorem Coherent.finishedKeys_started (hr : r.Coherent) (source : String) :
    (r.started key source).finishedKeys = r.finishedKeys := by
  refine List.map_congr_left fun h hh => ?_
  obtain ⟨m, hm, -⟩ := hr.mem_finished.1 hh
  rw [keyOf_eq hm, keyOf_eq (m := m)]
  rw [module?_started, if_neg (ne_fresh_of_module? hm), hm]

theorem Coherent.finishedKeys_ended (hr : r.Coherent) {f : Module → Module}
    (hm : r.module? h = some m) (hf : (f m).key = m.key) :
    (r.ended h f (r.finished ++ [h])).finishedKeys = r.finishedKeys ++ [m.key] := by
  have hkey : ∀ h' m', r.module? h' = some m' →
      (r.ended h f (r.finished ++ [h])).keyOf h' = m'.key := by
    intro h' m' hm'
    by_cases hh : h = h'
    · subst hh
      rw [hm] at hm'
      cases hm'
      rw [keyOf_eq (module?_ended_self hm _ _), hf]
    · rw [keyOf_eq (m := m') (by rw [module?_ended hm, if_neg hh, hm'])]
  change (r.finished ++ [h]).map _ = r.finished.map _ ++ _
  rw [List.map_append, List.map_singleton, hkey h m hm]
  congr 1
  refine List.map_congr_left fun h' hh' => ?_
  obtain ⟨m', hm', -⟩ := hr.mem_finished.1 hh'
  rw [hkey h' m' hm', keyOf_eq hm']

end Registry

/-- The registry `r'` comes from `r` by a traversal of the modules `todo`. -/
def Project.Traverses (project : Project) (r r' : Registry) (todo : List Key) : Prop :=
  ∃ pre post, Traversal project.imports r.keys todo pre post ∧ r'.keys = r.keys ++ pre ∧
    r'.finishedKeys = r.finishedKeys ++ post

namespace Project.Traverses

variable {project : Project} {r r' r'' : Registry} {todo todo' : List Key}

theorem nil : project.Traverses r r [] := ⟨[], [], .done, by simp, by simp⟩

theorem append (h : project.Traverses r r' todo) (h' : project.Traverses r' r'' todo') :
    project.Traverses r r'' (todo ++ todo') := by
  obtain ⟨pre, post, ht, hk, hf⟩ := h
  obtain ⟨pre', post', ht', hk', hf'⟩ := h'
  rw [hk] at ht' hk'
  exact ⟨pre ++ pre', post ++ post', ht.append ht', by rw [hk', List.append_assoc],
    by rw [hf', hf, List.append_assoc]⟩

end Project.Traverses

/-! ### Loads that succeed -/

theorem Draft.Takes.traverses {project : Project} {visit : Key → Loading Handle} {key : Key}
    {draft : Draft} {items : List Item} {s : Session} {out : Except Failure Draft × Session}
    (hcoherent : KeepsCoherence visit)
    (hvisit : ∀ target (s : Session), s.registry.Coherent → ∀ h s', visit target s = (.ok h, s') →
      project.Traverses s.registry s'.registry [target])
    (ht : Takes visit project.layout key draft items s out) (hs : s.registry.Coherent)
    {draft' : Draft} (hout : out.1 = .ok draft') :
    project.Traverses s.registry out.2.registry (project.targets key items) := by
  induction ht with
  | done => exact .nil
  | collided | astray | failed | refused => cases hout
  | declared _ _ ih => exact ih hs hout
  | @bound _ i rest s target _ _ _ _ _ hk hv _ _ ih =>
    have hc := hcoherent target s hs
    rw [hv] at hc
    rw [Project.targets_importing hk]
    exact (hvisit target s hs _ _ hv).append (ih hc.1 hout)

/-- **A request for a module that succeeds traverses the modules it imports.** -/
theorem Project.visit_traverses (project : Project) (depth : Nat) (key : Key) (s : Session)
    (hs : s.registry.Coherent) (h : Handle) (s' : Session)
    (hv : project.visit depth key s = (.ok h, s')) :
    project.Traverses s.registry s'.registry [key] := by
  induction depth generalizing key s h s' with
  | zero => cases hv
  | succ depth ih =>
    obtain ⟨hf, rfl⟩ | ⟨below, items, draft, s₁, hdepth, hf, ho, ht, rfl, rfl⟩ :=
      project.visit_eq_ok hv
    · obtain ⟨m, hm, hk⟩ := hs.find?_iff.1 hf
      exact ⟨[], [], .seen (Registry.mem_keys.2 ⟨_, m, hm, hk⟩) .done, by simp, by simp⟩
    · obtain rfl := Nat.succ.inj hdepth
      have hstarted := hs.started hf (project.source key)
      have hg := ht.grows (project.visit_grows depth)
      have hc := ht.coherent (project.visit_grows depth) (project.visit_coherent depth)
        (by rwa [project.registry_opening]) (fun _ h => by cases h)
      have htr := ht.traverses (project.visit_coherent depth) ih
        (by rwa [project.registry_opening]) rfl
      rw [project.registry_opening] at hg htr
      obtain ⟨pre, post, htr, hkeys, hfinished⟩ := htr
      rw [Registry.keys_started] at htr hkeys
      rw [hs.finishedKeys_started] at hfinished
      -- the module enters in front of what its imports enter, and is ready behind them
      refine ⟨key :: pre, post ++ [key], ?_, ?_, ?_⟩
      · refine .single (hs.not_mem_keys.2 hf) ?_
        rwa [imports, itemsAt_of_opened ho]
      · rw [Session.registry_finish_filled, Registry.keys_ended, hkeys]
        · simp
        · exact fun _ => rfl
      · rw [Session.registry_finish_filled, hc.1.finishedKeys_ended hg.module?_fresh rfl, hfinished]
        simp [Module.start]

/-- A module that is not known and becomes ready gets the next handle and is ready last. -/
theorem Project.visit_fresh (project : Project) (depth : Nat) (key : Key) (s : Session)
    (hf : s.registry.find? key = none) (h : Handle) (s' : Session)
    (hv : project.visit depth key s = (.ok h, s')) :
    h = s.registry.fresh ∧ s'.registry.finished.getLast? = some h := by
  obtain ⟨hf', -⟩ | ⟨_, _, _, _, -, -, -, -, rfl, rfl⟩ := project.visit_eq_ok hv
  · rw [hf] at hf'
    cases hf'
  · rw [Session.registry_finish_filled]
    exact ⟨rfl, List.getLast?_concat⟩

/-- **What a successful first load leaves behind.**  All modules are ready; they are those that can
be reached from the entry; they have entered the registry in the preorder of the depth-first
traversal from the entry, and have become ready in its postorder.  The entry is the first module to
enter and the last to become ready. -/
theorem Project.obtainEntry_traversal (project : Project) {path : String} {s s' : Session}
    {h : Handle} (hs : s.registry = .empty) (hv : project.obtainEntry path s = (.ok h, s')) :
    ∃ entry, project.layout.entryKey path = .ok entry ∧
      (∀ m ∈ s'.registry.modules, m.isReady) ∧
      (∀ key, key ∈ s'.registry.keys ↔ Relation.ReflTransGen project.Imports entry key) ∧
      (∀ pre post, Traversal project.imports [] [entry] pre post ↔
        pre = s'.registry.keys ∧ post = s'.registry.finishedKeys) ∧
      h.index = 0 ∧ s'.registry.finished.getLast? = some h := by
  cases hk : project.layout.entryKey path with
  | error reason =>
    simp only [obtainEntry, Bind.bind, Loading.done, hk, mapError_error] at hv
    cases hv
  | ok entry =>
    simp only [obtainEntry, Bind.bind, Loading.done, hk, mapError_ok] at hv
    have hcoherent : s.registry.Coherent := hs ▸ Registry.coherent_empty
    obtain ⟨pre, post, ht, hkeys, hfinished⟩ :=
      project.visit_traverses project.depth entry s hcoherent h s' hv
    have hfresh := project.visit_fresh project.depth entry s (by rw [hs]; rfl) h s' hv
    have hc := (project.visit_coherent project.depth entry s hcoherent).1
    rw [show project.visit project.depth entry s = (.ok h, s') from hv] at hc
    rw [hs] at ht hkeys hfinished hfresh
    obtain rfl : s'.registry.keys = pre := hkeys
    obtain rfl : s'.registry.finishedKeys = post := hfinished
    refine ⟨entry, rfl, fun m hm => ?_, fun key => ht.mem_iff, fun pre post => ?_,
      by rw [hfresh.1]; rfl, hfresh.2⟩
    · -- what has entered in the preorder has become ready in the postorder
      obtain ⟨i, hi⟩ := List.getElem?_of_mem hm
      have hpost : m.key ∈ s'.registry.finishedKeys :=
        ht.perm.subset (Registry.mem_keys.2 ⟨⟨i⟩, m, hi, rfl⟩)
      obtain ⟨t, hready, htkey⟩ := List.mem_map.1 hpost
      obtain ⟨n, hn, hn'⟩ := hc.mem_finished.1 hready
      rw [Registry.keyOf_eq hn] at htkey
      obtain rfl := hc.handle_unique hn hi htkey
      cases hn.symm.trans hi
      exact Registry.isReady_iff.2 hn'
    · exact ⟨fun h => h.unique ht, fun h => h.1 ▸ h.2 ▸ ht⟩

/-- A module that imports two others, both of which import a fourth one. -/
def Project.diamond : Project := .ofTexts
  [("a.hash", "import(\"b\"); x := 1; {d: e} := import(\"./c\");"),
    ("b.hash", "import(\"d\"); y: d::z = d::z;"), ("c.hash", "d := 1; f := import(\"d.hash\");"),
    ("d.hash", "z := 2;")]

/-- The first load of the diamond: the module at its bottom enters the registry once, below the
first of the two modules that import it. -/
theorem Project.diamond_traversal :
    let s := (diamond.obtainEntry "a" .empty).2
    (diamond.obtainEntry "a" .empty).1 = .ok ⟨0⟩ ∧
    s.registry.keys.map Key.names = [["a.hash"], ["b.hash"], ["d.hash"], ["c.hash"]] ∧
    s.registry.finishedKeys.map Key.names = [["d.hash"], ["b.hash"], ["c.hash"], ["a.hash"]] ∧
    ∃ entry, diamond.layout.entryKey "a" = .ok entry ∧
      (∀ m ∈ s.registry.modules, m.isReady) ∧
      (∀ key, key ∈ s.registry.keys ↔ Relation.ReflTransGen diamond.Imports entry key) ∧
      (∀ pre post, Traversal diamond.imports [] [entry] pre post ↔
        pre = s.registry.keys ∧ post = s.registry.finishedKeys) ∧
      (⟨0⟩ : Handle).index = 0 ∧ s.registry.finished.getLast? = some ⟨0⟩ := by
  have hv : (diamond.obtainEntry "a" .empty).1 = .ok ⟨0⟩ := by decide +kernel
  exact ⟨hv, by decide +kernel, by decide +kernel,
    diamond.obtainEntry_traversal (s := .empty) rfl (Prod.ext hv rfl)⟩

end ModuleResolution
