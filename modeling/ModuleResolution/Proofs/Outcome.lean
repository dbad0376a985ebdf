import ModuleResolution.Proofs.Faithful

/-!
# The outcome of requests

What becomes of a module that is asked for is fixed by the project: it does not depend on what was
asked for before, nor on which modules are being loaded.

* `Draft.Tracks` : what holds while the items of a module are taken.
* `Project.visit_answers` : a request ends as the project says, and keeps the registry faithful.
* `Project.obtain_eq_ok_iff_valid` : a module loads if and only if it is valid.
* `Project.outcome_unique` : what is known of a module after all requests does not depend on them.
-/

namespace ModuleResolution

/-- How a request for the module `target` ends, as the project says. -/
inductive Project.Answer (project : Project) (target : Key) :
    Except Failure Handle × Session → Prop where
  /-- The module is ready. -/
  | ok {h m s} (faithful : project.Faithful s.registry) (module? : s.registry.module? h = some m)
    (key : m.key = target) (ready : m.state = .ready) : Answer project target (.ok h, s)
  /-- There is something wrong with the module. -/
  | failed {failure s} (faithful : project.Faithful s.registry)
    (root : project.Root target failure.underlying) : Answer project target (.error failure, s)

theorem Project.Answer.faithful {project : Project} {target : Key}
    {out : Except Failure Handle × Session} (h : project.Answer target out) :
    project.Faithful out.2.registry := by
  cases h <;> assumption

/-- With up to `depth` more modules being loaded at a time, requests met by `visit` end as the
project says. -/
def Project.Answers (project : Project) (depth : Nat) (visit : Key → Loading Handle) : Prop :=
  ∀ target (s : Session), s.registry.Coherent → project.Faithful s.registry →
    project.Admits depth s.registry target → project.Answer target (visit target s)

/-! ### Taking the items of a module -/

/-- What holds while the items of the module `key` are taken, of which `items` are left. -/
structure Draft.Tracks (project : Project) (depth : Nat) (key : Key) (r : Registry) (draft : Draft)
    (items : List Item) : Prop where
  opened : project.opened key = .ok (project.itemsAt key)
  coherent : r.Coherent
  faithful : project.Faithful r
  /-- What the module imports may be asked for. -/
  admits : ∀ target, project.Awaits key target → project.Admits depth r target
  mentioned : ∀ t ∈ draft.handles, t ∈ r.finished
  follows : draft.Follows project key r items
  /-- The first thing that is wrong with the items that are left is the first of all. -/
  obstacle? : project.obstacle? key draft.scope.names items =
    project.obstacle? key [] (project.itemsAt key)
  imports : ∀ target ∈ project.targets key items, project.Imports key target

namespace Draft.Tracks

variable {project : Project} {depth : Nat} {key target : Key} {r r' : Registry}
  {draft draft' : Draft} {d : Declaration} {i : Import} {items rest : List Item} {h : Handle}
  {m : Module} {failure : Failure}

theorem verdict_eq {o : Obstacle} (ht : draft.Tracks project depth key r items)
    (ho : project.obstacle? key [] (project.itemsAt key) = some o) :
    project.verdict key = some o := by
  rw [Project.verdict, ht.opened, Obstacle.behind]
  simp only [ho, Option.some_or]

theorem astray (ht : draft.Tracks project depth key r (.importing i :: rest))
    (hk : i.key project.layout key = .error failure) :
    project.obstacle? key [] (project.itemsAt key) = some (.failure failure) := by
  rw [← ht.obstacle?, Project.obstacle?, hk]
  rfl

theorem blamed (ht : draft.Tracks project depth key r (.importing i :: rest))
    (hk : i.key project.layout key = .ok target) (hv : ¬ project.Valid target) :
    project.obstacle? key [] (project.itemsAt key) = some (.target target) := by
  rw [← ht.obstacle?]
  simp [Project.obstacle?, Obstacle.behind, hk, hv]

/-- The module waits for the next one that it imports. -/
theorem awaits (ht : draft.Tracks project depth key r (.importing i :: rest))
    (hk : i.key project.layout key = .ok target) : project.Awaits key target := by
  refine ⟨ht.imports target ?_, fun hv => ht.verdict_eq (ht.blamed hk hv)⟩
  rw [Project.targets_importing hk]
  exact List.mem_cons_self

theorem grows (ht : draft.Tracks project depth key r items) (hg : r.Grows r') (hr : r'.Coherent)
    (hf : project.Faithful r') : draft.Tracks project depth key r' items where
  opened := ht.opened
  coherent := hr
  faithful := hf
  admits target hw := by
    obtain ⟨hawaits, hserved, hroom⟩ := ht.admits target hw
    exact ⟨hg.active ▸ hawaits, hg.active ▸ hserved, hg.active ▸ hroom⟩
  mentioned t htm := hg.mem_finished (ht.mentioned t htm)
  follows := ht.follows.grows ht.coherent hg.modules ht.mentioned
  obstacle? := ht.obstacle?
  imports := ht.imports

theorem declaring (ht : draft.Tracks project depth key r (.declaration d :: rest))
    (hd : draft.declare key d = .ok draft') : draft'.Tracks project depth key r rest := by
  rcases draft.declare_spec key d with ⟨he, hclaim⟩ | ⟨_, he, -⟩
  · cases hd.symm.trans he
    exact {
      opened := ht.opened
      coherent := ht.coherent
      faithful := ht.faithful
      admits := ht.admits
      mentioned := by rw [handles_declaring]; exact ht.mentioned
      follows := ht.follows.declaring
      obstacle? := by rw [← ht.obstacle?, Project.obstacle?, hclaim]; rfl
      imports := ht.imports }
  · cases hd.symm.trans he

theorem collided (ht : draft.Tracks project depth key r (.declaration d :: rest))
    (hd : draft.declare key d = .error failure) :
    project.obstacle? key [] (project.itemsAt key) = some (.failure failure) := by
  rcases draft.declare_spec key d with ⟨he, -⟩ | ⟨_, he, hclaim⟩
  · cases hd.symm.trans he
  · cases hd.symm.trans he
    rw [← ht.obstacle?, Project.obstacle?, hclaim]
    rfl

theorem exports_eq (ht : draft.Tracks project depth key r items) (hm : r.module? h = some m)
    (hs : m.state = .ready) : (r.record h).exports = project.exports m.key := by
  rw [(ht.faithful.tells.shows h (ht.coherent.mem_finished.2 ⟨m, hm, hs⟩)).exports_eq,
    Registry.keyOf_eq hm]

section Importing

variable (ht : draft.Tracks project depth key r (.importing i :: rest))
  (hk : i.key project.layout key = .ok target) (hm : r.module? h = some m) (hmk : m.key = target)
  (hs : m.state = .ready)

include ht hk hm hmk hs

theorem obstacle?_importing : project.obstacle? key draft.scope.names (.importing i :: rest) =
    Obstacle.behind (claim key draft.scope.names (i.claims key target (project.exports target)))
      fun names => project.obstacle? key names rest :=
  Project.obstacle?_importing hk (hmk ▸ ht.faithful.valid hm hs)

theorem bound {binding : Binding} {scope : Scope}
    (hi : i.introduce key target (r.record h).exports h draft.scope = (.ok binding, scope)) :
    (draft.bound binding scope).Tracks project depth key r rest := by
  rw [ht.exports_eq hm hs, hmk] at hi
  rcases i.introduce_spec draft.scope with ⟨he, hclaim⟩ | ⟨_, _, he, -⟩
  · cases hi.symm.trans he
    have hobstacle := ht.obstacle?_importing hk hm hmk hs
    rw [hclaim] at hobstacle
    exact {
      opened := ht.opened
      coherent := ht.coherent
      faithful := ht.faithful
      admits := ht.admits
      mentioned := fun t htm => by
        rcases Draft.mem_handles_bound htm with htm | rfl
        · exact ht.mentioned t htm
        · exact ht.coherent.mem_finished.2 ⟨m, hm, hs⟩
      follows := ht.follows.bound ht.coherent ht.mentioned hk hm hmk
      obstacle? := hobstacle.symm.trans ht.obstacle?
      imports := fun t htm => ht.imports t (by
        rw [Project.targets_importing hk]
        exact List.mem_cons_of_mem _ htm) }
  · cases hi.symm.trans he

theorem refused {scope : Scope}
    (hi : i.introduce key target (r.record h).exports h draft.scope = (.error failure, scope)) :
    project.obstacle? key [] (project.itemsAt key) = some (.failure failure) := by
  rw [ht.exports_eq hm hs, hmk] at hi
  rcases i.introduce_spec draft.scope with ⟨he, -⟩ | ⟨_, _, he, hclaim⟩
  · cases hi.symm.trans he
  · cases hi.symm.trans he
    rw [← ht.obstacle?, ht.obstacle?_importing hk hm hmk hs, hclaim]
    rfl

end Importing

/-- When all items are taken, what is wrong with the module is what is wrong with its qualified
names. -/
theorem verdict_filled {outer : List Key} (ht : draft.Tracks project depth key r [])
    (hitems : project.itemsAt key = items)
    (hi : r.Innermost h { Module.start key with source := project.source key } outer) :
    project.verdict key = ((r.update h (draft.fill items)).dangling? h
      (items.filterMap Item.declaration?)).map .failure := by
  have hkeyOf : (r.update h (draft.fill items)).keyOf = r.keyOf :=
    Registry.keyOf_update fun _ => rfl
  have hkey : (r.update h (draft.fill items)).keyOf h = key := by
    rw [hkeyOf, Registry.keyOf_eq hi.module?]
    rfl
  have hrecord : (r.update h (draft.fill items)).record h =
      draft.fill items { Module.start key with source := project.source key } :=
    Registry.record_eq (by rw [Registry.module?_update, if_pos rfl, hi.module?]; rfl)
  have hshows : project.Shows (r.update h (draft.fill items)) h := by
    rw [Project.Shows, hrecord, hkey, Registry.outline, hkeyOf]
    exact ht.follows.outline hitems
  have htells : project.Tells (r.update h (draft.fill items)) :=
    ht.faithful.tells.update (ht.coherent.not_mem_finished hi) fun _ => rfl
  have hdangling := htells.dangling?_eq hshows (by rw [hrecord]; exact ht.mentioned)
  rw [hkey, Project.declarations, hitems] at hdangling
  rw [hdangling, Project.verdict, ht.opened, Obstacle.behind]
  simp only [← ht.obstacle?, Project.obstacle?, Option.none_or]

end Draft.Tracks

/-- A request for a module that is imported ends as the project says, and keeps what holds. -/
theorem Draft.Tracks.visited {project : Project} {depth : Nat} {key target : Key} {draft : Draft}
    {i : Import} {rest : List Item} {s s' : Session} {result : Except Failure Handle}
    (hvisit : project.Answers depth (project.visit depth))
    (ht : draft.Tracks project depth key s.registry (.importing i :: rest))
    (hk : i.key project.layout key = .ok target)
    (hv : project.visit depth target s = (result, s')) :
    project.Answer target (result, s') ∧
      draft.Tracks project depth key s'.registry (.importing i :: rest) := by
  have hg := project.visit_grows depth target s
  have hc := (project.visit_coherent depth target s ht.coherent).1
  have ha := hvisit target s ht.coherent ht.faithful (ht.admits target (ht.awaits hk))
  rw [hv] at hg hc ha
  exact ⟨ha, ht.grows hg hc ha.faithful⟩

/-- How taking the items of the module `key` ends, as the project says. -/
inductive Draft.Answer (project : Project) (depth : Nat) (key : Key) :
    Except Failure Draft × Session → Prop where
  /-- All items are taken. -/
  | ok {draft s} (tracks : draft.Tracks project depth key s.registry []) :
    Answer project depth key (.ok draft, s)
  /-- There is something wrong with the module. -/
  | failed {failure s} (faithful : project.Faithful s.registry)
    (root : project.Root key failure.underlying) : Answer project depth key (.error failure, s)

/-- **Taking the items of a module ends as the project says.** -/
theorem Draft.Takes.answers {project : Project} {depth : Nat} {key : Key} {draft : Draft}
    {items : List Item} {s : Session} {out : Except Failure Draft × Session}
    (hvisit : project.Answers depth (project.visit depth))
    (h : Takes (project.visit depth) project.layout key draft items s out)
    (ht : draft.Tracks project depth key s.registry items) :
    Draft.Answer project depth key out := by
  induction h with
  | done => exact .ok ht
  | collided hd => exact .failed ht.faithful (.of_verdict (ht.verdict_eq (ht.collided hd)))
  | declared hd _ ih => exact ih (ht.declaring hd)
  | astray hk => exact .failed ht.faithful (.of_verdict (ht.verdict_eq (ht.astray hk)))
  | failed hk hv =>
    -- the imported module fails, so it is not valid, and it is to blame
    obtain ⟨_ | ⟨hf, hr⟩, -⟩ := ht.visited hvisit hk hv
    exact .failed hf (hr.of_blames ((ht.awaits hk).2 hr.not_valid))
  | refused hk hv hi =>
    obtain ⟨⟨hf, hm, hmk, hs⟩ | _, htracks⟩ := ht.visited hvisit hk hv
    exact .failed hf (.of_verdict (htracks.verdict_eq (htracks.refused hk hm hmk hs hi)))
  | bound hk hv hi _ ih =>
    obtain ⟨⟨hf, hm, hmk, hs⟩ | _, htracks⟩ := ht.visited hvisit hk hv
    exact ih (htracks.bound hk hm hmk hs hi)

/-! ### Requests -/

namespace Project

variable (project : Project)

theorem tracks_opening {depth : Nat} {key : Key} {s : Session} {items : List Item}
    (hc : s.registry.Coherent) (hf : project.Faithful s.registry)
    (ha : project.Admits (depth + 1) s.registry key) (hn : s.registry.find? key = none)
    (ho : project.opened key = .ok items) :
    Draft.empty.Tracks project depth key (project.opening key s).registry items := by
  have hitems : project.itemsAt key = items := itemsAt_of_opened ho
  have hserved : key ∈ project.loader.served := project.loader.mem_served _ _ (read_of_opened ho)
  rw [project.registry_opening, ← hitems]
  exact {
    opened := hitems ▸ ho
    coherent := hc.started hn _
    faithful := hf.started hc _
    admits := fun _ hw => ha.step rfl hserved hw
    mentioned := fun _ ht => by cases ht
    follows := .empty
    obstacle? := rfl
    imports := fun _ ht => ht }

/-- **A request for a module ends as the project says**, and keeps the registry faithful to it. -/
theorem visit_answers (depth : Nat) : project.Answers depth (project.visit depth) := by
  induction depth with
  | zero => exact fun _ _ hc _ ha => absurd (ha.depth_pos hc) (Nat.lt_irrefl 0)
  | succ depth ih =>
    intro key s hc hf ha
    have hvisit := project.visits_visit depth key s
    generalize project.visit (depth + 1) key s = out at hvisit
    cases hvisit with
    | @known h hn =>
      obtain ⟨m, hm, rfl⟩ := hc.find?_iff.1 hn
      rw [Registry.remembered, Registry.record_eq hm]
      cases hs : m.state with
      | ready => exact .ok hf hm rfl hs
      | loading =>
        exact .failed hf (ha.root_of_mem_active hc (hc.mem_active.2 ⟨h, m, hm, rfl, hs⟩))
      | failed f =>
        refine .failed hf ?_
        rw [Failure.underlying, Failure.underlying_eq_self f.isRepeated_underlying]
        exact hf.root hm hs
    | @refused failure hn ho =>
      have hroot : project.Root key failure.underlying := .of_verdict (by rw [verdict, ho]; rfl)
      have hi := project.innermost_of_grows (.refl (project.opening key s).registry)
      refine .failed ?_ hroot
      change project.Faithful ((project.opening key s).registry.fail _ _)
      rw [project.registry_opening] at hi ⊢
      exact (hf.started hc _).failed (hc.started hn _) hi (fun _ => rfl) rfl hroot
    | stopped hn ho ht =>
      have hi := project.innermost_of_grows (ht.grows (project.visit_grows depth))
      have htracks := project.tracks_opening hc hf ha hn ho
      have hc' := (ht.coherent (project.visit_grows depth) (project.visit_coherent depth)
        htracks.coherent htracks.mentioned).1
      obtain _ | ⟨hf', hroot⟩ := ht.answers ih htracks
      exact .failed (hf'.failed hc' hi (fun _ => rfl) rfl hroot) hroot
    | dangling hn ho ht hd =>
      have hi := project.innermost_of_grows (ht.grows (project.visit_grows depth))
      obtain ⟨htracks⟩ | _ := ht.answers ih (project.tracks_opening hc hf ha hn ho)
      have hroot := Root.of_verdict
        ((htracks.verdict_filled (itemsAt_of_opened ho) hi).trans (congrArg _ hd))
      refine .failed ?_ hroot
      rw [Session.registry_fail_filled]
      exact htracks.faithful.failed htracks.coherent hi (fun _ => rfl) rfl hroot
    | @ready items draft s' hn ho ht hd =>
      have hi := project.innermost_of_grows (ht.grows (project.visit_grows depth))
      obtain ⟨htracks⟩ | _ := ht.answers ih (project.tracks_opening hc hf ha hn ho)
      have hitems := itemsAt_of_opened ho
      have hvalid : project.Valid key := verdict_eq_none_iff.1
        ((htracks.verdict_filled hitems hi).trans (congrArg _ hd))
      obtain ⟨m, hm, hk, hs⟩ : ∃ m, ((s'.filled s.registry.fresh items draft).on
          (·.finish s.registry.fresh)).registry.module? s.registry.fresh = some m ∧
          m.key = key ∧ m.state = .ready := by
        rw [Session.registry_finish_filled]
        exact ⟨_, Registry.module?_ended_self hi.module? _ _, rfl, rfl⟩
      refine .ok ?_ hm hk hs
      rw [Session.registry_finish_filled]
      exact htracks.faithful.ended htracks.coherent hi (fun _ => rfl)
        (fun _ => ⟨htracks.follows.outline hitems, htracks.mentioned⟩) (fun _ => hvalid)
        (fun _ he => by cases he) (by simp)

/-! ### Requests from outside -/

theorem faithful_after (demands : List Demand) :
    (project.after demands).registry.Coherent ∧ (project.after demands).registry.active = [] ∧
      project.Faithful (project.after demands).registry := by
  refine after_induction (P := fun s => s.registry.Coherent ∧ s.registry.active = [] ∧
    project.Faithful s.registry) ⟨Registry.coherent_empty, rfl, faithful_empty⟩ ?_
  rintro key s ⟨hc, ha, hf⟩
  exact ⟨(project.visit_coherent project.depth key s hc).1,
    (project.visit_grows project.depth key s).active.trans ha,
    (project.visit_answers project.depth key s hc hf (.top ha key)).faithful⟩

/-- **A module loads if and only if it is valid**, whatever was asked for before.  In particular no
module loads from which imports lead into a circle. -/
theorem obtain_eq_ok_iff_valid (demands : List Demand) (key : Key) :
    ((∃ h, (project.obtain key (project.after demands)).1 = .ok h) ↔ project.Valid key) ∧
      ¬ ∃ target, Relation.ReflTransGen project.Imports key target ∧
        Relation.TransGen project.Imports target target ∧
        ∃ h, (project.obtain key (project.after demands)).1 = .ok h := by
  obtain ⟨hc, ha, hf⟩ := project.faithful_after demands
  have hiff : (∃ h, (project.obtain key (project.after demands)).1 = .ok h) ↔
      project.Valid key := by
    have hanswer := project.visit_answers project.depth key _ hc hf (.top ha key)
    rw [obtain]
    generalize project.visit project.depth key (project.after demands) = out at hanswer
    cases hanswer with
    | ok hf' hm hk hs => exact ⟨fun _ => hk ▸ hf'.valid hm hs, fun _ => ⟨_, rfl⟩⟩
    | failed _ hr =>
      refine ⟨?_, fun hv => absurd hv hr.not_valid⟩
      rintro ⟨h, ⟨⟩⟩
  refine ⟨hiff, ?_⟩
  rintro ⟨target, hreach, hcircle, hok⟩
  exact ((hiff.1 hok).of_reachable hreach).not_circular hcircle

variable {project}

/-- A module that is known is ready if it is valid, and has failed if it is not. -/
theorem Faithful.ready_iff_valid {r : Registry} (hf : project.Faithful r) (hc : r.Coherent)
    (ha : r.active = []) {h : Handle} {m : Module} (hm : r.module? h = some m) :
    m.isReady ↔ project.Valid m.key := by
  rw [Registry.isReady_iff]
  refine ⟨hf.valid hm, fun hv => ?_⟩
  cases hs : m.state with
  | ready => rfl
  | loading => exact absurd hs ((hc.settled ha).not_loading m (List.mem_of_getElem? hm))
  | failed f => exact absurd hv (hf.root hm hs).not_valid

theorem Faithful.outline_eq {r : Registry} (hf : project.Faithful r) (hc : r.Coherent) {h : Handle}
    {m : Module} (hm : r.module? h = some m) (hr : m.isReady) :
    r.outline m = project.outline m.key := by
  have hs := hf.tells.shows h (hc.mem_finished.2 ⟨m, hm, Registry.isReady_iff.1 hr⟩)
  rwa [Shows, Registry.record_eq hm, Registry.keyOf_eq hm] at hs

/-- **What becomes of a module does not depend on what is asked for, nor in which order.**  If a
module is known after two runs, it is ready after both or after neither; if it is ready, it has one
outline; and if it has failed, it has failed for one reason, or for one circle of imports. -/
theorem outcome_unique {demands demands' : List Demand} {m m' : Module}
    (hm : m ∈ (project.after demands).registry.modules)
    (hm' : m' ∈ (project.after demands').registry.modules) (hk : m.key = m'.key) :
    (m.isReady ↔ m'.isReady) ∧
      (m.isReady → (project.after demands).registry.outline m =
        (project.after demands').registry.outline m') ∧
      ∀ f f', m.state = .failed f → m'.state = .failed f' →
        Failure.Akin project.Imports f.underlying f'.underlying := by
  obtain ⟨hc, ha, hf⟩ := project.faithful_after demands
  obtain ⟨hc', ha', hf'⟩ := project.faithful_after demands'
  obtain ⟨i, hi⟩ := List.getElem?_of_mem hm
  obtain ⟨i', hi'⟩ := List.getElem?_of_mem hm'
  have hready := hf.ready_iff_valid hc ha (h := ⟨i⟩) hi
  have hready' := hf'.ready_iff_valid hc' ha' (h := ⟨i'⟩) hi'
  have houtline := hf.outline_eq hc (h := ⟨i⟩) hi
  have houtline' := hf'.outline_eq hc' (h := ⟨i'⟩) hi'
  rw [hk] at hready houtline
  refine ⟨hready.trans hready'.symm, fun hr => ?_, fun f f' hs hs' => ?_⟩
  · rw [houtline hr, houtline' (hready'.2 (hready.1 hr))]
  · have hroot := hf.root (h := ⟨i⟩) hi hs
    rw [hk] at hroot
    exact hroot.akin (hf'.root (h := ⟨i'⟩) hi' hs')

/-- Two modules that import each other; the second one imports a third one before that, and the
third one a fourth one. -/
def ring : Project := .ofTexts
  [("a.hash", "import(\"b\");"), ("b.hash", "import(\"c\"); import(\"a\");"),
    ("c.hash", "import(\"d\"); x := 1;"), ("d.hash", "y := 2;")]

/-- The modules of the ring, asked for from its one end and from its other: the third one is ready
both times, but the fourth one has another handle; the first one fails both times, but for a circle
that is entered elsewhere. -/
theorem ring_outcome :
    let r := (ring.after [.entry "a"]).registry
    let r' := (ring.after [.entry "b"]).registry
    (r.record ⟨2⟩).dependencies = [⟨3⟩] ∧ (r'.record ⟨1⟩).dependencies = [⟨2⟩] ∧
      r.outline (r.record ⟨2⟩) = r'.outline (r'.record ⟨1⟩) ∧
      ∃ f f', (r.record ⟨0⟩).state = .failed f ∧ (r'.record ⟨3⟩).state = .failed f' ∧ f ≠ f' ∧
        Failure.Akin ring.Imports f.underlying f'.underlying := by
  intro r r'
  let a : Key := ⟨["p"], ["a.hash"]⟩
  let b : Key := ⟨["p"], ["b.hash"]⟩
  have hs : (r.record ⟨0⟩).state = .failed (.circular a [a, b, a]) := by decide +kernel
  have hs' : (r'.record ⟨3⟩).state = .failed (.circular b [b, a, b]) := by decide +kernel
  have hm : ∀ i ∈ [0, 2], r.record ⟨i⟩ ∈ (ring.after [.entry "a"]).registry.modules := by
    decide +kernel
  have hm' : ∀ i ∈ [1, 3], r'.record ⟨i⟩ ∈ (ring.after [.entry "b"]).registry.modules := by
    decide +kernel
  refine ⟨by decide +kernel, by decide +kernel, ?_, _, _, hs, hs', by decide, ?_⟩
  · exact (outcome_unique (hm 2 (by simp)) (hm' 1 (by simp)) (by decide +kernel)).2.1
      (by decide +kernel)
  · exact (outcome_unique (hm 0 (by simp)) (hm' 3 (by simp)) (by decide +kernel)).2.2 _ _ hs hs'

end Project

end ModuleResolution
