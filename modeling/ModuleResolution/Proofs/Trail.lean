import ModuleResolution.Proofs.Asking
import ModuleResolution.Proofs.Freezing
import ModuleResolution.Proofs.Unwinding

/-!
# The trail of a run

A run comes to requests for modules, from outside and by the imports of the modules that it loads.
The trail of a run is the list of all of them, in the order in which they are made: in which session
each one is made, what it is answered with, and in which session.

* `Project.trail` : a request for a module, and those that it makes in turn.
* `Session.trail` : the requests that demands from outside come to.
* `Registry.Retains` : a registry still knows what has come to an end in another one.
* `Registry.Keeps` : a registry keeps what a request for a module was answered with.
* `Registry.Trail` : how the requests of a trail lie between two registries.
* `Session.trail_after` : the trail of a run leads from its start to its end.
* `Session.entered_after` : it tells which modules have entered, and what was asked for.
-/

namespace ModuleResolution

/-- A request for a module in the course of a run. -/
structure Visit where
  key : Key
  /-- The session in which the request is made. -/
  before : Session
  answer : Except Failure Handle
  /-- The session in which it is answered. -/
  after : Session

/-- The module that an item of the module `key` imports, if it does. -/
def Item.target? (layout : Layout) (key : Key) (item : Item) : Option Key :=
  item.import?.bind fun i => (i.key layout key).toOption

theorem Item.target?_importing {layout : Layout} {key : Key} {i : Import}
    {result : Except Failure Key} (hk : i.key layout key = result) :
    (Item.importing i).target? layout key = result.toOption := congrArg Except.toOption hk

/-- The requests that are made to take some items of the module `key`, each met by `visit`, where
`trail` is what one of them comes to. -/
def Draft.trail (visit : Key → Loading Handle) (trail : Key → Session → List Visit)
    (layout : Layout) (key : Key) (draft : Draft) : List Item → Session → List Visit
  | [], _ => []
  | item :: rest, s =>
    ((item.target? layout key).elim [] fun target => trail target s) ++
      match draft.take visit layout key item s with
      | (.ok draft, s) => draft.trail visit trail layout key rest s
      | (.error _, _) => []

namespace Project

variable (project : Project)

/-- The request for the module `key` in the session `s`, with up to `depth` modules being loaded at
a time. -/
def visited (depth : Nat) (key : Key) (s : Session) : Visit :=
  let out := project.visit depth key s
  ⟨key, s, out.1, out.2⟩

/-- This request, and all that it comes to in turn. -/
def trail : (depth : Nat) → Key → Session → List Visit
  | 0, key, s => [project.visited 0 key s]
  | depth + 1, key, s =>
    project.visited (depth + 1) key s ::
      match s.registry.find? key, project.opened key with
      | none, .ok items =>
        Draft.trail (project.visit depth) (trail depth) project.layout key .empty items
          (project.opening key s)
      | _, _ => []

/-- The module that a demand asks for, if any. -/
def asked : Demand → Option Key
  | .entry path => (project.layout.entryKey path).toOption
  | .obtain key => some key
  | .bind importer i _ => (i.key project.layout importer).toOption

end Project

/-- The requests that some demands come to, each met with a project of its own. -/
def Session.trail (s : Session) : List (Project × Demand) → List Visit
  | [] => []
  | (project, d) :: rest =>
    ((project.asked d).elim [] fun key => project.trail project.depth key s) ++
      (project.meet d s).trail rest

/-! ### What registries retain -/

namespace Registry

/-- `r'` still knows the modules of `r`, and those that have come to an end as they are. -/
structure Retains (r r' : Registry) : Prop where
  find? : ∀ {key h}, r.find? key = some h → r'.find? key = some h
  module? : ∀ {h m}, r.module? h = some m → m.state ≠ .loading → r'.module? h = some m

variable {r r' r'' : Registry} {key : Key} {h : Handle} {m : Module}

namespace Retains

theorem refl (r : Registry) : r.Retains r := ⟨id, fun hm _ => hm⟩

theorem trans (h₁ : r.Retains r') (h₂ : r'.Retains r'') : r.Retains r'' :=
  ⟨fun hf => h₂.find? (h₁.find? hf), fun hm hs => h₂.module? (h₁.module? hm hs) hs⟩

theorem started (r : Registry) (key : Key) (source : String) : r.Retains (r.started key source) :=
  ⟨fun hf => (List.prefix_append _ _).lookup_eq_some hf, fun hm _ => by
    rw [module?_started, if_neg (ne_fresh_of_module? hm), hm]⟩

theorem ended (hm : r.module? h = some m) (hs : m.state = .loading) (f : Module → Module)
    (finished : List Handle) : r.Retains (r.ended h f finished) where
  find? hf := hf
  module? := by
    intro t n hn hstate
    rw [module?_ended hm, if_neg, hn]
    rintro rfl
    rw [hm] at hn
    cases hn
    exact hstate hs

theorem unwound {chain : List Handle} (failure : Failure)
    (hl : ∀ h ∈ chain, ∃ m, r.module? h = some m ∧ m.state = .loading) :
    r.Retains (r.unwound failure chain) where
  find? hf := (find?_unwound _).trans hf
  module? := by
    intro t n hn hstate
    rw [module?_unwound_of_notMem, hn]
    intro hmem
    obtain ⟨m, hm, hs⟩ := hl t hmem
    rw [hm] at hn
    cases hn
    exact hstate hs

end Retains

/-! ### What registries keep -/

/-- The module `key` has come to an end as the answer to a request says: it is ready behind the
handle, or it has failed with the failure. -/
def Keeps (r : Registry) (key : Key) : Except Failure Handle → Prop
  | .ok h => r.find? key = some h ∧ ∃ m, r.module? h = some m ∧ m.state = .ready
  | .error f => ∃ h m, r.find? key = some h ∧ r.module? h = some m ∧ m.state = .failed f

variable {answer : Except Failure Handle}

theorem Keeps.ready {f : Module → Module} {finished : List Handle}
    (hr : (r.ended h f finished).Coherent) (hm : r.module? h = some m) (hk : (f m).key = key)
    (hs : (f m).state = .ready) : (r.ended h f finished).Keeps key (.ok h) := by
  have hended := module?_ended_self hm f finished
  exact ⟨hr.find?_iff.2 ⟨_, hended, hk⟩, _, hended, hs⟩

theorem Keeps.failed {f : Module → Module} {finished : List Handle} {failure : Failure}
    (hr : (r.ended h f finished).Coherent) (hm : r.module? h = some m) (hk : (f m).key = key)
    (hs : (f m).state = .failed failure) :
    (r.ended h f finished).Keeps key (.error failure) := by
  have hended := module?_ended_self hm f finished
  exact ⟨_, _, hr.find?_iff.2 ⟨_, hended, hk⟩, hended, hs⟩

theorem Keeps.mono (hk : r.Keeps key answer) (hr : r.Retains r') : r'.Keeps key answer := by
  cases answer with
  | ok h =>
    obtain ⟨hf, m, hm, hs⟩ := hk
    exact ⟨hr.find? hf, m, hr.module? hm (by simp [hs]), hs⟩
  | error f =>
    obtain ⟨h, m, hf, hm, hs⟩ := hk
    exact ⟨h, m, hr.find? hf, hr.module? hm (by simp [hs]), hs⟩

theorem Keeps.find? (hk : r.Keeps key answer) : ∃ h, r.find? key = some h := by
  cases answer with
  | ok h => exact ⟨h, hk.1⟩
  | error f =>
    obtain ⟨h, m, hf, -⟩ := hk
    exact ⟨h, hf⟩

/-- What was answered is answered again, or the failure behind it as a repeated one. -/
theorem Keeps.remembered (hk : r.Keeps key answer) (hf : r.find? key = some h) :
    r.remembered key h = answer.mapError fun f => .repeated key f.underlying := by
  cases answer with
  | ok t =>
    obtain ⟨ht, m, hm, hs⟩ := hk
    rw [hf] at ht
    cases ht
    simp only [Registry.remembered, record_eq hm, hs, mapError_ok]
  | error f =>
    obtain ⟨t, m, ht, hm, hs⟩ := hk
    rw [hf] at ht
    cases ht
    simp only [Registry.remembered, record_eq hm, hs, mapError_error]

theorem Keeps.eq_of_failed {f : Failure} (hk : r.Keeps key answer) (hf : r.find? key = some h)
    (hm : r.module? h = some m) (hs : m.state = .failed f) : answer = .error f := by
  cases answer with
  | ok t =>
    obtain ⟨ht, n, hn, hready⟩ := hk
    rw [hf] at ht
    cases ht
    rw [hm] at hn
    cases hn
    rw [hs] at hready
    cases hready
  | error f' =>
    obtain ⟨t, n, ht, hn, hfailed⟩ := hk
    rw [hf] at ht
    cases ht
    rw [hm] at hn
    cases hn
    rw [hs] at hfailed
    cases hfailed
    rfl

end Registry

/-! ### Single requests -/

/-- The request is met with some project, and could be met. -/
def Visit.Made (v : Visit) : Prop :=
  ∃ (project : Project) (depth : Nat), project.CanMeet depth v.before ∧
    v = project.visited depth v.key v.before

namespace Visit.Made

variable {v : Visit} {h : Handle}

theorem coherent (hv : v.Made) : v.before.registry.Coherent ∧ v.after.registry.Coherent := by
  obtain ⟨project, depth, hs, hv⟩ := hv
  rw [hv]
  exact ⟨hs.coherent, (hs.visit v.key).coherent⟩

theorem of_known (hv : v.Made) (hf : v.before.registry.find? v.key = some h) :
    v.answer = v.before.registry.remembered v.key h ∧ v.after = v.before := by
  obtain ⟨project, depth, hs, hv⟩ := hv
  have hvisit := project.visit_of_find? hs.depth_pos hf
  rw [hv]
  exact ⟨congrArg Prod.fst hvisit, congrArg Prod.snd hvisit⟩

/-- A module that is not known comes to an end, which is kept. -/
theorem keeps (hv : v.Made) (hn : v.before.registry.find? v.key = none) :
    v.after.registry.Keeps v.key v.answer := by
  obtain ⟨-, hc⟩ := hv.coherent
  obtain ⟨project, depth, hs, hv⟩ := hv
  rw [hv] at hc ⊢
  obtain ⟨depth, rfl⟩ := Nat.exists_eq_succ_of_ne_zero (Nat.ne_of_gt hs.depth_pos)
  simp only [Project.visited] at hc ⊢
  have hvisit := project.visits_visit depth v.key v.before
  generalize project.visit (depth + 1) v.key v.before = out at hvisit hc
  have htakes : ∀ {items draft? s'}, Draft.Takes (project.visit depth) project.layout v.key .empty
      items (project.opening v.key v.before) (draft?, s') →
      s'.registry.module? v.before.registry.fresh =
        some { Module.start v.key with source := project.source v.key } :=
    fun ht => (project.innermost_of_grows (ht.grows (project.visit_grows depth))).module?
  cases hvisit with
  | known hf =>
    rw [hn] at hf
    cases hf
  | @refused failure =>
    exact .failed (f := fun m => { m with state := .failed failure }) hc
      (project.innermost_of_grows (.refl _)).module? rfl rfl
  | @stopped _ failure _ _ _ ht =>
    exact .failed (f := fun m => { m with state := .failed failure }) hc (htakes ht) rfl rfl
  | dangling _ _ ht =>
    rw [Session.registry_fail_filled] at hc ⊢
    exact .failed hc (htakes ht) rfl rfl
  | ready _ _ ht =>
    rw [Session.registry_finish_filled] at hc ⊢
    exact .ready hc (htakes ht) rfl rfl

theorem known (hv : v.Made) : ∃ h, v.after.registry.find? v.key = some h := by
  cases hf : v.before.registry.find? v.key with
  | some h =>
    rw [(hv.of_known hf).2]
    exact ⟨h, hf⟩
  | none => exact (hv.keeps hf).find?

end Visit.Made

/-! ### Trails between registries -/

/-- The modules, among those that are asked for, that are not known then. -/
def Visit.entering (trail : List Visit) : List Key :=
  (trail.filter fun v => (v.before.registry.find? v.key).isNone).map Visit.key

/-- The requests `trail`, in this order, lead from the registry `r` to the registry `r'`. -/
structure Registry.Trail (r r' : Registry) (trail : List Visit) : Prop where
  retains : r.Retains r'
  made : ∀ v ∈ trail, v.Made
  since : ∀ v ∈ trail, r.Retains v.before.registry
  till : ∀ v ∈ trail, v.after.registry.Retains r'
  /-- When a request is made, the modules are known that were asked for before. -/
  later : trail.Pairwise fun v w => ∃ h, w.before.registry.find? v.key = some h
  /-- The modules that enter are those that are not known when they are asked for. -/
  keys : r'.keys = r.keys ++ Visit.entering trail

namespace Registry.Trail

variable {r r' r'' : Registry} {trail trail' : List Visit} {v : Visit}

theorem nil (r : Registry) : r.Trail r [] where
  retains := .refl r
  made := by simp
  since := by simp
  till := by simp
  later := .nil
  keys := (List.append_nil _).symm

theorem append (h₁ : r.Trail r' trail) (h₂ : r'.Trail r'' trail') :
    r.Trail r'' (trail ++ trail') where
  retains := h₁.retains.trans h₂.retains
  made := List.forall_mem_append.2 ⟨h₁.made, h₂.made⟩
  since := List.forall_mem_append.2 ⟨h₁.since, fun v hv => h₁.retains.trans (h₂.since v hv)⟩
  till := List.forall_mem_append.2 ⟨fun v hv => (h₁.till v hv).trans h₂.retains, h₂.till⟩
  later := by
    refine List.pairwise_append.2 ⟨h₁.later, h₂.later, fun v hv w hw => ?_⟩
    obtain ⟨h, hf⟩ := (h₁.made v hv).known
    exact ⟨h, (h₂.since w hw).find? ((h₁.till v hv).find? hf)⟩
  keys := by
    rw [h₂.keys, h₁.keys, Visit.entering, Visit.entering, Visit.entering, List.filter_append,
      List.map_append, List.append_assoc]

theorem known {h : Handle} (hv : v.Made) (hf : v.before.registry.find? v.key = some h) :
    v.before.registry.Trail v.after.registry [v] := by
  obtain ⟨-, hsame⟩ := hv.of_known hf
  rw [hsame]
  refine ⟨.refl _, ?_, ?_, ?_, List.pairwise_singleton _ _, ?_⟩
  · exact List.forall_mem_singleton.2 hv
  · exact List.forall_mem_singleton.2 (.refl _)
  · rw [List.forall_mem_singleton, hsame]
    exact .refl _
  · simp [Visit.entering, hf]

/-- A request for a module that is not known comes to those that are made from when the module
starts to load until it ends. -/
theorem cons {source : String} {h : Handle} {m : Module} {f : Module → Module}
    {finished : List Handle} (hv : v.Made) (hn : v.before.registry.find? v.key = none)
    (hs : r = v.before.registry.started v.key source) (ht : r.Trail r' trail)
    (hm : r'.module? h = some m) (hloading : m.state = .loading)
    (he : v.after.registry = r'.ended h f finished) (hk : ∀ m, (f m).key = m.key) :
    v.before.registry.Trail v.after.registry (v :: trail) := by
  subst hs
  have hr : r'.Retains v.after.registry := by
    rw [he]
    exact .ended hm hloading f finished
  have hstarted := Registry.Retains.started v.before.registry v.key source
  refine ⟨(hstarted.trans ht.retains).trans hr, ?_, ?_, ?_, ?_, ?_⟩
  · exact List.forall_mem_cons.2 ⟨hv, ht.made⟩
  · exact List.forall_mem_cons.2 ⟨.refl _, fun w hw => hstarted.trans (ht.since w hw)⟩
  · exact List.forall_mem_cons.2 ⟨.refl _, fun w hw => (ht.till w hw).trans hr⟩
  · refine List.pairwise_cons.2 ⟨fun w hw => ⟨v.before.registry.fresh, ?_⟩, ht.later⟩
    refine (ht.since w hw).find? ?_
    rw [Coherent.find?_started hn, if_pos rfl]
  · rw [he, keys_ended hk, ht.keys, keys_started, List.append_assoc, List.singleton_append]
    simp [Visit.entering, hn]

/-- A module that becomes known is asked for before it is. -/
theorem entered (ht : r.Trail r' trail) (hr : r.Coherent) (hr' : r'.Coherent) {key : Key}
    {h : Handle} (hn : r.find? key = none) (hf : r'.find? key = some h) :
    ∃ v ∈ trail, v.key = key ∧ v.before.registry.find? key = none := by
  have hmem : key ∈ r.keys ++ Visit.entering trail := by
    rw [← ht.keys]
    exact mem_keys.2 ⟨h, hr'.find?_iff.1 hf⟩
  rcases List.mem_append.1 hmem with hold | hnew
  · exact absurd hold (hr.not_mem_keys.2 hn)
  · obtain ⟨v, hv, rfl⟩ := List.mem_map.1 hnew
    obtain ⟨hv, hnone⟩ := List.mem_filter.1 hv
    exact ⟨v, hv, rfl, Option.isNone_iff_eq_none.1 hnone⟩

end Registry.Trail

/-! ### Requests -/

namespace Draft

variable {visit : Key → Loading Handle} {trail : Key → Session → List Visit} {layout : Layout}
  {key target : Key} {draft draft' : Draft} {d : Declaration} {i : Import} {rest : List Item}
  {s s' : Session} {failure : Failure} {h : Handle} {binding : Binding} {scope : Scope}

theorem trail_collided (hd : draft.declare key d = .error failure) :
    draft.trail visit trail layout key (.declaration d :: rest) s = [] := by
  simp only [Draft.trail, take, Loading.done, hd]
  rfl

theorem trail_declared (hd : draft.declare key d = .ok draft') :
    draft.trail visit trail layout key (.declaration d :: rest) s =
      draft'.trail visit trail layout key rest s := by
  simp only [Draft.trail, take, Loading.done, hd]
  rfl

theorem trail_astray (hk : i.key layout key = .error failure) :
    draft.trail visit trail layout key (.importing i :: rest) s = [] := by
  simp only [Draft.trail, take, Import.bindBy, hk, Item.target?_importing hk]
  rfl

theorem trail_failed (hk : i.key layout key = .ok target)
    (hv : visit target s = (.error failure, s')) :
    draft.trail visit trail layout key (.importing i :: rest) s = trail target s := by
  simp only [Draft.trail, take, Import.bindBy, hk, hv, Item.target?_importing hk]
  exact List.append_nil _

theorem trail_refused (hk : i.key layout key = .ok target) (hv : visit target s = (.ok h, s'))
    (hi : i.introduce key target (s'.registry.record h).exports h draft.scope =
      (.error failure, scope)) :
    draft.trail visit trail layout key (.importing i :: rest) s = trail target s := by
  simp only [Draft.trail, take, Import.bindBy, hk, hv, hi, Item.target?_importing hk]
  exact List.append_nil _

theorem trail_bound (hk : i.key layout key = .ok target) (hv : visit target s = (.ok h, s'))
    (hi : i.introduce key target (s'.registry.record h).exports h draft.scope =
      (.ok binding, scope)) :
    draft.trail visit trail layout key (.importing i :: rest) s =
      trail target s ++ (draft.bound binding scope).trail visit trail layout key rest s' := by
  simp only [Draft.trail, take, Import.bindBy, hk, hv, hi, Item.target?_importing hk]
  rfl

end Draft

/-- The requests that are made to take items lead to where these are taken. -/
theorem Draft.Takes.trail {project : Project} {depth : Nat} {layout : Layout} {key : Key}
    {draft : Draft} {items : List Item} {s : Session} {out : Except Failure Draft × Session}
    (hvisit : ∀ target s, project.CanMeet depth s →
      s.registry.Trail (project.visit depth target s).2.registry (project.trail depth target s))
    (ht : Takes (project.visit depth) layout key draft items s out)
    (hs : project.CanMeet depth s) :
    s.registry.Trail out.2.registry
      (draft.trail (project.visit depth) (project.trail depth) layout key items s) := by
  induction ht with
  | done => exact .nil _
  | collided hd =>
    rw [trail_collided hd]
    exact .nil _
  | declared hd _ ih =>
    rw [trail_declared hd]
    exact ih hs
  | astray hk =>
    rw [trail_astray hk]
    exact .nil _
  | @failed _ _ _ s target _ _ hk hv =>
    have htrail := hvisit target s hs
    rw [hv] at htrail
    rw [trail_failed hk hv]
    exact htrail
  | @refused _ _ _ s target _ _ _ _ hk hv hi =>
    have htrail := hvisit target s hs
    rw [hv] at htrail
    rw [trail_refused hk hv hi]
    exact htrail
  | @bound _ _ _ s target _ _ _ _ _ hk hv hi _ ih =>
    have htrail := hvisit target s hs
    have hnext := hs.visit target
    rw [hv] at htrail hnext
    rw [trail_bound hk hv hi]
    exact htrail.append (ih hnext)

namespace Project

variable (project : Project)

/-- **A request for a module leads to where it is answered**, by all the requests that it comes
to. -/
theorem trail_visit (depth : Nat) (key : Key) (s : Session) (hs : project.CanMeet depth s) :
    s.registry.Trail (project.visit depth key s).2.registry (project.trail depth key s) := by
  induction depth generalizing key s with
  | zero => exact absurd hs.depth_pos (Nat.lt_irrefl 0)
  | succ depth ih =>
    have hmade : (project.visited (depth + 1) key s).Made := ⟨project, depth + 1, hs, rfl⟩
    rw [trail]
    cases hf : s.registry.find? key with
    | some h =>
      exact .known hmade hf
    | none =>
      have hvisit := project.visits_visit depth key s
      have hstart := project.registry_opening key s
      have hfresh : ∀ {r'}, (project.opening key s).registry.Grows r' →
          r'.module? s.registry.fresh =
            some { Module.start key with source := project.source key } :=
        fun hg => (project.innermost_of_grows hg).module?
      simp only [visited] at hmade ⊢
      generalize project.visit (depth + 1) key s = out at hvisit hmade
      cases hvisit with
      | known hf' =>
        rw [hf] at hf'
        cases hf'
      | refused _ ho =>
        rw [ho]
        exact .cons hmade hf hstart (.nil _) (hfresh (.refl _)) rfl rfl fun _ => rfl
      | stopped _ ho ht =>
        have hbelow := ht.trail ih (hs.opening hf ho)
        have hm := hfresh (ht.grows (project.visit_grows depth))
        rw [ho]
        exact .cons hmade hf hstart hbelow hm rfl rfl fun _ => rfl
      | dangling _ ho ht =>
        have hbelow := ht.trail ih (hs.opening hf ho)
        have hm := hfresh (ht.grows (project.visit_grows depth))
        rw [ho]
        exact .cons hmade hf hstart hbelow hm rfl (Session.registry_fail_filled _ _) fun _ => rfl
      | ready _ ho ht =>
        have hbelow := ht.trail ih (hs.opening hf ho)
        have hm := hfresh (ht.grows (project.visit_grows depth))
        rw [ho]
        exact .cons hmade hf hstart hbelow hm rfl (Session.registry_finish_filled _) fun _ => rfl

theorem meet_asked (d : Demand) (s : Session) :
    project.meet d s = (project.asked d).elim s fun key => (project.obtain key s).2 := by
  cases d with
  | entry path =>
    simp only [meet, asked, obtainEntry, Bind.bind, Loading.done]
    cases project.layout.entryKey path <;> rfl
  | obtain key => rfl
  | bind importer i scope =>
    simp only [meet, asked, Project.bind, Import.bindBy]
    cases i.key project.layout importer with
    | error failure => rfl
    | ok key =>
      rcases hv : project.obtain key s with ⟨failure | h, s'⟩ <;>
        simp only [hv, Except.toOption, Option.elim]

end Project

namespace Session

/-- **The trail of a run leads from its start to its end**, whatever was asked before. -/
theorem trail_after (demands more : List (Project × Demand)) :
    (Session.after demands).registry.Trail (Session.after (demands ++ more)).registry
      ((Session.after demands).trail more) := by
  induction more generalizing demands with
  | nil =>
    rw [List.append_nil]
    exact .nil _
  | cons d rest ih =>
    obtain ⟨hr, ha⟩ := coherent_after demands
    have hmeet : Session.after (demands ++ [d]) = d.1.meet d.2 (Session.after demands) := by
      simp [Session.after]
    have hfirst : (Session.after demands).registry.Trail
        (d.1.meet d.2 (Session.after demands)).registry
        ((d.1.asked d.2).elim [] fun key => d.1.trail d.1.depth key (Session.after demands)) := by
      rw [d.1.meet_asked]
      cases d.1.asked d.2 with
      | none => exact .nil _
      | some key => exact d.1.trail_visit d.1.depth key _ (.top hr ha)
    have hrest := ih (demands ++ [d])
    rw [List.append_assoc, List.singleton_append, hmeet] at hrest
    exact hfirst.append hrest

theorem trail_empty (demands : List (Project × Demand)) :
    Registry.empty.Trail (Session.after demands).registry (Session.empty.trail demands) :=
  trail_after [] demands

theorem Accounted.reads_eq {s : Session} (hs : s.Accounted) : s.reads = s.registry.keys := by
  obtain ⟨answers, hcalls, hkeys⟩ := hs
  rw [reads, hcalls, Call.filterMap_read?_rounds, hkeys]

/-- **A run knows the modules that its trail has come upon for the first time**, in this order, and
these are the ones whose texts it has asked for. -/
theorem entered_after (demands : List (Project × Demand)) :
    (Session.after demands).registry.keys = Visit.entering (Session.empty.trail demands) ∧
      (Session.after demands).reads = Visit.entering (Session.empty.trail demands) := by
  have hkeys := (trail_empty demands).keys
  exact ⟨hkeys, (accounted_after demands).reads_eq.trans hkeys⟩

end Session

end ModuleResolution
