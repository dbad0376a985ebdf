import Mathlib.Data.List.Dedup
import ModuleResolution.Proofs.Depth

/-!
# Loading ends

`Project.visit` counts how deep it may still go.  Here the same work is done by a machine that
counts nothing: it takes one step after the other, and the modules that wait for one they import are
held on a stack.  Its steps come to an end, whatever modules import each other, and at their end
stands what the count has come to.  All the while no more modules are being loaded than have a text,
and one.

* `Loader.keys` : the keys that have a text.
* `Project.step`, `Project.steps` : the machine.
* `Project.Passes` : some steps lead from one moment to another, with few modules being loaded.
* `Project.passes_visit` : they lead from each request for a module to its answer.
* `Session.loading_ends` : they lead from each demand to where it is met, and stop there.
-/

namespace ModuleResolution

/-- The keys that have a text, each once. -/
def Loader.keys (l : Loader) : List Key := (l.served.filter fun key => (l.read key).isOk).dedup

theorem Loader.mem_keys {l : Loader} {key : Key} :
    key ∈ l.keys ↔ ∃ text, l.read key = .ok text := by
  rw [keys, List.mem_dedup, List.mem_filter]
  constructor
  · rintro ⟨-, h⟩
    cases hr : l.read key with
    | ok text => exact ⟨text, rfl⟩
    | error fault =>
      rw [hr] at h
      cases h
  · rintro ⟨text, h⟩
    exact ⟨l.mem_served key text h, by rw [h]; rfl⟩

/-! ### The machine -/

/-- A module whose items are being taken. -/
structure Frame where
  key : Key
  handle : Handle
  /-- All of its items. -/
  items : List Item
  /-- What the items so far have come to. -/
  draft : Draft

/-- Who waits for the answer to a request for the module `target`. -/
inductive Waiting where
  /-- A module that imports it; its items `rest` stand behind the import. -/
  | loading (frame : Frame) (i : Import) (target : Key) (rest : List Item)
  /-- An import that is bound from outside. -/
  | binding (importer : Key) (i : Import) (target : Key) (scope : Scope)

/-- What comes next. -/
inductive Stage where
  /-- A demand is made from outside. -/
  | demanded (d : Demand)
  /-- A module is asked for. -/
  | asked (key : Key)
  /-- A module has entered. -/
  | entered (key : Key) (h : Handle)
  /-- The items `rest` of a module are still to be taken. -/
  | taking (frame : Frame) (rest : List Item)
  /-- A request is answered. -/
  | answered (answer : Except Failure Handle)
  /-- An import is bound from outside, or it is not. -/
  | bound (result : Except Failure Binding × Scope)

/-- What comes next, who waits for it, the innermost first, and in which session. -/
structure Moment where
  stage : Stage
  waiting : List Waiting
  session : Session

/-- The module of the frame fails. -/
def Frame.fail (frame : Frame) (failure : Failure) (waiting : List Waiting) (s : Session) :
    Moment :=
  ⟨.answered (.error failure), waiting, s.on (·.fail frame.handle failure)⟩

/-- Where the items of the frame are taken, or one of them cannot be. -/
def Frame.taken (frame : Frame) (waiting : List Waiting) : Except Failure Draft × Session → Moment
  | (.ok draft, s) => ⟨.taking { frame with draft } [], waiting, s⟩
  | (.error failure, s) => frame.fail failure waiting s

namespace Project

variable (project : Project)

/-- The text of the module `key` behind `h` is asked for, and its items. -/
def fetch (key : Key) (h : Handle) (s : Session) : Session :=
  let answer := project.loader.read key
  let s := s.log (.read key answer)
  match answer with
  | .error _ => s
  | .ok source => (s.on (·.update h fun m => { m with source })).log (.items key source)

/-- One step.  There is none behind the answer to what is asked from outside. -/
def step : Moment → Option Moment
  | ⟨.demanded (.entry path), waiting, s⟩ =>
    match project.layout.entryKey path with
    | .error reason => some ⟨.answered (.error (.badPath none path reason none)), waiting, s⟩
    | .ok key => some ⟨.asked key, waiting, s⟩
  | ⟨.demanded (.obtain key), waiting, s⟩ => some ⟨.asked key, waiting, s⟩
  | ⟨.demanded (.bind importer i scope), waiting, s⟩ =>
    match i.key project.layout importer with
    | .error failure => some ⟨.bound (.error failure, scope), waiting, s⟩
    | .ok target => some ⟨.asked target, .binding importer i target scope :: waiting, s⟩
  | ⟨.asked key, waiting, s⟩ =>
    match s.registry.find? key with
    | some h => some ⟨.answered (s.registry.remembered key h), waiting, s⟩
    | none => some ⟨.entered key s.registry.fresh, waiting, s.on (·.enter key)⟩
  | ⟨.entered key h, waiting, s⟩ =>
    match project.opened key with
    | .error failure =>
      some (Frame.fail ⟨key, h, [], .empty⟩ failure waiting (project.fetch key h s))
    | .ok items => some ⟨.taking ⟨key, h, items, .empty⟩ items, waiting, project.fetch key h s⟩
  | ⟨.taking frame [], waiting, s⟩ =>
    let s := s.filled frame.handle frame.items frame.draft
    match s.registry.dangling? frame.handle (frame.items.filterMap Item.declaration?) with
    | some failure => some (frame.fail failure waiting s)
    | none => some ⟨.answered (.ok frame.handle), waiting, s.on (·.finish frame.handle)⟩
  | ⟨.taking frame (.declaration d :: rest), waiting, s⟩ =>
    match frame.draft.declare frame.key d with
    | .error failure => some (frame.fail failure waiting s)
    | .ok draft => some ⟨.taking { frame with draft } rest, waiting, s⟩
  | ⟨.taking frame (.importing i :: rest), waiting, s⟩ =>
    match i.key project.layout frame.key with
    | .error failure => some (frame.fail failure waiting s)
    | .ok target => some ⟨.asked target, .loading frame i target rest :: waiting, s⟩
  | ⟨.answered (.error failure), .loading frame _ _ _ :: waiting, s⟩ =>
    some (frame.fail failure waiting s)
  | ⟨.answered (.error failure), .binding _ _ _ scope :: waiting, s⟩ =>
    some ⟨.bound (.error failure, scope), waiting, s⟩
  | ⟨.answered (.ok h), .loading frame i target rest :: waiting, s⟩ =>
    match i.introduce frame.key target (s.registry.record h).exports h frame.draft.scope with
    | (.error failure, _) => some (frame.fail failure waiting s)
    | (.ok binding, scope) =>
      some ⟨.taking { frame with draft := frame.draft.bound binding scope } rest, waiting, s⟩
  | ⟨.answered (.ok h), .binding importer i target scope :: waiting, s⟩ =>
    some ⟨.bound (i.introduce importer target (s.registry.record h).exports h scope), waiting, s⟩
  | ⟨.answered _, [], _⟩ => none
  | ⟨.bound _, _, _⟩ => none

/-- Some steps. -/
def steps : Nat → Moment → Option Moment
  | 0, m => some m
  | n + 1, m => (project.step m).bind (steps n)

/-- Where a demand from outside is met. -/
def met : Demand → Session → Moment
  | .entry path, s => ⟨.answered (project.obtainEntry path s).1, [], (project.obtainEntry path s).2⟩
  | .obtain key, s => ⟨.answered (project.obtain key s).1, [], (project.obtain key s).2⟩
  | .bind importer i scope, s =>
    ⟨.bound (project.bind importer i scope s).1, [], (project.bind importer i scope s).2⟩

/-- No more modules are being loaded than have a text, and one. -/
def Slender (s : Session) : Prop :=
  s.registry.active.length ≤ project.loader.keys.length + 1

/-- Some steps lead from one moment to another, and in all of these few modules are being loaded. -/
inductive Passes : Moment → Moment → Prop
  | refl {m} (h : project.Slender m.session) : Passes m m
  | head {m m₁ m'} (h : project.Slender m.session) (hs : project.step m = some m₁)
    (hl : Passes m₁ m') : Passes m m'

variable {project} {depth : Nat} {key : Key} {s : Session} {items : List Item}
  {waiting : List Waiting} {m m₁ m' : Moment}

namespace Passes

theorem trans (h : project.Passes m m₁) (h' : project.Passes m₁ m') : project.Passes m m' := by
  induction h with
  | refl => exact h'
  | head hm hs _ ih => exact .head hm hs (ih h')

theorem single (h : project.Slender m.session) (h' : project.Slender m'.session)
    (hs : project.step m = some m') : project.Passes m m' :=
  .head h hs (.refl h')

theorem slender (h : project.Passes m m') : project.Slender m'.session := by
  induction h with
  | refl hm => exact hm
  | head _ _ _ ih => exact ih

/-- The steps that lead to where there is none are all there are. -/
theorem exists_steps (h : project.Passes m m') (hstop : project.step m' = none) :
    ∃ n, project.steps n m = some m' ∧
      ∀ k m₁, project.steps k m = some m₁ → k ≤ n ∧ project.Slender m₁.session := by
  induction h with
  | @refl m hm =>
    refine ⟨0, rfl, fun k m₁ hk => ?_⟩
    cases k with
    | zero =>
      cases hk
      exact ⟨Nat.le_refl 0, hm⟩
    | succ k => simp [steps, hstop] at hk
  | @head m m₁ m' hm hs _ ih =>
    obtain ⟨n, hn, hall⟩ := ih hstop
    refine ⟨n + 1, by simp [steps, hs, hn], fun k m₂ hk => ?_⟩
    cases k with
    | zero =>
      cases hk
      exact ⟨Nat.zero_le _, hm⟩
    | succ k =>
      simp only [steps, hs, Option.bind_some] at hk
      obtain ⟨hle, hm₂⟩ := hall k m₂ hk
      exact ⟨Nat.succ_le_succ hle, hm₂⟩

end Passes

/-! ### How many modules are being loaded -/

/-- A request can be met, and each module being loaded has a text. -/
structure Reads (project : Project) (depth : Nat) (s : Session) : Prop extends
    project.CanMeet depth s where
  readable : ∀ key ∈ s.registry.active, key ∈ project.loader.keys

theorem opening_eq_fetch (project : Project) (key : Key) (s : Session) :
    project.opening key s = project.fetch key s.registry.fresh (s.on (·.enter key)) := by
  unfold opening fetch
  cases project.loader.read key <;> rfl

theorem slender_fail (h : project.Slender s) (t : Handle) (failure : Failure) :
    project.Slender (s.on (·.fail t failure)) := by
  refine Nat.le_trans ?_ h
  simp [Session.on, Registry.fail, Registry.leave, Registry.update]

theorem slender_finish (h : project.Slender s) (t : Handle) :
    project.Slender (s.on (·.finish t)) := by
  refine Nat.le_trans ?_ h
  simp [Session.on, Registry.finish, Registry.leave, Registry.update]

theorem slender_filled (h : project.Slender s) (t : Handle) (items : List Item) (draft : Draft) :
    project.Slender (s.filled t items draft) := h

namespace Reads

theorem length_le (h : project.Reads depth s) :
    s.registry.active.length ≤ project.loader.keys.length :=
  (List.subperm_of_subset h.coherent.active_nodup h.readable).length_le

theorem slender (h : project.Reads depth s) : project.Slender s := Nat.le_succ_of_le h.length_le

theorem slender_enter (h : project.Reads depth s) (key : Key) :
    project.Slender (s.on (·.enter key)) := by
  have := h.length_le
  simp only [Slender, Session.on, Registry.enter, List.length_append, List.length_singleton]
  omega

theorem slender_opening (h : project.Reads depth s) (key : Key) :
    project.Slender (project.opening key s) := by
  have hactive : (project.opening key s).registry.active = s.registry.active ++ [key] := by
    rw [project.registry_opening]
    rfl
  have := h.length_le
  simp only [Slender, hactive, List.length_append, List.length_singleton]
  omega

theorem visit (h : project.Reads depth s) (key : Key) :
    project.Reads depth (project.visit depth key s).2 where
  toCanMeet := h.toCanMeet.visit key
  readable := by
    rw [(project.visit_grows depth key s).active]
    exact h.readable

theorem opening (h : project.Reads (depth + 1) s) (hf : s.registry.find? key = none)
    (ho : project.opened key = .ok items) : project.Reads depth (project.opening key s) where
  toCanMeet := h.toCanMeet.opening hf ho
  readable := by
    rw [project.registry_opening]
    intro k hk
    rcases List.mem_append.1 hk with hk | hk
    · exact h.readable k hk
    · rw [List.mem_singleton.1 hk]
      exact Loader.mem_keys.2 ⟨_, read_of_opened ho⟩

theorem top (hr : s.registry.Coherent) (ha : s.registry.active = []) :
    project.Reads project.depth s where
  toCanMeet := .top hr ha
  readable := by
    rw [ha]
    exact fun _ h => by cases h

end Reads

end Project

/-! ### From requests to answers -/

variable {project : Project} {depth : Nat}

/-- If requests are led to their answers, the items of a module are led to where they are taken. -/
theorem Draft.Takes.passes {key : Key} {draft : Draft} {rest : List Item} {s : Session}
    {out : Except Failure Draft × Session}
    (hvisit : ∀ target s waiting, project.Reads depth s →
      project.Passes ⟨.asked target, waiting, s⟩
        ⟨.answered (project.visit depth target s).1, waiting, (project.visit depth target s).2⟩)
    (ht : Takes (project.visit depth) project.layout key draft rest s out)
    (hs : project.Reads depth s) (h : Handle) (items : List Item) (waiting : List Waiting) :
    project.Passes ⟨.taking ⟨key, h, items, draft⟩ rest, waiting, s⟩
      (Frame.taken ⟨key, h, items, draft⟩ waiting out) := by
  induction ht with
  | done => exact .refl hs.slender
  | collided hd =>
    refine .single hs.slender (Project.slender_fail hs.slender _ _) ?_
    simp only [Project.step, hd]
    rfl
  | declared hd _ ih => exact .head hs.slender (by simp only [Project.step, hd]) (ih hs)
  | astray hk =>
    refine .single hs.slender (Project.slender_fail hs.slender _ _) ?_
    simp only [Project.step, hk]
    rfl
  | @failed draft i rest s target failure s' hk hv =>
    have hasked := hvisit target s (.loading ⟨key, h, items, draft⟩ i target rest :: waiting) hs
    have hs' := (hs.visit target).slender
    rw [hv] at hasked hs'
    refine .head hs.slender (by simp only [Project.step, hk]) (hasked.trans ?_)
    exact .single hs' (Project.slender_fail hs' _ _) rfl
  | @refused draft i rest s target t s' failure scope hk hv hi =>
    have hasked := hvisit target s (.loading ⟨key, h, items, draft⟩ i target rest :: waiting) hs
    have hs' := (hs.visit target).slender
    rw [hv] at hasked hs'
    refine .head hs.slender (by simp only [Project.step, hk]) (hasked.trans ?_)
    exact .single hs' (Project.slender_fail hs' _ _) (by simp only [Project.step, hi]; rfl)
  | @bound draft i rest s target t s' binding scope out hk hv hi _ ih =>
    have hasked := hvisit target s (.loading ⟨key, h, items, draft⟩ i target rest :: waiting) hs
    have hs' := hs.visit target
    rw [hv] at hasked hs'
    refine .head hs.slender (by simp only [Project.step, hk]) (hasked.trans ?_)
    exact .head hs'.slender (by simp only [Project.step, hi]) (ih hs')

namespace Project

/-- **Steps lead from a request for a module to its answer**, whoever waits for it. -/
theorem passes_visit (key : Key) (s : Session) (waiting : List Waiting)
    (hs : project.Reads depth s) :
    project.Passes ⟨.asked key, waiting, s⟩
      ⟨.answered (project.visit depth key s).1, waiting, (project.visit depth key s).2⟩ := by
  induction depth generalizing key s waiting with
  | zero => exact absurd hs.depth_pos (Nat.lt_irrefl 0)
  | succ depth ih =>
    have hvisit := project.visits_visit depth key s
    generalize project.visit (depth + 1) key s = out at hvisit
    -- a module that is not known enters, and its items are asked for
    have hentered : s.registry.find? key = none → ∀ {m},
        project.step ⟨.entered key s.registry.fresh, waiting, s.on (·.enter key)⟩ = some m →
        project.Slender m.session → project.Passes ⟨.asked key, waiting, s⟩ m := by
      intro hf m hm hslender
      refine .head hs.slender (by simp only [step, hf]; rfl) ?_
      exact .single (hs.slender_enter key) hslender hm
    have htaken : s.registry.find? key = none → ∀ {items out},
        project.opened key = .ok items →
        Draft.Takes (project.visit depth) project.layout key .empty items (project.opening key s)
          out →
        project.Passes ⟨.asked key, waiting, s⟩
          (Frame.taken ⟨key, s.registry.fresh, items, .empty⟩ waiting out) := by
      intro hf items out ho ht
      have hopening := hs.opening hf ho
      have hstep : project.step ⟨.entered key s.registry.fresh, waiting, s.on (·.enter key)⟩ =
          some ⟨.taking ⟨key, s.registry.fresh, items, .empty⟩ items, waiting,
            project.opening key s⟩ := by
        simp only [step, ho, opening_eq_fetch]
      exact (hentered hf hstep hopening.slender).trans (ht.passes ih hopening _ _ _)
    cases hvisit with
    | known hf => exact .single hs.slender hs.slender (by simp only [step, hf])
    | refused hf ho =>
      refine hentered hf (by simp only [step, ho, opening_eq_fetch]; rfl) ?_
      exact slender_fail (hs.slender_opening key) _ _
    | stopped hf ho ht => exact htaken hf ho ht
    | @dangling items draft _ _ hf ho ht hd =>
      have hpasses := htaken hf ho ht
      have hfilled := slender_filled hpasses.slender s.registry.fresh items draft
      refine hpasses.trans (.single hpasses.slender (slender_fail hfilled _ _) ?_)
      simp only [Frame.taken, step, hd]
      rfl
    | @ready items draft _ hf ho ht hd =>
      have hpasses := htaken hf ho ht
      have hfilled := slender_filled hpasses.slender s.registry.fresh items draft
      refine hpasses.trans (.single hpasses.slender (slender_finish hfilled _) ?_)
      simp only [Frame.taken, step, hd]

end Project

namespace Project

theorem step_met (project : Project) (d : Demand) (s : Session) :
    project.step (project.met d s) = none := by
  cases d with
  | entry path => cases h : (project.obtainEntry path s).1 <;> simp only [met, h, step]
  | obtain key => cases h : (project.obtain key s).1 <;> simp only [met, h, step]
  | bind => rfl

/-- Steps lead from a demand to where it is met. -/
theorem passes_met (d : Demand) {s : Session} (hs : project.Reads project.depth s) :
    project.Passes ⟨.demanded d, [], s⟩ (project.met d s) := by
  have hslender := hs.slender
  cases d with
  | entry path =>
    unfold met obtainEntry
    simp only [Bind.bind, Loading.done]
    cases hk : project.layout.entryKey path with
    | error reason => exact .single hslender hslender (by simp only [step, hk]; rfl)
    | ok key => exact .head hslender (by simp only [step, hk]) (passes_visit key s [] hs)
  | obtain key => exact .head hslender rfl (passes_visit key s [] hs)
  | bind importer i scope =>
    simp only [met, Project.bind, Import.bindBy]
    cases hk : i.key project.layout importer with
    | error failure => exact .single hslender hslender (by simp only [step, hk])
    | ok target =>
      have hstep : project.step ⟨.demanded (.bind importer i scope), [], s⟩ =
          some ⟨.asked target, [.binding importer i target scope], s⟩ := by
        simp only [step, hk]
      have hasked := passes_visit target s [.binding importer i target scope] hs
      refine .head hslender hstep ?_
      rw [← obtain] at hasked
      rcases hv : project.obtain target s with ⟨failure | h, s'⟩
      · rw [hv] at hasked
        simp only [hv]
        exact hasked.trans (.single hasked.slender hasked.slender rfl)
      · rw [hv] at hasked
        simp only [hv]
        exact hasked.trans (.single hasked.slender hasked.slender rfl)

end Project

/-- **Loading ends.**  After any demands, the steps from one more demand come to where it is met,
and stop there.  At no moment on the way are more modules being loaded than have a text, and one. -/
theorem Session.loading_ends (demands : List (Project × Demand)) (project : Project) (d : Demand) :
    let start : Moment := ⟨.demanded d, [], Session.after demands⟩
    let last := project.met d (Session.after demands)
    ∃ n, project.steps n start = some last ∧ project.step last = none ∧
      ∀ k m, project.steps k start = some m →
        k ≤ n ∧ m.session.registry.active.length ≤ project.loader.keys.length + 1 := by
  intro start last
  obtain ⟨hc, ha⟩ := Session.coherent_after demands
  have hreads : project.Reads project.depth (Session.after demands) := .top hc ha
  have hpasses := Project.passes_met d hreads
  have hstop : project.step last = none := project.step_met d _
  obtain ⟨n, hn, hall⟩ := hpasses.exists_steps hstop
  exact ⟨n, hn, hstop, hall⟩

end ModuleResolution
