import ModuleResolution.Proofs.FirstLoad

/-!
# What is asked of loaders and of readers of items

A module is asked for once, when it enters the registry: its text is asked for, and then, if there
is one, the items of that text.  So the requests that a run has made are told by the modules in its
registry and by the answers of the loaders, module after module.

* `Call.round` : the requests for one module.
* `Project.Asks` : what one request for a module asks for in turn.
* `Session.asked_once` : what is asked for after any requests, and by one more.
-/

namespace ModuleResolution

/-! ### Requests, module by module -/

namespace Call

/-- The requests for a module, given the answer to the first of them. -/
def round : Key × Except ReadFault String → List Call
  | (key, .error fault) => [.read key (.error fault)]
  | (key, .ok source) => [.read key (.ok source), .items key source]

/-- The module whose text is asked for. -/
def read? : Call → Option Key
  | read key _ => some key
  | items .. => none

/-- The module whose items are asked for. -/
def items? : Call → Option Key
  | read .. => none
  | items key _ => some key

variable {answers : List (Key × Except ReadFault String)} {before after : List Call} {key : Key}
  {source : String}

theorem filterMap_read?_round (a : Key × Except ReadFault String) :
    (round a).filterMap read? = [a.1] := by
  rcases a with ⟨key, fault | source⟩ <;> rfl

theorem filterMap_read?_rounds : (answers.flatMap round).filterMap read? = answers.map (·.1) := by
  induction answers with
  | nil => rfl
  | cons a rest ih =>
    rw [List.flatMap_cons, List.filterMap_append, filterMap_read?_round, ih, List.map_cons]
    rfl

theorem filterMap_items?_round (a : Key × Except ReadFault String) :
    ((round a).filterMap items?).Sublist [a.1] := by
  rcases a with ⟨key, fault | source⟩
  · exact List.nil_sublist _
  · exact List.Sublist.refl _

theorem filterMap_items?_rounds :
    ((answers.flatMap round).filterMap items?).Sublist (answers.map (·.1)) := by
  induction answers with
  | nil => exact List.Sublist.refl _
  | cons a rest ih =>
    rw [List.flatMap_cons, List.filterMap_append, List.map_cons]
    exact (filterMap_items?_round a).append ih

theorem read_of_rounds (h : answers.flatMap round = before ++ .items key source :: after) :
    ∃ earlier, before = earlier ++ [.read key (.ok source)] := by
  induction answers generalizing before with
  | nil => simp at h
  | cons a rest ih =>
    rw [List.flatMap_cons] at h
    -- the request is not the first of a round, so there is one before it
    rcases a with ⟨k, fault | text⟩ <;> rcases before with _ | ⟨first, before⟩ <;>
      simp only [round, List.cons_append, List.nil_append, List.cons.injEq, reduceCtorEq,
        false_and] at h
    · obtain ⟨rfl, h⟩ := h
      obtain ⟨earlier, rfl⟩ := ih h
      exact ⟨_ :: earlier, rfl⟩
    · obtain ⟨rfl, h⟩ := h
      rcases before with _ | ⟨second, before⟩
      · simp only [List.nil_append, List.cons.injEq, items.injEq] at h
        obtain ⟨⟨rfl, rfl⟩, -⟩ := h
        exact ⟨[], rfl⟩
      · simp only [List.cons_append, List.cons.injEq] at h
        obtain ⟨rfl, h⟩ := h
        obtain ⟨earlier, rfl⟩ := ih h
        exact ⟨_ :: _ :: earlier, rfl⟩

end Call

/-- The modules whose texts a run has asked for. -/
def Session.reads (s : Session) : List Key := s.calls.filterMap Call.read?

/-- The modules whose items a run has asked for. -/
def Session.parses (s : Session) : List Key := s.calls.filterMap Call.items?

/-- The run has asked for the modules in its registry, in the order in which they have entered. -/
def Session.Accounted (s : Session) : Prop :=
  ∃ answers : List (Key × Except ReadFault String), s.calls = answers.flatMap Call.round ∧
    s.registry.keys = answers.map (·.1)

/-! ### What a request asks for -/

namespace Project

variable (project : Project)

/-- The modules `keys`, each with the answer of the loader. -/
def answers (keys : List Key) : List (Key × Except ReadFault String) :=
  keys.map fun key => (key, project.loader.read key)

/-- From `s` to `s'` the modules `keys` have entered the registry, and been asked for. -/
def Asks (s s' : Session) (keys : List Key) : Prop :=
  s'.registry.keys = s.registry.keys ++ keys ∧
    s'.calls = s.calls ++ (project.answers keys).flatMap Call.round

variable {project} {s s' s'' : Session} {key : Key} {keys keys' : List Key}

namespace Asks

theorem refl (s : Session) : project.Asks s s [] := ⟨by simp, by simp [answers]⟩

theorem trans (h : project.Asks s s' keys) (h' : project.Asks s' s'' keys') :
    project.Asks s s'' (keys ++ keys') :=
  ⟨by rw [h'.1, h.1, List.append_assoc],
    by rw [h'.2, h.2, answers, answers, answers, List.map_append, List.flatMap_append,
      List.append_assoc]⟩

theorem on (h : project.Asks s s' keys) {f : Registry → Registry}
    (hf : (f s'.registry).keys = s'.registry.keys) : project.Asks s (s'.on f) keys :=
  ⟨hf.trans h.1, h.2⟩

theorem accounted (h : project.Asks s s' keys) (hs : s.Accounted) : s'.Accounted := by
  obtain ⟨answers, hcalls, hkeys⟩ := hs
  refine ⟨answers ++ project.answers keys, ?_, ?_⟩
  · rw [h.2, hcalls, List.flatMap_append]
  · rw [h.1, hkeys, List.map_append, Project.answers, List.map_map]
    exact congrArg _ (List.map_id keys).symm

end Asks

theorem asks_opening (project : Project) (key : Key) (s : Session) :
    project.Asks s (project.opening key s) [key] := by
  refine ⟨?_, ?_⟩
  · rw [registry_opening, Registry.keys_started]
  · unfold opening
    rw [answers, List.map_singleton, List.flatMap_singleton]
    cases project.loader.read key with
    | error fault => rfl
    | ok source =>
      change (s.calls ++ [Call.read key (.ok source)]) ++ [Call.items key source] = _
      rw [List.append_assoc]
      rfl

end Project

theorem Draft.Takes.asks {project : Project} {visit : Key → Loading Handle} {layout : Layout}
    {key : Key} {draft : Draft} {items : List Item} {s : Session}
    {out : Except Failure Draft × Session}
    (hvisit : ∀ target s, ∃ keys, project.Asks s (visit target s).2 keys)
    (ht : Takes visit layout key draft items s out) : ∃ keys, project.Asks s out.2 keys := by
  induction ht with
  | done | collided | astray => exact ⟨[], .refl _⟩
  | declared _ _ ih => exact ih
  | @failed _ _ _ s target _ _ _ hv => simpa only [hv] using hvisit target s
  | @refused _ _ _ s target _ _ _ _ _ hv => simpa only [hv] using hvisit target s
  | @bound _ _ _ s target _ _ _ _ _ _ hv _ _ ih =>
    obtain ⟨keys, h⟩ := hvisit target s
    obtain ⟨keys', h'⟩ := ih
    rw [hv] at h
    exact ⟨keys ++ keys', h.trans h'⟩

namespace Registry

variable {r : Registry} {h : Handle}

theorem keys_fail (failure : Failure) : (r.fail h failure).keys = r.keys :=
  keys_ended (f := fun m => { m with state := .failed failure }) (fun _ => rfl) r.finished

end Registry

/-- A module that is not known enters the registry first of all, and is asked for then. -/
theorem Project.Visits.asks {project : Project} {depth : Nat} {key : Key} {s : Session}
    {out : Except Failure Handle × Session}
    (hvisit : ∀ target s, ∃ keys, project.Asks s (project.visit depth target s).2 keys)
    (hv : project.Visits depth key s out) (hn : s.registry.find? key = none) :
    ∃ keys, project.Asks s out.2 (key :: keys) := by
  have htakes : ∀ {items draft? s'}, Draft.Takes (project.visit depth) project.layout key .empty
      items (project.opening key s) (draft?, s') → ∃ keys, project.Asks s s' (key :: keys) := by
    intro items draft? s' ht
    obtain ⟨keys, h⟩ := ht.asks hvisit
    exact ⟨keys, (project.asks_opening key s).trans h⟩
  cases hv with
  | known hf => rw [hn] at hf; cases hf
  | refused => exact ⟨[], (project.asks_opening key s).on (Registry.keys_fail _)⟩
  | stopped _ _ ht =>
    obtain ⟨keys, h⟩ := htakes ht
    exact ⟨keys, h.on (Registry.keys_fail _)⟩
  | dangling _ _ ht =>
    obtain ⟨keys, h⟩ := htakes ht
    refine ⟨keys, ?_, h.2⟩
    rw [Session.registry_fail_filled, Registry.keys_ended, h.1]
    exact fun _ => rfl
  | ready _ _ ht =>
    obtain ⟨keys, h⟩ := htakes ht
    refine ⟨keys, ?_, h.2⟩
    rw [Session.registry_finish_filled, Registry.keys_ended, h.1]
    exact fun _ => rfl

namespace Project

variable (project : Project)

theorem visit_known (depth : Nat) {key : Key} {s : Session} {h : Handle}
    (hf : s.registry.find? key = some h) : (project.visit (depth + 1) key s).2 = s := by
  rw [visit]
  simp only [hf]

/-- **What a request for a module asks for** are the modules that enter the registry by it. -/
theorem visit_asks (depth : Nat) (key : Key) (s : Session) :
    ∃ keys, project.Asks s (project.visit depth key s).2 keys := by
  induction depth generalizing key s with
  | zero => exact ⟨[], .refl s⟩
  | succ depth ih =>
    cases hf : s.registry.find? key with
    | some h =>
      rw [project.visit_known depth hf]
      exact ⟨[], .refl s⟩
    | none =>
      obtain ⟨keys, h⟩ := (project.visits_visit depth key s).asks ih hf
      exact ⟨key :: keys, h⟩

theorem visit_asks_first (depth : Nat) {key : Key} {s : Session}
    (hf : s.registry.find? key = none) :
    ∃ keys, project.Asks s (project.visit (depth + 1) key s).2 (key :: keys) :=
  (project.visits_visit depth key s).asks (project.visit_asks depth) hf

theorem meet_asks (s : Session) (d : Demand) : ∃ keys, project.Asks s (project.meet d s) keys := by
  rcases project.meet_eq d s with h | ⟨key, h⟩
  · rw [h]
    exact ⟨[], .refl s⟩
  · rw [h]
    exact project.visit_asks project.depth key s

end Project

/-! ### All requests of a run -/

namespace Session

/-- A run has asked for the modules in its registry, whatever was asked of it. -/
theorem accounted_after (demands : List (Project × Demand)) :
    (Session.after demands).Accounted := by
  refine Session.after_induction ⟨[], rfl, rfl⟩ fun d _ key s hs => ?_
  obtain ⟨keys, h⟩ := d.1.visit_asks d.1.depth key s
  exact h.accounted hs

/-- **Each module is asked for once.**  After any requests, each met with a project of its own, the
texts asked for are those of the modules in the registry, in the order in which these have entered
it; no text and no items are asked for twice; and items are only ever asked for right behind the
text that they are those of.  One more request asks for the modules that enter the registry by it,
as they enter.  If it is for a module that is known, it asks for nothing; if it is for one that is
not known, this is the first to enter and the first to be asked for. -/
theorem asked_once (demands : List (Project × Demand)) :
    let s := Session.after demands
    s.reads = s.registry.keys ∧ s.reads.Nodup ∧ s.parses.Nodup ∧
      (∀ before key source after, s.calls = before ++ .items key source :: after →
        ∃ earlier, before = earlier ++ [.read key (.ok source)]) ∧
      ∀ project : Project,
        (∀ d, ∃ keys, project.Asks s (project.meet d s) keys) ∧
        (∀ key h, s.registry.find? key = some h → (project.obtain key s).2 = s) ∧
        ∀ key, s.registry.find? key = none →
          ∃ keys, project.Asks s (project.obtain key s).2 (key :: keys) := by
  intro s
  obtain ⟨answers, hcalls, hkeys⟩ := accounted_after demands
  have hreads : s.reads = s.registry.keys := by
    rw [reads, hcalls, Call.filterMap_read?_rounds, hkeys]
  have hnodup : s.registry.keys.Nodup := (coherent_after demands).1.keys_nodup
  refine ⟨hreads, hreads ▸ hnodup, ?_, ?_, fun project => ⟨project.meet_asks s, ?_, ?_⟩⟩
  · rw [parses, hcalls]
    exact (hkeys ▸ hnodup).sublist Call.filterMap_items?_rounds
  · intro before key source after h
    exact Call.read_of_rounds (hcalls ▸ h)
  · intro key h hf
    exact project.visit_known _ hf
  · intro key hf
    exact project.visit_asks_first _ hf

end Session

end ModuleResolution
