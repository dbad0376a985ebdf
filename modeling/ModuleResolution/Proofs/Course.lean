import ModuleResolution.Module.Loading

/-!
# The course of a load

Loading is a function on sessions.  Here everything that it can do is said once, as relations with
one constructor for each way it can go, so that what holds of every load is shown by going through
the constructors.

* `Project.contents`, `Project.opened` : the items of a module, as the project alone says.
* `Draft.Takes` : the ways in which the items of a module are taken.
* `Project.Visits` : the ways in which a request for a module ends.
* `Demand`, `Session.after` : the requests from outside, and the session that they lead to.
-/

namespace ModuleResolution

section MapError

variable {ε ε' α : Type} (f : ε → ε')

theorem mapError_ok (value : α) : (Except.ok value : Except ε α).mapError f = .ok value := rfl

theorem mapError_error (failure : ε) :
    (Except.error failure : Except ε α).mapError f = .error (f failure) := rfl

end MapError

/-! ### What the project says of one module -/

namespace Project

variable (project : Project)

/-- The text of a module; the empty text where there is none. -/
def source (key : Key) : String := (project.loader.read key).toOption.getD ""

/-- The items of a module, or why they cannot be had. -/
def contents (key : Key) : Except Failure (List Item) :=
  match project.loader.read key with
  | .error fault => .error (fault.failure key)
  | .ok source => (project.items key source).mapError (.malformed key)

/-- The items of a module whose declarations have distinct names, or why they cannot be had. -/
def opened (key : Key) : Except Failure (List Item) := do
  let items ← project.contents key
  let _ ← Exports.build key (items.filterMap Item.declaration?)
  return items

/-- The items of a module; none where they cannot be had. -/
def itemsAt (key : Key) : List Item := (project.contents key).toOption.getD []

/-- The modules that the imports among some items of the module `key` name, in order. -/
def targets (key : Key) (items : List Item) : List Key :=
  items.filterMap fun item => item.import?.bind fun i => (i.key project.layout key).toOption

/-- The modules that a module imports, in the order of its imports. -/
def imports (key : Key) : List Key := project.targets key (project.itemsAt key)

/-- The module `key` imports the module `target`. -/
def Imports (key target : Key) : Prop := target ∈ project.imports key

/-- The module `key` has entered the registry, and its text has been asked for. -/
def opening (key : Key) (s : Session) : Session :=
  let answer := project.loader.read key
  let entered := (s.on (·.enter key)).log (.read key answer)
  match answer with
  | .error _ => entered
  | .ok source =>
    (entered.on (·.update s.registry.fresh fun m => { m with source })).log (.items key source)

variable {project} {key : Key} {items : List Item}

theorem targets_importing {i : Import} {rest : List Item} {target : Key}
    (hk : i.key project.layout key = .ok target) :
    project.targets key (.importing i :: rest) = target :: project.targets key rest := by
  simp [targets, Item.import?, hk, Except.toOption]

theorem contents_of_opened (h : project.opened key = .ok items) :
    project.contents key = .ok items ∧
      Exports.repeated? (items.filterMap Item.declaration?) = none := by
  unfold opened at h
  cases hc : project.contents key with
  | error failure => rw [hc] at h; cases h
  | ok items' =>
    rw [hc] at h
    change (Exports.build key _ >>= fun _ => Except.ok items') = _ at h
    unfold Exports.build at h
    cases hr : Exports.repeated? (items'.filterMap Item.declaration?) with
    | some pair => rw [hr] at h; cases h
    | none =>
      rw [hr] at h
      cases h
      exact ⟨rfl, hr⟩

theorem itemsAt_of_opened (h : project.opened key = .ok items) : project.itemsAt key = items := by
  rw [itemsAt, (contents_of_opened h).1]; rfl

theorem read_of_opened (h : project.opened key = .ok items) :
    project.loader.read key = .ok (project.source key) := by
  have hc := (contents_of_opened h).1
  unfold contents at hc
  cases hr : project.loader.read key with
  | error fault => rw [hr] at hc; cases hc
  | ok text => rw [source, hr]; rfl

end Project

/-! ### Taking the items of a module -/

namespace Draft

/-- The record of a module with the items `items`, all of which are taken. -/
def fill (items : List Item) (draft : Draft) : Module → Module :=
  draft.record (items.filterMap Item.declaration?)
    (.ofDeclarations (items.filterMap Item.declaration?))

/-- The ways in which items of the module `key` are taken: from which draft, which items, in which
session, and with which result. -/
inductive Takes (visit : Key → Loading Handle) (layout : Layout) (key : Key) :
    Draft → List Item → Session → Except Failure Draft × Session → Prop
  /-- There are no more items. -/
  | done {draft s} : Takes visit layout key draft [] s (.ok draft, s)
  /-- A declaration takes a name that is bound. -/
  | collided {draft d rest s failure} (hd : draft.declare key d = .error failure) :
    Takes visit layout key draft (.declaration d :: rest) s (.error failure, s)
  /-- A declaration enters the scope. -/
  | declared {draft d rest s draft' out} (hd : draft.declare key d = .ok draft')
    (hrest : Takes visit layout key draft' rest s out) :
    Takes visit layout key draft (.declaration d :: rest) s out
  /-- An import names no module. -/
  | astray {draft i rest s failure} (hk : i.key layout key = .error failure) :
    Takes visit layout key draft (.importing i :: rest) s (.error failure, s)
  /-- An imported module does not load. -/
  | failed {draft i rest s target failure s'} (hk : i.key layout key = .ok target)
    (hv : visit target s = (.error failure, s')) :
    Takes visit layout key draft (.importing i :: rest) s (.error failure, s')
  /-- An imported module does not offer what is asked of it, or a name is bound already. -/
  | refused {draft i rest s target h s' failure scope} (hk : i.key layout key = .ok target)
    (hv : visit target s = (.ok h, s'))
    (hi : i.introduce key target (s'.registry.record h).exports h draft.scope =
      (.error failure, scope)) :
    Takes visit layout key draft (.importing i :: rest) s (.error failure, s')
  /-- An import binds what it asks for. -/
  | bound {draft i rest s target h s' binding scope out} (hk : i.key layout key = .ok target)
    (hv : visit target s = (.ok h, s'))
    (hi : i.introduce key target (s'.registry.record h).exports h draft.scope =
      (.ok binding, scope))
    (hrest : Takes visit layout key (draft.bound binding scope) rest s' out) :
    Takes visit layout key draft (.importing i :: rest) s out

variable {visit : Key → Loading Handle} {layout : Layout} {key : Key}

theorem takeAll_cons (draft : Draft) (item : Item) (rest : List Item) (s : Session) :
    takeAll visit layout key draft (item :: rest) s =
      match take visit layout key draft item s with
      | (.ok draft, s) => takeAll visit layout key draft rest s
      | (.error failure, s) => (.error failure, s) := by
  rw [takeAll]
  rcases h : take visit layout key draft item s with ⟨failure | draft', s'⟩ <;>
    simp only [bind, h]

theorem takes_takeAll (visit : Key → Loading Handle) (layout : Layout) (key : Key) (draft : Draft)
    (items : List Item) (s : Session) :
    Takes visit layout key draft items s (takeAll visit layout key draft items s) := by
  induction items generalizing draft s with
  | nil => exact .done
  | cons item rest ih =>
    rw [takeAll_cons]
    cases item with
    | declaration d =>
      simp only [take, Loading.done]
      cases hd : draft.declare key d with
      | error failure => exact .collided hd
      | ok draft' => exact .declared hd (ih draft' s)
    | importing i =>
      simp only [take, Import.bindBy]
      cases hk : i.key layout key with
      | error failure => exact .astray hk
      | ok target =>
        rcases hv : visit target s with ⟨failure | h, s'⟩
        · simp only [hv]
          exact .failed hk hv
        · simp only [hv]
          rcases hi : i.introduce key target (s'.registry.record h).exports h draft.scope with
            ⟨failure | binding, scope⟩
          · exact .refused hk hv hi
          · exact .bound hk hv hi (ih _ s')

end Draft

/-! ### Loading a module -/

/-- The session where the module behind `h` is filled in. -/
def Session.filled (h : Handle) (items : List Item) (draft : Draft) (s : Session) : Session :=
  s.on (·.update h (draft.fill items))

namespace Project

variable (project : Project)

/-- The ways in which a request for the module `key` in the session `s` ends, with up to `depth`
modules being loaded below it. -/
inductive Visits (depth : Nat) (key : Key) (s : Session) : Except Failure Handle × Session → Prop
  /-- The module is known. -/
  | known {h} (hf : s.registry.find? key = some h) :
    Visits depth key s (s.registry.remembered key h, s)
  /-- The items of the module cannot be had. -/
  | refused {failure} (hf : s.registry.find? key = none)
    (ho : project.opened key = .error failure) :
    Visits depth key s
      (.error failure, (project.opening key s).on (·.fail s.registry.fresh failure))
  /-- Taking the items stops. -/
  | stopped {items failure s'} (hf : s.registry.find? key = none)
    (ho : project.opened key = .ok items)
    (ht : Draft.Takes (project.visit depth) project.layout key .empty items
      (project.opening key s) (.error failure, s')) :
    Visits depth key s (.error failure, s'.on (·.fail s.registry.fresh failure))
  /-- All items are taken, but a qualified name denotes nothing. -/
  | dangling {items draft failure s'} (hf : s.registry.find? key = none)
    (ho : project.opened key = .ok items)
    (ht : Draft.Takes (project.visit depth) project.layout key .empty items
      (project.opening key s) (.ok draft, s'))
    (hd : (s'.filled s.registry.fresh items draft).registry.dangling? s.registry.fresh
      (items.filterMap Item.declaration?) = some failure) :
    Visits depth key s (.error failure,
      (s'.filled s.registry.fresh items draft).on (·.fail s.registry.fresh failure))
  /-- The module becomes ready. -/
  | ready {items draft s'} (hf : s.registry.find? key = none)
    (ho : project.opened key = .ok items)
    (ht : Draft.Takes (project.visit depth) project.layout key .empty items
      (project.opening key s) (.ok draft, s'))
    (hd : (s'.filled s.registry.fresh items draft).registry.dangling? s.registry.fresh
      (items.filterMap Item.declaration?) = none) :
    Visits depth key s (.ok s.registry.fresh,
      (s'.filled s.registry.fresh items draft).on (·.finish s.registry.fresh))

variable {project}

theorem loadBy_eq (visit : Key → Loading Handle) (key : Key) (s : Session) :
    project.loadBy visit s.registry.fresh key (s.on (·.enter key)) =
      match project.opened key with
      | .error failure => (.error failure, project.opening key s)
      | .ok items =>
        match Draft.takeAll visit project.layout key .empty items (project.opening key s) with
        | (.error failure, s') => (.error failure, s')
        | (.ok draft, s') =>
          match (s'.filled s.registry.fresh items draft).registry.dangling? s.registry.fresh
            (items.filterMap Item.declaration?) with
          | some failure => (.error failure, s'.filled s.registry.fresh items draft)
          | none => (.ok (), s'.filled s.registry.fresh items draft) := by
  unfold opened contents opening loadBy
  cases hr : project.loader.read key with
  | error fault => simp only [Bind.bind, Loading.readText, hr, mapError_error, Except.bind]
  | ok source =>
    simp only [Bind.bind, Loading.readText, hr, mapError_ok, Loading.change, Loading.readItems]
    cases hi : project.items key source with
    | error errors => simp only [mapError_error, Except.bind]
    | ok items =>
      simp only [mapError_ok, Except.bind, Loading.done, Exports.build]
      cases hd : Exports.repeated? (items.filterMap Item.declaration?) with
      | some pair => simp only
      | none =>
        simp only [pure, Except.pure]
        -- what is logged plays no part from here on
        generalize Session.log (Call.items key source) _ = opened
        rcases ht : Draft.takeAll visit project.layout key .empty items opened with
          ⟨failure | draft, s'⟩
        · simp only
        · simp only [Loading.ask]
          change (match (s'.filled s.registry.fresh items draft).registry.dangling? _ _ with
            | some failure => Except.error failure
            | none => Except.ok (), s'.filled s.registry.fresh items draft) = _
          split <;> simp_all

theorem visits_visit (depth : Nat) (key : Key) (s : Session) :
    project.Visits depth key s (project.visit (depth + 1) key s) := by
  rw [visit]
  cases hf : s.registry.find? key with
  | some h => simpa only [hf] using Visits.known hf
  | none =>
    simp only [hf, loadBy_eq]
    cases ho : project.opened key with
    | error failure => exact .refused hf ho
    | ok items =>
      have ht := Draft.takes_takeAll (project.visit depth) project.layout key .empty items
        (project.opening key s)
      rcases hr : Draft.takeAll (project.visit depth) project.layout key .empty items
        (project.opening key s) with ⟨failure | draft, s'⟩
      · simp only [hr] at ht ⊢
        exact .stopped hf ho ht
      · simp only [hr] at ht ⊢
        cases hd : (s'.filled s.registry.fresh items draft).registry.dangling? s.registry.fresh
          (items.filterMap Item.declaration?) with
        | some failure => exact .dangling hf ho ht hd
        | none => exact .ready hf ho ht hd

end Project

/-! ### Requests from outside -/

/-- What is asked of a run from outside. -/
inductive Demand where
  /-- The module with a path, seen from the root. -/
  | entry (path : String)
  /-- The module with a key. -/
  | obtain (key : Key)
  /-- What an import in the module `importer` binds in a scope. -/
  | bind (importer : Key) (i : Import) (scope : Scope)

/-- The session in which a demand has been met. -/
def Project.meet (project : Project) : Demand → Session → Session
  | .entry path, s => (project.obtainEntry path s).2
  | .obtain key, s => (project.obtain key s).2
  | .bind importer i scope, s => (project.bind importer i scope s).2

/-- The session after some demands, each met with a project of its own. -/
def Session.after (demands : List (Project × Demand)) : Session :=
  demands.foldl (fun s d => d.1.meet d.2 s) .empty

/-- The session after some demands, all met with one project. -/
def Project.after (project : Project) (demands : List Demand) : Session :=
  .after (demands.map (project, ·))

/-- A demand either fails before a module is asked for, or comes to asking for one module. -/
theorem Project.meet_eq (project : Project) (d : Demand) (s : Session) :
    project.meet d s = s ∨ ∃ key, project.meet d s = (project.obtain key s).2 := by
  cases d with
  | entry path =>
    simp only [meet, obtainEntry, Bind.bind, Loading.done]
    cases project.layout.entryKey path with
    | error reason => exact .inl rfl
    | ok key => exact .inr ⟨key, rfl⟩
  | obtain key => exact .inr ⟨key, rfl⟩
  | bind importer i scope =>
    simp only [meet, Project.bind, Import.bindBy]
    cases i.key project.layout importer with
    | error failure => exact .inl rfl
    | ok key =>
      refine .inr ⟨key, ?_⟩
      rcases hv : project.obtain key s with ⟨failure | h, s'⟩ <;> simp only [hv]

/-- What holds at the start and is kept by every request for a module holds after all demands. -/
theorem Session.after_induction {P : Session → Prop} {demands : List (Project × Demand)}
    (start : P .empty)
    (step : ∀ d ∈ demands, ∀ key s, P s → P (d.1.obtain key s).2) : P (.after demands) := by
  unfold after
  generalize Session.empty = s at start
  induction demands generalizing s with
  | nil => exact start
  | cons d rest ih =>
    refine ih (fun d' hd => step d' (List.mem_cons_of_mem d hd)) _ ?_
    rcases d.1.meet_eq d.2 s with h | ⟨key, h⟩
    · simpa only [h] using start
    · simpa only [h] using step d List.mem_cons_self key s start

theorem Project.after_induction {project : Project} {P : Session → Prop} {demands : List Demand}
    (start : P .empty) (step : ∀ key s, P s → P (project.obtain key s).2) :
    P (project.after demands) := by
  refine Session.after_induction start fun d hd => ?_
  obtain ⟨d', -, rfl⟩ := List.mem_map.1 hd
  exact step

/-! ### Small projects -/

/-- The project of the modules with the given paths and texts below the root `p`. -/
def Project.ofTexts (texts : List (String × String)) : Project where
  layout := ⟨["p"], "hash"⟩
  loader := .ofAnswers (texts.map fun t => (⟨["p"], [t.1]⟩, .ok t.2))
  items := Program.itemsOf

end ModuleResolution
