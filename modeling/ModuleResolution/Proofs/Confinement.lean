import ModuleResolution.Proofs.Asking
import ModuleResolution.Proofs.Canonical

/-!
# Loading is confined to the project

Whatever the texts of the modules say, the only files that are asked for are those of modules, below
the root of the project.  And what a run comes to depends on nothing but the texts that it has asked
for: with another loader that gives the same ones, it goes the same way, step by step.

* `Project.visit_reads` : a request asks for modules that imports name, and for its own.
* `Loader.Agrees` : a loader gives the same answers as another for some modules.
* `Project.visit_local` : a request goes the same way with a loader that agrees on what it asks for.
* `Project.run` : requests for entries, one after the other.
* `Project.run_confined` : both, for such a run.
-/

namespace ModuleResolution

/-! ### What is asked for -/

namespace Project

variable {project : Project} {s s' : Session} {keys : List Key}

theorem Asks.reads_eq (h : project.Asks s s' keys) : s'.reads = s.reads ++ keys := by
  rw [Session.reads, h.2, List.filterMap_append, Call.filterMap_read?_rounds, answers, List.map_map]
  exact congrArg _ (List.map_id keys)

theorem Asks.reads_subset (h : project.Asks s s' keys) : s.reads ⊆ s'.reads := by
  rw [h.reads_eq]
  exact List.subset_append_left _ _

theorem reads_opening (project : Project) (key : Key) (s : Session) :
    (project.opening key s).reads = s.reads ++ [key] := (project.asks_opening key s).reads_eq

end Project

theorem Draft.Takes.reads_subset {project : Project} {depth : Nat} {layout : Layout} {key : Key}
    {draft : Draft} {items : List Item} {s : Session} {out : Except Failure Draft × Session}
    (ht : Takes (project.visit depth) layout key draft items s out) : s.reads ⊆ out.2.reads := by
  obtain ⟨keys, h⟩ := ht.asks (project.visit_asks depth)
  exact h.reads_subset

theorem Draft.Takes.reads {visit : Key → Loading Handle} {layout : Layout} {key : Key}
    {P : Key → Prop} {draft : Draft} {items : List Item} {s : Session}
    {out : Except Failure Draft × Session}
    (hP : ∀ (i : Import) target, i.key layout key = .ok target → P target)
    (hvisit : ∀ target (s : Session), P target → (∀ k ∈ s.reads, P k) →
      ∀ k ∈ (visit target s).2.reads, P k)
    (ht : Takes visit layout key draft items s out) (hs : ∀ k ∈ s.reads, P k) :
    ∀ k ∈ out.2.reads, P k := by
  induction ht with
  | done | collided | astray => exact hs
  | declared _ _ ih => exact ih hs
  | @failed _ i _ s target _ _ hk hv | @refused _ i _ s target _ _ _ _ hk hv =>
    have h := hvisit target s (hP i target hk) hs
    rwa [hv] at h
  | @bound _ i _ s target _ _ _ _ _ hk hv _ _ ih =>
    have h := hvisit target s (hP i target hk) hs
    rw [hv] at h
    exact ih h

theorem Import.gives_of_key {layout : Layout} {importer target : Key} {i : Import}
    (h : i.key layout importer = .ok target) : layout.Gives target :=
  .ofImport (i.importKey_of_key h)

/-- A request asks for nothing but modules that have the property `P`, if it is for one of them and
all that imports name are. -/
theorem Project.visit_reads {project : Project} {P : Key → Prop}
    (hP : ∀ importer (i : Import) target, i.key project.layout importer = .ok target → P target)
    (depth : Nat) (key : Key) (s : Session) (hk : P key) (hs : ∀ k ∈ s.reads, P k) :
    ∀ k ∈ (project.visit depth key s).2.reads, P k := by
  induction depth generalizing key s with
  | zero => exact hs
  | succ depth ih =>
    have hvisit := project.visits_visit depth key s
    generalize project.visit (depth + 1) key s = out at hvisit
    have hopening : ∀ k ∈ (project.opening key s).reads, P k := by
      rw [project.reads_opening]
      exact List.forall_mem_append.2 ⟨hs, List.forall_mem_singleton.2 hk⟩
    -- the end of a module is not a request
    cases hvisit with
    | known => exact hs
    | refused => exact hopening
    | stopped _ _ ht => exact ht.reads (hP key) ih hopening
    | dangling _ _ ht => exact ht.reads (hP key) ih hopening
    | ready _ _ ht => exact ht.reads (hP key) ih hopening

/-! ### Another loader -/

/-- The loader `loader'` answers as `loader` does for the modules `keys`. -/
def Loader.Agrees (loader loader' : Loader) (keys : List Key) : Prop :=
  ∀ key ∈ keys, loader'.read key = loader.read key

theorem Loader.Agrees.mono {loader loader' : Loader} {keys keys' : List Key}
    (h : loader.Agrees loader' keys') (hk : keys ⊆ keys') : loader.Agrees loader' keys :=
  fun key hkey => h key (hk hkey)

namespace Project

/-- The project with another loader. -/
def withLoader (project : Project) (loader : Loader) : Project := { project with loader }

variable {project : Project} {loader : Loader} {s : Session} {key : Key} {items : List Item}
  {depth depth' : Nat}

theorem opened_withLoader (h : loader.read key = project.loader.read key) :
    (project.withLoader loader).opened key = project.opened key := by
  simp only [opened, contents, withLoader, h]

theorem opening_withLoader (h : loader.read key = project.loader.read key) :
    (project.withLoader loader).opening key s = project.opening key s := by
  simp only [opening, withLoader, h]

/-- A request can be met, whichever of the two loaders is asked. -/
structure Roomy (project : Project) (loader : Loader) (depth depth' : Nat) (s : Session) :
    Prop where
  this : project.CanMeet depth s
  other : (project.withLoader loader).CanMeet depth' s

theorem Roomy.visit (h : project.Roomy loader depth depth' s) (key : Key) :
    project.Roomy loader depth depth' (project.visit depth key s).2 :=
  ⟨h.this.visit key, h.other.grows (h.this.visit key).coherent (project.visit_grows depth key s)⟩

theorem Roomy.opening (h : project.Roomy loader (depth + 1) (depth' + 1) s)
    (hf : s.registry.find? key = none) (ho : project.opened key = .ok items)
    (ha : loader.read key = project.loader.read key) :
    project.Roomy loader depth depth' (project.opening key s) := by
  refine ⟨h.this.opening hf ho, ?_⟩
  rw [← opening_withLoader ha]
  exact h.other.opening hf ((opened_withLoader ha).trans ho)

end Project

/-- Items are taken in the same way with a loader that agrees on all that is asked for. -/
theorem Draft.Takes.takeAll_withLoader {project : Project} {loader : Loader} {depth depth' : Nat}
    {layout : Layout} {key : Key} {draft : Draft} {items : List Item} {s : Session}
    {out : Except Failure Draft × Session}
    (hvisit : ∀ target s, project.Roomy loader depth depth' s →
      project.loader.Agrees loader (project.visit depth target s).2.reads →
      (project.withLoader loader).visit depth' target s = project.visit depth target s)
    (ht : Takes (project.visit depth) layout key draft items s out)
    (hs : project.Roomy loader depth depth' s) (ha : project.loader.Agrees loader out.2.reads) :
    takeAll ((project.withLoader loader).visit depth') layout key draft items s = out := by
  induction ht with
  | done => rfl
  | collided hd => simp only [takeAll_cons, take, Loading.done, hd]
  | declared hd _ ih =>
    simp only [takeAll_cons, take, Loading.done, hd]
    exact ih hs ha
  | astray hk => simp only [takeAll_cons, take, Import.bindBy, hk]
  | @failed _ _ _ s target _ _ hk hv =>
    have hsame := hvisit target s hs
    rw [hv] at hsame
    simp only [takeAll_cons, take, Import.bindBy, hk, hsame ha]
  | @refused _ _ _ s target _ _ _ _ hk hv hi =>
    have hsame := hvisit target s hs
    rw [hv] at hsame
    simp only [takeAll_cons, take, Import.bindBy, hk, hsame ha, hi]
  | @bound _ _ _ s target _ s' _ _ _ hk hv hi hrest ih =>
    have hsame := hvisit target s hs
    have hroomy := hs.visit target
    rw [hv] at hsame hroomy
    simp only [takeAll_cons, take, Import.bindBy, hk, hsame (ha.mono hrest.reads_subset), hi]
    exact ih hroomy ha

namespace Project

/-- **A request goes the same way with a loader that agrees on all that it asks for.** -/
theorem visit_local {project : Project} {loader : Loader} (depth depth' : Nat) (key : Key)
    (s : Session) (hs : project.Roomy loader depth depth' s)
    (ha : project.loader.Agrees loader (project.visit depth key s).2.reads) :
    (project.withLoader loader).visit depth' key s = project.visit depth key s := by
  induction depth generalizing depth' key s with
  | zero => exact absurd hs.this.depth_pos (Nat.lt_irrefl 0)
  | succ depth ih =>
    obtain ⟨depth', rfl⟩ := Nat.exists_eq_succ_of_ne_zero (Nat.ne_of_gt hs.other.depth_pos)
    cases hf : s.registry.find? key with
    | some h =>
      rw [visit_of_find? _ (Nat.succ_pos _) hf, visit_of_find? _ (Nat.succ_pos _) hf]
    | none =>
      -- the module itself is asked for, with the same answer
      have hread : loader.read key = project.loader.read key := by
        obtain ⟨keys, hasks⟩ := project.visit_asks_first depth hf
        refine ha key ?_
        rw [hasks.reads_eq]
        simp
      rw [visit] at ha
      rw [visit, visit]
      simp only [hf, loadBy_eq, opened_withLoader hread, opening_withLoader hread] at ha ⊢
      cases ho : project.opened key with
      | error failure => rfl
      | ok items =>
        have ht := Draft.takes_takeAll (project.visit depth) project.layout key .empty items
          (project.opening key s)
        have htake := ht.takeAll_withLoader (ih depth') (hs.opening hf ho hread)
        have hlayout : (project.withLoader loader).layout = project.layout := rfl
        simp only [ho, hlayout] at ha ⊢
        -- how the module ends is no request, so that all reads are those of its items
        rcases hr : Draft.takeAll (project.visit depth) project.layout key .empty items
          (project.opening key s) with ⟨failure | draft, s'⟩
        · rw [hr] at ha htake
          rw [htake ha]
        · rw [hr] at ha htake
          rw [htake]
          cases hd : (s'.filled s.registry.fresh items draft).registry.dangling? s.registry.fresh
            (items.filterMap Item.declaration?) with
          | none =>
            simp only [hd] at ha
            exact ha
          | some failure =>
            simp only [hd] at ha
            exact ha

/-! ### Runs -/

/-- Requests for the modules with the given paths, one after the other: what they are answered with,
and the session that they lead to. -/
def run (project : Project) : List String → Session → List (Except Failure Handle) × Session
  | [], s => ([], s)
  | path :: rest, s =>
    let first := project.obtainEntry path s
    let others := project.run rest first.2
    (first.1 :: others.1, others.2)

variable (project : Project) {path : String} {reason : PathFault}

theorem obtainEntry_of_error (s : Session) (hk : project.layout.entryKey path = .error reason) :
    project.obtainEntry path s = (.error (.badPath none path reason none), s) := by
  simp only [obtainEntry, Bind.bind, Loading.done, hk, mapError_error]

theorem obtainEntry_of_ok (s : Session) (hk : project.layout.entryKey path = .ok key) :
    project.obtainEntry path s = project.obtain key s := by
  simp only [obtainEntry, Bind.bind, Loading.done, hk, mapError_ok]

theorem obtainEntry_reads_subset (path : String) (s : Session) :
    s.reads ⊆ (project.obtainEntry path s).2.reads := by
  obtain ⟨keys, h⟩ := project.meet_asks s (.entry path)
  exact h.reads_subset

theorem run_reads_subset (paths : List String) (s : Session) :
    s.reads ⊆ (project.run paths s).2.reads := by
  induction paths generalizing s with
  | nil => exact List.Subset.refl _
  | cons path rest ih =>
    exact List.Subset.trans (project.obtainEntry_reads_subset path s) (ih _)

variable {project}

/-- **A run asks for nothing but files of modules in the project.** -/
theorem run_reads (hr : project.layout.root.IsNormal) (hx : '/' ∉ project.layout.extension.toList)
    (paths : List String) (s : Session)
    (hs : ∀ key ∈ s.reads, ∃ segments, project.layout.Canonical key segments) :
    ∀ key ∈ (project.run paths s).2.reads, ∃ segments, project.layout.Canonical key segments := by
  have hgives : ∀ {key}, project.layout.Gives key →
      ∃ segments, project.layout.Canonical key segments := by
    intro key hk
    obtain ⟨segments, -, hc⟩ := hk.canonical hr hx
    exact ⟨segments, hc⟩
  induction paths generalizing s with
  | nil => exact hs
  | cons path rest ih =>
    refine ih _ ?_
    cases hk : project.layout.entryKey path with
    | error reason =>
      rw [project.obtainEntry_of_error s hk]
      exact hs
    | ok key =>
      rw [project.obtainEntry_of_ok s hk]
      refine visit_reads ?_ project.depth key s (hgives (.ofEntry hk)) hs
      exact fun importer i target hi => hgives (i.gives_of_key hi)

/-- **A run goes the same way with a loader that agrees on all that it asks for.** -/
theorem run_local {loader : Loader} (paths : List String) (s : Session)
    (hs : s.registry.Coherent) (hactive : s.registry.active = [])
    (ha : project.loader.Agrees loader (project.run paths s).2.reads) :
    (project.withLoader loader).run paths s = project.run paths s := by
  induction paths generalizing s with
  | nil => rfl
  | cons path rest ih =>
    have hfirst : (project.withLoader loader).obtainEntry path s = project.obtainEntry path s := by
      cases hk : project.layout.entryKey path with
      | error reason =>
        rw [project.obtainEntry_of_error s hk,
          (project.withLoader loader).obtainEntry_of_error s hk]
      | ok key =>
        have ha' := ha.mono (project.run_reads_subset rest (project.obtainEntry path s).2)
        rw [project.obtainEntry_of_ok s hk] at ha' ⊢
        rw [(project.withLoader loader).obtainEntry_of_ok s hk]
        exact visit_local _ _ key s ⟨.top hs hactive, .top hs hactive⟩ ha'
    have hkeeps : (project.obtainEntry path s).2.registry.Coherent ∧
        (project.obtainEntry path s).2.registry.active = [] := by
      cases hk : project.layout.entryKey path with
      | error reason =>
        rw [project.obtainEntry_of_error s hk]
        exact ⟨hs, hactive⟩
      | ok key =>
        rw [project.obtainEntry_of_ok s hk]
        exact ⟨(project.visit_coherent _ key s hs).1,
          (project.visit_grows _ key s).active.trans hactive⟩
    have hrest := ih _ hkeeps.1 hkeeps.2 ha
    simp only [run, hfirst, hrest]

/-- **A run is confined to the project.**  For a project with an absolute root and an extension
without slashes, let entries be asked for one after the other, whatever their paths and whatever the
texts of the modules.  Then all texts asked for are those of files below the root, which have
canonical keys; and with any loader that gives the same answers to all that is asked for, the run is
the same: what it answers, the registry that it leaves behind, and the requests that it makes. -/
theorem run_confined {settings : Settings} (hl : Layout.ofSettings settings = .ok project.layout)
    (hx : '/' ∉ settings.extension.toList) (paths : List String) :
    (∀ key ∈ (project.run paths .empty).2.reads,
        ∃ segments, project.layout.Canonical key segments) ∧
      ∀ loader, project.loader.Agrees loader (project.run paths .empty).2.reads →
        (project.withLoader loader).run paths .empty = project.run paths .empty := by
  obtain ⟨hr, hext⟩ := Layout.isNormal_root hl
  rw [← hext] at hx
  refine ⟨run_reads hr hx paths .empty ?_, fun loader ha => ?_⟩
  · intro key h
    cases h
  · exact run_local paths .empty Registry.coherent_empty rfl ha

/-- The second of two modules tries to import a file from outside of the project. -/
def burglar : Project :=
  .ofTexts [("main.hash", "import(\"./x/../a\");"), ("a.hash", "import(\"..//../etc/passwd\");"),
    ("b.hash", "y := 1;")]

/-- Neither the file outside nor a module that nobody imports is asked for, so that what a loader
has to say about them does not matter. -/
theorem burglar_confined :
    let key : String → Key := fun name => ⟨["p"], [name]⟩
    let paths := ["main", "../p/a.hash", "/etc/passwd", "b/.."]
    let out := burglar.run paths .empty
    let loader : Loader := .ofAnswers [(⟨["etc"], ["passwd.hash"]⟩, .ok "z := 1;"),
      (key "b.hash", .error .missing), (key "main.hash", .ok "import(\"./x/../a\");"),
      (key "a.hash", .ok "import(\"..//../etc/passwd\");")]
    Layout.ofSettings ⟨"/x/../p", "hash"⟩ = .ok burglar.layout ∧ '/' ∉ "hash".toList ∧
      out.2.reads = [key "main.hash", key "a.hash"] ∧
      burglar.loader.Agrees loader out.2.reads ∧
      (∃ segments, burglar.layout.Canonical (key "a.hash") segments) ∧
      (burglar.withLoader loader).run paths .empty = out := by
  intro key paths out loader
  have hl : Layout.ofSettings ⟨"/x/../p", "hash"⟩ = .ok burglar.layout := rfl
  have hx : '/' ∉ "hash".toList := by decide
  have hreads : out.2.reads = [key "main.hash", key "a.hash"] := by decide +kernel
  have ha : burglar.loader.Agrees loader out.2.reads := by
    rw [hreads]
    refine List.forall_mem_cons.2 ⟨?_, List.forall_mem_singleton.2 ?_⟩ <;> decide +kernel
  obtain ⟨hconfined, hsame⟩ := run_confined hl hx paths
  refine ⟨hl, hx, hreads, ha, hconfined (key "a.hash") ?_, hsame loader ha⟩
  change key "a.hash" ∈ out.2.reads
  rw [hreads]
  exact List.mem_cons_of_mem _ List.mem_cons_self

end Project

end ModuleResolution
