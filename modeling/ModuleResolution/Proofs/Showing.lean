import ModuleResolution.Proofs.Circles
import ModuleResolution.Proofs.Freezing
import ModuleResolution.Proofs.Pointing
import ModuleResolution.Report

/-!
# What is shown of a failure

A failure that a load ends with may have come up in any module below the one asked for.  Where it
is shown in a text, it is the text of that module as the registry has it, and what is shown are
stretches of that text.  A failure that points at nothing is shown without a text.

* `Project.Fetched` : the modules that have entered hold the texts that the loader gave.
* `Project.obtain_pointed` : a request that fails points into the text of a module that is known.
* `Report.ofFailure_of_points` : the reports of a failure show that text, and its places.
* `Session.failure_shown` : so it is after any requests, and whatever is asked for later.
-/

namespace ModuleResolution

/-! ### Texts of modules -/

/-- The modules that `r'` holds besides those of `r` hold the texts that the loader gave. -/
def Project.Fetched (project : Project) (r r' : Registry) : Prop :=
  ∀ h m, r'.module? h = some m → r.module? h = some m ∨ m.source = project.source m.key

namespace Project.Fetched

variable {project : Project} {r r' r'' : Registry} {key : Key} {h : Handle} {m : Module}

theorem refl (r : Registry) : project.Fetched r r := fun _ _ hm => .inl hm

theorem trans (h₁ : project.Fetched r r') (h₂ : project.Fetched r' r'') :
    project.Fetched r r'' := by
  intro h m hm
  rcases h₂ h m hm with hm | hs
  · exact h₁ h m hm
  · exact .inr hs

theorem started (r : Registry) (key : Key) :
    project.Fetched r (r.started key (project.source key)) := by
  intro h m hm
  rw [Registry.module?_started] at hm
  split_ifs at hm
  · cases hm
    exact .inr rfl
  · exact .inl hm

theorem ended {finished : List Handle} {f : Module → Module}
    (hf : project.Fetched r r') (hg : (r.started key (project.source key)).Grows r')
    (hkeeps : ∀ m, (f m).key = m.key ∧ (f m).source = m.source) :
    project.Fetched r (r'.ended r.fresh f finished) := by
  intro h m hm
  rw [Registry.module?_ended hg.module?_fresh] at hm
  split_ifs at hm
  · cases hm
    right
    rw [(hkeeps _).1, (hkeeps _).2]
    rfl
  · exact hf h m hm

end Project.Fetched

theorem Draft.Takes.fetched {project : Project} {visit : Key → Loading Handle} {layout : Layout}
    {key : Key} {draft : Draft} {items : List Item} {s : Session}
    {out : Except Failure Draft × Session}
    (hvisit : ∀ target (s : Session),
      project.Fetched s.registry (visit target s).2.registry)
    (ht : Takes visit layout key draft items s out) :
    project.Fetched s.registry out.2.registry := by
  induction ht with
  | done | collided | astray => exact .refl _
  | declared _ _ ih => exact ih
  | @failed _ _ _ s target _ _ _ hv => simpa only [hv] using hvisit target s
  | @refused _ _ _ s target _ _ _ _ _ hv => simpa only [hv] using hvisit target s
  | @bound _ _ _ s target _ _ _ _ _ _ hv _ _ ih =>
    have hf := hvisit target s
    rw [hv] at hf
    exact hf.trans ih

/-- **The modules that enter hold the texts that the loader gave**, however they end. -/
theorem Project.visit_fetched (project : Project) (depth : Nat) (key : Key) (s : Session) :
    project.Fetched s.registry (project.visit depth key s).2.registry := by
  induction depth generalizing key s with
  | zero => exact .refl _
  | succ depth ih =>
    have hvisit := project.visits_visit depth key s
    generalize project.visit (depth + 1) key s = out at hvisit
    have htakes : ∀ {items draft? s'}, Draft.Takes (project.visit depth) project.layout key .empty
        items (project.opening key s) (draft?, s') →
        (s.registry.started key (project.source key)).Grows s'.registry ∧
          project.Fetched s.registry s'.registry := by
      intro items draft? s' ht
      have hg := ht.grows (project.visit_grows depth)
      have hf := ht.fetched ih
      rw [project.registry_opening] at hg hf
      exact ⟨hg, (Fetched.started _ _).trans hf⟩
    cases hvisit with
    | known => exact .refl _
    | refused =>
      have hopening : (s.registry.started key (project.source key)).Grows
          (project.opening key s).registry ∧
            project.Fetched s.registry (project.opening key s).registry := by
        rw [project.registry_opening]
        exact ⟨.refl _, .started _ _⟩
      refine hopening.2.ended hopening.1 ?_
      exact fun _ => ⟨rfl, rfl⟩
    | stopped _ _ ht =>
      obtain ⟨hg, hf⟩ := htakes ht
      refine hf.ended hg ?_
      exact fun _ => ⟨rfl, rfl⟩
    | dangling _ _ ht =>
      obtain ⟨hg, hf⟩ := htakes ht
      rw [Session.registry_fail_filled]
      refine hf.ended hg ?_
      exact fun _ => ⟨rfl, rfl⟩
    | ready _ _ ht =>
      obtain ⟨hg, hf⟩ := htakes ht
      rw [Session.registry_finish_filled]
      refine hf.ended hg ?_
      exact fun _ => ⟨rfl, rfl⟩

/-- **A request that fails points into the text of a module that is known**, if at anything. -/
theorem Project.obtain_pointed (project : Project) (hi : project.items = Program.itemsOf)
    (key : Key) (s : Session) (hr : s.registry.Coherent) (ha : s.registry.active = [])
    {f : Failure} (hv : (project.obtain key s).1 = .error f) (hf : f.Points) :
    ∃ h m, (project.obtain key s).2.registry.module? h = some m ∧
      f.pointsInto? = some m.key ∧ ∀ place ∈ f.places, place.Marks m.source := by
  have hroom : project.HasRoom project.depth s.registry := .top ha
  cases hn : s.registry.find? key with
  | some h =>
    -- a module that is known is not loaded again, and nothing in it is pointed at
    rw [obtain, project.visit_of_find? (hroom.depth_pos hr) hn] at hv
    have hlocal := Failure.isLocal_of_points hf
    rcases Registry.remembered_eq_error hv with ⟨-, rfl⟩ | ⟨_, -, rfl⟩ <;> cases hlocal
  | none =>
    obtain ⟨chain, r₁, hfalls, hunwound⟩ :=
      project.visit_falls project.depth key s f _ hr hroom hn (Prod.ext hv rfl)
    obtain ⟨last, hlast, hb⟩ := hfalls.breaks
    have hmem : last ∈ chain := List.mem_of_getLast? hlast
    obtain ⟨m, hm, -⟩ := hfalls.loading last hmem
    have hm' : (project.obtain key s).2.registry.module? last =
        some { m with state := .failed f } := by
      rw [obtain, hunwound, Registry.module?_unwound_of_mem hmem, hm]
      rfl
    -- the last module of the chain is new, so that it holds the text that the loader gave
    have hsource : m.source = project.source m.key := by
      rcases project.visit_fetched project.depth key s _ _ hm' with hold | hs
      · rw [hfalls.entered hmem] at hold
        cases hold
      · exact hs
    obtain ⟨hinto, hplaces⟩ := hb.pointsAt hi hf
    rw [Registry.keyOf_eq hm] at hinto hplaces
    rw [← hsource] at hplaces
    exact ⟨last, _, hm', hinto, hplaces⟩

/-! ### Reports -/

namespace Report

/-- The place that a label marks. -/
def Label.span (l : Label) : Span := ⟨l.offset, l.offset + l.length⟩

/-- The places that a report marks. -/
def places (report : Report) : List Span := report.labels.map Label.span

theorem Label.span_of {l : Located String} (h : l.span.start ≤ l.span.stop) :
    (Label.of l).span = l.span := by
  obtain ⟨_, start, stop⟩ := l
  simp only [Label.span, Label.of, Span.length, Span.mk.injEq, true_and]
  exact Nat.add_sub_cancel' h

theorem map_span_of {labels : List (Located String)}
    (h : ∀ place ∈ labels.map Located.span, place.start ≤ place.stop) :
    (labels.map Label.of).map Label.span = labels.map Located.span := by
  rw [List.map_map]
  exact List.map_congr_left fun l hl => Label.span_of (h _ (List.mem_map_of_mem hl))

variable {r : Registry} {f : Failure}

/-- **The reports of a failure that is shown in a text** show that text, and the places of the
failure in it. -/
theorem ofFailure_of_points {source : String × String} (hf : f.Points)
    (hs : sourceOf? r f = some source) (hp : ∀ place ∈ f.places, place.start ≤ place.stop) :
    (∀ report ∈ ofFailure r f, report.source = some source) ∧
      (ofFailure r f).flatMap places = f.places := by
  by_cases hm : ∃ key errors, f = .malformed key errors
  · obtain ⟨key, errors, rfl⟩ := hm
    have hreports : ofFailure r (.malformed key errors) =
        errors.map (ofSyntaxError (some source)) := by
      rw [ofFailure, hs]
    rw [hreports]
    refine ⟨fun report hreport => ?_, ?_⟩
    · obtain ⟨e, -, rfl⟩ := List.mem_map.1 hreport
      rfl
    · -- each syntax error has a report of its own, with one place
      have hplaces : ∀ e ∈ errors, places (ofSyntaxError (some source) e) = [e.span] :=
        fun e he => congrArg (fun place => [place])
          (Label.span_of (l := ⟨"here", e.span⟩) (hp _ (List.mem_map_of_mem he)))
      rw [List.flatMap_map, Failure.places, List.map_eq_flatMap]
      exact List.flatMap_congr hplaces
  · have hlabels : f.labels ≠ [] := hf.resolve_right hm
    have hplaces : f.places = f.labels.map Located.span := by
      cases f with
      | malformed key errors => exact absurd ⟨key, errors, rfl⟩ hm
      | _ => rfl
    have hreports : ofFailure r f =
        [mk f.message f.code f.help (f.labels.map .of) (some source) []] := by
      unfold ofFailure
      rw [hs]
      cases f with
      | malformed key errors => exact absurd ⟨key, errors, rfl⟩ hm
      | _ => exact if_neg hlabels
    rw [hplaces] at hp
    rw [hreports, hplaces]
    refine ⟨fun report hreport => ?_, ?_⟩
    · rw [List.mem_singleton.1 hreport]
      rfl
    · rw [List.flatMap_singleton]
      exact map_span_of hp

/-- A failure that points at nothing has one report, which shows no text and no place. -/
theorem ofFailure_of_not_points (hf : ¬ f.Points) : ofFailure r f = [bare f] := by
  unfold ofFailure
  cases sourceOf? r f with
  | none => rfl
  | some source =>
    rw [Failure.Points, not_or, not_not] at hf
    cases f with
    | malformed key errors => exact absurd ⟨key, errors, rfl⟩ hf.2
    | _ => exact if_pos hf.1

end Report

/-! ### All requests of a run -/

/-- The failure is shown in the text of the module `m`, in a run that has come to the registry
`r`. -/
structure Failure.ShownIn (f : Failure) (r : Registry) (m : Module) : Prop where
  /-- The registry knows the module. -/
  known : ∃ h, r.find? m.key = some h ∧ r.module? h = some m
  /-- It is the one that the failure points into, -/
  points : f.pointsInto? = some m.key
  /-- and the places of the failure are in its text. -/
  marks : ∀ place ∈ f.places, place.Marks m.source
  /-- The reports show this text, -/
  source : ∀ report ∈ Report.ofFailure r f, report.source = some (m.key.relative, m.source)
  /-- and the places of the failure. -/
  places : (Report.ofFailure r f).flatMap Report.places = f.places

theorem Failure.ShownIn.of_known {f : Failure} {r : Registry} {h : Handle} {m : Module}
    (hr : r.Coherent) (hm : r.module? h = some m) (hf : f.Points)
    (hinto : f.pointsInto? = some m.key) (hplaces : ∀ place ∈ f.places, place.Marks m.source) :
    f.ShownIn r m := by
  have hfind : r.find? m.key = some h := hr.find?_iff.2 ⟨m, hm, rfl⟩
  have hs : Report.sourceOf? r f = some (m.key.relative, m.source) := by
    simp [Report.sourceOf?, hinto, hfind, Registry.record_eq hm]
  have hforward : ∀ place ∈ f.places, place.start ≤ place.stop :=
    fun place h => (hplaces place h).forward
  obtain ⟨hsource, hshown⟩ := Report.ofFailure_of_points hf hs hforward
  exact ⟨⟨h, hfind, hm⟩, hinto, hplaces, hsource, hshown⟩

/-- A load from outside fails because its path has no key, or with the one module that it asks
for. -/
theorem Project.load_eq_error {project : Project} {d : Demand} {s : Session} {f : Failure}
    (hd : ∀ importer i scope, d ≠ .bind importer i scope) (hf : project.answer d s = .error f) :
    ¬ f.Points ∨
      ∃ key, project.meet d s = (project.obtain key s).2 ∧ (project.obtain key s).1 = .error f := by
  cases d with
  | bind importer i scope => exact absurd rfl (hd importer i scope)
  | obtain key => exact .inr ⟨key, rfl, map_eq_error hf⟩
  | entry path =>
    have he := map_eq_error hf
    simp only [obtainEntry, Bind.bind, Loading.done] at he
    cases hk : project.layout.entryKey path with
    | error reason =>
      simp only [hk, mapError_error] at he
      cases he
      left
      simp [Failure.Points, Failure.labels]
    | ok key =>
      simp only [hk, mapError_ok] at he
      refine .inr ⟨key, ?_, he⟩
      simp only [meet, obtainEntry, Bind.bind, Loading.done, hk, mapError_ok]

/-- **What is shown of a failure is in the right text.**  After any requests, let a load fail, with
items read as programs.  If the failure has captions, or is one of syntax errors, it points into a
module that is known; its places are stretches of the text of that module; and its reports show just
this text, and these places.  Else its reports show no text.  All of this holds after further
requests too. -/
theorem Session.failure_shown (demands more : List (Project × Demand)) (project : Project)
    (hi : project.items = Program.itemsOf) {d : Demand}
    (hd : ∀ importer i scope, d ≠ .bind importer i scope) {f : Failure}
    (hf : project.answer d (Session.after demands) = .error f) :
    let r := (Session.after (demands ++ (project, d) :: more)).registry
    ((f.labels ≠ [] ∨ ∃ key errors, f = .malformed key errors) → ∃ m, f.ShownIn r m) ∧
      (f.labels = [] → (∀ key errors, f ≠ .malformed key errors) →
        ∀ report ∈ Report.ofFailure r f, report.source = none ∧ report.labels = []) := by
  intro r
  refine ⟨fun hp => ?_, fun hlabels hm report hreport => ?_⟩
  · obtain ⟨hs, hactive⟩ := Session.coherent_after demands
    rcases Project.load_eq_error hd hf with hnot | ⟨key, hmeet, hv⟩
    · exact absurd hp hnot
    · obtain ⟨h, m, hm, hinto, hplaces⟩ := project.obtain_pointed hi key _ hs hactive hv hp
      -- the registry that the load leaves behind is continued
      have hload : Session.after (demands ++ [(project, d)]) =
          (project.obtain key (Session.after demands)).2 := by
        rw [← hmeet]
        simp [Session.after]
      have hgrows := Session.grows_after (demands ++ [(project, d)]) more
      rw [hload, List.append_assoc, List.singleton_append] at hgrows
      exact ⟨m, .of_known (Session.coherent_after _).1 (hgrows.module? hm) hp hinto hplaces⟩
  · have hnot : ¬ f.Points := by
      rintro (h | ⟨key, errors, rfl⟩)
      · exact h hlabels
      · exact hm key errors rfl
    rw [Report.ofFailure_of_not_points hnot, List.mem_singleton] at hreport
    rw [hreport]
    exact ⟨rfl, rfl⟩

/-- The second of three modules, with a character of two bytes in it, asks the third one for a name
that this does not export. -/
def Project.accents : Project :=
  .ofTexts [("main.hash", "// ß\nimport(\"a\");"),
    ("a.hash", "x := \"é\"; \x7bnope\x7d := import(\"b\");"), ("b.hash", "y := 1;")]

/-- The name is shown in the text of the second module when the first one is asked for, also after a
further request.  When the first one is asked for again, no text is shown. -/
theorem Project.accents_shown :
    let key : String → Key := fun name => ⟨["p"], [name]⟩
    let failure : Failure := .notExported (key "b.hash") (key "a.hash") "nope" ⟨12, 16⟩
    let once : List (Project × Demand) := [(accents, .entry "main")]
    let r := (Session.after (once ++ [(accents, .entry "main")])).registry
    accents.answer (.entry "main") (Session.after []) = .error failure ∧
      (∃ m, failure.ShownIn r m ∧ m.key = key "a.hash" ∧
        Span.slice m.source ⟨12, 16⟩ = "nope") ∧
      accents.answer (.entry "main") (Session.after once) =
        .error (.repeated (key "main.hash") failure) ∧
      ∀ report ∈ Report.ofFailure r (.repeated (key "main.hash") failure),
        report.source = none ∧ report.labels = [] := by
  intro key failure once r
  have hf : accents.answer (.entry "main") (Session.after []) = .error failure := by
    decide +kernel
  have hf' : accents.answer (.entry "main") (Session.after once) =
      .error (.repeated (key "main.hash") failure) := by decide +kernel
  have hd : ∀ importer i scope, Demand.entry "main" ≠ .bind importer i scope := nofun
  obtain ⟨hshown, -⟩ := Session.failure_shown [] [(accents, .entry "main")] accents rfl hd hf
  obtain ⟨-, hbare⟩ := Session.failure_shown once [] accents rfl hd hf'
  obtain ⟨m, hm⟩ : ∃ m, failure.ShownIn r m := hshown (.inl (by decide))
  have hkey : m.key = key "a.hash" := Option.some.inj hm.points.symm
  refine ⟨hf, ⟨m, hm, hkey, ?_⟩, hf', hbare rfl nofun⟩
  -- the second module is the one with the handle 1
  obtain ⟨h, hfind, hmod⟩ := hm.known
  have hhandle : r.find? (key "a.hash") = some ⟨1⟩ := by decide +kernel
  have hslice : (r.module? ⟨1⟩).map (Span.slice ·.source ⟨12, 16⟩) = some "nope" := by
    decide +kernel
  rw [hkey, hhandle] at hfind
  cases hfind
  rw [hmod] at hslice
  exact Option.some.inj hslice

end ModuleResolution
