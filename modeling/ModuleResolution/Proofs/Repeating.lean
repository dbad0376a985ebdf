import ModuleResolution.Proofs.Circles
import ModuleResolution.Proofs.Trail

/-!
# Requests that are repeated

A module is loaded by the first request for it.  Once that has been answered, all others are
answered by what the registry keeps of it: with the same module, or, if it has failed, with a
repeated failure.  The cause of that one is the failure that came first, however many modules have
failed because of it since: it is never a repeated failure itself.

* `Registry.Recalls` : a repeated failure is about a module that has failed with its cause.
* `Visit.RepeatedBy` : a later request is answered as the first one was.
* `Visit.Made.recalls` : what a request is answered with is recalled.
* `Session.answered_again` : this holds of all requests of a run, and of all failures in it.
-/

namespace ModuleResolution

/-! ### Failures that are recalled -/

/-- If the failure is a repeated one, the module that it is about has failed, and its cause is the
failure behind the one that is kept for this module, which is not a repeated one. -/
def Registry.Recalls (r : Registry) : Failure → Prop
  | .repeated key cause =>
    cause.isRepeated = false ∧ ∃ f, r.Keeps key (.error f) ∧ cause = f.underlying
  | _ => True

namespace Registry.Recalls

variable {r r' : Registry} {key : Key} {h : Handle} {f : Failure}

theorem of_isLocal (hf : f.isLocal = true) : r.Recalls f := by
  cases f with
  | repeated => cases hf
  | _ => trivial

theorem mono (hf : r.Recalls f) (hr : r.Retains r') : r'.Recalls f := by
  cases f with
  | repeated key cause =>
    obtain ⟨hcause, f, hk, hu⟩ := hf
    exact ⟨hcause, f, hk.mono hr, hu⟩
  | _ => trivial

theorem of_remembered (hf : r.find? key = some h) (ha : r.remembered key h = .error f) :
    r.Recalls f := by
  rcases Registry.remembered_eq_error ha with ⟨-, rfl⟩ | ⟨f, hs, rfl⟩
  · trivial
  · refine ⟨f.isRepeated_underlying, f, ?_, rfl⟩
    cases hm : r.module? h with
    | none =>
      rw [Registry.record, hm] at hs
      cases hs
    | some m =>
      rw [Registry.record_eq hm] at hs
      exact ⟨h, m, hf, hm, hs⟩

end Registry.Recalls

/-- **What a request is answered with is recalled**, also while modules are being loaded. -/
theorem Visit.Made.recalls {v : Visit} {f : Failure} (hv : v.Made) (ha : v.answer = .error f) :
    v.after.registry.Recalls f := by
  cases hf : v.before.registry.find? v.key with
  | some h =>
    obtain ⟨hanswer, hsame⟩ := hv.of_known hf
    rw [hsame]
    exact .of_remembered hf (hanswer.symm.trans ha)
  | none =>
    obtain ⟨project, depth, hs, hv⟩ := hv
    rw [hv] at ha ⊢
    obtain ⟨chain, r₁, hfalls, hunwound⟩ := project.visit_falls depth v.key v.before f _ hs.coherent
      hs.room hf (Prod.ext ha rfl)
    -- the last module of the chain fails, while all of them are still being loaded
    have hrecalls : r₁.Recalls f := by
      obtain ⟨last, -, hb⟩ := hfalls.breaks
      rcases hb.isLocal_or with hlocal | ⟨target, t, -, ht, hr⟩
      · exact .of_isLocal hlocal
      · exact .of_remembered ht hr
    refine hrecalls.mono ?_
    rw [Project.visited, hunwound]
    exact .unwound f hfalls.loading

/-! ### Requests that repeat others -/

/-- The request `v` is one for the same module as `first` was, and it is answered alike: with the
same module, or with the failure behind it as a repeated one.  It changes nothing, neither the
registry nor what was asked of loaders and of readers of items. -/
structure Visit.RepeatedBy (first v : Visit) : Prop where
  key : v.key = first.key
  ok : ∀ h, first.answer = .ok h → v.answer = .ok h
  error : ∀ f, first.answer = .error f → v.answer = .error (.repeated first.key f.underlying)
  unchanged : v.after = v.before

/-- A request repeats another one whose answer is kept. -/
theorem Visit.Made.repeatedBy {first v : Visit} (hv : v.Made) (hkey : v.key = first.key)
    (hk : v.before.registry.Keeps first.key first.answer) : first.RepeatedBy v := by
  obtain ⟨h, hf⟩ := hk.find?
  obtain ⟨hanswer, hsame⟩ := hv.of_known (hkey ▸ hf)
  rw [hkey, hk.remembered hf] at hanswer
  refine ⟨hkey, fun t ht => ?_, fun f hf => ?_, hsame⟩
  · rw [hanswer, ht, mapError_ok]
  · rw [hanswer, hf, mapError_error]

namespace Registry

variable {r r' : Registry} {trail : List Visit} {key : Key} {h : Handle} {m : Module}

/-- What a registry keeps of a module is kept already when the module has come to an end. -/
theorem Keeps.of_retains {answer : Except Failure Handle} (hk : r'.Keeps key answer)
    (hr : r.Retains r') (hf : r.find? key = some h) (hm : r.module? h = some m)
    (hs : m.state ≠ .loading) : r.Keeps key answer := by
  have hf' := hr.find? hf
  have hm' := hr.module? hm hs
  cases answer with
  | ok t =>
    obtain ⟨ht, n, hn, hready⟩ := hk
    cases hf'.symm.trans ht
    cases hm'.symm.trans hn
    exact ⟨hf, m, hm, hready⟩
  | error f =>
    obtain ⟨t, n, ht, hn, hfailed⟩ := hk
    cases hf'.symm.trans ht
    cases hm'.symm.trans hn
    exact ⟨h, m, hf, hm, hfailed⟩

theorem Trail.keeps (ht : r.Trail r' trail) {v : Visit} (hv : v ∈ trail)
    (hn : v.before.registry.find? v.key = none) : r'.Keeps v.key v.answer :=
  ((ht.made v hv).keeps hn).mono (ht.till v hv)

/-- In a trail that starts where no module is known, a module is asked for first where it is not
known yet.  Once it has come to an end, the requests behind this one repeat it. -/
theorem Trail.first (ht : Registry.empty.Trail r trail) (hr : r.Coherent)
    (hf : r.find? key = some h) :
    ∃ before first rest, trail = before ++ first :: rest ∧ first.key = key ∧
      r.Keeps key first.answer ∧ (∀ v ∈ before, v.key ≠ key) ∧
      ∀ v ∈ rest, v.key = key → key ∉ v.before.registry.active → first.RepeatedBy v := by
  obtain ⟨first, hfirst, rfl, hn⟩ := ht.entered coherent_empty hr rfl hf
  have hkeeps := ht.keeps hfirst hn
  obtain ⟨before, rest, rfl⟩ := List.append_of_mem hfirst
  obtain ⟨-, hrest, hbefore⟩ := List.pairwise_append.1 ht.later
  refine ⟨before, first, rest, rfl, rfl, hkeeps, fun v hv hkey => ?_, fun v hv hkey hactive => ?_⟩
  · -- a request for the module in front of this one would have made it known
    obtain ⟨h, hknown⟩ := hbefore v hv first List.mem_cons_self
    rw [hkey, hn] at hknown
    cases hknown
  · obtain ⟨h, hknown⟩ := List.rel_of_pairwise_cons hrest hv
    have hmem := List.mem_append_right before (List.mem_cons_of_mem first hv)
    have hmade := ht.made v hmem
    -- the module has come to an end, as it is not being loaded, so that nothing happens to it
    obtain ⟨m, hm, hkey'⟩ := hmade.coherent.1.find?_iff.1 hknown
    have hended : m.state ≠ .loading :=
      fun hs => hactive (hmade.coherent.1.mem_active.2 ⟨h, m, hm, hkey', hs⟩)
    have hretains := ht.till v hmem
    rw [(hmade.of_known (hkey ▸ hknown)).2] at hretains
    exact hmade.repeatedBy hkey (hkeeps.of_retains hretains hknown hm hended)

theorem Trail.failed (ht : Registry.empty.Trail r trail) (hr : r.Coherent)
    (hm : r.module? h = some m) {f : Failure} (hs : m.state = .failed f) :
    ∃ v ∈ trail, v.answer = .error f := by
  have hf := hr.find?_iff.2 ⟨m, hm, rfl⟩
  obtain ⟨v, hv, hkey, hn⟩ := ht.entered coherent_empty hr rfl hf
  have hkeeps := ht.keeps hv (hkey ▸ hn)
  rw [hkey] at hkeeps
  exact ⟨v, hv, hkeeps.eq_of_failed hf hm hs⟩

end Registry

/-! ### All requests of a run -/

namespace Session

/-- **Each request behind the first one is answered from the registry, and failures do not nest.**
Let some demands be met, each with a project of its own.  The requests that they come to, from
outside and by imports, start with a first one for each module that is known then.  Those behind it
that are made when the module is not being loaded any more repeat it, as do all requests that more
demands come to, whatever these are and whatever projects meet them.  And all failures, be it those
that requests or demands are answered with, those that are kept for modules, or those of names that
denote nothing, are recalled by the registry. -/
theorem answered_again (demands : List (Project × Demand)) :
    let s := Session.after demands
    let trail := Session.empty.trail demands
    (∀ key h, s.registry.find? key = some h →
      ∃ before first rest, trail = before ++ first :: rest ∧ first.key = key ∧
        (∀ v ∈ before, v.key ≠ key) ∧
        (∀ v ∈ rest, v.key = key → key ∉ v.before.registry.active → first.RepeatedBy v) ∧
        ∀ more, ∀ v ∈ s.trail more, v.key = key → first.RepeatedBy v) ∧
      (∀ v ∈ trail, ∀ f, v.answer = .error f →
        v.after.registry.Recalls f ∧ s.registry.Recalls f) ∧
      (∀ m ∈ s.registry.modules, ∀ f, m.state = .failed f → s.registry.Recalls f) ∧
      (∀ (project : Project) d f, project.answer d s = .error f →
        (project.meet d s).registry.Recalls f) ∧
      ∀ h reference span f, s.registry.denotation h reference span = .error f →
        s.registry.Recalls f := by
  intro s trail
  have ht : Registry.empty.Trail s.registry trail := trail_empty demands
  obtain ⟨hr, ha⟩ := Session.coherent_after demands
  have hrecalls : ∀ v ∈ trail, ∀ f, v.answer = .error f →
      v.after.registry.Recalls f ∧ s.registry.Recalls f := by
    intro v hv f hf
    have hafter := (ht.made v hv).recalls hf
    exact ⟨hafter, hafter.mono (ht.till v hv)⟩
  refine ⟨fun key h hf => ?_, hrecalls, fun m hm f hs => ?_, fun project d f hf => ?_, ?_⟩
  · obtain ⟨before, first, rest, htrail, hkey, hkeeps, hbefore, hrest⟩ := ht.first hr hf
    refine ⟨before, first, rest, htrail, hkey, hbefore, hrest, fun more v hv hv' => ?_⟩
    have hmore := Session.trail_after demands more
    rw [← hkey] at hv' hkeeps
    exact (hmore.made v hv).repeatedBy hv' (hkeeps.mono (hmore.since v hv))
  · obtain ⟨i, hi, rfl⟩ := List.getElem_of_mem hm
    obtain ⟨v, hv, hanswer⟩ := ht.failed hr (h := ⟨i⟩) (List.getElem?_eq_getElem hi) hs
    exact (hrecalls v hv f hanswer).2
  · rcases Project.answer_eq_error hf with hlocal | ⟨key, hmeet, hanswer⟩
    · exact .of_isLocal hlocal
    · have hmade : (project.visited project.depth key s).Made := ⟨project, _, .top hr ha, rfl⟩
      rw [hmeet]
      exact hmade.recalls hanswer
  · intro h reference span f hf
    exact .of_isLocal (Failure.isLocal_of_isMisuse (Registry.isMisuse_of_denotation hf))

end Session

/-- One more module imports one of those that fail in a landslide. -/
def Project.aftershock : Project := .ofTexts [("d.hash", "import(\"a\");")]

/-- The module fails with a repeated failure.  When it is asked for again, the failure that is
repeated is the one that came first. -/
theorem Session.aftershock_answered_again :
    let key : String → Key := fun name => ⟨["p"], [name]⟩
    let failure : Failure := .collision (key "b.hash") "lib" ⟨7, 12⟩ ⟨15, 18⟩
    let demands := [(Project.landslide, Demand.entry "main"), (.aftershock, .entry "d")]
    let s := Session.after demands
    let trail := Session.empty.trail demands
    trail.map (fun v => (v.key, v.answer)) =
        [(key "main.hash", .error failure), (key "lib.hash", .ok ⟨1⟩),
          (key "a.hash", .error failure), (key "lib.hash", .ok ⟨1⟩),
          (key "b.hash", .error failure), (key "lib.hash", .ok ⟨1⟩),
          (key "d.hash", .error (.repeated (key "a.hash") failure)),
          (key "a.hash", .error (.repeated (key "a.hash") failure))] ∧
      (s.trail [(.aftershock, .entry "d")]).map (fun v => (v.key, v.answer)) =
        [(key "d.hash", .error (.repeated (key "d.hash") failure))] ∧
      (∃ first ∈ trail, first.key = key "d.hash" ∧
        ∀ more, ∀ v ∈ s.trail more, v.key = key "d.hash" → first.RepeatedBy v) ∧
      s.registry.Recalls (.repeated (key "a.hash") failure) := by
  intro key failure demands s trail
  obtain ⟨hfirst, -, hstored, -⟩ := Session.answered_again demands
  refine ⟨by decide +kernel, by decide +kernel, ?_, ?_⟩
  · have hf : s.registry.find? (key "d.hash") = some ⟨4⟩ := by decide +kernel
    obtain ⟨before, first, rest, htrail, hkey, -, -, hmore⟩ := hfirst _ _ hf
    refine ⟨first, ?_, hkey, hmore⟩
    change first ∈ Session.empty.trail demands
    rw [htrail]
    exact List.mem_append_right before List.mem_cons_self
  · have hm : s.registry.module? ⟨4⟩ = some (s.registry.record ⟨4⟩) := by decide +kernel
    exact hstored _ (List.mem_of_getElem? hm) _ (by decide +kernel)

end ModuleResolution
