import Mathlib.Data.List.Chain
import ModuleResolution.Proofs.Unwinding

/-!
# Circles that are told of

A failure that tells of a circle of imports is right: the modules that it names import each other in
this order, and none of them is ready.  This holds of what a request is answered with, of what is
kept for the modules that have failed, and of the failures behind repeated ones.

* `Project.Circles` : the modules of a chain go round and have failed.
* `Project.Truthful` : a failure tells of such circles only.
* `Project.obtain_truthful` : requests keep and give truthful failures.
* `Project.told_circles` : after all requests, whatever they are.
-/

namespace ModuleResolution

/-! ### Answers -/

/-- What a demand is answered with, where it is not met. -/
def Project.answer (project : Project) : Demand → Session → Except Failure Unit
  | .entry path, s => (project.obtainEntry path s).1.map fun _ => ()
  | .obtain key, s => (project.obtain key s).1.map fun _ => ()
  | .bind importer i scope, s => (project.bind importer i scope s).1.1.map fun _ => ()

theorem map_eq_error {ε α β : Type} {f : α → β} {result : Except ε α} {failure : ε}
    (h : result.map f = .error failure) : result = .error failure := by
  cases result with
  | error failure' =>
    cases h
    rfl
  | ok value => cases h

theorem Project.answer_eq_error {project : Project} {d : Demand} {s : Session} {f : Failure}
    (ha : project.answer d s = .error f) :
    f.isLocal = true ∨
      ∃ key, project.meet d s = (project.obtain key s).2 ∧ (project.obtain key s).1 = .error f := by
  cases d with
  | entry path =>
    have he := map_eq_error ha
    simp only [obtainEntry, Bind.bind, Loading.done] at he
    cases hk : project.layout.entryKey path with
    | error reason =>
      simp only [hk, mapError_error] at he
      cases he
      exact .inl rfl
    | ok key =>
      simp only [hk, mapError_ok] at he
      refine .inr ⟨key, ?_, he⟩
      simp only [meet, obtainEntry, Bind.bind, Loading.done, hk, mapError_ok]
  | obtain key => exact .inr ⟨key, rfl, map_eq_error ha⟩
  | bind importer i scope =>
    have he := map_eq_error ha
    simp only [Project.bind, Import.bindBy] at he
    cases hk : i.key project.layout importer with
    | error failure =>
      simp only [hk] at he
      cases he
      exact .inl (Import.isLocal_of_key hk)
    | ok key =>
      simp only [hk] at he
      rcases hv : project.obtain key s with ⟨failure | h, s'⟩
      · simp only [hv] at he
        cases he
        refine .inr ⟨key, ?_, by rw [hv]⟩
        simp only [meet, Project.bind, Import.bindBy, hk, hv]
      · simp only [hv] at he
        exact .inl (Import.isLocal_of_introduce (Prod.ext he rfl))

/-! ### Circles -/

/-- The modules of `chain`, which leads from the module `key` back to it, import each other in this
order, and all of them have failed. -/
structure Project.Circles (project : Project) (r : Registry) (key : Key) (chain : List Key) :
    Prop where
  two_le : 2 ≤ chain.length
  head : chain.head? = some key
  last : chain.getLast? = some key
  /-- The chain goes round once. -/
  nodup : chain.dropLast.Nodup
  imports : chain.IsChain project.Imports
  failed : ∀ k ∈ chain, ∃ h m f,
    r.find? k = some h ∧ r.module? h = some m ∧ m.state = .failed f

/-- If the failure tells of a circle, the circle is there. -/
def Project.Truthful (project : Project) (r : Registry) (f : Failure) : Prop :=
  ∀ key chain, f.underlying = .circular key chain → project.Circles r key chain

/-- What is kept for the modules that have failed tells of circles that are there. -/
def Project.KeepsTruth (project : Project) (r : Registry) : Prop :=
  ∀ h m f, r.module? h = some m → m.state = .failed f → project.Truthful r f

section Truth

variable {project : Project} {r r' : Registry} {key target : Key} {failure f : Failure}
  {chain : List Handle}

theorem Project.Circles.mono {keys : List Key} (hc : project.Circles r key keys) (hr : r.Coherent)
    (hr' : r'.Coherent) (hg : r.Grows r') : project.Circles r' key keys := by
  refine ⟨hc.two_le, hc.head, hc.last, hc.nodup, hc.imports, ?_⟩
  intro k hk
  obtain ⟨h, m, f, hf, hm, hs⟩ := hc.failed k hk
  obtain ⟨n, hn, hkey⟩ := hr.find?_iff.1 hf
  exact ⟨h, m, f, hr'.find?_iff.2 ⟨n, hg.module? hn, hkey⟩, hg.module? hm, hs⟩

theorem Project.Truthful.mono (ht : project.Truthful r f) (hr : r.Coherent) (hr' : r'.Coherent)
    (hg : r.Grows r') : project.Truthful r' f :=
  fun key chain hf => (ht key chain hf).mono hr hr' hg

theorem Project.Truthful.of_isLocal (hf : f.isLocal = true) : project.Truthful r f := by
  intro key chain hu
  rw [Failure.underlying_eq_self (Failure.not_repeated_of_isLocal hf)] at hu
  rw [hu] at hf
  cases hf

theorem Project.Truthful.repeated (ht : project.Truthful r f) :
    project.Truthful r (.repeated key f.underlying) := by
  intro key chain hu
  rw [Failure.underlying, Failure.underlying_eq_self f.isRepeated_underlying] at hu
  exact ht key chain hu

namespace Project.Unwound

theorem keys_nodup (hu : project.Unwound r r' key failure chain) (hr : r'.Coherent) :
    (chain.map r'.keyOf).Nodup := by
  have hnodup : chain.Nodup := by
    refine hu.ascending.imp ?_
    rintro h t hlt rfl
    exact Nat.lt_irrefl _ hlt
  refine hnodup.map_on ?_
  intro h hh t ht he
  obtain ⟨-, m, hm, -⟩ := hu.failed h hh
  obtain ⟨-, n, hn, -⟩ := hu.failed t ht
  rw [Registry.keyOf_eq hm, Registry.keyOf_eq hn] at he
  exact hr.handle_unique hm hn he

/-- If the last module of the chain imports one that is on the chain, the modules from there on go
round. -/
theorem circles (hu : project.Unwound r r' key failure chain) (hr : r'.Coherent)
    {outer inner : List Key} (hkeys : chain.map r'.keyOf = outer ++ target :: inner)
    {last : Handle} (hlast : last ∈ chain.getLast?)
    (hi : project.Imports (r'.keyOf last) target) :
    project.Circles r' target (target :: inner ++ [target]) := by
  have hnodup := hu.keys_nodup hr
  have himports := hu.imports
  have hend : r'.keyOf last ∈ (target :: inner).getLast? := by
    rw [← List.getLast?_append_of_ne_nil outer (List.cons_ne_nil _ _), ← hkeys, List.getLast?_map]
    exact Option.mem_map_of_mem _ hlast
  rw [hkeys] at hnodup himports
  refine ⟨?_, rfl, ?_, ?_, ?_, ?_⟩
  · simp
  · rw [List.getLast?_concat]
  · rw [List.dropLast_concat]
    exact (List.nodup_append.1 hnodup).2.1
  · refine List.isChain_append.2 ⟨himports.right_of_append, .singleton _, ?_⟩
    intro k hk t ht
    cases ht
    rw [Option.mem_unique hk hend]
    exact hi
  · intro k hk
    have hk' : k ∈ chain.map r'.keyOf := by
      rw [hkeys]
      refine List.mem_append_right _ ?_
      rcases List.mem_append.1 hk with hk | hk
      · exact hk
      · rw [List.mem_singleton.1 hk]
        exact List.mem_cons_self
    obtain ⟨h, hh, rfl⟩ := List.mem_map.1 hk'
    obtain ⟨-, m, hm, hs⟩ := hu.failed h hh
    exact ⟨h, m, failure, hr.find?_iff.2 ⟨m, hm, (Registry.keyOf_eq hm).symm⟩, hm, hs⟩

end Project.Unwound

/-- What a chain of modules fails with is truthful, if what was kept before is. -/
theorem Project.Falls.truthful {r₁ : Registry} (hf : project.Falls r key failure chain r₁)
    (hr : r.Coherent) (ha : r.active = []) (hg : r.Grows (r₁.unwound failure chain))
    (hr' : (r₁.unwound failure chain).Coherent) (hk : project.KeepsTruth r) :
    project.Truthful (r₁.unwound failure chain) failure := by
  have hu := hf.unwound ha hg hr'
  have hactive : r₁.active = chain.map (r₁.unwound failure chain).keyOf := by
    rw [hf.active, ha, Registry.keyOf_unwound, List.nil_append]
  rcases hf.why hr hr' with
    hlocal | ⟨last, hlast, target, ht, hi, rfl⟩ | ⟨h, m, f, target, hm, hs, rfl⟩
  · exact .of_isLocal hlocal
  · -- the module imported last is on the chain, which is what is being loaded
    obtain ⟨outer, inner, hsplit⟩ := List.append_of_mem ht
    rw [← Registry.keyOf_unwound] at hi
    have hcircles := hu.circles hr' (hactive.symm.trans hsplit) hlast hi
    have hnodup := hu.keys_nodup hr'
    rw [← hactive] at hnodup
    rw [← Registry.chain_eq hsplit hnodup] at hcircles
    intro key' keys he
    cases he
    exact hcircles
  · exact ((hk h m f hm hs).mono hr hr' hg).repeated

/-! ### Requests -/

/-- What is kept stays truthful while modules enter that are ready or fail truthfully. -/
theorem Project.KeepsTruth.grows (hk : project.KeepsTruth r) (hr : r.Coherent) (hr' : r'.Coherent)
    (hg : r.Grows r')
    (hnew : ∀ h m f, r'.module? h = some m → m.state = .failed f →
      r.module? h = some m ∨ project.Truthful r' f) : project.KeepsTruth r' := by
  intro h m f hm hs
  rcases hnew h m f hm hs with hold | htruth
  · exact (hk h m f hold hs).mono hr hr' hg
  · exact htruth

/-- **Requests from outside keep what is kept truthful**, and what they are answered with is. -/
theorem Project.obtain_truthful (project : Project) (key : Key) (s : Session)
    (hr : s.registry.Coherent) (ha : s.registry.active = []) (hk : project.KeepsTruth s.registry) :
    project.KeepsTruth (project.obtain key s).2.registry ∧
      ∀ f, (project.obtain key s).1 = .error f →
        project.Truthful (project.obtain key s).2.registry f := by
  have hr' := (project.visit_coherent project.depth key s hr).1
  have hg := project.visit_grows project.depth key s
  have hroom : project.HasRoom project.depth s.registry := .top ha
  unfold obtain
  cases hf : s.registry.find? key with
  | some h =>
    -- the module is known, and none is being loaded
    rw [project.visit_of_find? (hroom.depth_pos hr) hf]
    refine ⟨hk, ?_⟩
    intro f he
    obtain ⟨m, hm, rfl⟩ := hr.find?_iff.1 hf
    have hstate := Registry.remembered_eq_error he
    rw [Registry.record_eq hm] at hstate
    rcases hstate with ⟨hs, -⟩ | ⟨f', hs, rfl⟩
    · have hmem := hr.mem_active.2 ⟨h, m, hm, rfl, hs⟩
      rw [ha] at hmem
      cases hmem
    · exact (hk h m f' hm hs).repeated
  | none =>
    rcases hv : project.visit project.depth key s with ⟨failure | h, s'⟩
    · obtain ⟨chain, r₁, hfalls, hunwound⟩ :=
        project.visit_falls project.depth key s failure s' hr hroom hf hv
      rw [hv] at hr' hg
      simp only [hunwound] at hr' hg ⊢
      have htruth := hfalls.truthful hr ha hg hr' hk
      refine ⟨hk.grows hr hr' hg ?_, ?_⟩
      · intro h m f hm hs
        by_cases hmem : h ∈ chain
        · obtain ⟨-, n, hn, hfailed⟩ := (hfalls.unwound ha hg hr').failed h hmem
          rw [hm] at hn
          cases hn
          rw [hs] at hfailed
          cases hfailed
          exact .inr htruth
        · rw [Registry.module?_unwound_of_notMem hmem] at hm
          rcases hfalls.others hm hmem with hold | hready
          · exact .inl hold
          · rw [hs] at hready
            cases hready
      · rintro f he
        cases he
        exact htruth
    · have hc := project.visit_completes project.depth key s h s' hv
      rw [hv] at hr' hg
      refine ⟨hk.grows hr hr' hg ?_, fun f he => by cases he⟩
      intro t m f hm hs
      rcases hc.ready hm with hold | hready
      · exact .inl hold
      · rw [hs] at hready
        cases hready

end Truth

/-! ### After all requests -/

theorem Project.truthful_after (project : Project) (demands : List Demand) :
    (project.after demands).registry.Coherent ∧ (project.after demands).registry.active = [] ∧
      project.KeepsTruth (project.after demands).registry := by
  refine Project.after_induction (P := fun s => s.registry.Coherent ∧ s.registry.active = [] ∧
    project.KeepsTruth s.registry) ⟨Registry.coherent_empty, rfl, ?_⟩ ?_
  · intro h m f hm
    cases hm
  · rintro key s ⟨hr, ha, hk⟩
    exact ⟨(project.visit_coherent project.depth key s hr).1,
      (project.visit_grows project.depth key s).active.trans ha,
      (project.obtain_truthful key s hr ha hk).1⟩

theorem Project.after_concat (project : Project) (demands : List Demand) (d : Demand) :
    project.after (demands ++ [d]) = project.meet d (project.after demands) := by
  simp [Project.after, Session.after, List.foldl_append]

/-- **A circle that a failure tells of is there**, in whatever order modules are asked for: if the
last demand is answered with a failure that is one of imports going round, or that repeats one, or
if some module has failed with it, then the modules of its chain import each other in this order,
from the first one once round to the same one, and all of them have failed. -/
theorem Project.told_circles (project : Project) (demands : List Demand) (d : Demand) {f : Failure}
    {key : Key} {chain : List Key}
    (hf : project.answer d (project.after demands) = .error f ∨
      ∃ m ∈ (project.after (demands ++ [d])).registry.modules, m.state = .failed f)
    (hu : f.underlying = .circular key chain) :
    project.Circles (project.after (demands ++ [d])).registry key chain := by
  obtain ⟨hr, ha, hk⟩ := project.truthful_after demands
  rcases hf with hf | ⟨m, hm, hs⟩
  · rcases Project.answer_eq_error hf with hlocal | ⟨k, hmeet, hv⟩
    · exact Project.Truthful.of_isLocal hlocal key chain hu
    · rw [project.after_concat, hmeet]
      exact (project.obtain_truthful k _ hr ha hk).2 f hv key chain hu
  · obtain ⟨i, hi, rfl⟩ := List.getElem_of_mem hm
    obtain ⟨-, -, hk'⟩ := project.truthful_after (demands ++ [d])
    exact hk' ⟨i⟩ _ f (List.getElem?_eq_getElem hi) hs key chain hu

/-- Three modules that import each other, the last two of which are asked for from outside the
circle. -/
def Project.roundabout : Project :=
  .ofTexts [("main.hash", "import(\"a\");"), ("a.hash", "import(\"b\");"),
    ("b.hash", "x := 1; import(\"c\");"), ("c.hash", "import(\"a\");")]

/-- The circle is entered at one module, and told of again when another is asked for. -/
theorem Project.roundabout_circles :
    let key : String → Key := fun name => ⟨["p"], [name]⟩
    let chain := [key "a.hash", key "b.hash", key "c.hash", key "a.hash"]
    let failure : Failure := .repeated (key "b.hash") (.circular (key "a.hash") chain)
    roundabout.answer (.entry "b") (roundabout.after [.entry "main"]) = .error failure ∧
      failure.underlying = .circular (key "a.hash") chain ∧
      roundabout.Circles (roundabout.after [.entry "main", .entry "b"]).registry (key "a.hash")
        chain := by
  intro key chain failure
  have hf : roundabout.answer (.entry "b") (roundabout.after [.entry "main"]) = .error failure := by
    decide +kernel
  have hu : failure.underlying = .circular (key "a.hash") chain := rfl
  exact ⟨hf, hu, Project.told_circles roundabout [.entry "main"] (.entry "b") (.inl hf) hu⟩

end ModuleResolution
