import Mathlib.Data.List.Induction
import ModuleResolution.Proofs.Checking

/-!
# Modules that are frozen

A request touches no module that has come to an end, be it ready or failed, even while the modules
are being loaded that the request itself has entered.  So whatever is asked of a registry about such
modules is answered alike ever after.

* `Session.grows_after` : requests from outside continue the registry that they find.
* `Registry.Freezes` : one registry answers what another one does, and holds more behind it.
* `Registry.Grows.freezes` : a registry that continues another freezes what that one holds.
* `Session.frozen_after` : so do all requests from outside.
-/

namespace ModuleResolution

/-! ### Requests from outside -/

theorem Project.meet_grows (project : Project) (d : Demand) (s : Session) :
    s.registry.Grows (project.meet d s).registry := by
  rcases project.meet_eq d s with h | ⟨key, h⟩
  · rw [h]
    exact .refl _
  · rw [h]
    exact project.visit_grows project.depth key s

/-- Requests from outside continue the registry that they find. -/
theorem Session.grows_after (demands more : List (Project × Demand)) :
    (Session.after demands).registry.Grows (Session.after (demands ++ more)).registry := by
  induction more using List.reverseRecOn with
  | nil =>
    rw [List.append_nil]
    exact .refl _
  | append_singleton more d ih =>
    have h : Session.after (demands ++ (more ++ [d])) =
        d.1.meet d.2 (Session.after (demands ++ more)) := by simp [Session.after]
    rw [h]
    exact ih.trans (d.1.meet_grows d.2 _)

/-! ### What is frozen -/

/-- What `r` answers about the modules that it holds, `r'` answers too, and the modules that it
holds besides stand behind these. -/
structure Registry.Freezes (r r' : Registry) : Prop where
  /-- A module keeps its handle and all of its record. -/
  module? : ∀ h m, r.module? h = some m → r'.module? h = some m
  modules : r.modules <+: r'.modules
  /-- What becomes ready does so behind what is ready. -/
  finished : r.finished <+: r'.finished
  /-- A key that is known keeps its handle. -/
  find? : ∀ key h, r.find? key = some h → r'.find? key = some h
  declaration? : ∀ d m, r.module? d.owner = some m → r'.declaration? d = r.declaration? d
  /-- A qualified name in a module that is ready denotes what it did, or nothing for the same
  reason. -/
  denotation : ∀ h m, r.module? h = some m → m.isReady → ∀ reference span,
    r'.denotation h reference span = r.denotation h reference span

/-- **A registry that continues another one freezes it**, also while modules are being loaded. -/
theorem Registry.Grows.freezes {r r' : Registry} (hg : r.Grows r') (hr : r.Coherent) :
    r.Freezes r' where
  module? _ _ hm := hg.module? hm
  modules := hg.modules
  finished := hg.finished
  find? _ _ hf := hg.handles.lookup_eq_some hf
  declaration? d m hm := by rw [Registry.declaration?, Registry.declaration?, hm, hg.module? hm]
  denotation h m hm hs reference span := by
    -- all that the name may lead to is ready, and so is frozen itself
    have hfin : h ∈ r.finished := hr.mem_finished.2 ⟨m, hm, isReady_iff.1 hs⟩
    have hagrees := (hr.preserves hg.modules hg.handles).agrees hr
    exact hagrees.denotation hfin

/-- **Modules that have come to an end are frozen.**  After any requests no module is being loaded,
and whatever is asked for then, with whatever project each request is met and whether it succeeds or
not, changes nothing about the modules that are known. -/
theorem Session.frozen_after (demands more : List (Project × Demand)) :
    (∀ m ∈ (Session.after demands).registry.modules, m.state ≠ .loading) ∧
      (Session.after demands).registry.Freezes (Session.after (demands ++ more)).registry := by
  obtain ⟨hr, hactive⟩ := Session.coherent_after demands
  exact ⟨(hr.settled hactive).not_loading, (Session.grows_after demands more).freezes hr⟩

end ModuleResolution
