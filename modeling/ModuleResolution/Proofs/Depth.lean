import Mathlib.Data.List.Perm.Subperm
import ModuleResolution.Proofs.Coherence

/-!
# How deep loading goes

Every module being loaded but the innermost has a text, and no module is being loaded twice.  So
there is always room for one more, and the bound on the depth is never met.

* `Project.HasRoom` : one more module may start to load.
* `Project.visit_of_find?` : a module that is known is answered for at once.
* `Project.CanMeet` : a request can be met, as can those that it makes in turn.
* `Registry.Completes` : one registry continues another, and its new modules are ready.
* `Project.visit_completes` : a request that succeeds enters modules that are ready only.
-/

namespace ModuleResolution

/-! ### Room -/

/-- With up to `depth` more modules being loaded at a time, one more may start to load. -/
structure Project.HasRoom (project : Project) (depth : Nat) (r : Registry) : Prop where
  /-- The modules being loaded have a text. -/
  served : ∀ key ∈ r.active, key ∈ project.loader.served
  room : project.loader.served.length < depth + r.active.length

namespace Project.HasRoom

variable {project : Project} {depth : Nat} {r r' : Registry} {key : Key}

theorem top (hr : r.active = []) : project.HasRoom project.depth r := by
  refine ⟨?_, ?_⟩
  · rw [hr]
    intro key hkey
    cases hkey
  · rw [hr, depth]
    exact Nat.lt_succ_self _

/-- While one more module with a text is being loaded, there is room below it. -/
theorem step (h : project.HasRoom (depth + 1) r) (hr : r'.active = r.active ++ [key])
    (hkey : key ∈ project.loader.served) : project.HasRoom depth r' := by
  refine ⟨?_, ?_⟩
  · intro k hk
    rw [hr, List.mem_append, List.mem_singleton] at hk
    rcases hk with hk | rfl
    · exact h.served k hk
    · exact hkey
  · have := h.room
    rw [hr, List.length_append, List.length_singleton]
    omega

theorem depth_pos (h : project.HasRoom depth r) (hr : r.Coherent) : 0 < depth := by
  have hle : r.active.length ≤ project.loader.served.length :=
    (List.subperm_of_subset hr.active_nodup h.served).length_le
  have := h.room
  omega

theorem congr_active (h : project.HasRoom depth r) (hr : r'.active = r.active) :
    project.HasRoom depth r' := by
  obtain ⟨hserved, hroom⟩ := h
  exact ⟨by rwa [hr], by rwa [hr]⟩

end Project.HasRoom

/-! ### Modules that are known -/

theorem Registry.remembered_eq_ok_iff {r : Registry} {key : Key} {h h' : Handle} :
    r.remembered key h = .ok h' ↔ h = h' ∧ (r.record h).state = .ready := by
  unfold remembered
  cases (r.record h).state <;> simp

namespace Project

variable (project : Project) {depth : Nat} {key : Key} {s s' : Session} {h : Handle}

theorem visit_of_find? (hd : 0 < depth) (hf : s.registry.find? key = some h) :
    project.visit depth key s = (s.registry.remembered key h, s) := by
  obtain ⟨depth, rfl⟩ := Nat.exists_eq_succ_of_ne_zero (Nat.ne_of_gt hd)
  rw [visit]
  simp only [hf]

theorem visit_eq_ok (hv : project.visit depth key s = (.ok h, s')) :
    (s.registry.find? key = some h ∧ s' = s) ∨
      ∃ below items draft s₁, depth = below + 1 ∧ s.registry.find? key = none ∧
        project.opened key = .ok items ∧
        Draft.Takes (project.visit below) project.layout key .empty items (project.opening key s)
          (.ok draft, s₁) ∧
        h = s.registry.fresh ∧
        s' = (s₁.filled s.registry.fresh items draft).on (·.finish s.registry.fresh) := by
  cases depth with
  | zero => cases hv
  | succ depth =>
    have hvisit := project.visits_visit depth key s
    rw [hv] at hvisit
    generalize hout : (Except.ok h, s') = out at hvisit
    cases hvisit with
    | known hf =>
      obtain ⟨hr, rfl⟩ := Prod.mk.inj hout
      obtain ⟨rfl, -⟩ := Registry.remembered_eq_ok_iff.1 hr.symm
      exact .inl ⟨hf, rfl⟩
    | refused | stopped | dangling => cases hout
    | ready hf ho ht =>
      obtain ⟨hh, rfl⟩ := Prod.mk.inj hout
      exact .inr ⟨depth, _, _, _, rfl, hf, ho, ht, Except.ok.inj hh, rfl⟩

theorem find?_of_visit (hs : s.registry.Coherent) (hv : project.visit depth key s = (.ok h, s')) :
    s'.registry.find? key = some h := by
  have hc := (project.visit_coherent depth key s hs).1
  rw [hv] at hc
  obtain ⟨hf, rfl⟩ | ⟨below, items, draft, s₁, -, -, -, ht, rfl, rfl⟩ := project.visit_eq_ok hv
  · exact hf
  · have hi := project.innermost_of_grows (ht.grows (project.visit_grows below))
    have hm := Registry.module?_ended_self hi.module?
      (fun m => { draft.fill items m with state := .ready })
      (s₁.registry.finished ++ [s.registry.fresh])
    rw [← Session.registry_finish_filled] at hm
    exact hc.find?_iff.2 ⟨_, hm, rfl⟩

end Project

/-- A request in the session `s` finds a coherent registry, and there is room for it. -/
structure Project.CanMeet (project : Project) (depth : Nat) (s : Session) : Prop where
  coherent : s.registry.Coherent
  room : project.HasRoom depth s.registry

namespace Project.CanMeet

variable {project : Project} {depth : Nat} {s s' : Session} {key : Key} {items : List Item}

theorem top (hr : s.registry.Coherent) (ha : s.registry.active = []) :
    project.CanMeet project.depth s := ⟨hr, .top ha⟩

theorem depth_pos (h : project.CanMeet depth s) : 0 < depth := h.room.depth_pos h.coherent

theorem grows (h : project.CanMeet depth s) (hr : s'.registry.Coherent)
    (hg : s.registry.Grows s'.registry) : project.CanMeet depth s' :=
  ⟨hr, h.room.congr_active hg.active⟩

theorem visit (h : project.CanMeet depth s) (key : Key) :
    project.CanMeet depth (project.visit depth key s).2 :=
  h.grows (project.visit_coherent depth key s h.coherent).1 (project.visit_grows depth key s)

theorem opening (h : project.CanMeet (depth + 1) s) (hf : s.registry.find? key = none)
    (ho : project.opened key = .ok items) : project.CanMeet depth (project.opening key s) := by
  have hregistry := project.registry_opening key s
  have hactive : (project.opening key s).registry.active = s.registry.active ++ [key] := by
    rw [hregistry]
    rfl
  refine ⟨?_, h.room.step hactive (project.loader.mem_served _ _ (read_of_opened ho))⟩
  rw [hregistry]
  exact h.coherent.started hf _

end Project.CanMeet

/-! ### Requests that succeed -/

/-- `r'` continues `r`, and the modules that it holds behind those of `r` are ready. -/
structure Registry.Completes (r r' : Registry) : Prop extends r.Grows r' where
  ready : ∀ {h m}, r'.module? h = some m → r.module? h = some m ∨ m.state = .ready

namespace Registry.Completes

variable {r r' r'' : Registry}

theorem refl (r : Registry) : r.Completes r := ⟨.refl r, fun hm => .inl hm⟩

theorem trans (h₁ : r.Completes r') (h₂ : r'.Completes r'') : r.Completes r'' where
  toGrows := h₁.toGrows.trans h₂.toGrows
  ready hm := by
    rcases h₂.ready hm with hm | hs
    · exact h₁.ready hm
    · exact .inr hs

end Registry.Completes

/-- What is taken of the items of a module, if all can be, has entered modules that are ready
only. -/
theorem Draft.Takes.completes {visit : Key → Loading Handle} {layout : Layout} {key : Key}
    {draft draft' : Draft} {items : List Item} {s : Session} {out : Except Failure Draft × Session}
    (hvisit : ∀ target (s : Session) h s', visit target s = (.ok h, s') →
      s.registry.Completes s'.registry)
    (ht : Takes visit layout key draft items s out) (hout : out.1 = .ok draft') :
    s.registry.Completes out.2.registry := by
  induction ht with
  | done => exact .refl _
  | collided | astray | failed | refused => cases hout
  | declared _ _ ih => exact ih hout
  | @bound _ _ _ s target h s' _ _ _ _ hv _ _ ih => exact (hvisit target s h s' hv).trans (ih hout)

/-- **A request that succeeds enters modules that are ready only.** -/
theorem Project.visit_completes (project : Project) (depth : Nat) (key : Key) (s : Session)
    (h : Handle) (s' : Session) (hv : project.visit depth key s = (.ok h, s')) :
    s.registry.Completes s'.registry := by
  induction depth generalizing key s h s' with
  | zero => cases hv
  | succ depth ih =>
    have hg := project.visit_grows (depth + 1) key s
    rw [hv] at hg
    obtain ⟨-, rfl⟩ | ⟨below, items, draft, s₁, hdepth, -, -, ht, rfl, rfl⟩ :=
      project.visit_eq_ok hv
    · exact .refl _
    · obtain rfl := Nat.succ.inj hdepth
      have hi := project.innermost_of_grows (ht.grows (project.visit_grows depth))
      have hbelow := ht.completes ih rfl
      refine ⟨hg, ?_⟩
      intro t m hm
      rw [Session.registry_finish_filled, Registry.module?_ended hi.module?] at hm
      by_cases hfresh : s.registry.fresh = t
      · rw [if_pos hfresh] at hm
        cases hm
        exact .inr rfl
      · rw [if_neg hfresh] at hm
        -- the modules below this one were entered by requests that succeeded
        rcases hbelow.ready hm with hm | hs
        · rw [project.registry_opening, Registry.module?_started,
            if_neg fun he => hfresh he.symm] at hm
          exact .inl hm
        · exact .inr hs

end ModuleResolution
