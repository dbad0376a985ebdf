import ModuleResolution.Proofs.Mirror

/-!
# How failures unwind

A request that fails has gone down a chain of modules, each of which imports the next one.  The last
of them fails by itself, and all others fail with it, the innermost first, and with the same
failure.  Whatever else was entered on the way is ready.

* `Project.Breaks` : the ways in which a module fails by itself.
* `Registry.unwound` : the modules of a chain fail, the innermost first.
* `Project.visit_falls` : a request for a new module that fails goes down such a chain.
* `Project.obtain_unwinds` : what a request from outside leaves behind that fails.
-/

namespace ModuleResolution

/-! ### Failing steps -/

namespace Project

variable (project : Project)

/-- The ways in which the module `key` cannot take an item by itself: without an imported module
that starts to load on this behalf. -/
inductive Rejects (r : Registry) (key : Key) (draft : Draft) : Item → Failure → Prop
  /-- A declaration takes a name that is bound. -/
  | collided {d failure} (hd : draft.declare key d = .error failure) :
    Rejects r key draft (.declaration d) failure
  /-- An import names no module. -/
  | astray {i failure} (hk : i.key project.layout key = .error failure) :
    Rejects r key draft (.importing i) failure
  /-- An imported module is known, but is being loaded or has failed. -/
  | unavailable {i target t failure} (hk : i.key project.layout key = .ok target)
    (ht : r.find? target = some t) (ha : r.remembered target t = .error failure) :
    Rejects r key draft (.importing i) failure
  /-- An imported module is ready, but does not offer what is asked of it, or a name is bound
  already. -/
  | refused {i target t failure scope} (hk : i.key project.layout key = .ok target)
    (ht : r.find? target = some t) (ha : r.remembered target t = .ok t)
    (hi : i.introduce key target (r.record t).exports t draft.scope = (.error failure, scope)) :
    Rejects r key draft (.importing i) failure

/-- The ways in which the module `key`, which is being loaded behind the handle `h`, fails by
itself. -/
inductive Breaks (r : Registry) (h : Handle) (key : Key) : Failure → Prop
  /-- Its items cannot be had. -/
  | unopened {failure} (ho : project.opened key = .error failure) : Breaks r h key failure
  /-- One of its items cannot be taken, those in front of it being taken. -/
  | item {before rest : List Item} {item : Item} {draft : Draft} {failure}
    (ho : project.opened key = .ok (before ++ item :: rest))
    (hd : draft.Mirrors r project.layout key before)
    (hi : project.Rejects r key draft item failure) : Breaks r h key failure
  /-- All items are taken, but a qualified name denotes nothing. -/
  | dangling {items : List Item} {draft : Draft} {failure} (ho : project.opened key = .ok items)
    (hd : draft.Mirrors r project.layout key items)
    (hm : r.module? h =
      some (draft.fill items { Module.start key with source := project.source key }))
    (hx : r.dangling? h (items.filterMap Item.declaration?) = some failure) :
    Breaks r h key failure

end Project

/-! ### Local failures -/

/-- The failure lies in one module: it tells neither of a circle nor of what failed before. -/
def Failure.isLocal : Failure → Bool
  | circular .. | repeated .. => false
  | _ => true

/-- The failure tells of a qualified name that denotes nothing of the right kind. -/
def Failure.isMisuse : Failure → Bool
  | notExported .. | notNamespace .. | notType .. => true
  | _ => false

theorem Failure.isLocal_of_isMisuse {f : Failure} (h : f.isMisuse = true) : f.isLocal = true := by
  cases f with
  | circular | repeated => cases h
  | _ => rfl

theorem Scope.isLocal_of_insert {s : Scope} {key : Key} {name : String} {meaning : Meaning}
    {span : Span} {f : Failure} (h : s.insert key name meaning span = .error f) :
    f.isLocal = true := by
  rw [insert] at h
  split at h
  · cases h
    rfl
  · cases h

theorem Draft.isLocal_of_declare {draft : Draft} {key : Key} {d : Declaration} {f : Failure}
    (h : draft.declare key d = .error f) : f.isLocal = true := by
  rw [declare] at h
  cases hi : draft.scope.insert key d.name.value (.own draft.declared) d.name.span with
  | error f' =>
    rw [hi] at h
    cases h
    exact Scope.isLocal_of_insert hi
  | ok scope =>
    rw [hi] at h
    cases h

namespace Import

variable {i : Import} {importer key : Key} {exports : Exports} {target : Handle}
  {scope scope' : Scope} {f : Failure}

theorem isLocal_of_key {layout : Layout} (h : i.key layout importer = .error f) :
    f.isLocal = true := by
  rw [Import.key] at h
  cases hk : layout.importKey importer.directory i.path.value with
  | error reason =>
    rw [hk] at h
    cases h
    rfl
  | ok key =>
    rw [hk] at h
    cases h

theorem isLocal_of_bindNames {requests : List Request}
    (h : bindNames importer key exports target requests scope = (.error f, scope')) :
    f.isLocal = true := by
  induction requests generalizing scope with
  | nil => cases h
  | cons q rest ih =>
    rw [bindNames] at h
    cases hx : exports.index? q.exported.value with
    | none =>
      simp only [hx] at h
      cases h
      rfl
    | some index =>
      simp only [hx] at h
      cases hi : scope.insert importer q.introduced.value (.imported ⟨target, index⟩)
          q.introduced.span with
      | error f' =>
        simp only [hi] at h
        cases h
        exact Scope.isLocal_of_insert hi
      | ok scope₁ =>
        simp only [hi] at h
        rcases hr : bindNames importer key exports target rest scope₁ with ⟨f' | names, scope₂⟩
        · rw [hr] at h
          cases h
          exact ih hr
        · rw [hr] at h
          cases h

theorem isLocal_of_introduce
    (h : i.introduce importer key exports target scope = (.error f, scope')) :
    f.isLocal = true := by
  unfold introduce at h
  cases hf : i.form with
  | whole alias? =>
    simp only [hf] at h
    cases hi : scope.insert importer (i.introduced alias? key).value (.whole target)
        (i.introduced alias? key).span with
    | error f' =>
      simp only [hi] at h
      cases h
      exact Scope.isLocal_of_insert hi
    | ok scope₁ =>
      simp only [hi] at h
      cases h
  | selected requests =>
    simp only [hf] at h
    rcases hr : bindNames importer key exports target requests scope with ⟨f' | names, scope₁⟩
    · rw [hr] at h
      cases h
      exact isLocal_of_bindNames hr
    · rw [hr] at h
      cases h

end Import

namespace Registry

variable {r : Registry} {importer : Key} {reference : Reference} {span : Span}
  {walked names : List String} {h target : Handle} {f : Failure}

theorem isMisuse_of_subject {d : DeclarationHandle}
    (hs : r.subject importer span walked d = .error f) : f.isMisuse = true := by
  rw [subject] at hs
  split at hs
  · cases hs
  · cases hs
    rfl

theorem isMisuse_of_follow (hf : r.follow importer reference span walked target names = .error f) :
    f.isMisuse = true := by
  induction names generalizing walked target with
  | nil =>
    cases hf
    rfl
  | cons name rest ih =>
    rw [follow] at hf
    split at hf
    · split at hf
      · exact isMisuse_of_subject hf
      · split at hf
        · cases hf
          rfl
        · cases hf
    · split at hf
      · split at hf
        · exact ih hf
        · split at hf
          · cases hf
            rfl
          · cases hf
      · cases hf
        rfl

theorem isMisuse_of_denotation (hd : r.denotation h reference span = .error f) :
    f.isMisuse = true := by
  unfold denotation at hd
  simp only at hd
  split at hd
  · cases hd
    rfl
  · split at hd
    · exact isMisuse_of_follow hd
    · exact isMisuse_of_subject hd
    · exact isMisuse_of_subject hd
    · cases hd
      rfl

theorem isMisuse_of_dangling? {declarations : List Declaration}
    (hd : r.dangling? h declarations = some f) : f.isMisuse = true := by
  obtain ⟨reference, -, hf⟩ := List.exists_of_findSome?_eq_some hd
  rw [fault?] at hf
  cases hden : r.denotation h reference.value reference.span with
  | ok x =>
    rw [hden] at hf
    cases hf
  | error f' =>
    rw [hden] at hf
    cases hf
    exact isMisuse_of_denotation hden

/-- A module that is known is not available while it is being loaded, and when it has failed. -/
theorem remembered_eq_error {key : Key} (ha : r.remembered key h = .error f) :
    ((r.record h).state = .loading ∧ f = .circular key (r.chain key)) ∨
      ∃ f', (r.record h).state = .failed f' ∧ f = .repeated key f'.underlying := by
  rw [remembered] at ha
  split at ha
  · cases ha
  · cases ha
    exact .inl ⟨‹_›, rfl⟩
  · cases ha
    exact .inr ⟨_, ‹_›, rfl⟩

end Registry

namespace Project

variable {project : Project} {r : Registry} {h : Handle} {key : Key} {f : Failure}

theorem isLocal_of_opened (ho : project.opened key = .error f) : f.isLocal = true := by
  unfold opened contents at ho
  cases hr : project.loader.read key with
  | error fault =>
    rw [hr] at ho
    cases ho
    cases fault <;> rfl
  | ok source =>
    simp only [hr] at ho
    cases hi : project.items key source with
    | error errors =>
      rw [hi] at ho
      cases ho
      rfl
    | ok items =>
      rw [hi] at ho
      change (Exports.build key _ >>= fun _ => Except.ok items) = _ at ho
      unfold Exports.build at ho
      split at ho
      · cases ho
        rfl
      · cases ho

/-- A module fails by itself with a local failure, or because one that it imports is known and not
available. -/
theorem Breaks.isLocal_or (hb : project.Breaks r h key f) :
    f.isLocal = true ∨ ∃ target t, project.Imports key target ∧ r.find? target = some t ∧
      r.remembered target t = .error f := by
  cases hb with
  | unopened ho => exact .inl (isLocal_of_opened ho)
  | dangling _ _ _ hx =>
    exact .inl (Failure.isLocal_of_isMisuse (Registry.isMisuse_of_dangling? hx))
  | item ho _ hi =>
    cases hi with
    | collided hd => exact .inl (Draft.isLocal_of_declare hd)
    | astray hk => exact .inl (Import.isLocal_of_key hk)
    | refused _ _ _ hi => exact .inl (Import.isLocal_of_introduce hi)
    | @unavailable i target t _ hk ht ha =>
      refine .inr ⟨target, t, imports_iff.2 ⟨i, ?_, hk⟩, ht, ha⟩
      rw [itemsAt_of_opened ho]
      simp

end Project

/-! ### Chains of modules being loaded -/

namespace Registry

/-- The modules behind `chain` fail with `failure`, the last one first. -/
def unwound (failure : Failure) (chain : List Handle) (r : Registry) : Registry :=
  chain.foldr (fun h r => r.fail h failure) r

variable {r : Registry} {failure : Failure} {chain : List Handle} {h : Handle}

theorem unwound_cons : r.unwound failure (h :: chain) = (r.unwound failure chain).fail h failure :=
  rfl

theorem find?_unwound (key : Key) : (r.unwound failure chain).find? key = r.find? key := by
  induction chain with
  | nil => rfl
  | cons h chain ih => exact ih

theorem module?_fail {t : Handle} : (r.fail h failure).module? t =
    if h = t then (r.module? t).map (fun m => { m with state := .failed failure })
    else r.module? t := by
  change (r.leave.update h fun m => { m with state := .failed failure }).module? t = _
  rw [module?_update]
  rfl

theorem keyOf_unwound : (r.unwound failure chain).keyOf = r.keyOf := by
  induction chain with
  | nil => rfl
  | cons h chain ih =>
    rw [← ih]
    exact keyOf_update (r := (r.unwound failure chain).leave) fun _ => rfl

theorem module?_unwound_of_notMem (hh : h ∉ chain) :
    (r.unwound failure chain).module? h = r.module? h := by
  induction chain with
  | nil => rfl
  | cons t chain ih =>
    rw [List.mem_cons, not_or] at hh
    rw [unwound_cons, module?_fail, if_neg (Ne.symm hh.1), ih hh.2]

theorem module?_unwound_of_mem (hh : h ∈ chain) : (r.unwound failure chain).module? h =
    (r.module? h).map fun m => { m with state := .failed failure } := by
  induction chain with
  | nil => cases hh
  | cons t chain ih =>
    rw [unwound_cons, module?_fail]
    by_cases ht : t = h
    · subst ht
      rw [if_pos rfl]
      by_cases hmem : t ∈ chain
      · rw [ih hmem, Option.map_map]
        rfl
      · rw [module?_unwound_of_notMem hmem]
    · rw [if_neg ht]
      exact ih ((List.mem_cons.1 hh).resolve_left (Ne.symm ht))

end Registry

/-- A request for the module `key`, which was not known in the registry `r`, has come to the
registry `r₁`: the modules behind `chain` are being loaded for it, and the last of them fails by
itself. -/
structure Project.Falls (project : Project) (r : Registry) (key : Key) (failure : Failure)
    (chain : List Handle) (r₁ : Registry) : Prop where
  /-- The modules that were known are as they were. -/
  modules : r.modules <+: r₁.modules
  head : chain.head? = some r.fresh
  asked : r₁.keyOf r.fresh = key
  active : r₁.active = r.active ++ chain.map r₁.keyOf
  /-- The chain goes in the order in which modules have entered. -/
  ascending : chain.Pairwise fun h t => h.index < t.index
  imports : (chain.map r₁.keyOf).IsChain project.Imports
  loading : ∀ h ∈ chain, ∃ m, r₁.module? h = some m ∧ m.state = .loading
  /-- What was entered beside the chain is ready. -/
  others : ∀ {h m}, r₁.module? h = some m → h ∉ chain → r.module? h = some m ∨ m.state = .ready
  breaks : ∃ last ∈ chain.getLast?, project.Breaks r₁ last (r₁.keyOf last) failure

namespace Project.Falls

variable {project : Project} {r r₀ r₁ : Registry} {key target : Key} {failure : Failure}
  {chain : List Handle} {m : Module} {source : String}

theorem single (hm : r.modules <+: r₁.modules) (ha : r₁.active = r.active ++ [key])
    (hfresh : r₁.module? r.fresh = some m) (hk : m.key = key) (hs : m.state = .loading)
    (hothers : ∀ {h m}, r₁.module? h = some m → h ≠ r.fresh →
      r.module? h = some m ∨ m.state = .ready)
    (hb : project.Breaks r₁ r.fresh key failure) : project.Falls r key failure [r.fresh] r₁ := by
  have hkey : r₁.keyOf r.fresh = key := by rw [Registry.keyOf_eq hfresh, hk]
  refine ⟨hm, rfl, hkey, ?_, List.pairwise_singleton _ _, .singleton _, ?_, ?_, ?_⟩
  · rw [ha, List.map_singleton, hkey]
  · intro h hh
    rw [List.mem_singleton.1 hh]
    exact ⟨m, hfresh, hs⟩
  · intro h n hn hh
    exact hothers hn fun he => hh (List.mem_singleton.2 he)
  · refine ⟨r.fresh, rfl, ?_⟩
    rw [hkey]
    exact hb

/-- The modules that have entered while a module is taken are ready, but for itself. -/
theorem others_of_completes (hc : (r.started key source).Completes r₁) {h : Handle}
    (hm : r₁.module? h = some m) (hh : h ≠ r.fresh) : r.module? h = some m ∨ m.state = .ready := by
  rcases hc.ready hm with hm | hs
  · rw [Registry.module?_started, if_neg hh] at hm
    exact .inl hm
  · exact .inr hs

theorem of_completes (hc : (r.started key source).Completes r₁)
    (hb : project.Breaks r₁ r.fresh key failure) : project.Falls r key failure [r.fresh] r₁ := by
  have hm : r.modules <+: r₁.modules := (List.prefix_append _ _).trans hc.modules
  exact single hm hc.active hc.toGrows.module?_fresh rfl rfl (others_of_completes hc) hb

theorem cons (hc : (r.started key source).Completes r₀)
    (hf : project.Falls r₀ target failure chain r₁) (hi : project.Imports key target) :
    project.Falls r key failure (r.fresh :: chain) r₁ := by
  have hfresh := Registry.module?_mono hf.modules hc.toGrows.module?_fresh
  have hkey : r₁.keyOf r.fresh = key := Registry.keyOf_eq hfresh
  obtain ⟨rest, rfl⟩ : ∃ rest, chain = r₀.fresh :: rest := by
    have hhead := hf.head
    cases chain with
    | nil => cases hhead
    | cons h rest =>
      cases hhead
      exact ⟨rest, rfl⟩
  -- the module asked for has entered before those below it
  have hlt : r.fresh.index < r₀.fresh.index := by
    have := hc.modules.length_le
    simp only [Registry.started, List.length_append, List.length_singleton] at this
    exact this
  refine ⟨?_, rfl, hkey, ?_, ?_, ?_, ?_, ?_, ?_⟩
  · exact ((List.prefix_append _ _).trans hc.modules).trans hf.modules
  · have hactive : r₀.active = r.active ++ [key] := hc.active
    rw [hf.active, hactive, List.append_assoc, ← hkey]
    rfl
  · refine List.pairwise_cons.2 ⟨?_, hf.ascending⟩
    intro t ht
    rcases List.mem_cons.1 ht with rfl | ht
    · exact hlt
    · exact Nat.lt_trans hlt (List.rel_of_pairwise_cons hf.ascending ht)
  · rw [List.map_cons, List.map_cons, hkey, List.isChain_cons_cons, hf.asked]
    refine ⟨hi, ?_⟩
    have himports := hf.imports
    rwa [List.map_cons, hf.asked] at himports
  · intro h hh
    rcases List.mem_cons.1 hh with rfl | hh
    · exact ⟨_, hfresh, rfl⟩
    · exact hf.loading h hh
  · intro h m hm hh
    rw [List.mem_cons, not_or] at hh
    rcases hf.others hm hh.2 with hm | hs
    · exact others_of_completes hc hm hh.1
    · exact .inr hs
  · rw [List.getLast?_cons_cons]
    exact hf.breaks

end Project.Falls

/-! ### Requests -/

/-- If the items of the module `key` cannot be taken, an item is rejected, or an imported module
starts to load and fails; what was entered before that is ready. -/
theorem Draft.Takes.falls {project : Project} {depth : Nat} {key : Key} {draft : Draft}
    {before items : List Item} {s s' : Session} {failure : Failure}
    (ht : Takes (project.visit depth) project.layout key draft items s (.error failure, s'))
    (hd : draft.Reached s.registry project.layout key before)
    (hroom : project.HasRoom depth s.registry) :
    (s.registry.Completes s'.registry ∧ ∃ taken item rest draft',
      before ++ items = taken ++ item :: rest ∧
      draft'.Mirrors s'.registry project.layout key taken ∧
      project.Rejects s'.registry key draft' item failure) ∨
    ∃ i target s₁, .importing i ∈ items ∧ i.key project.layout key = .ok target ∧
      s.registry.Completes s₁.registry ∧ s₁.registry.Coherent ∧
      s₁.registry.find? target = none ∧ project.visit depth target s₁ = (.error failure, s') := by
  generalize hout : (Except.error failure, s') = out at ht
  induction ht generalizing before with
  | done => cases hout
  | collided hdecl =>
    cases hout
    exact .inl ⟨.refl _, before, _, _, _, rfl, hd.mirrors, .collided hdecl⟩
  | astray hk =>
    cases hout
    exact .inl ⟨.refl _, before, _, _, _, rfl, hd.mirrors, .astray hk⟩
  | @failed draft i rest s target _ _ hk hv =>
    cases hout
    cases hf : s.registry.find? target with
    | none =>
      exact .inr ⟨i, target, s, List.mem_cons_self, hk, .refl _, hd.coherent, hf, hv⟩
    | some t =>
      -- a module that is known is answered for at once
      rw [project.visit_of_find? (hroom.depth_pos hd.coherent) hf] at hv
      obtain ⟨ha, rfl⟩ := Prod.mk.inj hv
      exact .inl ⟨.refl _, before, _, _, _, rfl, hd.mirrors, .unavailable hk hf ha⟩
  | @refused _ _ _ s target t _ _ _ hk hv hi =>
    cases hout
    obtain ⟨hf, hh⟩ := project.ready_of_visit hd.coherent hv
    obtain ⟨m, hm, hs⟩ := (hd.visited hv).coherent.mem_finished.1 hh
    have ha : s'.registry.remembered target t = .ok t := by
      refine Registry.remembered_eq_ok_iff.2 ⟨rfl, ?_⟩
      rw [Registry.record_eq hm, hs]
    exact .inl ⟨project.visit_completes depth target s t s' hv, before, _, _, _, rfl,
      (hd.visited hv).mirrors, .refused hk hf ha hi⟩
  | declared hdecl _ ih =>
    rw [List.append_cons]
    rcases ih (hd.declared hdecl) hroom hout with hown | ⟨i, target, s₁, hmem, hrest⟩
    · exact .inl hown
    · exact .inr ⟨i, target, s₁, List.mem_cons_of_mem _ hmem, hrest⟩
  | @bound _ _ _ s target t s₂ _ _ _ hk hv hi _ ih =>
    rw [List.append_cons]
    obtain ⟨hf, hh⟩ := project.ready_of_visit hd.coherent hv
    have hc := project.visit_completes depth target s t s₂ hv
    rcases ih ((hd.visited hv).bound hk hf hh hi) (hroom.congr_active hc.active) hout with
      ⟨hc', hown⟩ | ⟨i, target, s₁, hmem, hk', hc', hrest⟩
    · exact .inl ⟨hc.trans hc', hown⟩
    · exact .inr ⟨i, target, s₁, List.mem_cons_of_mem _ hmem, hk', hc.trans hc', hrest⟩

/-- **A request for a new module that fails goes down a chain of modules, all of which fail with
it.** -/
theorem Project.visit_falls (project : Project) (depth : Nat) (key : Key) (s : Session)
    (failure : Failure) (s' : Session) (hr : s.registry.Coherent)
    (hroom : project.HasRoom depth s.registry) (hn : s.registry.find? key = none)
    (hv : project.visit depth key s = (.error failure, s')) :
    ∃ chain r₁, project.Falls s.registry key failure chain r₁ ∧
      s'.registry = r₁.unwound failure chain := by
  induction depth generalizing key s s' with
  | zero => exact absurd (hroom.depth_pos hr) (Nat.lt_irrefl 0)
  | succ depth ih =>
    have hvisit := project.visits_visit depth key s
    rw [hv] at hvisit
    generalize hout : (Except.error failure, s') = out at hvisit
    -- while the module is being loaded, there is room below it
    have hopening : ∀ {items}, project.opened key = .ok items →
        Draft.empty.Reached (project.opening key s).registry project.layout key [] ∧
          project.HasRoom depth (project.opening key s).registry := by
      intro items ho
      rw [project.registry_opening]
      refine ⟨.start (hr.started hn _), hroom.step rfl ?_⟩
      exact project.loader.mem_served _ _ (read_of_opened ho)
    cases hvisit with
    | known hf =>
      rw [hn] at hf
      cases hf
    | ready => cases hout
    | refused _ ho =>
      cases hout
      refine ⟨[s.registry.fresh], (project.opening key s).registry, ?_, rfl⟩
      rw [project.registry_opening]
      exact .of_completes (.refl _) (.unopened ho)
    | stopped _ ho ht =>
      cases hout
      obtain ⟨hreached, hroom'⟩ := hopening ho
      rcases ht.falls hreached hroom' with ⟨hc, taken, item, rest, draft, hitems, hdraft, hi⟩ |
        ⟨i, target, s₁, hmem, hk, hc, hc₁, hf, hv'⟩
      · rw [project.registry_opening] at hc
        rw [List.nil_append] at hitems
        rw [hitems] at ho
        exact ⟨_, _, .of_completes hc (.item ho hdraft hi), rfl⟩
      · obtain ⟨chain, r₁, hfalls, hunwound⟩ :=
          ih target s₁ _ hc₁ (hroom'.congr_active hc.active) hf hv'
        have himports : project.Imports key target := by
          refine imports_iff.2 ⟨i, ?_, hk⟩
          rwa [itemsAt_of_opened ho]
        rw [project.registry_opening] at hc
        refine ⟨_, r₁, hfalls.cons hc himports, ?_⟩
        rw [Registry.unwound_cons, ← hunwound]
        rfl
    | @dangling items draft _ s₁ _ ho ht hx =>
      cases hout
      obtain ⟨hreached, -⟩ := hopening ho
      have hfilled := ht.reached hreached rfl
      have hc := ht.completes (fun target s h s' => project.visit_completes depth target s h s') rfl
      have hi := project.innermost_of_grows hc.toGrows
      rw [project.registry_opening] at hc
      refine ⟨[s.registry.fresh], (s₁.filled s.registry.fresh items draft).registry, ?_, rfl⟩
      have hfresh : (s₁.filled s.registry.fresh items draft).registry.module? s.registry.fresh =
          some (draft.fill items { Module.start key with source := project.source key }) := by
        change (s₁.registry.update _ _).module? _ = _
        rw [Registry.module?_update, if_pos rfl, hi.module?]
        rfl
      refine .single ?_ hc.active hfresh rfl rfl ?_ (.dangling ho ?_ hfresh hx)
      · exact (hc.toGrows.ended (draft.fill items) List.prefix_rfl).modules
      · intro h m hm hh
        change (s₁.registry.update _ _).module? _ = _ at hm
        rw [Registry.module?_update, if_neg (Ne.symm hh)] at hm
        exact Falls.others_of_completes hc hm hh
      · exact hfilled.mono (hfilled.coherent.preserves_update hi _)

/-! ### Requests from outside -/

theorem Failure.not_repeated_of_isLocal {f : Failure} (hf : f.isLocal = true) :
    f.isRepeated = false := by
  cases f <;> first | rfl | cases hf

namespace Project.Falls

variable {project : Project} {r r₁ : Registry} {key : Key} {failure : Failure}
  {chain : List Handle}

theorem entered (hf : project.Falls r key failure chain r₁) {h : Handle} (hh : h ∈ chain) :
    r.module? h = none := by
  obtain ⟨rest, rfl⟩ := List.head?_eq_some_iff.1 hf.head
  rw [Registry.module?, List.getElem?_eq_none_iff]
  rcases List.mem_cons.1 hh with rfl | hh
  · exact Nat.le_refl _
  · exact Nat.le_of_lt (List.rel_of_pairwise_cons hf.ascending hh)

/-- What the chain fails with lies in its last module, or that module imports one that is being
loaded, or one that had failed before. -/
theorem why (hf : project.Falls r key failure chain r₁) (hr : r.Coherent)
    (hr' : (r₁.unwound failure chain).Coherent) :
    failure.isLocal = true ∨
      (∃ last ∈ chain.getLast?, ∃ target ∈ r₁.active,
        project.Imports (r₁.keyOf last) target ∧ failure = .circular target (r₁.chain target)) ∨
      ∃ h m f target, r.module? h = some m ∧ m.state = .failed f ∧
        failure = .repeated target f.underlying := by
  obtain ⟨last, hlast, hb⟩ := hf.breaks
  rcases hb.isLocal_or with hlocal | ⟨target, t, hi, ht, ha⟩
  · exact .inl hlocal
  -- the module that the last one imports is known
  obtain ⟨m, hm, rfl⟩ : ∃ m, r₁.module? t = some m ∧ m.key = target := by
    obtain ⟨n, hn, hkey⟩ := hr'.find?_iff.1 ((Registry.find?_unwound target).trans ht)
    have hk := Registry.keyOf_eq hn
    rw [Registry.keyOf_unwound] at hk
    cases hm : r₁.module? t with
    | none =>
      by_cases hmem : t ∈ chain
      · rw [Registry.module?_unwound_of_mem hmem, hm] at hn
        cases hn
      · rw [Registry.module?_unwound_of_notMem hmem, hm] at hn
        cases hn
    | some m =>
      rw [Registry.keyOf_eq hm, hkey] at hk
      exact ⟨m, rfl, hk⟩
  -- it is on the chain, or it was known before, or it became ready
  have hcases : (t ∈ chain ∧ m.state = .loading) ∨ r.module? t = some m ∨ m.state = .ready := by
    by_cases hmem : t ∈ chain
    · obtain ⟨n, hn, hs⟩ := hf.loading t hmem
      rw [hm] at hn
      cases hn
      exact .inl ⟨hmem, hs⟩
    · exact .inr (hf.others hm hmem)
  have hstate := Registry.remembered_eq_error ha
  rw [Registry.record_eq hm] at hstate
  rcases hstate with ⟨hs, rfl⟩ | ⟨f, hs, rfl⟩
  · refine .inr (.inl ⟨last, hlast, m.key, ?_, hi, rfl⟩)
    rw [hf.active, List.mem_append]
    rcases hcases with ⟨hmem, -⟩ | hold | hready
    · right
      rw [← Registry.keyOf_eq hm]
      exact List.mem_map_of_mem hmem
    · exact .inl (hr.mem_active.2 ⟨t, m, hold, rfl, hs⟩)
    · rw [hs] at hready
      cases hready
  · rcases hcases with ⟨-, hloading⟩ | hold | hready
    · rw [hs] at hloading
      cases hloading
    · exact .inr (.inr ⟨t, m, f, m.key, hold, hs, rfl⟩)
    · rw [hs] at hready
      cases hready

theorem not_repeated (hf : project.Falls r key failure chain r₁) (hr : r.Coherent)
    (hr' : (r₁.unwound failure chain).Coherent)
    (hnone : ∀ h m f, r.module? h = some m → m.state ≠ .failed f) : failure.isRepeated = false := by
  rcases hf.why hr hr' with hlocal | ⟨_, _, _, _, _, rfl⟩ | ⟨h, m, f, _, hm, hs, -⟩
  · exact Failure.not_repeated_of_isLocal hlocal
  · rfl
  · exact absurd hs (hnone h m f hm)

end Project.Falls

/-- A request for the module `key` has failed with `failure`: it has found the registry `r`, and it
has left `r'` behind.  The modules that it has entered and that failed are those behind `chain`. -/
structure Project.Unwound (project : Project) (r r' : Registry) (key : Key) (failure : Failure)
    (chain : List Handle) : Prop where
  /-- What was known is as it was. -/
  kept : r.Grows r'
  /-- The chain starts with the module asked for, -/
  head : chain.head? = some r.fresh
  asked : r'.keyOf r.fresh = key
  /-- goes in the order in which modules have entered, -/
  ascending : chain.Pairwise fun h t => h.index < t.index
  /-- and each module on it imports the next one. -/
  imports : (chain.map r'.keyOf).IsChain project.Imports
  /-- The modules of the chain have entered and have failed with the one failure. -/
  failed : ∀ h ∈ chain, r.module? h = none ∧
    ∃ m, r'.module? h = some m ∧ m.state = .failed failure
  /-- All others that have entered are ready. -/
  others : ∀ h m, r'.module? h = some m → r.module? h = none → h ∉ chain →
    m.isReady ∧ h ∈ r'.finished
  /-- The failing step was one of the last module, while all of the chain was being loaded. -/
  origin : ∃ r₁, ∃ last ∈ chain.getLast?, r₁.active = chain.map r'.keyOf ∧
    project.Breaks r₁ last (r'.keyOf last) failure ∧ r' = r₁.unwound failure chain

/-- A request that goes down a chain leaves it unwound. -/
theorem Project.Falls.unwound {project : Project} {r r₁ : Registry} {key : Key} {failure : Failure}
    {chain : List Handle} (hf : project.Falls r key failure chain r₁) (ha : r.active = [])
    (hg : r.Grows (r₁.unwound failure chain)) (hc : (r₁.unwound failure chain).Coherent) :
    project.Unwound r (r₁.unwound failure chain) key failure chain where
  kept := hg
  head := hf.head
  asked := by
    rw [Registry.keyOf_unwound]
    exact hf.asked
  ascending := hf.ascending
  imports := by
    rw [Registry.keyOf_unwound]
    exact hf.imports
  failed := by
    intro h hh
    obtain ⟨m, hm, -⟩ := hf.loading h hh
    refine ⟨hf.entered hh, { m with state := .failed failure }, ?_, rfl⟩
    rw [Registry.module?_unwound_of_mem hh, hm]
    rfl
  others := by
    intro h m hm hnew hh
    have hm₁ := hm
    rw [Registry.module?_unwound_of_notMem hh] at hm₁
    rcases hf.others hm₁ hh with hold | hready
    · rw [hnew] at hold
      cases hold
    · exact ⟨Registry.isReady_iff.2 hready, hc.mem_finished.2 ⟨m, hm, hready⟩⟩
  origin := by
    obtain ⟨last, hlast, hb⟩ := hf.breaks
    rw [Registry.keyOf_unwound]
    refine ⟨r₁, last, hlast, ?_, hb, rfl⟩
    rw [hf.active, ha, List.nil_append]

/-- **A request for a new module that fails leaves one chain of failed modules behind**, whatever
was asked before, and with whatever project each request was met: from the module asked for, each
imports the next one, up to the one that fails by itself, and all of them have failed with what the
request is answered with.  Everything else that has entered is ready.  Where nothing had failed
before, the failure is not a repeated one. -/
theorem Project.obtain_unwinds (project : Project) (demands : List (Project × Demand)) {key : Key}
    {failure : Failure} (hn : (Session.after demands).registry.find? key = none)
    (hv : (project.obtain key (Session.after demands)).1 = .error failure) :
    ∃ chain, project.Unwound (Session.after demands).registry
        (project.obtain key (Session.after demands)).2.registry key failure chain ∧
      ((∀ h m f, (Session.after demands).registry.module? h = some m → m.state ≠ .failed f) →
        failure.isRepeated = false) := by
  obtain ⟨hr, hactive⟩ := Session.coherent_after demands
  obtain ⟨chain, r₁, hfalls, hunwound⟩ := project.visit_falls project.depth key
    (Session.after demands) failure _ hr (.top hactive) hn (Prod.ext hv rfl)
  have hg := project.visit_grows project.depth key (Session.after demands)
  have hc := (project.visit_coherent project.depth key (Session.after demands) hr).1
  rw [hunwound] at hg hc
  refine ⟨chain, ?_, hfalls.not_repeated hr hc⟩
  rw [obtain, hunwound]
  exact hfalls.unwound hactive hg hc

/-- Two modules fail below the one asked for, which has imported another before. -/
def Project.landslide : Project :=
  .ofTexts [("main.hash", "import(\"lib\"); import(\"a\");"), ("lib.hash", "P := struct();"),
    ("a.hash", "import(\"lib\"); import(\"b\");"), ("b.hash", "import(\"lib\"); lib := 1;")]

/-- The three modules on the way to the last one fail with it, in a registry that holds one module
that is ready already; the module between them is ready. -/
theorem Project.landslide_unwinds :
    let s := Session.after [(.ofTexts [("z.hash", "z := 1;")], .entry "z")]
    let key : Key := ⟨["p"], ["main.hash"]⟩
    let failure : Failure := .collision ⟨["p"], ["b.hash"]⟩ "lib" ⟨7, 12⟩ ⟨15, 18⟩
    s.registry.find? key = none ∧ (landslide.obtain key s).1 = .error failure ∧
      (landslide.obtain key s).2.registry.modules.map Module.state =
        [.ready, .failed failure, .ready, .failed failure, .failed failure] ∧
      ∃ chain, landslide.Unwound s.registry (landslide.obtain key s).2.registry key failure chain ∧
        ((∀ h m f, s.registry.module? h = some m → m.state ≠ .failed f) →
          failure.isRepeated = false) := by
  intro s key failure
  have hn : s.registry.find? key = none := by decide +kernel
  have hv : (landslide.obtain key s).1 = .error failure := by decide +kernel
  exact ⟨hn, hv, by decide +kernel, Project.obtain_unwinds landslide _ hn hv⟩

end ModuleResolution
