import ModuleResolution.Proofs.Depth
import ModuleResolution.Proofs.Lasting
import ModuleResolution.Proofs.Validity

/-!
# Records that mirror the source

The record of a module that is ready says what the items of its source say: its declarations, the
exported ones among them, the names that each item introduces with what they stand for, what the
imports have bound, and which modules are imported.

* `Registry.Introduces` : what items introduce, item by item.
* `Draft.Mirrors` : what is kept of items while they are taken is what they introduce.
* `Project.Mirrors` : the record of a module says what its items say.
* `Session.ready_mirrors` : it does so for every module that is ready, after all requests.
-/

namespace ModuleResolution

/-! ### What items introduce -/

/-- The requests for names of the module behind `target`, which exports `exports`, come to the
entries `entries` of a scope and to the bound names `names`. -/
inductive Import.Grants (exports : Exports) (target : Handle) :
    List Import.Request → List Scope.Entry → List Binding.Name → Prop
  | nil : Grants exports target [] [] []
  /-- The next requested name is exported. -/
  | cons {q rest index entries names} (hx : exports.index? q.exported.value = some index)
    (hrest : Grants exports target rest entries names) :
    Grants exports target (q :: rest)
      (⟨q.introduced.value, .imported ⟨target, index⟩, q.introduced.span⟩ :: entries)
      (⟨q.exported.value, q.introduced.value, ⟨target, index⟩⟩ :: names)

/-- The items of the module `key`, with `n` declarations in front of them, introduce the entries
`entries` of its scope, and their imports bind `bindings`. -/
inductive Registry.Introduces (r : Registry) (layout : Layout) (key : Key) :
    (n : Nat) → List Item → List Scope.Entry → List Binding → Prop
  | nil {n} : Introduces r layout key n [] [] []
  /-- A declaration introduces its name. -/
  | declaration {n d items entries bindings}
    (hrest : Introduces r layout key (n + 1) items entries bindings) :
    Introduces r layout key n (.declaration d :: items)
      (⟨d.name.value, .own n, d.name.span⟩ :: entries) bindings
  /-- An import of a whole module introduces its alias, or the name of the file of the module, at
  the path. -/
  | whole {n i alias? name target t items entries bindings} (form : i.form = .whole alias?)
    (hk : i.key layout key = .ok target) (ht : r.find? target = some t)
    (hname : name = alias?.getD ⟨target.defaultName, i.path.span⟩)
    (hrest : Introduces r layout key n items entries bindings) :
    Introduces r layout key n (.importing i :: items)
      (⟨name.value, .whole t, name.span⟩ :: entries) (.whole name.value t :: bindings)
  /-- An import of selected names introduces each of them. -/
  | selected {n i requests target t items granted names entries bindings}
    (form : i.form = .selected requests) (hk : i.key layout key = .ok target)
    (ht : r.find? target = some t)
    (hgranted : Import.Grants (r.record t).exports t requests granted names)
    (hrest : Introduces r layout key n items entries bindings) :
    Introduces r layout key n (.importing i :: items) (granted ++ entries)
      (.selected t names :: bindings)

theorem Import.Grants.of_contains {exports : Exports} {target : Handle} {requests : List Request}
    (h : ∀ q ∈ requests, exports.contains q.exported.value) :
    Grants exports target requests (requests.filterMap (Request.entry? exports target))
      (requests.filterMap (Request.bound? exports target)) := by
  induction requests with
  | nil => exact .nil
  | cons q rest ih =>
    have hq := h q List.mem_cons_self
    rw [Exports.contains_eq, Option.isSome_iff_exists] at hq
    obtain ⟨index, hx⟩ := hq
    have hrest := ih fun q' hq' => h q' (List.mem_cons_of_mem _ hq')
    simpa [Request.entry?, Request.bound?, hx] using hrest.cons hx

namespace Registry

namespace Introduces

variable {r r' : Registry} {layout : Layout} {key : Key} {n : Nat} {items items' : List Item}
  {entries entries' : List Scope.Entry} {bindings bindings' : List Binding}

theorem append (h : r.Introduces layout key n items entries bindings)
    (h' : r.Introduces layout key (n + (items.filterMap Item.declaration?).length) items' entries'
      bindings') :
    r.Introduces layout key n (items ++ items') (entries ++ entries') (bindings ++ bindings') := by
  induction h with
  | nil => exact h'
  | declaration _ ih =>
    refine .declaration (ih ?_)
    simpa [Item.declaration?, Nat.add_assoc, Nat.add_comm, Nat.add_left_comm] using h'
  | whole form hk ht hname _ ih =>
    exact .whole form hk ht hname (ih (by simpa [List.filterMap_cons, Item.declaration?] using h'))
  | selected form hk ht hgranted _ ih =>
    rw [List.append_assoc]
    refine .selected form hk ht hgranted (ih ?_)
    simpa [List.filterMap_cons, Item.declaration?] using h'

/-- An import introduces what it binds, if it asks for exported names only. -/
theorem of_import {i : Import} {target : Key} {t : Handle} (hk : i.key layout key = .ok target)
    (ht : r.find? target = some t)
    (hq : ∀ name ∈ i.requested, (r.record t).exports.contains name) :
    r.Introduces layout key n [.importing i] (i.entries target (r.record t).exports t)
      [i.binding target (r.record t).exports t] := by
  unfold Import.entries Import.binding
  unfold Import.requested at hq
  cases hf : i.form with
  | whole alias? => exact .whole hf hk ht rfl .nil
  | selected requests =>
    simp only [hf, List.forall_mem_map] at hq
    have hs : r.Introduces layout key n [.importing i] (_ ++ []) _ :=
      .selected hf hk ht (.of_contains hq) .nil
    simpa using hs

/-- What items introduce, they introduce where the modules that they import are still known. -/
theorem mono (h : r.Introduces layout key n items entries bindings) (hp : r.Preserves r')
    (hb : ∀ b ∈ bindings, b.target ∈ r.finished) :
    r'.Introduces layout key n items entries bindings := by
  induction h with
  | nil => exact .nil
  | declaration _ ih => exact .declaration (ih hb)
  | whole form hk ht hname _ ih =>
    exact .whole form hk (hp.find? ht) hname (ih fun b hmem => hb b (List.mem_cons_of_mem _ hmem))
  | @selected _ _ _ _ t _ _ names _ _ form hk ht hgranted _ ih =>
    have hfin : t ∈ r.finished := hb (.selected t names) List.mem_cons_self
    rw [← hp.record hfin] at hgranted
    exact .selected form hk (hp.find? ht) hgranted
      (ih fun b hmem => hb b (List.mem_cons_of_mem _ hmem))

end Introduces

end Registry

/-! ### Drafts -/

namespace Draft

/-- The draft `draft` of the module `key` says what the items `items` introduce. -/
structure Mirrors (r : Registry) (layout : Layout) (key : Key) (items : List Item) (draft : Draft) :
    Prop where
  introduced : r.Introduces layout key 0 items draft.scope.entries draft.bindings
  names_nodup : (draft.scope.entries.map Scope.Entry.name).Nodup
  dependencies : draft.dependencies = (draft.bindings.map Binding.target).eraseDups
  declared : draft.declared = (items.filterMap Item.declaration?).length

theorem map_value_names (s : Scope) :
    s.names.map Located.value = s.entries.map Scope.Entry.name := by
  simp [Scope.names, Function.comp_def]

/-- What holds while the items of the module `key` are taken, of which `items` are. -/
structure Reached (r : Registry) (layout : Layout) (key : Key) (items : List Item) (draft : Draft) :
    Prop where
  coherent : r.Coherent
  mentioned : ∀ t ∈ draft.handles, t ∈ r.finished
  mirrors : draft.Mirrors r layout key items

namespace Reached

variable {r r' : Registry} {layout : Layout} {key target : Key} {items : List Item}
  {draft draft' : Draft} {d : Declaration} {i : Import} {h : Handle}

theorem start (hr : r.Coherent) : Draft.empty.Reached r layout key [] where
  coherent := hr
  mentioned := by
    intro t ht
    cases ht
  mirrors := ⟨.nil, List.nodup_nil, rfl, rfl⟩

theorem mono (hd : draft.Reached r layout key items) (hp : r.Preserves r') :
    draft.Mirrors r' layout key items := by
  refine { hd.mirrors with introduced := hd.mirrors.introduced.mono hp ?_ }
  intro b hb
  refine hd.mentioned _ (List.mem_append_left _ (List.mem_append_right _ ?_))
  exact List.mem_flatMap.2 ⟨b, hb, b.target_mem_handles⟩

theorem grows (hd : draft.Reached r layout key items) (hr : r'.Coherent) (hg : r.Grows r') :
    draft.Reached r' layout key items where
  coherent := hr
  mentioned t ht := hg.mem_finished (hd.mentioned t ht)
  mirrors := hd.mono (hd.coherent.preserves hg.modules hg.handles)

theorem declared (hd : draft.Reached r layout key items)
    (hdecl : draft.declare key d = .ok draft') :
    draft'.Reached r layout key (items ++ [.declaration d]) := by
  obtain ⟨hintroduced, hnodup, hdeps, hcount⟩ := hd.mirrors
  rcases draft.declare_spec key d with ⟨he, hclaim⟩ | ⟨_, he, -⟩
  · cases hdecl.symm.trans he
    rw [← map_value_names] at hnodup
    obtain ⟨more, -, hmore, hnodup'⟩ := (claim_eq_ok_iff hnodup).1 hclaim
    refine ⟨hd.coherent, ?_, ?_, ?_, hdeps, ?_⟩
    · rw [handles_declaring]
      exact hd.mentioned
    · have := hintroduced.append (.declaration (d := d) (.nil (r := r)))
      simpa [Draft.declaring, Scope.append, hcount] using this
    · rw [← map_value_names, hmore]
      exact hnodup'
    · simp [Draft.declaring, hcount, Item.declaration?]
  · cases hdecl.symm.trans he

theorem bound {binding : Binding} {scope : Scope} (hd : draft.Reached r layout key items)
    (hk : i.key layout key = .ok target) (hf : r.find? target = some h) (hh : h ∈ r.finished)
    (hi : i.introduce key target (r.record h).exports h draft.scope = (.ok binding, scope)) :
    (draft.bound binding scope).Reached r layout key (items ++ [.importing i]) := by
  obtain ⟨hintroduced, hnodup, hdeps, hcount⟩ := hd.mirrors
  rcases i.introduce_spec draft.scope with ⟨he, hclaim⟩ | ⟨_, _, he, -⟩
  · cases hi.symm.trans he
    rw [← map_value_names] at hnodup
    obtain ⟨more, hmore, hnames, hnodup'⟩ := (claim_eq_ok_iff hnodup).1 hclaim
    obtain ⟨hrequested, -⟩ := Import.claims_eq_iff.1 hmore
    refine ⟨hd.coherent, ?_, ?_, ?_, ?_, ?_⟩
    · intro t ht
      rcases mem_handles_bound ht with ht | rfl
      · exact hd.mentioned t ht
      · exact hh
    · exact hintroduced.append (.of_import hk hf hrequested)
    · rw [← map_value_names]
      change ((draft.scope.append _).names.map _).Nodup
      rw [hnames]
      exact hnodup'
    · -- a target that is there already is a later repetition
      simp only [Draft.bound, Import.target_binding, List.map_append, List.map_singleton, hdeps,
        List.contains_iff_mem, List.mem_eraseDups]
      by_cases hmem : h ∈ draft.bindings.map Binding.target
      · rw [if_pos hmem, eraseDups_append_cons hmem, List.append_nil]
      · have hnew : [h].removeAll (draft.bindings.map Binding.target) = [h] :=
          List.filter_eq_self.2 (by simpa using hmem)
        rw [if_neg hmem, List.eraseDups_append, hnew]
        rfl
    · simp [Draft.bound, hcount, Item.declaration?]
  · cases hi.symm.trans he

end Reached

end Draft

theorem Draft.Reached.visited {project : Project} {depth : Nat} {key target : Key} {draft : Draft}
    {items : List Item} {s s' : Session} {result : Except Failure Handle}
    (hd : draft.Reached s.registry project.layout key items)
    (hv : project.visit depth target s = (result, s')) :
    draft.Reached s'.registry project.layout key items := by
  have hc := (project.visit_coherent depth target s hd.coherent).1
  have hg := project.visit_grows depth target s
  rw [hv] at hc hg
  exact hd.grows hc hg

theorem Project.ready_of_visit (project : Project) {depth : Nat} {target : Key} {s s' : Session}
    {h : Handle} (hs : s.registry.Coherent) (hv : project.visit depth target s = (.ok h, s')) :
    s'.registry.find? target = some h ∧ h ∈ s'.registry.finished := by
  have hc := (project.visit_coherent depth target s hs).2 h
  rw [hv] at hc
  exact ⟨project.find?_of_visit hs hv, hc rfl⟩

/-- When all items are taken, what is kept of them is what they introduce. -/
theorem Draft.Takes.reached {project : Project} {depth : Nat} {key : Key} {draft draft' : Draft}
    {before items : List Item} {s : Session} {out : Except Failure Draft × Session}
    (ht : Takes (project.visit depth) project.layout key draft items s out)
    (hd : draft.Reached s.registry project.layout key before) (hout : out.1 = .ok draft') :
    draft'.Reached out.2.registry project.layout key (before ++ items) := by
  induction ht generalizing before with
  | done =>
    cases hout
    rwa [List.append_nil]
  | collided | astray | failed | refused => cases hout
  | declared hdecl _ ih =>
    rw [List.append_cons]
    exact ih (hd.declared hdecl) hout
  | bound hk hv hi _ ih =>
    rw [List.append_cons]
    obtain ⟨hf, hh⟩ := project.ready_of_visit hd.coherent hv
    exact ih ((hd.visited hv).bound hk hf hh hi) hout

/-! ### Records -/

/-- The record `m` says what the items `items` of its source say. -/
structure Project.Mirrors (project : Project) (r : Registry) (items : List Item) (m : Module) :
    Prop where
  read : project.loader.read m.key = .ok m.source
  parsed : project.items m.key m.source = .ok items
  declarations : m.declarations = items.filterMap Item.declaration?
  /-- The exports are the exported declarations, each with its position. -/
  exports : m.exports.entries =
    (m.declarations.zipIdx.filter (·.1.isExported)).map fun d => (d.1.name.value, d.2)
  /-- The scope and the bindings are what the items introduce, in their order. -/
  introduced : r.Introduces project.layout m.key 0 items m.scope.entries m.bindings
  names_nodup : (m.scope.entries.map Scope.Entry.name).Nodup
  /-- The imported modules, without later repetitions. -/
  dependencies : m.dependencies = (m.bindings.map Binding.target).eraseDups

/-- The record `m` says what its items say, as one of the projects in `among` reads them. -/
def Registry.Mirrored (among : Project → Prop) (r : Registry) (_ : Handle) (m : Module) : Prop :=
  ∃ project, among project ∧ ∃ items, project.Mirrors r items m

theorem Project.Mirrors.mono {project : Project} {r r' : Registry} {items : List Item} {h : Handle}
    {m : Module} (hm : project.Mirrors r items m) (hp : r.Preserves r') (hr : r.Coherent)
    (hmod : r.module? h = some m) : project.Mirrors r' items m := by
  refine { hm with introduced := hm.introduced.mono hp ?_ }
  intro b hb
  refine hr.mentioned hmod (List.mem_append_left _ (List.mem_append_right _ ?_))
  exact List.mem_flatMap.2 ⟨b, hb, b.target_mem_handles⟩

/-- A module that is filled in says what its items say. -/
theorem Project.Mirrors.filled {project : Project} {r : Registry} {key : Key} {items : List Item}
    {draft : Draft} (ho : project.opened key = .ok items)
    (hd : draft.Mirrors r project.layout key items) (state : Module.State) :
    project.Mirrors r items
      { draft.fill items { Module.start key with source := project.source key } with state } where
  read := read_of_opened ho
  parsed := by
    have hc := (contents_of_opened ho).1
    rw [contents, read_of_opened ho] at hc
    change (project.items key (project.source key)).mapError _ = _ at hc
    change project.items key (project.source key) = _
    cases hi : project.items key (project.source key) with
    | error errors =>
      rw [hi] at hc
      cases hc
    | ok items' =>
      rw [hi] at hc
      cases hc
      rfl
  declarations := rfl
  exports := rfl
  introduced := hd.introduced
  names_nodup := hd.names_nodup
  dependencies := hd.dependencies

/-- **The record of a module says what its items say when it becomes ready**, and ever after. -/
theorem Project.establishes_mirrored {among : Project → Prop} (project : Project)
    (hp : among project) : project.Establishes (Registry.Mirrored among) where
  lasts := by
    rintro r r' h m hr hpreserves hm - ⟨project', hp', items, hmirrors⟩
    exact ⟨project', hp', items, hmirrors.mono hpreserves hr hm⟩
  ready := by
    intro depth s key items draft s' hr
    have hreached := hr.takes.reached (.start hr.opening_coherent) rfl
    have hpreserves := hr.taken_coherent.1.preserves_ended hr.innermost
      (fun m => { draft.fill items m with state := .ready })
      (s'.registry.finished ++ [s.registry.fresh])
    rw [Session.registry_finish_filled]
    exact ⟨project, hp, items, .filled hr.opened (hreached.mono hpreserves) .ready⟩

/-! ### Handles of declarations -/

/-- The declarations that a name in the module behind `h` stands for. -/
def Meaning.declarationHandles (h : Handle) : Meaning → List DeclarationHandle
  | own index => [⟨h, index⟩]
  | whole _ => []
  | imported d => [d]

/-- The declarations that an import has bound. -/
def Binding.declarationHandles : Binding → List DeclarationHandle
  | whole _ _ => []
  | selected _ names => names.map Binding.Name.declaration

/-- The declarations that the record of the module behind `h` mentions. -/
def Module.declarationHandles (h : Handle) (m : Module) : List DeclarationHandle :=
  m.exports.entries.map (fun e => ⟨h, e.2⟩) ++
    m.scope.entries.flatMap (·.meaning.declarationHandles h) ++
    m.bindings.flatMap Binding.declarationHandles

/-- The module behind the handle of a declaration is imported, and exports the declaration. -/
def Registry.Offers (r : Registry) (bindings : List Binding) (d : DeclarationHandle) : Prop :=
  (∃ b ∈ bindings, b.target = d.owner) ∧
    ∃ name, (r.record d.owner).exports.index? name = some d.index

namespace Registry

variable {r : Registry} {layout : Layout} {key : Key} {n : Nat} {items : List Item}
  {entries : List Scope.Entry} {bindings : List Binding} {h : Handle} {d : DeclarationHandle}

theorem Offers.cons (hd : r.Offers bindings d) (b : Binding) : r.Offers (b :: bindings) d := by
  obtain ⟨⟨b', hb', ht⟩, hname⟩ := hd
  exact ⟨⟨b', List.mem_cons_of_mem _ hb', ht⟩, hname⟩

end Registry

theorem Import.Grants.spec {exports : Exports} {t : Handle} {requests : List Request}
    {entries : List Scope.Entry} {names : List Binding.Name}
    (hg : Grants exports t requests entries names) {h : Handle} {d : DeclarationHandle}
    (hd : d ∈ entries.flatMap (·.meaning.declarationHandles h) ∨
      d ∈ names.map Binding.Name.declaration) :
    d.owner = t ∧ ∃ name, exports.index? name = some d.index := by
  induction hg with
  | nil => simp at hd
  | @cons q _ index _ _ hx _ ih =>
    simp only [List.flatMap_cons, List.map_cons, List.mem_append, List.mem_cons,
      Meaning.declarationHandles, List.not_mem_nil, or_false] at hd
    rcases hd with (rfl | hd) | (rfl | hd)
    · exact ⟨rfl, _, hx⟩
    · exact ih (.inl hd)
    · exact ⟨rfl, _, hx⟩
    · exact ih (.inr hd)

/-- The declarations that items mention are among their own, or exported by what they import. -/
theorem Registry.Introduces.offers {r : Registry} {layout : Layout} {key : Key} {n : Nat}
    {items : List Item} {entries : List Scope.Entry} {bindings : List Binding}
    (hi : r.Introduces layout key n items entries bindings) {h : Handle} {d : DeclarationHandle}
    (hd : d ∈ entries.flatMap (·.meaning.declarationHandles h) ∨
      d ∈ bindings.flatMap Binding.declarationHandles) :
    (d.owner = h ∧ d.index < n + (items.filterMap Item.declaration?).length) ∨
      r.Offers bindings d := by
  induction hi with
  | nil => simp at hd
  | @declaration n declaration items _ _ _ ih =>
    have hlen : n + (List.filterMap Item.declaration? (.declaration declaration :: items)).length =
        n + 1 + (items.filterMap Item.declaration?).length := by
      simp only [List.filterMap_cons, Item.declaration?, List.length_cons]
      omega
    rw [hlen]
    simp only [List.flatMap_cons, List.mem_append, Meaning.declarationHandles,
      List.mem_singleton] at hd
    rcases hd with (rfl | hd) | hd
    · refine .inl ⟨rfl, ?_⟩
      change n < _
      omega
    · exact ih (.inl hd)
    · exact ih (.inr hd)
  | whole form hk ht hname _ ih =>
    simp only [List.flatMap_cons, Meaning.declarationHandles, Binding.declarationHandles,
      List.nil_append] at hd
    exact (ih hd).imp_right fun ho => ho.cons _
  | @selected _ _ _ _ t _ granted names _ rest form hk ht hgranted _ ih =>
    simp only [List.flatMap_append, List.flatMap_cons, List.mem_append,
      Binding.declarationHandles] at hd
    -- what is requested is exported by the module that this import names
    have hhere : d ∈ granted.flatMap (·.meaning.declarationHandles h) ∨
        d ∈ names.map Binding.Name.declaration → r.Offers (.selected t names :: rest) d := by
      intro hd
      obtain ⟨rfl, hname⟩ := hgranted.spec hd
      exact ⟨⟨_, List.mem_cons_self, rfl⟩, hname⟩
    rcases hd with (hd | hd) | (hd | hd)
    · exact .inr (hhere (.inl hd))
    · exact (ih (.inl hd)).imp_right fun ho => ho.cons _
    · exact .inr (hhere (.inr hd))
    · exact (ih (.inr hd)).imp_right fun ho => ho.cons _

theorem Exports.mem_of_index? {e : Exports} {name : String} {index : Nat}
    (hx : e.index? name = some index) : ∃ entry ∈ e.entries, entry.2 = index := by
  obtain ⟨entry, he, rfl⟩ := Option.map_eq_some_iff.1 hx
  exact ⟨entry, List.mem_of_find?_eq_some he, rfl⟩

theorem Project.Mirrors.exported {project : Project} {r : Registry} {items : List Item} {m : Module}
    (hm : project.Mirrors r items m) {entry : String × Nat} (he : entry ∈ m.exports.entries) :
    entry.2 < m.declarations.length := by
  rw [hm.exports] at he
  obtain ⟨⟨d, index⟩, hd, rfl⟩ := List.mem_map.1 he
  have hget := List.mk_mem_zipIdx_iff_getElem?.1 (List.mem_of_mem_filter hd)
  exact (List.getElem?_eq_some_iff.1 hget).1

theorem Registry.declaration?_of_lt {r : Registry} {d : DeclarationHandle} {m : Module}
    (hm : r.module? d.owner = some m) (hd : d.index < m.declarations.length) :
    ∃ x, r.declaration? d = some x := by
  rw [declaration?, hm]
  exact ⟨_, List.getElem?_eq_getElem hd⟩

theorem Project.Mirrors.declared {among : Project → Prop} {project : Project} {r : Registry}
    {items : List Item} {h : Handle} {m : Module} (hm : project.Mirrors r items m)
    (hr : r.Coherent) (ha : r.Each (Registry.Mirrored among)) (hmod : r.module? h = some m)
    {d : DeclarationHandle} (hd : d ∈ m.declarationHandles h) : ∃ x, r.declaration? d = some x := by
  rw [Module.declarationHandles, List.append_assoc, List.mem_append, List.mem_append,
    List.mem_map] at hd
  rcases hd with ⟨entry, he, rfl⟩ | hd
  · exact Registry.declaration?_of_lt hmod (hm.exported he)
  · rcases hm.introduced.offers hd with ⟨rfl, hlt⟩ | ⟨⟨b, hb, ht⟩, name, hx⟩
    · rw [Nat.zero_add, ← hm.declarations] at hlt
      exact Registry.declaration?_of_lt hmod hlt
    · -- the imported module is ready, so that its record is accurate too
      have hfin : d.owner ∈ r.finished := by
        rw [← ht]
        refine hr.mentioned hmod (List.mem_append_left _ (List.mem_append_right _ ?_))
        exact List.mem_flatMap.2 ⟨b, hb, b.target_mem_handles⟩
      obtain ⟨n, hn, hs⟩ := hr.mem_finished.1 hfin
      obtain ⟨project', -, items', hmirrors⟩ := ha _ n hn hs
      rw [Registry.record_eq hn] at hx
      obtain ⟨entry, he, hindex⟩ := Exports.mem_of_index? hx
      refine Registry.declaration?_of_lt hn ?_
      rw [← hindex]
      exact hmirrors.exported he

/-! ### After all requests -/

/-- **The record of a module that is ready says exactly what its source says**, whatever was asked
for, and with whatever project each request was met.  The modules that it mentions are ready, and
the declarations that it mentions are there. -/
theorem Session.ready_mirrors (demands : List (Project × Demand)) {h : Handle} {m : Module}
    (hm : (Session.after demands).registry.module? h = some m) (hr : m.isReady) :
    (∃ d ∈ demands, ∃ items, d.1.Mirrors (Session.after demands).registry items m) ∧
      (∀ t ∈ m.handles, ∃ n, (Session.after demands).registry.module? t = some n ∧ n.isReady) ∧
      ∀ d ∈ m.declarationHandles h,
        ∃ x, (Session.after demands).registry.declaration? d = some x := by
  obtain ⟨hc, -⟩ := Session.coherent_after demands
  have ha := Session.each_after (P := Registry.Mirrored fun project => ∃ d ∈ demands, d.1 = project)
    fun d hd => d.1.establishes_mirrored ⟨d, hd, rfl⟩
  obtain ⟨project, ⟨d, hd, rfl⟩, items, hmirrors⟩ := ha h m hm (Registry.isReady_iff.1 hr)
  refine ⟨⟨d, hd, items, hmirrors⟩, ?_, ?_⟩
  · intro t ht
    obtain ⟨n, hn, hs⟩ := hc.mem_finished.1 (hc.mentioned hm ht)
    exact ⟨n, hn, Registry.isReady_iff.2 hs⟩
  · intro x hx
    exact hmirrors.declared hc ha hm hx

/-- A module with imports of each form, two of them of one module, one of whose declarations is
hidden. -/
def Project.album : Project :=
  { Project.ofTexts
      [("main.hash", "import(\"lib\"); x: lib::P = 1; y := import(\"./lib.hash\"); " ++
          "\x7bP: Q, o\x7d := import(\"lib\");"),
        ("lib.hash", "z := 1; P := struct(); o := 2;")] with
    items := Program.itemsHiding fun _ => ["z"] }

/-- The records of the album: the three imports introduce four names, and name one module. -/
theorem Project.album_mirrors :
    let r := (Session.after [(album, .entry "main")]).registry
    let m := r.record ⟨0⟩
    r.module? ⟨0⟩ = some m ∧ m.isReady ∧
      m.scope.entries.map Scope.Entry.name = ["lib", "x", "y", "Q", "o"] ∧
      m.dependencies = [⟨1⟩] ∧ (r.record ⟨1⟩).exports.entries = [("P", 1), ("o", 2)] ∧
      (∃ d ∈ [(album, Demand.entry "main")], ∃ items, d.1.Mirrors r items m) ∧
      (∀ t ∈ m.handles, ∃ n, r.module? t = some n ∧ n.isReady) ∧
      ∀ d ∈ m.declarationHandles ⟨0⟩, ∃ x, r.declaration? d = some x := by
  intro r m
  obtain ⟨hm, hr, hnames, htargets, hexports⟩ : r.module? ⟨0⟩ = some m ∧ m.isReady ∧
      m.scope.entries.map Scope.Entry.name = ["lib", "x", "y", "Q", "o"] ∧
      m.dependencies = [⟨1⟩] ∧ (r.record ⟨1⟩).exports.entries = [("P", 1), ("o", 2)] := by
    decide +kernel
  exact ⟨hm, hr, hnames, htargets, hexports,
    Session.ready_mirrors [(album, .entry "main")] hm hr⟩

end ModuleResolution
