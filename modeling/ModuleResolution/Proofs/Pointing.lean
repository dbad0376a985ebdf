import ModuleResolution.Proofs.Placing
import ModuleResolution.Proofs.Unwinding

/-!
# Where failures point

A failure points at places in the text of one module.  Each way in which a module fails by itself
points into the text of that module, at what its items are read from; if the module fails for one
that it imports and that is not available, there is nothing to point at.

* `Failure.places` : the places that a failure is shown at.
* `Failure.Points`, `Failure.PointsAt` : there are some, and they are in the text of this module.
* `Project.Breaks.pointsAt` : a module that fails by itself points into its own text.
-/

namespace ModuleResolution

namespace Failure

/-- The places that a failure is shown at: those with a caption, and those of syntax errors. -/
def places : Failure → List Span
  | malformed _ errors => errors.map Located.span
  | f => f.labels.map Located.span

/-- The failure is shown at places in a text. -/
def Points (f : Failure) : Prop := f.labels ≠ [] ∨ ∃ key errors, f = .malformed key errors

/-- If the failure is shown at places in a text, this is the text of the module `key`, and the
places have `P`. -/
def PointsAt (P : Span → Prop) (key : Key) (f : Failure) : Prop :=
  f.Points → f.pointsInto? = some key ∧ ∀ place ∈ f.places, P place

/-- A failure that is not local is not shown in a text. -/
theorem isLocal_of_points {f : Failure} (hf : f.Points) : f.isLocal = true := by
  cases f with
  | circular | repeated => simp [Points, labels] at hf
  | _ => rfl

variable {P : Span → Prop} {key : Key} {f : Failure} {place place' : Span}

theorem PointsAt.one (hk : f.pointsInto? = some key) (hf : f.places = [place]) (hp : P place) :
    f.PointsAt P key := by
  refine fun _ => ⟨hk, ?_⟩
  rw [hf]
  exact List.forall_mem_singleton.2 hp

theorem PointsAt.two (hk : f.pointsInto? = some key) (hf : f.places = [place, place'])
    (hp : P place) (hp' : P place') : f.PointsAt P key := by
  refine fun _ => ⟨hk, ?_⟩
  rw [hf]
  exact List.forall_mem_cons.2 ⟨hp, List.forall_mem_singleton.2 hp'⟩

end Failure

variable {P : Span → Prop} {key importer : Key} {f : Failure} {span : Span}

theorem Span.Joins.marks {source : String} (h : span.Joins (Span.Marks source)) :
    span.Marks source := by
  obtain ⟨a, b, ha, hb, rfl⟩ := h
  exact ha.join hb

/-! ### Names that are bound -/

theorem pointsAt_of_claim {names : List (Located String)}
    {claims : List (Except Failure (Located String))} (hn : ∀ name ∈ names, P name.span)
    (hok : ∀ name, .ok name ∈ claims → P name.span)
    (herror : ∀ f, .error f ∈ claims → f.PointsAt P key) (h : claim key names claims = .error f) :
    f.PointsAt P key := by
  induction claims generalizing names with
  | nil => cases h
  | cons c rest ih =>
    cases c with
    | error failure =>
      cases h
      exact herror f List.mem_cons_self
    | ok name =>
      have hname := hok name List.mem_cons_self
      rw [claim] at h
      cases hfind : names.find? (·.value == name.value) with
      | some previous =>
        simp only [hfind] at h
        cases h
        exact .two rfl rfl (hn previous (List.mem_of_find?_eq_some hfind)) hname
      | none =>
        simp only [hfind] at h
        refine ih (fun x hx => ?_) (fun x hx => hok x (List.mem_cons_of_mem _ hx))
          (fun x hx => herror x (List.mem_cons_of_mem _ hx)) h
        rcases List.mem_append.1 hx with hx | hx
        · exact hn x hx
        · rwa [List.mem_singleton.1 hx]

namespace Import

variable {i : Import} {exports : Exports} {target : Handle} {scope scope' : Scope}

theorem pointsAt_of_key {layout : Layout} (hp : P i.path.span)
    (h : i.key layout importer = .error f) : f.PointsAt P importer := by
  rw [Import.key] at h
  cases hk : layout.importKey importer.directory i.path.value with
  | error reason =>
    rw [hk] at h
    cases h
    exact .one rfl rfl hp
  | ok key =>
    rw [hk] at h
    cases h

theorem pointsAt_of_introduce (hi : (Item.importing i).Placed P)
    (hn : ∀ name ∈ scope.names, P name.span)
    (h : i.introduce importer key exports target scope = (.error f, scope')) :
    f.PointsAt P importer := by
  obtain ⟨hpath, hform⟩ := hi
  rcases i.introduce_spec scope with ⟨hspec, -⟩ | ⟨f', scope₁, hspec, hclaim⟩
  · cases h.symm.trans hspec
  · cases h.symm.trans hspec
    unfold claims at hclaim
    cases hf : i.form with
    | whole alias? =>
      rw [hf] at hform
      simp only [hf] at hclaim
      refine pointsAt_of_claim hn (fun name hname => ?_) (fun _ h => by simp at h) hclaim
      cases List.mem_singleton.1 hname
      cases alias? with
      | some name => exact hform name rfl
      | none => exact hpath
    | selected requests =>
      rw [hf] at hform
      simp only [hf] at hclaim
      -- a request claims its own name, or points at the name over there
      refine pointsAt_of_claim hn (fun name hname => ?_) (fun f hf => ?_) hclaim
      · obtain ⟨q, hq, hclaimed⟩ := List.mem_map.1 hname
        rw [Request.claimed] at hclaimed
        split at hclaimed <;> cases hclaimed
        exact (hform q hq).2
      · obtain ⟨q, hq, hclaimed⟩ := List.mem_map.1 hf
        rw [Request.claimed] at hclaimed
        split at hclaimed <;> cases hclaimed
        exact .one rfl rfl (hform q hq).1

theorem Grants.placed {requests : List Request} {entries : List Scope.Entry}
    {names : List Binding.Name} (h : Grants exports target requests entries names)
    (hq : ∀ q ∈ requests, q.Placed P) : ∀ e ∈ entries, P e.span := by
  induction h with
  | nil => exact fun _ h => by cases h
  | cons _ _ ih =>
    obtain ⟨hfirst, hrest⟩ := List.forall_mem_cons.1 hq
    exact List.forall_mem_cons.2 ⟨hfirst.2, ih hrest⟩

end Import

/-- What items introduce, they introduce at places in them. -/
theorem Registry.Introduces.placed {r : Registry} {layout : Layout} {n : Nat} {items : List Item}
    {entries : List Scope.Entry} {bindings : List Binding}
    (h : r.Introduces layout key n items entries bindings) (hi : ∀ x ∈ items, x.Placed P) :
    ∀ e ∈ entries, P e.span := by
  induction h with
  | nil => exact fun _ h => by cases h
  | declaration _ ih =>
    obtain ⟨hd, hrest⟩ := List.forall_mem_cons.1 hi
    exact List.forall_mem_cons.2 ⟨hd.1, ih hrest⟩
  | @whole _ _ alias? _ _ _ _ _ _ form _ _ hname _ ih =>
    obtain ⟨⟨hpath, hform⟩, hrest⟩ := List.forall_mem_cons.1 hi
    rw [form] at hform
    refine List.forall_mem_cons.2 ⟨?_, ih hrest⟩
    cases alias? with
    | some name =>
      rw [hname]
      exact hform name rfl
    | none =>
      rw [hname]
      exact hpath
  | selected form _ _ hgranted _ ih =>
    obtain ⟨⟨-, hform⟩, hrest⟩ := List.forall_mem_cons.1 hi
    rw [form] at hform
    intro e he
    exact (List.mem_append.1 he).elim (hgranted.placed hform e) (ih hrest e)

theorem Draft.Mirrors.placed {draft : Draft} {r : Registry} {layout : Layout} {items : List Item}
    (h : draft.Mirrors r layout key items) (hi : ∀ x ∈ items, x.Placed P) :
    ∀ name ∈ draft.scope.names, P name.span := by
  intro name hname
  obtain ⟨e, he, rfl⟩ := List.mem_map.1 hname
  exact h.introduced.placed hi e he

theorem Draft.pointsAt_of_declare {draft : Draft} {d : Declaration} (hd : P d.name.span)
    (hn : ∀ name ∈ draft.scope.names, P name.span) (h : draft.declare key d = .error f) :
    f.PointsAt P key := by
  rcases draft.declare_spec key d with ⟨hspec, -⟩ | ⟨f', hspec, hclaim⟩
  · cases h.symm.trans hspec
  · cases h.symm.trans hspec
    refine pointsAt_of_claim hn (fun name hname => ?_) (fun _ h => by simp at h) hclaim
    cases List.mem_singleton.1 hname
    exact hd

/-! ### Qualified names -/

namespace Registry

variable {r : Registry} {reference : Reference} {walked names : List String} {h target : Handle}

theorem pointsAt_of_subject {d : DeclarationHandle} (hp : P span)
    (hs : r.subject importer span walked d = .error f) : f.PointsAt P importer := by
  rw [subject] at hs
  split at hs
  · cases hs
  · cases hs
    exact .one rfl rfl hp

theorem pointsAt_of_follow (hp : P span)
    (hf : r.follow importer reference span walked target names = .error f) :
    f.PointsAt P importer := by
  induction names generalizing walked target with
  | nil =>
    cases hf
    exact .one rfl rfl hp
  | cons name rest ih =>
    rw [follow] at hf
    split at hf
    · split at hf
      · exact pointsAt_of_subject hp hf
      · split at hf
        · cases hf
          exact .one rfl rfl hp
        · cases hf
    · split at hf
      · split at hf
        · exact ih hf
        · split at hf
          · cases hf
            exact .one rfl rfl hp
          · cases hf
      · cases hf
        exact .one rfl rfl hp

theorem pointsAt_of_denotation (hp : P span) (hd : r.denotation h reference span = .error f) :
    f.PointsAt P (r.record h).key := by
  unfold denotation at hd
  simp only at hd
  split at hd
  · cases hd
    exact .one rfl rfl hp
  · split at hd
    · exact pointsAt_of_follow hp hd
    · exact pointsAt_of_subject hp hd
    · exact pointsAt_of_subject hp hd
    · cases hd
      exact .one rfl rfl hp

theorem pointsAt_of_dangling? {declarations : List Declaration}
    (hp : ∀ d ∈ declarations, ∀ reference ∈ d.references, P reference.span)
    (hd : r.dangling? h declarations = some f) : f.PointsAt P (r.record h).key := by
  obtain ⟨reference, hmem, hf⟩ := List.exists_of_findSome?_eq_some hd
  obtain ⟨d, hdecl, href⟩ := List.mem_flatMap.1 hmem
  rw [fault?] at hf
  cases hden : r.denotation h reference.value reference.span with
  | ok x =>
    rw [hden] at hf
    cases hf
  | error f' =>
    rw [hden] at hf
    cases hf
    exact pointsAt_of_denotation (hp d hdecl reference href) hden

end Registry

/-! ### Modules -/

theorem Exports.mem_of_repeatedAfter {seen declarations : List Declaration} {d d' : Declaration}
    (h : repeatedAfter seen declarations = some (d, d')) :
    d ∈ seen ++ declarations ∧ d' ∈ declarations := by
  induction declarations generalizing seen with
  | nil => cases h
  | cons first rest ih =>
    rw [repeatedAfter] at h
    cases hfind : seen.find? (·.name.value == first.name.value) with
    | some previous =>
      simp only [hfind] at h
      cases h
      exact ⟨List.mem_append_left _ (List.mem_of_find?_eq_some hfind), List.mem_cons_self⟩
    | none =>
      simp only [hfind] at h
      obtain ⟨hd, hd'⟩ := ih h
      exact ⟨List.append_cons seen first rest ▸ hd, List.mem_cons_of_mem _ hd'⟩

theorem Item.placed_declarations {items : List Item} (hi : ∀ x ∈ items, x.Placed P) :
    ∀ d ∈ items.filterMap Item.declaration?, d.Placed P := by
  intro d hd
  obtain ⟨x, hx, hdeclaration⟩ := List.mem_filterMap.1 hd
  have hplaced := hi x hx
  cases x <;> cases hdeclaration
  exact hplaced

namespace Project

variable {project : Project}

/-- The items of a module are those of its text, or there is no text, or it has mistakes. -/
theorem contents_cases (hi : project.items = Program.itemsOf) (key : Key) :
    (∃ fault : ReadFault, project.contents key = .error (fault.failure key)) ∨
      (∃ errors, Program.ofText (project.source key) = .error errors ∧
        project.contents key = .error (.malformed key errors)) ∨
      ∃ found, Program.ofText (project.source key) = .ok found ∧
        project.contents key = .ok (found.map Located.value) := by
  unfold contents source
  cases hr : project.loader.read key with
  | error fault => exact .inl ⟨fault, rfl⟩
  | ok text =>
    change _ ∨ (∃ errors, Program.ofText text = .error errors ∧ _) ∨
      ∃ found, Program.ofText text = .ok found ∧ _
    simp only [hi, Program.itemsOf]
    cases ht : Program.ofText text with
    | error errors => exact .inr (.inl ⟨errors, rfl, rfl⟩)
    | ok found => exact .inr (.inr ⟨found, rfl, rfl⟩)

theorem placed_of_contents (hi : project.items = Program.itemsOf) {items : List Item}
    (hc : project.contents key = .ok items) :
    ∀ x ∈ items, x.Placed (Span.Marks (project.source key)) := by
  rcases contents_cases hi key with ⟨_, hc'⟩ | ⟨_, -, hc'⟩ | ⟨found, ht, hc'⟩
  · cases hc.symm.trans hc'
  · cases hc.symm.trans hc'
  · cases hc.symm.trans hc'
    simpa using Program.placed_of_ofText ht

theorem pointsAt_of_contents (hi : project.items = Program.itemsOf)
    (hc : project.contents key = .error f) :
    f.PointsAt (Span.Marks (project.source key)) key := by
  rcases contents_cases hi key with ⟨fault, hc'⟩ | ⟨errors, ht, hc'⟩ | ⟨_, -, hc'⟩
  · cases hc.symm.trans hc'
    intro hf
    cases fault <;> simp [Failure.Points, ReadFault.failure, Failure.labels] at hf
  · cases hc.symm.trans hc'
    refine fun _ => ⟨rfl, fun place hplace => ?_⟩
    obtain ⟨e, he, rfl⟩ := List.mem_map.1 hplace
    exact Program.marks_of_ofText_error ht e he
  · cases hc.symm.trans hc'

/-- A module whose items cannot be had points at its syntax errors, or at two of its names, if at
anything. -/
theorem pointsAt_of_opened (hi : project.items = Program.itemsOf)
    (ho : project.opened key = .error f) :
    f.PointsAt (Span.Marks (project.source key)) key := by
  unfold opened at ho
  cases hc : project.contents key with
  | error f' =>
    rw [hc] at ho
    cases ho
    exact pointsAt_of_contents hi hc
  | ok items =>
    rw [hc] at ho
    change (Exports.build key _ >>= fun _ => Except.ok items) = _ at ho
    unfold Exports.build at ho
    cases hd : Exports.repeated? (items.filterMap Item.declaration?) with
    | none =>
      rw [hd] at ho
      cases ho
    | some pair =>
      rw [hd] at ho
      cases ho
      have hplaced := Item.placed_declarations (placed_of_contents hi hc)
      obtain ⟨hfirst, hsecond⟩ := Exports.mem_of_repeatedAfter hd
      exact .two rfl rfl (hplaced _ hfirst).1 (hplaced _ hsecond).1

/-- **A module that fails by itself points into its own text**, if at anything. -/
theorem Breaks.pointsAt (hi : project.items = Program.itemsOf) {r : Registry} {h : Handle}
    (hb : project.Breaks r h key f) : f.PointsAt (Span.Marks (project.source key)) key := by
  have hplaced {items : List Item} (ho : project.opened key = .ok items) :=
    placed_of_contents hi (contents_of_opened ho).1
  cases hb with
  | unopened ho => exact pointsAt_of_opened hi ho
  | @item before rest item draft _ ho hd hr =>
    have hitems := hplaced ho
    have hnames := hd.placed fun x hx => hitems x (List.mem_append_left _ hx)
    have hitem := hitems item (List.mem_append_right _ List.mem_cons_self)
    cases hr with
    | collided hd => exact Draft.pointsAt_of_declare hitem.1 hnames hd
    | astray hk => exact Import.pointsAt_of_key hitem.1 hk
    | refused _ _ _ hx => exact Import.pointsAt_of_introduce hitem hnames hx
    | unavailable _ _ ha =>
      intro hf
      have hlocal := Failure.isLocal_of_points hf
      rcases Registry.remembered_eq_error ha with ⟨-, rfl⟩ | ⟨_, -, rfl⟩ <;> cases hlocal
  | @dangling items _ _ ho _ hm hx =>
    have hkey : (r.record h).key = key := by rw [Registry.record_eq hm]; rfl
    rw [← hkey]
    refine Registry.pointsAt_of_dangling? (fun d hd reference hr => ?_) hx
    rw [hkey]
    exact ((Item.placed_declarations (hplaced ho) d hd).2 reference hr).marks

end Project

end ModuleResolution
