import Mathlib.Data.List.Nodup
import ModuleResolution.Proofs.Mirror

/-!
# Names that lead from module to module

The names of a qualified name are read from the left: as long as they are aliases, each in the
module reached so far, they lead from one module to the next.  In a module that is ready no alias is
exported, so that it makes no difference whether the exports are asked before the scope.

* `Registry.Reaches` : aliases lead from one module to another.
* `Registry.Named` : what is known of the names of modules that are ready; it holds after all
  requests (`Session.named_after`).
* `Session.styles_agree` : the members of a type are named alike through aliases, through a selected
  name, and at home.
-/

namespace ModuleResolution

namespace Registry

/-- The names lead from the module behind `h` to the one behind `t`, each as an alias in the module
reached so far. -/
inductive Reaches (r : Registry) : (h : Handle) → List String → (t : Handle) → Prop
  | here {h} : Reaches r h [] h
  | step {h name next names t} (hs : (r.record h).scope.meaning? name = some (.whole next))
    (hrest : Reaches r next names t) : Reaches r h (name :: names) t

/-- What is known of the names of modules that are ready. -/
structure Named (r : Registry) : Prop where
  /-- A name that is exported stands for a declaration of the module. -/
  exported : ∀ h ∈ r.finished, ∀ {name index}, (r.record h).exports.index? name = some index →
    (r.record h).scope.meaning? name = some (.own index)
  /-- A name leads to modules that are ready. -/
  closed : ∀ h ∈ r.finished, ∀ {name meaning}, (r.record h).scope.meaning? name = some meaning →
    ∀ t ∈ meaning.handles, t ∈ r.finished

end Registry

/-! ### Exports and scopes -/

theorem Registry.Introduces.mem_own {r : Registry} {layout : Layout} {key : Key} {n index : Nat}
    {items : List Item} {entries : List Scope.Entry} {bindings : List Binding} {d : Declaration}
    (hi : r.Introduces layout key n items entries bindings)
    (hd : (items.filterMap Item.declaration?)[index]? = some d) :
    ⟨d.name.value, .own (n + index), d.name.span⟩ ∈ entries := by
  induction hi generalizing index with
  | nil => simp at hd
  | @declaration n d' items _ _ _ ih =>
    rw [List.filterMap_cons] at hd
    cases index with
    | zero =>
      cases hd
      exact List.mem_cons_self
    | succ index =>
      have hmem := ih hd
      rw [Nat.add_right_comm] at hmem
      exact List.mem_cons_of_mem _ hmem
  | whole _ _ _ _ _ ih => exact List.mem_cons_of_mem _ (ih hd)
  | selected _ _ _ _ _ ih => exact List.mem_append_right _ (ih hd)

theorem Scope.meaning?_of_mem {s : Scope} {e : Scope.Entry}
    (hn : (s.entries.map Scope.Entry.name).Nodup) (he : e ∈ s.entries) :
    s.meaning? e.name = some e.meaning := by
  obtain ⟨e', hf⟩ : ∃ e', s.find? e.name = some e' := by
    rw [← Option.isSome_iff_exists, find?, List.find?_isSome]
    exact ⟨e, he, beq_self_eq_true e.name⟩
  have hname : e'.name = e.name := by simpa using List.find?_some hf
  have hsame : e' = e := List.inj_on_of_nodup_map hn (List.mem_of_find?_eq_some hf) he hname
  rw [meaning?, hf, hsame, Option.map_some]

theorem Project.Mirrors.meaning?_of_exported {project : Project} {r : Registry} {items : List Item}
    {m : Module} (hm : project.Mirrors r items m) {name : String} {index : Nat}
    (hx : m.exports.index? name = some index) : m.scope.meaning? name = some (.own index) := by
  obtain ⟨entry, hfind, rfl⟩ := Option.map_eq_some_iff.1 hx
  have hname : entry.1 = name := by simpa using List.find?_some hfind
  have hmem := List.mem_of_find?_eq_some hfind
  rw [hm.exports] at hmem
  obtain ⟨⟨d, index⟩, hd, rfl⟩ := List.mem_map.1 hmem
  have hget := List.mk_mem_zipIdx_iff_getElem?.1 (List.mem_of_mem_filter hd)
  rw [hm.declarations] at hget
  have hentry := hm.introduced.mem_own hget
  rw [Nat.zero_add] at hentry
  rw [← hname]
  exact Scope.meaning?_of_mem hm.names_nodup hentry

/-- **What is known of the names of modules that are ready holds after all requests.** -/
theorem Session.named_after (demands : List (Project × Demand)) :
    (Session.after demands).registry.Named := by
  obtain ⟨hc, -⟩ := Session.coherent_after demands
  constructor
  · intro h hh name index hx
    obtain ⟨m, hm, hs⟩ := hc.mem_finished.1 hh
    have hall : (Session.after demands).registry.Each (Registry.Mirrored fun _ => True) :=
      Session.each_after fun d _ => d.1.establishes_mirrored trivial
    obtain ⟨_, -, _, hmirrors⟩ := hall h m hm hs
    rw [Registry.record_eq hm] at hx ⊢
    exact hmirrors.meaning?_of_exported hx
  · intro h hh name meaning hs t ht
    obtain ⟨m, hm, -⟩ := hc.mem_finished.1 hh
    rw [Registry.record_eq hm] at hs
    exact hc.mentioned hm (List.mem_append_left _ (List.mem_append_left _
      (Scope.mem_handles_of_meaning? hs ht)))

/-! ### Following aliases -/

namespace Registry

variable {r : Registry} {h target next t : Handle} {importer : Key} {reference : Reference}
  {span : Span} {name : String} {front names rest : List String} {d : DeclarationHandle}

theorem Named.not_exported (hr : r.Named) (ht : target ∈ r.finished)
    (hs : (r.record target).scope.meaning? name = some (.whole next)) :
    (r.record target).exports.index? name = none := by
  cases hx : (r.record target).exports.index? name with
  | none => rfl
  | some index => cases hs.symm.trans (hr.exported target ht hx)

theorem Named.mem_finished (hr : r.Named) (ht : target ∈ r.finished)
    (hs : (r.record target).scope.meaning? name = some (.whole next)) : next ∈ r.finished :=
  hr.closed target ht hs next (List.mem_singleton_self next)

theorem Reaches.mem_finished (h : r.Reaches target names t) (hr : r.Named)
    (ht : target ∈ r.finished) : t ∈ r.finished := by
  induction h with
  | here => exact ht
  | step hs _ ih => exact ih (hr.mem_finished ht hs)

theorem Named.follow_cons (hr : r.Named) (ht : target ∈ r.finished)
    (hs : (r.record target).scope.meaning? name = some (.whole next)) (hne : rest ≠ []) :
    r.follow importer reference span front target (name :: rest) =
      r.follow importer reference span (front ++ [name]) next rest := by
  simp only [follow, hr.not_exported ht hs, hs, if_pos hne]

/-- Aliases in front of other names are followed to where they lead. -/
theorem Reaches.follow_append (h : r.Reaches target names t) (hr : r.Named)
    (ht : target ∈ r.finished) (hne : rest ≠ []) :
    r.follow importer reference span front target (names ++ rest) =
      r.follow importer reference span (front ++ names) t rest := by
  induction h generalizing front with
  | here => rw [List.nil_append, List.append_nil]
  | @step target name next names t hs _ ih =>
    have happend : names ++ rest ≠ [] := List.append_ne_nil_of_right_ne_nil names hne
    rw [List.cons_append, hr.follow_cons ht hs happend, ih (hr.mem_finished ht hs),
      List.append_assoc, List.singleton_append]

theorem Reaches.follow (h : r.Reaches target names t) (hr : r.Named) (ht : target ∈ r.finished)
    (hne : names ≠ []) : r.follow importer reference span front target names =
      if reference.builds then .error (.notType importer reference.text span)
      else .ok (.whole t) := by
  induction h generalizing front with
  | here => exact absurd rfl hne
  | @step target name next names t hs hrest ih =>
    cases hrest with
    | here =>
      simp only [Registry.follow, hr.not_exported ht hs, hs, ne_eq, not_true_eq_false, if_false]
    | step hs' hrest' =>
      rw [hr.follow_cons ht hs (List.cons_ne_nil _ _)]
      exact ih (hr.mem_finished ht hs) (List.cons_ne_nil _ _)

/-- A name qualified by aliases is followed from the module that they lead to. -/
theorem Reaches.denotation (ha : r.Reaches h names t) (hr : r.Named) (hh : h ∈ r.finished)
    (hp : reference.path = names ++ rest) (hnames : names ≠ []) (hne : rest ≠ []) :
    r.denotation h reference span = r.follow (r.keyOf h) reference span names t rest := by
  cases ha with
  | here => exact absurd rfl hnames
  | @step _ root target names _ hs hrest =>
    simp only [Registry.denotation, hp, List.cons_append, hs]
    exact hrest.follow_append hr (hr.mem_finished hh hs) hne

theorem follow_exported (hx : (r.record d.owner).exports.index? name = some d.index)
    (hne : rest ≠ []) :
    r.follow importer reference span front d.owner (name :: rest) =
      r.subject importer span (front ++ [name]) d := by
  simp only [follow, hx, if_pos hne]

end Registry

/-- **The members of a type are named alike** through aliases, through a selected name, and in the
module of the type: where the declaration is no type, each way fails.  Without a member, the aliases
lead to the very declaration that the selected name stands for. -/
theorem Session.styles_agree (demands : List (Project × Demand)) {h : Handle} {m : Module}
    (hm : (Session.after demands).registry.module? h = some m) (hr : m.isReady)
    {d : DeclarationHandle} {names members : List String} {name selected : String}
    (ha : (Session.after demands).registry.Reaches h names d.owner) (hnames : names ≠ [])
    (hx : ((Session.after demands).registry.record d.owner).exports.index? name = some d.index)
    (hs : m.scope.meaning? selected = some (.imported d)) (hne : members ≠ [])
    (builds : Bool) (span : Span) :
    let r := (Session.after demands).registry
    (r.denotation h ⟨names ++ name :: members, builds⟩ span =
      if r.isType d then .ok (.declaration d)
      else .error (.notNamespace m.key (Reference.join (names ++ [name])) span)) ∧
    (r.denotation h ⟨selected :: members, builds⟩ span =
      if r.isType d then .ok (.declaration d)
      else .error (.notNamespace m.key selected span)) ∧
    (r.denotation d.owner ⟨name :: members, builds⟩ span =
      if r.isType d then .ok (.declaration d)
      else .error (.notNamespace (r.keyOf d.owner) name span)) ∧
    r.denotation h ⟨names ++ [name], false⟩ span = .ok (.declaration d) := by
  intro r
  obtain ⟨hc, -⟩ := Session.coherent_after demands
  have hnamed := Session.named_after demands
  have hh : h ∈ r.finished := hc.mem_finished.2 ⟨m, hm, Registry.isReady_iff.1 hr⟩
  have howner := ha.mem_finished hnamed hh
  have hrecord : r.record h = m := Registry.record_eq hm
  have hkey : r.keyOf h = m.key := Registry.keyOf_eq hm
  refine ⟨?_, ?_, ?_, ?_⟩
  · rw [ha.denotation hnamed hh rfl hnames (List.cons_ne_nil _ _), hkey]
    exact Registry.follow_exported hx hne
  · simp only [Registry.denotation, hrecord, hs]
    rfl
  · -- at home the name stands for the declaration itself
    have hown : (r.record d.owner).scope.meaning? name = some (.own d.index) :=
      hnamed.exported d.owner howner hx
    simp only [Registry.denotation, hown]
    rfl
  · rw [ha.denotation hnamed hh rfl hnames (List.cons_ne_nil _ _)]
    simp only [Registry.follow, hx]
    rfl

/-- A module with aliases that lead to a type and to a value, both of which it also selects. -/
def Project.signpost : Project :=
  .ofTexts [("main.hash", "a := import(\"a\"); \x7bP: Q, o: q\x7d := import(\"b\");"),
    ("a.hash", "b := import(\"b\");"), ("b.hash", "P := enum(R); o := 1;")]

/-- The type has members, and the value has none. -/
theorem Project.signpost_agrees :
    let r := (Session.after [(signpost, .entry "main")]).registry
    let m := r.record ⟨0⟩
    r.module? ⟨0⟩ = some m ∧ m.isReady ∧ r.Reaches ⟨0⟩ ["a", "b"] ⟨2⟩ ∧
      (r.record ⟨2⟩).exports.index? "P" = some 0 ∧ (r.record ⟨2⟩).exports.index? "o" = some 1 ∧
      m.scope.meaning? "Q" = some (.imported ⟨⟨2⟩, 0⟩) ∧
      m.scope.meaning? "q" = some (.imported ⟨⟨2⟩, 1⟩) ∧
      (r.denotation ⟨0⟩ ⟨["a", "b", "P", "R"], true⟩ ⟨0, 1⟩ = .ok (.declaration ⟨⟨2⟩, 0⟩) ∧
        r.denotation ⟨0⟩ ⟨["Q", "R"], true⟩ ⟨0, 1⟩ = .ok (.declaration ⟨⟨2⟩, 0⟩) ∧
        r.denotation ⟨2⟩ ⟨["P", "R"], true⟩ ⟨0, 1⟩ = .ok (.declaration ⟨⟨2⟩, 0⟩) ∧
        r.denotation ⟨0⟩ ⟨["a", "b", "P"], false⟩ ⟨0, 1⟩ = .ok (.declaration ⟨⟨2⟩, 0⟩)) ∧
      r.denotation ⟨0⟩ ⟨["a", "b", "o", "R"], false⟩ ⟨0, 1⟩ =
          .error (.notNamespace m.key "a::b::o" ⟨0, 1⟩) ∧
        r.denotation ⟨0⟩ ⟨["q", "R"], false⟩ ⟨0, 1⟩ =
          .error (.notNamespace m.key "q" ⟨0, 1⟩) ∧
        r.denotation ⟨2⟩ ⟨["o", "R"], false⟩ ⟨0, 1⟩ =
          .error (.notNamespace (r.keyOf ⟨2⟩) "o" ⟨0, 1⟩) ∧
        r.denotation ⟨0⟩ ⟨["a", "b", "o"], false⟩ ⟨0, 1⟩ = .ok (.declaration ⟨⟨2⟩, 1⟩) := by
  intro r m
  obtain ⟨hm, hr, ha, hb⟩ : r.module? ⟨0⟩ = some m ∧ m.isReady ∧
      m.scope.meaning? "a" = some (.whole ⟨1⟩) ∧
      (r.record ⟨1⟩).scope.meaning? "b" = some (.whole ⟨2⟩) := by decide +kernel
  obtain ⟨hP, ho, hQ, hq⟩ : (r.record ⟨2⟩).exports.index? "P" = some 0 ∧
      (r.record ⟨2⟩).exports.index? "o" = some 1 ∧
      m.scope.meaning? "Q" = some (.imported ⟨⟨2⟩, 0⟩) ∧
      m.scope.meaning? "q" = some (.imported ⟨⟨2⟩, 1⟩) := by decide +kernel
  obtain ⟨htype, hvalue⟩ : r.isType ⟨⟨2⟩, 0⟩ = true ∧ ¬ r.isType ⟨⟨2⟩, 1⟩ = true := by
    decide +kernel
  have hreach : r.Reaches ⟨0⟩ ["a", "b"] ⟨2⟩ := .step ha (.step hb .here)
  have hnames : ["a", "b"] ≠ [] := List.cons_ne_nil _ _
  have hmembers : ["R"] ≠ [] := List.cons_ne_nil _ _
  obtain ⟨htypes₁, htypes₂, htypes₃, htypes₄⟩ := Session.styles_agree [(signpost, .entry "main")]
    hm hr (d := ⟨⟨2⟩, 0⟩) hreach hnames hP hQ hmembers true ⟨0, 1⟩
  obtain ⟨hvalues₁, hvalues₂, hvalues₃, hvalues₄⟩ := Session.styles_agree
    [(signpost, .entry "main")] hm hr (d := ⟨⟨2⟩, 1⟩) hreach hnames ho hq hmembers false ⟨0, 1⟩
  rw [if_pos htype] at htypes₁ htypes₂ htypes₃
  rw [if_neg hvalue] at hvalues₁ hvalues₂ hvalues₃
  exact ⟨hm, hr, hreach, hP, ho, hQ, hq, ⟨htypes₁, htypes₂, htypes₃, htypes₄⟩,
    hvalues₁, hvalues₂, hvalues₃, hvalues₄⟩

end ModuleResolution
