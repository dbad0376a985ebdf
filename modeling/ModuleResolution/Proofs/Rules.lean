import ModuleResolution.Proofs.Aliases

/-!
# The rules for qualified names

What a qualified name comes to, told without the order in which exports and scopes are asked.  The
names are followed as aliases as far as they are.  Then the next name decides, by where it stands
and by what it is: at the front it is looked up in the module of the qualified name, further behind
among the exports of the module reached.

* `Registry.Walks` : the aliases at the front of a path, as far as they go.
* `Registry.ComesTo` : the rules, one for each way in which a qualified name can end.
* `Session.denotation_eq_iff_comesTo` : a qualified name in a module that is ready comes to what the
  rules say, after all requests.
-/

namespace ModuleResolution

namespace Registry

variable (r : Registry)

/-- The names `walked` at the front of `path` are all that lead on as aliases from the module behind
`h`.  They lead to the one behind `t`, and `rest` are the names behind them. -/
structure Walks (h : Handle) (path walked : List String) (t : Handle) (rest : List String) :
    Prop where
  path_eq : path = walked ++ rest
  reaches : r.Reaches h walked t
  stops : ∀ name ∈ rest.head?, ∀ next, (r.record t).scope.meaning? name ≠ some (.whole next)

/-- The rules by which a qualified name in the module behind `h` comes to a result. -/
inductive ComesTo (h : Handle) (reference : Reference) (span : Span) :
    Except Failure Denotation → Prop
  /-- The outermost name is a type of the module, or one that it has selected; the others are
  members of it. -/
  | type {root rest meaning d} (hp : reference.path = root :: rest)
    (hs : (r.record h).scope.meaning? root = some meaning) (hd : d ∈ meaning.declarationHandles h)
    (ht : r.isType d = true) : ComesTo h reference span (.ok (.declaration d))
  /-- The module reached exports the next name.  That is a type, if further names stand behind it,
  and if a value is built of it. -/
  | exported {walked t name rest index} (hw : r.Walks h reference.path walked t (name :: rest))
    (hx : (r.record t).exports.index? name = some index)
    (ht : rest ≠ [] ∨ reference.builds = true → r.isType ⟨t, index⟩ = true) :
    ComesTo h reference span (.ok (.declaration ⟨t, index⟩))
  /-- All names are aliases, and no value is built. -/
  | whole {t} (hw : r.Walks h reference.path reference.path t []) (hb : reference.builds = false) :
    ComesTo h reference span (.ok (.whole t))
  /-- The outermost name is not bound. -/
  | unbound {root rest} (hp : reference.path = root :: rest)
    (hs : (r.record h).scope.meaning? root = none) :
    ComesTo h reference span (.error (.notNamespace (r.keyOf h) (Reference.join [root]) span))
  /-- The outermost name is a declaration, and no type. -/
  | value {root rest meaning d} (hp : reference.path = root :: rest)
    (hs : (r.record h).scope.meaning? root = some meaning) (hd : d ∈ meaning.declarationHandles h)
    (ht : r.isType d = false) :
    ComesTo h reference span (.error (.notNamespace (r.keyOf h) (Reference.join [root]) span))
  /-- The module reached exports the next name.  That is no type, and further names stand behind
  it. -/
  | exportedValue {walked t name rest index} (hw : r.Walks h reference.path walked t (name :: rest))
    (hne : rest ≠ []) (hx : (r.record t).exports.index? name = some index)
    (ht : r.isType ⟨t, index⟩ = false) :
    ComesTo h reference span
      (.error (.notNamespace (r.keyOf h) (Reference.join (walked ++ [name])) span))
  /-- A value is built of an export that is no type. -/
  | builtOfValue {walked t name index} (hw : r.Walks h reference.path walked t [name])
    (hx : (r.record t).exports.index? name = some index) (ht : r.isType ⟨t, index⟩ = false)
    (hb : reference.builds = true) :
    ComesTo h reference span
      (.error (.notType (r.keyOf h) (Reference.join reference.path) span))
  /-- A value is built of a module. -/
  | builtOfModule {t} (hw : r.Walks h reference.path reference.path t [])
    (hb : reference.builds = true) :
    ComesTo h reference span
      (.error (.notType (r.keyOf h) (Reference.join reference.path) span))
  /-- Aliases lead to a module that does not export the next name. -/
  | notExported {walked t name rest} (hw : r.Walks h reference.path walked t (name :: rest))
    (hne : walked ≠ []) (hx : (r.record t).exports.index? name = none) :
    ComesTo h reference span (.error (.notExported (r.keyOf t) (r.keyOf h) name span))

variable {r} {h t : Handle} {reference : Reference} {span : Span} {path walked rest : List String}
  {name : String} {result : Except Failure Denotation}

theorem exists_walks (r : Registry) (h : Handle) (path : List String) :
    ∃ walked t rest, r.Walks h path walked t rest := by
  induction path generalizing h with
  | nil => exact ⟨[], h, [], rfl, .here, fun name hname => by cases hname⟩
  | cons name path ih =>
    by_cases hs : ∃ next, (r.record h).scope.meaning? name = some (.whole next)
    · obtain ⟨next, hs⟩ := hs
      obtain ⟨walked, t, rest, rfl, hreach, hstops⟩ := ih next
      exact ⟨name :: walked, t, rest, rfl, .step hs hreach, hstops⟩
    · refine ⟨[], h, name :: path, rfl, .here, ?_⟩
      intro name' hname next hnext
      cases hname
      exact hs ⟨next, hnext⟩

/-! ### The rules say something -/

theorem comesTo_of_declaration {root : String} {meaning : Meaning} {d : DeclarationHandle}
    (hp : reference.path = root :: rest)
    (hs : (r.record h).scope.meaning? root = some meaning)
    (hd : d ∈ meaning.declarationHandles h) : ∃ result, r.ComesTo h reference span result := by
  cases ht : r.isType d with
  | true => exact ⟨_, .type hp hs hd ht⟩
  | false => exact ⟨_, .value hp hs hd ht⟩

theorem comesTo_of_exported {index : Nat} (hw : r.Walks h reference.path walked t (name :: rest))
    (hx : (r.record t).exports.index? name = some index) :
    ∃ result, r.ComesTo h reference span result := by
  by_cases ht : r.isType ⟨t, index⟩ = true
  · exact ⟨_, .exported hw hx fun _ => ht⟩
  · have hf : r.isType ⟨t, index⟩ = false := by simpa using ht
    cases rest with
    | cons => exact ⟨_, .exportedValue hw (List.cons_ne_nil _ _) hx hf⟩
    | nil =>
      cases hb : reference.builds with
      | true => exact ⟨_, .builtOfValue hw hx hf hb⟩
      | false => exact ⟨_, .exported hw hx (by simp [hb])⟩

/-- **The rules say something of every qualified name.** -/
theorem exists_comesTo (r : Registry) (h : Handle) (reference : Reference) (span : Span) :
    ∃ result, r.ComesTo h reference span result := by
  obtain ⟨walked, t, rest, hw⟩ := exists_walks r h reference.path
  have hpath := hw.path_eq
  have hreach := hw.reaches
  cases rest with
  | nil =>
    rw [List.append_nil] at hpath
    rw [← hpath] at hw
    cases hb : reference.builds with
    | true => exact ⟨_, .builtOfModule hw hb⟩
    | false => exact ⟨_, .whole hw hb⟩
  | cons name rest =>
    cases hreach with
    | here =>
      -- the outermost name is no alias
      cases hs : (r.record h).scope.meaning? name with
      | none => exact ⟨_, .unbound hpath hs⟩
      | some meaning =>
        cases meaning with
        | own index => exact comesTo_of_declaration hpath hs (List.mem_singleton_self _)
        | imported d => exact comesTo_of_declaration hpath hs (List.mem_singleton_self _)
        | whole next => exact absurd hs (hw.stops name rfl next)
    | step =>
      cases hx : (r.record t).exports.index? name with
      | some index => exact comesTo_of_exported hw hx
      | none => exact ⟨_, .notExported hw (List.cons_ne_nil _ _) hx⟩

/-! ### What the rules say is so -/

theorem denotation_of_declaration {root : String} {meaning : Meaning} {d : DeclarationHandle}
    (hp : reference.path = root :: rest) (hs : (r.record h).scope.meaning? root = some meaning)
    (hd : d ∈ meaning.declarationHandles h) :
    r.denotation h reference span = r.subject (r.keyOf h) span [root] d := by
  cases meaning with
  | own index =>
    cases List.mem_singleton.1 hd
    simp only [hp, hs, denotation]
    rfl
  | imported d' =>
    cases List.mem_singleton.1 hd
    simp only [hp, hs, denotation]
    rfl
  | whole next => cases hd

theorem Walks.denotation_of_exported {index : Nat}
    (hw : r.Walks h reference.path walked t (name :: rest)) (hr : r.Named) (hh : h ∈ r.finished)
    (hlen : 2 ≤ reference.path.length) (hx : (r.record t).exports.index? name = some index) :
    r.denotation h reference span =
      if rest ≠ [] then r.subject (r.keyOf h) span (walked ++ [name]) ⟨t, index⟩
      else if reference.builds && !r.isType ⟨t, index⟩ then
        .error (.notType (r.keyOf h) reference.text span)
      else .ok (.declaration ⟨t, index⟩) := by
  obtain ⟨hpath, hreach, -⟩ := hw
  cases walked with
  | nil =>
    -- the name is an export of the module itself, and so one of its declarations
    cases hreach
    have hrest : rest ≠ [] := by
      rintro rfl
      simp [hpath] at hlen
    rw [if_pos hrest]
    exact denotation_of_declaration hpath (hr.exported h hh hx) (List.mem_singleton_self _)
  | cons =>
    rw [hreach.denotation hr hh hpath (List.cons_ne_nil _ _) (List.cons_ne_nil _ _), follow, hx]

theorem Reaches.denotation_of_whole {names : List String} (ha : r.Reaches h names t)
    (hp : reference.path = names) (hr : r.Named) (hh : h ∈ r.finished) (hlen : 2 ≤ names.length) :
    r.denotation h reference span =
      if reference.builds then .error (.notType (r.keyOf h) reference.text span)
      else .ok (.whole t) := by
  cases ha with
  | here => exact absurd hlen (by simp)
  | @step _ root target names _ hs hrest =>
    have hne : names ≠ [] := by
      rintro rfl
      simp at hlen
    simp only [hp, hs, Registry.denotation]
    exact hrest.follow hr (hr.mem_finished hh hs) hne

/-- What the rules say of a qualified name is so. -/
theorem ComesTo.denotation_eq (hc : r.ComesTo h reference span result) (hr : r.Named)
    (hh : h ∈ r.finished) (hlen : 2 ≤ reference.path.length) :
    r.denotation h reference span = result := by
  cases hc with
  | type hp hs hd ht => rw [denotation_of_declaration hp hs hd, subject, if_pos ht]
  | value hp hs hd ht =>
    rw [denotation_of_declaration hp hs hd, subject, if_neg (Bool.eq_false_iff.1 ht)]
  | unbound hp hs =>
    simp only [hp, hs, denotation]
    rfl
  | @exported _ _ _ rest _ hw hx ht =>
    rw [hw.denotation_of_exported hr hh hlen hx]
    split_ifs with hne hb
    · rw [subject, if_pos (ht (.inl hne))]
    · -- a value is built of a type
      rw [Bool.and_eq_true] at hb
      simp [ht (.inr hb.1)] at hb
    · rfl
  | exportedValue hw hne hx ht =>
    rw [hw.denotation_of_exported hr hh hlen hx, if_pos hne, subject,
      if_neg (Bool.eq_false_iff.1 ht)]
  | builtOfValue hw hx ht hb =>
    rw [hw.denotation_of_exported hr hh hlen hx, if_neg (not_not_intro rfl), hb, ht]
    rfl
  | whole hw hb =>
    rw [hw.reaches.denotation_of_whole rfl hr hh hlen, if_neg (Bool.eq_false_iff.1 hb)]
  | builtOfModule hw hb =>
    rw [hw.reaches.denotation_of_whole rfl hr hh hlen, if_pos hb]
    rfl
  | @notExported _ _ name rest hw hne hx =>
    obtain ⟨hpath, hreach, hstops⟩ := hw
    rw [hreach.denotation hr hh hpath hne (List.cons_ne_nil _ _), follow, hx]
    -- the next name is no alias, so it makes no difference what else it is
    cases hs : (r.record _).scope.meaning? name with
    | none => rfl
    | some meaning =>
      cases meaning with
      | own | imported => rfl
      | whole next => exact absurd hs (hstops name rfl next)

end Registry

/-- **A qualified name comes to what the rules say**: in each module that is ready, after all
requests, with whatever project each was met. -/
theorem Session.denotation_eq_iff_comesTo (demands : List (Project × Demand)) {h : Handle}
    {m : Module} (hm : (Session.after demands).registry.module? h = some m) (hr : m.isReady)
    {reference : Reference} (hlen : 2 ≤ reference.path.length) (span : Span)
    (result : Except Failure Denotation) :
    Registry.denotation (Session.after demands).registry h reference span = result ↔
      (Session.after demands).registry.ComesTo h reference span result := by
  obtain ⟨hc, -⟩ := Session.coherent_after demands
  have hnamed := Session.named_after demands
  have hh : h ∈ (Session.after demands).registry.finished :=
    hc.mem_finished.2 ⟨m, hm, Registry.isReady_iff.1 hr⟩
  constructor
  · intro hresult
    obtain ⟨result', hcomes⟩ :=
      Registry.exists_comesTo (Session.after demands).registry h reference span
    rw [← hresult, hcomes.denotation_eq hnamed hh hlen]
    exact hcomes
  · intro hcomes
    exact hcomes.denotation_eq hnamed hh hlen

/-- Qualified names in the module of the signpost, with each kind of end. -/
theorem Project.signpost_comesTo :
    let r := (Session.after [(signpost, .entry "main")]).registry
    let m := r.record ⟨0⟩
    r.module? ⟨0⟩ = some m ∧ m.isReady ∧
      r.ComesTo ⟨0⟩ ⟨["a", "b", "P", "R"], true⟩ ⟨0, 1⟩ (.ok (.declaration ⟨⟨2⟩, 0⟩)) ∧
      r.ComesTo ⟨0⟩ ⟨["a", "b"], false⟩ ⟨0, 1⟩ (.ok (.whole ⟨2⟩)) ∧
      r.ComesTo ⟨0⟩ ⟨["a", "b"], true⟩ ⟨0, 1⟩ (.error (.notType m.key "a::b" ⟨0, 1⟩)) ∧
      r.ComesTo ⟨0⟩ ⟨["a", "b", "o", "R"], false⟩ ⟨0, 1⟩
        (.error (.notNamespace m.key "a::b::o" ⟨0, 1⟩)) ∧
      r.ComesTo ⟨0⟩ ⟨["a", "Q"], false⟩ ⟨0, 1⟩
        (.error (.notExported (r.keyOf ⟨1⟩) m.key "Q" ⟨0, 1⟩)) := by
  intro r m
  obtain ⟨hm, hr⟩ : r.module? ⟨0⟩ = some m ∧ m.isReady := by decide +kernel
  have hcomes : ∀ {reference result}, 2 ≤ reference.path.length →
      r.denotation ⟨0⟩ reference ⟨0, 1⟩ = result → r.ComesTo ⟨0⟩ reference ⟨0, 1⟩ result :=
    fun hlen => (Session.denotation_eq_iff_comesTo [(signpost, .entry "main")] hm hr hlen _ _).1
  refine ⟨hm, hr, hcomes (by decide) ?_, hcomes (by decide) ?_, hcomes (by decide) ?_,
    hcomes (by decide) ?_, hcomes (by decide) ?_⟩ <;> decide +kernel

end ModuleResolution
