import ModuleResolution.Proofs.Checking
import ModuleResolution.Proofs.Mirror
import ModuleResolution.Proofs.Spelling

/-!
# What the names in ready modules denote

The qualified names in the text of a module that is ready denote something, wherever they stand in a
declaration.  Where a name is bound to an import its type is passed over, and the qualified names in
it are not checked.

* `Program.OutsideBound` : some tokens stand in no item that binds a name to an import.
* `Session.ready_denotes` : such names denote something, after all requests.
* `Project.annotated_unchecked` : a name in the type of an imported module that denotes nothing.
-/

namespace ModuleResolution

/-- The text of a module that says what its items say can be cut into tokens and has items, whose
declarations are those of the module. -/
theorem Project.Mirrors.text {project : Project} {r : Registry} {items : List Item} {m : Module}
    (hm : project.Mirrors r items m) (hp : project.items = Program.itemsOf) :
    ∃ tokens found, tokenize m.source = .ok tokens ∧ Program.ofText m.source = .ok found ∧
      ∀ x ∈ found, ∀ d, x.value = .declaration d → d ∈ m.declarations := by
  have hparsed := hm.parsed
  rw [hp, Program.itemsOf] at hparsed
  cases hfound : Program.ofText m.source with
  | error errors =>
    rw [hfound] at hparsed
    cases hparsed
  | ok found =>
    rw [hfound] at hparsed
    cases hparsed
    have htokens := hfound
    rw [Program.ofText] at htokens
    cases ht : tokenize m.source with
    | error errors =>
      rw [ht] at htokens
      cases htokens
    | ok tokens =>
      refine ⟨tokens, found, rfl, rfl, ?_⟩
      intro x hx d hd
      rw [hm.declarations, List.mem_filterMap]
      exact ⟨x.value, List.mem_map_of_mem hx, by rw [hd]; rfl⟩

instance (a b : Span) : Decidable (a.Within b) := inferInstanceAs (Decidable (_ ∧ _))

/-- The tokens stand in no item that binds a name to an import. -/
def Program.OutsideBound (found : List (Located Item)) (run : List Token) : Prop :=
  ∀ x ∈ found, x.value.bindsImport = true → ∃ t ∈ run, ¬ t.span.Within x.span

instance (found : List (Located Item)) (run : List Token) :
    Decidable (Program.OutsideBound found run) := inferInstanceAs (Decidable (∀ x ∈ found, _))

/-- **The qualified names in the text of a module that is ready denote something**, but those that
stand where a name is bound to an import; and they do so whatever was asked for, and with whatever
layout and texts each request was met.  A value is built of a name in front of an opening brace. -/
theorem Session.ready_denotes (demands : List (Project × Demand))
    (hp : ∀ d ∈ demands, d.1.items = Program.itemsOf) {h : Handle} {m : Module}
    (hm : (Session.after demands).registry.module? h = some m) (hr : m.isReady) :
    ∃ tokens found, tokenize m.source = .ok tokens ∧ Program.ofText m.source = .ok found ∧
      ∀ before run behind names, tokens = before ++ (run ++ behind) →
        Program.Qualified before run behind names →
        Program.OutsideBound found run →
        ∀ span, ∃ denoted, (Session.after demands).registry.denotation h
          ⟨names, Reading.kind behind == .opening .curly⟩ span = .ok denoted := by
  have hs := Registry.isReady_iff.1 hr
  obtain ⟨project, hproject, items, hmirrors⟩ := Session.each_after
    (P := Registry.Mirrored fun project => project.items = Program.itemsOf)
    (fun d hd => d.1.establishes_mirrored (hp d hd)) h m hm hs
  obtain ⟨tokens, found, ht, hf, hdeclarations⟩ := hmirrors.text hproject
  refine ⟨tokens, found, ht, hf, ?_⟩
  intro before run behind names htokens hq houtside span
  rcases Program.recorded_or_within ht hf htokens hq with
    ⟨x, hx, d, hd, span', hmem⟩ | ⟨x, hx, hbound, hwithin⟩
  · obtain ⟨denoted, hdenoted⟩ :=
      Session.checked_after demands hm hs (hdeclarations x hx d hd) hmem
    exact ⟨denoted, Registry.denotation_of_span hdenoted span⟩
  · obtain ⟨t, htrun, hnot⟩ := houtside x hx hbound
    exact absurd (hwithin t htrun) hnot

/-- The text of a module that builds a value of a type of another one, and binds a name to an
import. -/
def Project.atlasText : String :=
  "import(\"geo\"); x: geo::Q = import(\"geo\"); p := geo::P\x7b\x7d;"

/-- The module, and the other one. -/
def Project.atlas : Project :=
  .ofTexts [("main.hash", atlasText), ("geo.hash", "P := struct();")]

/-- The name of the type denotes something.  That the other name denotes nothing is passed over. -/
theorem Project.atlas_denotes :
    let r := (Session.after [(atlas, .entry "main")]).registry
    let m := r.record ⟨0⟩
    let tokens := (tokenize atlasText).toOption.getD []
    let run : List Token := [⟨.word "geo", ⟨47, 50⟩⟩, ⟨.member, ⟨50, 52⟩⟩, ⟨.word "P", ⟨52, 53⟩⟩]
    (∀ d ∈ [(atlas, Demand.entry "main")], d.1.items = Program.itemsOf) ∧
      r.module? ⟨0⟩ = some m ∧ m.isReady ∧ m.source = atlasText ∧
      tokenize atlasText = .ok (tokens.take 18 ++ (run ++ tokens.drop 21)) ∧
      Program.Qualified (tokens.take 18) run (tokens.drop 21) ["geo", "P"] ∧
      ∀ span, ∃ denoted, r.denotation ⟨0⟩ ⟨["geo", "P"], true⟩ span = .ok denoted := by
  intro r m tokens run
  have hp : ∀ d ∈ [(atlas, Demand.entry "main")], d.1.items = Program.itemsOf := by
    intro d hd
    rw [List.mem_singleton.1 hd]
    rfl
  obtain ⟨hm, hr, hsource⟩ :
      r.module? ⟨0⟩ = some m ∧ m.isReady ∧ m.source = atlasText := by decide +kernel
  have ht : tokenize atlasText = .ok (tokens.take 18 ++ (run ++ tokens.drop 21)) := by
    decide +kernel
  have hspells : Program.Spells run ["geo", "P"] := .word _ _ (.cons _ _ _ .nil)
  have hq : Program.Qualified (tokens.take 18) run (tokens.drop 21) ["geo", "P"] :=
    .of_kinds hspells (by decide) (by decide +kernel) (by decide +kernel)
  have houtside : Program.OutsideBound ((Program.ofText atlasText).toOption.getD []) run := by
    decide +kernel
  have hbuilds : (Reading.kind (tokens.drop 21) == .opening .curly) = true := by decide +kernel
  obtain ⟨tokens', found, ht', hf, hall⟩ :=
    Session.ready_denotes [(atlas, .entry "main")] hp hm hr
  rw [hsource] at ht' hf
  rw [hf] at houtside
  refine ⟨hp, hm, hr, hsource, ht, hq, ?_⟩
  rw [← hbuilds]
  exact hall _ _ _ _ (Except.ok.inj (ht'.symm.trans ht)) hq houtside

/-- A module that binds a name to an import, with a type that names an unknown module. -/
def Project.annotated : Project :=
  .ofTexts [("main.hash", "x: a::B = import(\"p\");"), ("p.hash", "q := 1;")]

/-- The module becomes ready, although the qualified name in it denotes nothing. -/
theorem Project.annotated_unchecked :
    let r := (Session.after [(annotated, .entry "main")]).registry
    let m := r.record ⟨0⟩
    (∀ d ∈ [(annotated, Demand.entry "main")], d.1.items = Program.itemsOf) ∧
      r.module? ⟨0⟩ = some m ∧ m.isReady ∧
      ∃ before run behind, tokenize m.source = .ok (before ++ (run ++ behind)) ∧
        Program.Qualified before run behind ["a", "B"] ∧
        ∀ span denoted, r.denotation ⟨0⟩
          ⟨["a", "B"], Reading.kind behind == .opening .curly⟩ span ≠ .ok denoted := by
  intro r m
  obtain ⟨hm, hr, hsource⟩ :
      r.module? ⟨0⟩ = some m ∧ m.isReady ∧ m.source = "x: a::B = import(\"p\");" := by
    decide +kernel
  have ht : tokenize m.source = .ok
      ([⟨.word "x", ⟨0, 1⟩⟩, ⟨.colon, ⟨1, 2⟩⟩] ++
        ([⟨.word "a", ⟨3, 4⟩⟩, ⟨.member, ⟨4, 6⟩⟩, ⟨.word "B", ⟨6, 7⟩⟩] ++
          [⟨.equals, ⟨8, 9⟩⟩, ⟨.word "import", ⟨10, 16⟩⟩, ⟨.opening .round, ⟨16, 17⟩⟩,
            ⟨.text "p", ⟨17, 20⟩⟩, ⟨.closing .round, ⟨20, 21⟩⟩, ⟨.semicolon, ⟨21, 22⟩⟩,
            ⟨.endOfFile, ⟨22, 22⟩⟩])) := by
    rw [hsource]
    decide +kernel
  have hq : Program.Spells [⟨.word "a", ⟨3, 4⟩⟩, ⟨.member, ⟨4, 6⟩⟩, ⟨.word "B", ⟨6, 7⟩⟩]
      ["a", "B"] := .word _ _ (.cons _ _ _ .nil)
  refine ⟨?_, hm, hr, _, _, _, ht, .of_kinds hq (by decide) (by decide) (by decide), ?_⟩
  · intro d hd
    rw [List.mem_singleton.1 hd]
    rfl
  · intro span denoted hdenoted
    have hnone : r.denotation ⟨0⟩ ⟨["a", "B"], false⟩ ⟨0, 0⟩ =
        .error (.notNamespace ⟨["p"], ["main.hash"]⟩ "a" ⟨0, 0⟩) := by decide +kernel
    have hsome := Registry.denotation_of_span hdenoted ⟨0, 0⟩
    cases hnone.symm.trans hsome

end ModuleResolution
