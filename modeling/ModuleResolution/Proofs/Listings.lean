import ModuleResolution.Proofs.Invoking
import ModuleResolution.Proofs.Mirror
import ModuleResolution.Proofs.Printing
import ModuleResolution.Proofs.Slicing

/-!
# What the listings tell of one another

The three listings are of one run: it fails for all of them or for none.  The dependencies are
listed in the order in which the modules became ready, so that each stands behind those that it
imports, and the module that was asked for is the last; as all modules of a run that succeeds are
ready, the summary counts them.  It also counts the lines of the exports, since every exported name
has a declaration, and no name goes over the end of a line.

* `Listing.Record` : what is told of a module and its imports, on its line.
* `Listing.Ordered` : records that stand behind what they import, each of a module of its own.
* `Project.records_ordered` : so do those of a first load.
* `Project.lines_of_exports` : the exports of a module that is ready, line by line.
* `Command.listings_agree` : the listings of all commands, side by side.
-/

namespace ModuleResolution

/-! ### Words -/

namespace Lexeme

theorem newline_of_continuesWord {c : Char} (h : continuesWord c = true) : c ≠ '\n' := by
  rintro rfl
  exact absurd h (by decide)

theorem newline_notMem_of_spellable {name : String} (h : Spellable (.word name)) :
    '\n' ∉ name.toList := by
  obtain ⟨c, cs, hname, hc, hcs⟩ := h
  rw [hname, List.mem_cons, not_or]
  exact ⟨(newline_of_continuesWord (continuesWord_iff.2 (.inl hc))).symm,
    fun h => newline_of_continuesWord (hcs _ h) rfl⟩

theorem spellable_of_mem {source : String} {tokens : List Token} {t : Token}
    (h : tokenize source = .ok tokens) (ht : t ∈ tokens) (hk : t.kind ≠ .endOfFile) :
    Spellable t.kind := by
  obtain ⟨front, behind, rfl⟩ := List.append_of_mem ht
  obtain ⟨_, _, _, _, -, -, -, ⟨-, hw⟩ | ⟨hend, -⟩⟩ :=
    (tokenize_eq_ok_iff_tiles.1 h).exists_eq rfl
  · exact spellable_of_writes hw
  · exact absurd hend hk

end Lexeme

namespace Program

/-- The names that are written in the items of a text hold no end of a line. -/
theorem newline_notMem_written {source : String} {found : List (Located Item)} {x : Located Item}
    (h : ofText source = .ok found) (hx : x ∈ found) :
    ∀ n ∈ x.value.written, '\n' ∉ n.value.toList := by
  intro n hn
  obtain ⟨tokens, ht, -, hparted⟩ := parted_of_ofText h
  obtain ⟨before, taken, left, htokens, ha, -⟩ := hparted.exists_of_mem hx
  have hmem : n.word ∈ beforeEnd tokens := by
    rw [← List.nil_append (beforeEnd tokens), htokens]
    exact List.mem_append_right _ (List.mem_append_left _ (ha.word_mem n hn))
  have htaken : n.word ∈ tokens := (List.takeWhile_sublist _).subset hmem
  exact Lexeme.newline_notMem_of_spellable
    (Lexeme.spellable_of_mem ht htaken (by simp [Located.word]))

theorem newline_notMem_name (key : Key) {source : String} {items : List Item}
    {d : Declaration} (h : itemsOf key source = .ok items) (hd : .declaration d ∈ items) :
    '\n' ∉ d.name.value.toList := by
  rw [itemsOf] at h
  cases hf : ofText source with
  | error errors =>
    rw [hf] at h
    cases h
  | ok found =>
    rw [hf] at h
    cases h
    obtain ⟨x, hx, hvalue⟩ := List.mem_map.1 hd
    exact newline_notMem_written hf hx d.name (by simp [hvalue, Item.written])

end Program

/-! ### Lines of exports -/

namespace Listing

/-- The line of an exported name, if it has a declaration. -/
def exportLine? (m : Module) (entry : String × Nat) : Option String :=
  m.declarations[entry.2]?.map fun d =>
    padded (exportWidth m.exports) entry.1 ++ "  " ++ d.kind.text

theorem exports_eq (m : Module) : exports m =
    String.join ((m.exports.entries.filterMap (exportLine? m)).map (· ++ "\n")) := by
  rw [exports, List.map_filterMap]
  congr 2
  funext entry
  simp [exportLine?, Function.comp_def]

theorem newline_notMem_padded (width : Nat) {name : String} (h : '\n' ∉ name.toList) :
    '\n' ∉ (padded width name).toList := by
  simp [padded, h]

theorem newline_notMem_kind (kind : Declaration.Kind) : '\n' ∉ kind.text.toList := by
  cases kind <;> decide

end Listing

/-- **The exports of a module that says what its items say are listed on one line each**, if the
names of its declarations hold no end of a line. -/
theorem Project.Mirrors.lines_of_exports {project : Project} {r : Registry} {items : List Item}
    {m : Module} (hm : project.Mirrors r items m)
    (hn : ∀ d, .declaration d ∈ items → '\n' ∉ d.name.value.toList) :
    ∃ lines : List String, Listing.exports m = String.join (lines.map (· ++ "\n")) ∧
      (∀ line ∈ lines, '\n' ∉ line.toList) ∧ lines.length = m.exports.size := by
  refine ⟨_, Listing.exports_eq m, ?_, ?_⟩
  · intro line hline
    obtain ⟨entry, he, hentry⟩ := List.mem_filterMap.1 hline
    obtain ⟨d, -, rfl⟩ := Option.map_eq_some_iff.1 hentry
    rw [hm.exports] at he
    obtain ⟨⟨d', index⟩, hd', rfl⟩ := List.mem_map.1 he
    have hmem : d' ∈ m.declarations :=
      List.mem_of_getElem? (List.mk_mem_zipIdx_iff_getElem?.1 (List.mem_of_mem_filter hd'))
    rw [hm.declarations] at hmem
    obtain ⟨item, hitem, hdeclaration⟩ := List.mem_filterMap.1 hmem
    cases item with
    | importing i => cases hdeclaration
    | declaration d'' =>
      cases hdeclaration
      have hname := Listing.newline_notMem_padded (Listing.exportWidth m.exports) (hn d' hitem)
      simp [hname, Listing.newline_notMem_kind]
  · have hsome : ∀ entry ∈ m.exports.entries, (Listing.exportLine? m entry).isSome := by
      intro entry he
      simp [Listing.exportLine?, hm.exported he]
    rw [Exports.size, List.length_filterMap_eq_countP, List.countP_eq_length.2 hsome]

/-! ### Records of dependencies -/

namespace Listing

/-- What is told of a module and its imports. -/
structure Record where
  /-- The module. -/
  subject : String
  /-- The modules it imports. -/
  imports : List String

/-- The record as it is printed. -/
def Record.text (r : Record) : String :=
  r.subject ++ (if r.imports.isEmpty then "" else " -> " ++ ", ".intercalate r.imports) ++ "\n"

/-- The record of the module behind a handle. -/
def recordOf (r : Registry) (h : Handle) : Record where
  subject := (r.record h).key.relative
  imports := (r.record h).dependencies.map fun d => (r.record d).key.relative

theorem dependencies_eq (r : Registry) :
    dependencies r = String.join ((r.finished.map (recordOf r)).map Record.text) := by
  rw [List.map_map]
  rfl

/-- Each record is of a module of its own and stands behind those of the modules that it names as
imports; the last one is that of the module `name`. -/
structure Ordered (name : String) (records : List Record) : Prop where
  nodup : (records.map Record.subject).Nodup
  earlier : ∀ before record after, records = before ++ record :: after →
    ∀ i ∈ record.imports, i ∈ before.map Record.subject
  last : (records.map Record.subject).getLast? = some name

end Listing

/-! ### Keys and what is shown of them -/

/-- The names of a key of the project with the root `root` are there, and hold no slash. -/
structure Key.Plain (root : Location) (k : Key) : Prop where
  root_eq : k.root = root
  names_ne : k.names ≠ []
  slash_notMem : ∀ name ∈ k.names, '/' ∉ name.toList

theorem Key.Plain.relative_inj {root : Location} {k k' : Key} (h : k.Plain root)
    (h' : k'.Plain root) (hr : k.relative = k'.relative) : k = k' := by
  have hnames : k.names = k'.names := by
    rw [← Path.pieces_intercalate h.names_ne h.slash_notMem,
      ← Path.pieces_intercalate h'.names_ne h'.slash_notMem]
    exact congrArg Path.pieces hr
  obtain ⟨_, _⟩ := k
  obtain ⟨_, _⟩ := k'
  obtain rfl := hnames
  obtain rfl := h.root_eq.trans h'.root_eq.symm
  rfl

theorem Layout.plain_of_key {layout : Layout} {names : List String} {key : Key}
    (hk : layout.key names = .ok key) (hn : ∀ name ∈ names, '/' ∉ name.toList) :
    key.Plain layout.root := by
  unfold Layout.key at hk
  split at hk
  · cases hk
  · rename_i last _
    cases hk
    refine ⟨rfl, ?_, ?_⟩
    · have hne := Path.split_ne_nil '/' (layout.fileName last).toList
      simp [Path.pieces, hne]
    · intro name hname
      rcases List.mem_append.1 hname with h | h
      · exact hn name (List.mem_of_mem_dropLast h)
      · exact Path.slash_notMem_of_mem_pieces h

theorem Layout.Gives.plain {layout : Layout} {key : Key} (hr : layout.root.IsNormal)
    (hk : layout.Gives key) : key.Plain layout.root := by
  obtain ⟨names, hnormal, hkey⟩ := hk.exists_normal hr
  exact Layout.plain_of_key hkey fun name h => (hnormal name h).slash_notMem

/-! ### The first load -/

theorem Registry.mem_of_sublist {front rest : List Handle} {t h : Handle}
    (hl : (front ++ h :: rest).Nodup) (hs : [t, h].Sublist (front ++ h :: rest)) : t ∈ front := by
  by_contra ht
  have hh : h ∉ front := fun hh => (List.nodup_append.1 hl).2.2 h hh h List.mem_cons_self rfl
  have hlt := idxOf_lt_of_sublist hl hs
  rw [List.idxOf_append_of_notMem ht, List.idxOf_append_of_notMem hh, List.idxOf_cons_self] at hlt
  omega

namespace Project

variable {project : Project} {key target : Key} {h : Handle} {s : Session}

theorem gives_of_imports (h : project.Imports key target) : project.layout.Gives target := by
  obtain ⟨item, -, hitem⟩ := List.mem_filterMap.1 h
  obtain ⟨i, -, hi⟩ := Option.bind_eq_some_iff.1 hitem
  cases hk : i.key project.layout key with
  | error failure =>
    rw [hk] at hi
    cases hi
  | ok target' =>
    rw [hk] at hi
    cases hi
    exact Import.gives_of_key hk

/-- A load that starts from nothing and succeeds is a traversal from the module asked for. -/
theorem traversal_of_obtain (hv : project.obtain key .empty = (.ok h, s)) :
    Traversal project.imports [] [key] s.registry.keys s.registry.finishedKeys := by
  obtain ⟨pre, post, ht, hkeys, hfinished⟩ :=
    project.visit_traverses project.depth key .empty Registry.coherent_empty h s hv
  obtain rfl : s.registry.keys = pre := hkeys
  obtain rfl : s.registry.finishedKeys = post := hfinished
  exact ht

theorem size_of_obtain (hv : project.obtain key .empty = (.ok h, s)) :
    s.registry.size = s.registry.finished.length := by
  have hlength := (traversal_of_obtain hv).perm.length_eq
  rwa [Registry.keys, Registry.finishedKeys, List.length_map, List.length_map] at hlength

theorem gives_of_obtain (hk : project.layout.Gives key)
    (hv : project.obtain key .empty = (.ok h, s)) {k : Key} (hmem : k ∈ s.registry.finishedKeys) :
    project.layout.Gives k := by
  have ht := traversal_of_obtain hv
  have hpath := ht.mem_iff.1 (ht.perm.mem_iff.2 hmem)
  rcases Relation.ReflTransGen.cases_tail hpath with rfl | ⟨_, -, hi⟩
  · exact hk
  · exact gives_of_imports hi

/-- **The records of a first load** are of modules of their own, stand behind those of what they
import, and end with the module asked for. -/
theorem records_ordered (hr : project.layout.root.IsNormal) (hk : project.layout.Gives key)
    (hv : project.obtain key .empty = (.ok h, s)) :
    Listing.Ordered (s.registry.record h).key.relative
      (s.registry.finished.map (Listing.recordOf s.registry)) := by
  have hc := coherent_of_obtain hv
  have ht := traversal_of_obtain hv
  have hsubjects : (s.registry.finished.map (Listing.recordOf s.registry)).map
      Listing.Record.subject = s.registry.finishedKeys.map Key.relative := by
    rw [List.map_map, Registry.finishedKeys, List.map_map]
    rfl
  refine ⟨?_, ?_, ?_⟩
  · rw [hsubjects]
    refine List.Nodup.map_on (fun k hk₁ k' hk₂ => ?_) (ht.perm.nodup_iff.1 hc.keys_nodup)
    exact ((gives_of_obtain hk hv hk₁).plain hr).relative_inj ((gives_of_obtain hk hv hk₂).plain hr)
  · intro before record after hrecords i hi
    obtain ⟨front, rest, hfinished, rfl, hrest⟩ := List.map_eq_append_iff.1 hrecords
    obtain ⟨t, behind, rfl, rfl, -⟩ := List.map_eq_cons_iff.1 hrest
    obtain ⟨d, hd, rfl⟩ := List.mem_map.1 hi
    have ht : t ∈ s.registry.finished := by simp [hfinished]
    obtain ⟨m, hm, hready⟩ := hc.mem_finished.1 ht
    rw [Registry.record_eq hm] at hd
    -- what a module imports became ready before it
    have hbefore := hc.before hm hready (List.mem_append_right _ hd)
    have hnodup := hc.finished_nodup
    rw [hfinished] at hbefore hnodup
    exact List.mem_map_of_mem (List.mem_map_of_mem (Registry.mem_of_sublist hnodup hbefore))
  · have hlast := (project.visit_fresh project.depth key .empty rfl h s hv).2
    rw [List.map_map, List.getLast?_map, hlast]
    rfl

theorem mirrors_of_obtain (hv : project.obtain key .empty = (.ok h, s)) :
    ∃ items, project.Mirrors s.registry items (s.registry.record h) := by
  have hlast := (project.visit_fresh project.depth key .empty rfl h s hv).2
  obtain ⟨m, hm, hready⟩ := (coherent_of_obtain hv).mem_finished.1 (List.mem_of_getLast? hlast)
  have hafter : Session.after [(project, .obtain key)] = s := congrArg Prod.snd hv
  have heach : (Session.after [(project, .obtain key)]).registry.Each
      (Registry.Mirrored (· = project)) := by
    refine Session.each_after fun d hd => ?_
    rw [List.mem_singleton.1 hd]
    exact project.establishes_mirrored rfl
  rw [hafter] at heach
  obtain ⟨_, rfl, items, hmirrors⟩ := heach h m hm hready
  rw [Registry.record_eq hm]
  exact ⟨items, hmirrors⟩

end Project

/-! ### The listings of a run -/

/-- **The three listings are of one run.**  Either all commands fail, and show the same; or all
succeed.  Then the summary counts the records of the dependencies and the lines of the exports;
every record is of a module of its own and stands behind those of the modules it imports, and the
last one is that of the module that the summary names. -/
theorem Command.listings_agree (loader : Layout → Loader) (settings : Settings) (file : String) :
    let outcome : Action → Outcome := fun action =>
      (perform loader settings file action).1.written none
    (∃ notes, ∀ action, (outcome action).exitCode = 1 ∧ (outcome action).text = "" ∧
        (outcome action).notes = notes) ∨
      ∃ name records, ∃ lines : List String, (∀ action, (outcome action).exitCode = 0) ∧
        (outcome .check).text = "✓ " ++ name ++ " resolved: " ++ toString records.length ++
          " module(s), " ++ toString lines.length ++ " export(s)\n" ∧
        (outcome .deps).text = String.join (records.map Listing.Record.text) ∧
        (outcome .exports).text = String.join (lines.map (· ++ "\n")) ∧
        (∀ line ∈ lines, '\n' ∉ line.toList) ∧ Listing.Ordered name records := by
  intro outcome
  have hfailed : ∀ {notes calls}, (∀ action, perform loader settings file action =
      (.failed notes, calls)) → ∀ action, (outcome action).exitCode = 1 ∧
        (outcome action).text = "" ∧ (outcome action).notes = notes := fun hp action => by
    simp only [outcome, hp action]
    exact ⟨rfl, rfl, rfl⟩
  cases hl : Layout.ofSettings settings with
  | error reason => exact .inl ⟨_, hfailed fun action => by simp only [perform, hl]; rfl⟩
  | ok layout =>
    cases hk : layout.entryKey file with
    | error reason => exact .inl ⟨_, hfailed fun action => perform_of_error hl hk⟩
    | ok key =>
      have hperform action : perform loader settings file action = _ := perform_of_ok hl hk
      rcases hv : Project.obtain ⟨layout, loader layout, Program.itemsOf⟩ key .empty with
        ⟨failure | h, s⟩
      · simp only [hv] at hperform
        exact .inl ⟨_, hfailed hperform⟩
      · simp only [hv] at hperform
        have htext : ∀ action, outcome action = .printed (action.listing s.registry h) :=
          fun action => by simp only [outcome, hperform action, Outcome.written]
        obtain ⟨items, hmirrors⟩ := Project.mirrors_of_obtain hv
        obtain ⟨lines, hlines, hbroken, hlength⟩ := hmirrors.lines_of_exports
          fun _ hd => Program.newline_notMem_name (s.registry.record h).key hmirrors.parsed hd
        have hordered := Project.records_ordered (Layout.isNormal_root hl).1 (.ofEntry hk) hv
        refine .inr ⟨_, _, lines, fun action => ?_, ?_, ?_, ?_, hbroken, hordered⟩
        · rw [htext, Outcome.exitCode]
        · rw [htext, Outcome.text, Action.listing, Listing.summary, Project.size_of_obtain hv,
            ← hlength, List.length_map]
        · rw [htext, Outcome.text, Action.listing, Listing.dependencies_eq]
        · rw [htext, Outcome.text, Action.listing, hlines]

end ModuleResolution
