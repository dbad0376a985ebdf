import ModuleResolution.Proofs.Mirror
import ModuleResolution.Proofs.Rereading

/-!
# The names of imported modules

An import that gives no name for the module binds it under the name of its file, cut at its last
dot.  The name of a file ends in a dot and the extension of the project, so this is the name without
the extension as long as the extension has no dot in it; an import that ends in a name, with the
extension or without it, then binds this name.  With an extension such as `tar.gz` no more than `gz`
is cut off, and another name is bound, which is not even a name that the source can write.

* `Path.withoutExtension_eq_iff` : what is left of the name of a file.
* `Layout.Names` : what an import path ends in, with the extension or without it.
* `Project.defaultName_iff` : where the name that is bound is this one.
* `Project.archive_renamed` : an extension with a dot.
-/

namespace ModuleResolution

/-! ### Extensions -/

namespace Path

variable {stem extension : String}

theorem withoutExtension_of_dot_notMem (hs : stem ≠ "") (hx : '.' ∉ extension.toList) :
    withoutExtension (stem ++ "." ++ extension) = stem := by
  obtain ⟨before, c, hstem⟩ : ∃ before c, stem.toList = before ++ [c] := by
    refine (List.eq_nil_or_concat' stem.toList).resolve_left fun h => hs ?_
    rwa [← String.toList_inj]
  have hreverse : (stem ++ "." ++ extension).toList.reverse =
      extension.toList.reverse ++ '.' :: c :: before.reverse := by
    simp [hstem]
  have hdrop : (extension.toList.reverse ++ '.' :: c :: before.reverse).dropWhile (· != '.') =
      '.' :: c :: before.reverse := by
    rw [List.dropWhile_append_of_pos fun c' hc' => ?_]
    · rfl
    · rw [bne_iff_ne]
      rintro rfl
      exact hx (List.mem_reverse.1 hc')
  rw [withoutExtension, hreverse, hdrop]
  simp [← String.toList_inj, hstem]

/-- What is left of a name that ends in an extension is what stands in front of this extension
exactly if there is no dot in it. -/
theorem withoutExtension_eq_iff (hs : stem ≠ "") :
    withoutExtension (stem ++ "." ++ extension) = stem ↔ '.' ∉ extension.toList := by
  refine ⟨fun h hdot => ?_, withoutExtension_of_dot_notMem hs⟩
  -- the extension is cut at its last dot
  obtain ⟨back, front, hsplit, hback⟩ := List.eq_append_cons_of_mem (List.mem_reverse.2 hdot)
  have hlist : (stem ++ "." ++ extension).toList =
      (stem ++ "." ++ String.ofList front.reverse ++ "." ++ String.ofList back.reverse).toList := by
    rw [← List.reverse_inj]
    simp [hsplit]
  rw [String.toList_inj.1 hlist, withoutExtension_of_dot_notMem (by simp) (by simpa using hback),
    ← String.toList_inj] at h
  simpa using congrArg List.length h

end Path

theorem Key.defaultName_eq {root before : Location} {last : String}
    (h : Location.IsNormal (root ++ (before ++ [last]))) :
    defaultName ⟨root, before ++ [last]⟩ = Path.withoutExtension last := by
  have hlast : Path.IsName last := h last (by simp)
  have hpieces : Path.pieces (Location.path (root ++ (before ++ [last]))) =
      ("" :: (root ++ before)) ++ [last] := by
    rw [Location.pieces_path, Path.pieces_intercalate (by simp) fun n hn => (h n hn).slash_notMem]
    simp
  rw [defaultName, Key.path, Path.stem, hpieces, Path.trimmed_concat hlast.isIdle_eq_false,
    List.getLast?_concat]
  split
  · rename_i hnone
    cases hnone
  · rename_i hdots
    exact absurd (Option.some.inj hdots) hlast.ne_dots
  · rename_i hname
    rw [Option.some.inj hname]

namespace Layout

variable {layout : Layout} {directory path name : String} {key : Key}

/-- The name of a module, with the extension behind it again, is the last name of the key exactly if
there is no dot in the extension. -/
theorem Gives.defaultName_append_iff (hr : layout.root.IsNormal)
    (hx : '/' ∉ layout.extension.toList) (hk : layout.Gives key) :
    ∃ last, key.names.getLast? = some last ∧
      (key.defaultName ++ "." ++ layout.extension = last ↔ '.' ∉ layout.extension.toList) := by
  obtain ⟨before, name, hnormal, rfl⟩ := hk.eq_mk hr hx
  have hname := hnormal name (by simp)
  have hfile : layout.IsFileName (layout.fileName name) := isFileName_fileName hname.ne_empty
  have hpath : Location.IsNormal (layout.root ++ (before ++ [layout.fileName name])) :=
    List.forall_mem_append.2 ⟨hr, hnormal.of_append_left.concat (isName_fileName hx hname)⟩
  obtain ⟨stem, hne, hstem⟩ := hfile
  refine ⟨_, List.getLast?_concat, ?_⟩
  rw [Key.defaultName_eq hpath, hstem, String.append_left_inj, String.append_left_inj,
    Path.withoutExtension_eq_iff hne]

/-- An import path ends in the name, with the extension or without it.  A name with the extension is
not one that can do without. -/
def Names (layout : Layout) (path name : String) : Prop :=
  name ≠ "" ∧ (ending path = name ++ "." ++ layout.extension ∨
    ending path = name ∧ ¬ layout.IsFileName name)

theorem Names.fileName_ending (h : layout.Names path name) :
    layout.fileName (ending path) = name ++ "." ++ layout.extension := by
  obtain ⟨hne, hend | ⟨hend, hplain⟩⟩ := h
  · rw [hend, fileName_of_isFileName ⟨name, hne, rfl⟩]
  · rw [hend, fileName, if_neg (by rwa [carriesExtension_iff]), suffix, String.append_assoc]

theorem exists_names_of_importKey (hx : '/' ∉ layout.extension.toList)
    (h : layout.importKey directory path = .ok key) :
    ∃ before, key = ⟨layout.root, before ++ [layout.fileName (ending path)]⟩ ∧
      Location.IsNormal (layout.root ++ (before ++ [layout.fileName (ending path)])) := by
  obtain ⟨pieces, names, below, hp, hd, hb, hkey⟩ := importKey_eq_ok_iff.1 h
  have hnormal := isNormal_of_descend? hp hd hb
  obtain ⟨hw, rfl⟩ := importPath_eq_ok_iff_wellFormed.1 hp
  obtain ⟨before, rfl⟩ := hw.exists_concat hb
  have hlast := hnormal (ending path) (by simp)
  rw [key_concat hx hlast] at hkey
  refine ⟨before, (Except.ok.inj hkey).symm, List.forall_mem_append.2 ⟨?_, ?_⟩⟩
  · exact (Location.isNormal_of_ofPath? hd).of_append_left
  · exact hnormal.of_append_left.concat (isName_fileName hx hlast)

/-- The module is called by the name that the import path ends in, exactly if there is no dot in the
extension. -/
theorem Names.defaultName_eq_iff {i : Import} {importer : Key} (hn : layout.Names i.path.value name)
    (hx : '/' ∉ layout.extension.toList) (h : i.key layout importer = .ok key) :
    key.defaultName = name ↔ '.' ∉ layout.extension.toList := by
  obtain ⟨before, rfl, hnormal⟩ := exists_names_of_importKey hx (i.importKey_of_key h)
  rw [Key.defaultName_eq hnormal, hn.fileName_ending, Path.withoutExtension_eq_iff hn.1]

end Layout

/-! ### Bound names -/

theorem Registry.Introduces.of_unnamed {r : Registry} {layout : Layout} {key : Key} {n : Nat}
    {items : List Item} {entries : List Scope.Entry} {bindings : List Binding} {i : Import}
    (h : r.Introduces layout key n items entries bindings) (hi : .importing i ∈ items)
    (hf : i.form = .whole none) : ∃ target t, i.key layout key = .ok target ∧
      r.find? target = some t ∧ ⟨target.defaultName, .whole t, i.path.span⟩ ∈ entries := by
  induction h with
  | nil => cases hi
  | declaration _ ih =>
    obtain ⟨target, t, hk, ht, he⟩ := ih (by simpa using hi)
    exact ⟨target, t, hk, ht, List.mem_cons_of_mem _ he⟩
  | @whole _ i' _ _ target t _ _ _ form hk ht hname _ ih =>
    rcases List.mem_cons.1 hi with hi | hi
    · cases hi
      rw [hf] at form
      cases form
      exact ⟨target, t, hk, ht, by simp [hname]⟩
    · obtain ⟨target', t', hk', ht', he⟩ := ih hi
      exact ⟨target', t', hk', ht', List.mem_cons_of_mem _ he⟩
  | selected form _ _ _ _ ih =>
    rcases List.mem_cons.1 hi with hi | hi
    · cases hi
      rw [hf] at form
      cases form
    · obtain ⟨target', t', hk', ht', he⟩ := ih hi
      exact ⟨target', t', hk', ht', List.mem_append_right _ he⟩

/-- An import that gives no name is bound under that of the file of the module. -/
theorem Import.of_bindBy_unnamed {i : Import} {visit : Key → Loading Handle} {layout : Layout}
    {importer : Key} {scope scope' : Scope} {s s' : Session} {binding : Binding}
    (hf : i.form = .whole none)
    (h : i.bindBy visit layout importer scope s = ((.ok binding, scope'), s')) :
    ∃ key target, i.key layout importer = .ok key ∧ binding = .whole key.defaultName target ∧
      scope' = scope.append [⟨key.defaultName, .whole target, i.path.span⟩] := by
  unfold bindBy at h
  cases hk : i.key layout importer with
  | error failure =>
    rw [hk] at h
    cases h
  | ok key =>
    rw [hk] at h
    rcases hv : visit key s with ⟨failure | target, s''⟩
    · simp only [hv] at h
      cases h
    · simp only [hv] at h
      refine ⟨key, target, rfl, ?_⟩
      rcases i.introduce_spec scope with ⟨hi, -⟩ | ⟨failure, scope'', hi, -⟩
      · rw [hi] at h
        cases h
        simp only [Import.binding, Import.entries, hf, introduced, Option.getD_none, and_self]
      · rw [hi] at h
        cases h

/-- **An import that gives no name for the module binds it under the name that its path ends in**,
with the extension or without it, exactly if there is no dot in the extension of the project; for
the name of a file is called by what stands in front of its last dot. -/
theorem Project.defaultName_iff {project : Project} {settings : Settings} {extension : String}
    (hl : Layout.ofSettings (settings.setExtension extension) = .ok project.layout)
    (hx : '/' ∉ extension.toList) :
    (∀ key, project.layout.Gives key → ∃ last, key.names.getLast? = some last ∧
      (key.defaultName ++ "." ++ project.layout.extension = last ↔
        '.' ∉ project.layout.extension.toList)) ∧
    ∀ i name, i.form = .whole none → project.layout.Names i.path.value name →
      (∀ importer scope s binding scope' s',
        project.bind importer i scope s = ((.ok binding, scope'), s') →
        ∃ bound target, binding = .whole bound target ∧
          scope' = scope.append [⟨bound, .whole target, i.path.span⟩] ∧
          (bound = name ↔ '.' ∉ project.layout.extension.toList)) ∧
      ∀ demands h m items, (project.after demands).registry.module? h = some m → m.isReady →
        project.items m.key m.source = .ok items → .importing i ∈ items →
        ∃ bound target, ⟨bound, .whole target, i.path.span⟩ ∈ m.scope.entries ∧
          (bound = name ↔ '.' ∉ project.layout.extension.toList) := by
  obtain ⟨hr, hext⟩ := Layout.isNormal_root hl
  have hslash : '/' ∉ project.layout.extension.toList := by
    rw [hext, Settings.setExtension, String.toList_ofList]
    exact fun h => hx ((List.dropWhile_suffix _).subset h)
  refine ⟨fun key hk => ?_, fun i name hf hn => ⟨?_, ?_⟩⟩
  · exact hk.defaultName_append_iff hr hslash
  · intro importer scope s binding scope' s' h
    obtain ⟨key, target, hk, hb, hs⟩ := Import.of_bindBy_unnamed hf h
    exact ⟨_, target, hb, hs, hn.defaultName_eq_iff hslash hk⟩
  · intro demands h m items hm hready hitems hi
    obtain ⟨_, rfl, items', hmirrors⟩ := Session.each_after
      (P := Registry.Mirrored fun p => p = project)
      (fun d hd => by
        obtain ⟨d', -, rfl⟩ := List.mem_map.1 hd
        exact project.establishes_mirrored rfl) h m hm (Registry.isReady_iff.1 hready)
    obtain rfl : items = items' := Except.ok.inj (hitems.symm.trans hmirrors.parsed)
    obtain ⟨key, target, hk, -, he⟩ := hmirrors.introduced.of_unnamed hi hf
    exact ⟨_, target, he, hn.defaultName_eq_iff hslash hk⟩

/-- A module that imports two others without giving them names, one of them with a dot in its
name and one with the extension. -/
def Project.toolbox : Project :=
  { layout := ⟨["p"], "hs"⟩
    loader := .ofAnswers
      [(⟨["p"], ["main.hs"]⟩, .ok "import(\"./v1.2\"); import(\"x/../geo.hs\");"),
        (⟨["p"], ["v1.2.hs"]⟩, .ok ""), (⟨["p"], ["geo.hs"]⟩, .ok "")]
    items := Program.itemsOf }

/-- Both imports bind the names that their paths end in, also where they are bound by themselves. -/
theorem Project.toolbox_defaultName :
    let key : Key := ⟨["p"], ["geo.hs"]⟩
    let geo : Import := ⟨⟨"x/../geo.hs", ⟨25, 38⟩⟩, .whole none⟩
    let old : Import := ⟨⟨"./v1.2", ⟨7, 15⟩⟩, .whole none⟩
    let m := (toolbox.after [.entry "main"]).registry.record ⟨0⟩
    let bound := toolbox.bind m.key old .empty .empty
    Layout.ofSettings (Settings.setExtension ".hs" ⟨"/p/", "hash"⟩) = .ok toolbox.layout ∧
      '/' ∉ ".hs".toList ∧ toolbox.layout.entryKey "geo" = .ok key ∧
      key.defaultName ++ "." ++ "hs" = "geo.hs" ∧
      toolbox.layout.Names geo.path.value "geo" ∧ toolbox.layout.Names old.path.value "v1.2" ∧
      bound.1.1 = .ok (.whole "v1.2" ⟨0⟩) ∧
      (∃ target, bound.1.2 = ⟨[⟨"v1.2", .whole target, ⟨7, 15⟩⟩]⟩) ∧
      m.isReady ∧ toolbox.items m.key m.source = .ok [.importing old, .importing geo] ∧
      (∃ target, ⟨"v1.2", .whole target, ⟨7, 15⟩⟩ ∈ m.scope.entries) ∧
      ∃ target, ⟨"geo", .whole target, ⟨25, 38⟩⟩ ∈ m.scope.entries := by
  intro key geo old m bound
  have hl : Layout.ofSettings (Settings.setExtension ".hs" ⟨"/p/", "hash"⟩) = .ok toolbox.layout :=
    rfl
  have hx : '/' ∉ ".hs".toList := by decide
  have hdot : '.' ∉ toolbox.layout.extension.toList := by decide
  obtain ⟨hkeys, himports⟩ := defaultName_iff hl hx
  have hkey : toolbox.layout.entryKey "geo" = .ok key := by cbv
  obtain ⟨last, hlast, hname⟩ := hkeys key (.ofEntry hkey)
  obtain rfl : "geo.hs" = last := Option.some.inj hlast
  have hgeo : toolbox.layout.Names geo.path.value "geo" := ⟨by decide, .inl (by cbv)⟩
  have hplain : ¬ toolbox.layout.IsFileName "v1.2" := by decide
  have hold : toolbox.layout.Names old.path.value "v1.2" := ⟨by decide, .inr ⟨by cbv, hplain⟩⟩
  obtain ⟨hm, hr, hitems, hbinding⟩ :
      (toolbox.after [.entry "main"]).registry.module? ⟨0⟩ = some m ∧ m.isReady ∧
      toolbox.items m.key m.source = .ok [.importing old, .importing geo] ∧
      bound.1.1 = .ok (.whole "v1.2" ⟨0⟩) := by
    decide +kernel
  obtain ⟨hbound, hscope⟩ := himports old "v1.2" rfl hold
  obtain ⟨-, hscope'⟩ := himports geo "geo" rfl hgeo
  obtain ⟨name, target, -, hs, hold'⟩ := hbound m.key .empty .empty (.whole "v1.2" ⟨0⟩) bound.1.2
    bound.2 (by rw [← hbinding])
  obtain ⟨name', target', he, hn⟩ := hscope [.entry "main"] ⟨0⟩ m _ hm hr hitems (by simp)
  obtain ⟨name'', target'', he', hn'⟩ := hscope' [.entry "main"] ⟨0⟩ m _ hm hr hitems (by simp)
  rw [hold'.2 hdot] at hs
  rw [hn.2 hdot] at he
  rw [hn'.2 hdot] at he'
  exact ⟨hl, hx, hkey, hname.2 hdot, hgeo, hold, hbinding, ⟨target, hs⟩, hr, hitems, ⟨target', he⟩,
    target'', he'⟩

/-- The modules of a project whose extension has a dot in it. -/
def Project.archive : Project :=
  { layout := ⟨["p"], "tar.gz"⟩
    loader := .ofAnswers
      [(⟨["p"], ["main.tar.gz"]⟩, .ok "import(\"lib\");"), (⟨["p"], ["lib.tar.gz"]⟩, .ok "")]
    items := Program.itemsOf }

/-- The import binds a name that is neither that of its path nor one that the source can write. -/
theorem Project.archive_renamed :
    let key : Key := ⟨["p"], ["lib.tar.gz"]⟩
    let r := (archive.after [.entry "main"]).registry
    Layout.ofSettings (Settings.setExtension "tar.gz" ⟨"/p", "hash"⟩) = .ok archive.layout ∧
      '/' ∉ "tar.gz".toList ∧ archive.layout.entryKey "lib" = .ok key ∧
      key.names.getLast? = some "lib.tar.gz" ∧
      key.defaultName ++ "." ++ archive.layout.extension ≠ "lib.tar.gz" ∧
      archive.layout.Names "lib" "lib" ∧ (r.record ⟨0⟩).isReady ∧
      (r.record ⟨0⟩).scope.entries = [⟨"lib.tar", .whole ⟨1⟩, ⟨7, 12⟩⟩] := by
  intro key r
  have hplain : ¬ archive.layout.IsFileName "lib" := by decide
  have hnames : archive.layout.Names "lib" "lib" := ⟨by decide, .inr ⟨by cbv, hplain⟩⟩
  have hkey : archive.layout.entryKey "lib" = .ok key := by decide +kernel
  have hname : key.defaultName ++ "." ++ archive.layout.extension ≠ "lib.tar.gz" := by
    decide +kernel
  have hscope : (r.record ⟨0⟩).isReady ∧
      (r.record ⟨0⟩).scope.entries = [⟨"lib.tar", .whole ⟨1⟩, ⟨7, 12⟩⟩] := by
    decide +kernel
  exact ⟨rfl, by decide, hkey, rfl, hname, hnames, hscope⟩

end ModuleResolution
