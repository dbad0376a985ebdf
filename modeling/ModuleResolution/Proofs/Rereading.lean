import ModuleResolution.Proofs.Entering

/-!
# Keys are read back

A key can be written as a path again: as the absolute path of its file, as the path from the root,
and as the name of the file seen from its directory.  Whichever of them is resolved has the same key
again, for the name of a file gets no second extension and no name below the root leads elsewhere.
As import paths they have to do without the characters that none may hold, and without a backslash,
which would be taken for a separator.

* `Location.ofPath?_path` : what the path of a location denotes.
* `Path.parent_path` : the directory of a file.
* `Layout.key_read_back` : resolving a key again changes nothing.
-/

namespace ModuleResolution

/-! ### Paths of locations -/

namespace Path

variable {path : String} {l : Location} {name : String}

theorem head?_pieces_of_isAbsolute (h : isAbsolute path) : (pieces path).head? = some "" := by
  simp only [isAbsolute, beq_iff_eq] at h
  obtain ⟨cs, hcs⟩ := List.head?_eq_some_iff.1 h
  rw [pieces, hcs, split, if_pos rfl]
  rfl

theorem mem_of_mem_split {mark c : Char} {cs piece : List Char} (h : piece ∈ split mark cs)
    (hc : c ∈ piece) : c ∈ cs := by
  induction cs generalizing piece with
  | nil =>
    rw [split, List.mem_singleton] at h
    exact h ▸ hc
  | cons c' rest ih =>
    rw [split] at h
    split_ifs at h with hmark
    · rcases List.mem_cons.1 h with rfl | h
      · cases hc
      · exact List.mem_cons_of_mem _ (ih h hc)
    · cases hs : split mark rest with
      | nil => exact absurd hs (split_ne_nil mark rest)
      | cons first pieces =>
        rw [hs] at h ih
        rcases List.mem_cons.1 h with rfl | h
        · rcases List.mem_cons.1 hc with rfl | hc
          · exact List.mem_cons_self
          · exact List.mem_cons_of_mem _ (ih List.mem_cons_self hc)
        · exact List.mem_cons_of_mem _ (ih (List.mem_cons_of_mem _ h) hc)

theorem mem_of_mem_pieces {c : Char} {piece : String} (h : piece ∈ pieces path)
    (hc : c ∈ piece.toList) : c ∈ path.toList := by
  obtain ⟨cs, hcs, rfl⟩ := List.mem_map.1 h
  rw [String.toList_ofList] at hc
  exact mem_of_mem_split hcs hc

theorem trimmed_concat (h : isIdle name = false) (before : List String) :
    trimmed (before ++ [name]) = before ++ [name] := by
  simp [trimmed, h]

theorem trimmed_of_isNormal (hl : l.IsNormal) : trimmed l = l := by
  rcases List.eq_nil_or_concat' l with rfl | ⟨before, name, rfl⟩
  · rfl
  · exact trimmed_concat (hl name (by simp)).isIdle_eq_false before

theorem parent_path (hl : Location.IsNormal (l ++ [name])) :
    parent (Location.path (l ++ [name])) = l.path := by
  have hslash : ∀ n ∈ l ++ [name], '/' ∉ n.toList := fun n h => (hl n h).slash_notMem
  rw [parent, Location.pieces_path, pieces_intercalate (by simp) hslash, List.tail_cons,
    trimmed_of_isNormal hl, List.dropLast_concat, trimmed_of_isNormal hl.of_append_left]
  rfl

end Path

namespace Location

variable {l : Location} {names below : List String}

theorem descend?_of_isNormal (hb : IsNormal below) :
    descend? names below = some (names ++ below) := by
  induction below generalizing names with
  | nil => rw [descend?, List.append_nil]
  | cons name rest ih =>
    obtain ⟨hname, hrest⟩ := List.forall_mem_cons.1 hb
    rw [descend?, if_neg (by simp [hname.isIdle_eq_false]), if_neg hname.ne_dots, ih hrest,
      List.append_assoc, List.singleton_append]

theorem walk_of_isNormal (hb : IsNormal below) : l.walk below = l ++ below := by
  have hdescend : descend? [] below = some ([] ++ below) := descend?_of_isNormal hb
  rw [← List.append_nil l, walk_of_descend? hdescend, List.nil_append, List.append_nil]

theorem ofPath?_path (hl : l.IsNormal) : ofPath? l.path = some l := by
  have habs : Path.isAbsolute l.path = true := by simp [Path.isAbsolute, path]
  rw [ofPath?, if_pos habs, pieces_path]
  by_cases hne : l = []
  · subst hne
    rfl
  · rw [Path.pieces_intercalate hne fun name h => (hl name h).slash_notMem, walk_cons]
    exact congrArg some (walk_of_isNormal hl)

theorem look_intercalate (hn : IsNormal names) (hne : names ≠ []) :
    l.look ("/".intercalate names) = l ++ names := by
  have hpieces := Path.pieces_intercalate hne fun name h => (hn name h).slash_notMem
  have habs : ¬ Path.isAbsolute ("/".intercalate names) := by
    intro h
    have hhead := Path.head?_pieces_of_isAbsolute h
    rw [hpieces] at hhead
    exact (hn "" (List.mem_of_head? hhead)).ne_empty rfl
  rw [look, ofPath?, if_neg habs, Option.getD_none, hpieces, walk_of_isNormal hn]

end Location

/-! ### Keys -/

namespace Layout

variable {layout : Layout} {directory path name : String} {key : Key} {names below : List String}

theorem fileName_of_isFileName (h : layout.IsFileName name) : layout.fileName name = name := by
  rw [fileName, if_pos (carriesExtension_iff.2 h)]

theorem Gives.exists_names (hr : layout.root.IsNormal) (hx : '/' ∉ layout.extension.toList)
    (hk : layout.Gives key) : ∃ before last, key = ⟨layout.root, before ++ [last]⟩ ∧
      Location.IsNormal (before ++ [last]) ∧ layout.key (before ++ [last]) = .ok key := by
  obtain ⟨before, name, hnormal, rfl⟩ := hk.eq_mk hr hx
  have hname := hnormal name (by simp)
  have hlast := isName_fileName hx hname
  refine ⟨before, layout.fileName name, rfl, ?_, ?_⟩
  · exact hnormal.of_append_left.concat hlast
  · rw [key_concat hx hlast, fileName_of_isFileName (isFileName_fileName hname.ne_empty)]

/-- Imports in a file are seen from the names in front of the last one. -/
theorem ofPath?_directory {root before : Location} {last : String}
    (h : Location.IsNormal (root ++ (before ++ [last]))) :
    Location.ofPath? (Key.directory ⟨root, before ++ [last]⟩) = some (root ++ before) := by
  rw [← List.append_assoc] at h
  rw [Key.directory, Key.path, ← List.append_assoc, Path.parent_path h,
    Location.ofPath?_path h.of_append_left]

/-- An import path that consists of names leads down from the directory. -/
theorem importKey_of_isNormal (hd : Location.ofPath? directory = some (layout.root ++ names))
    (hs : ∀ c ∈ path.toList, isUnsupported c = false) (hp : importPieces path = below)
    (hb : Location.IsNormal below) (hkey : layout.key (names ++ below) = .ok key) :
    layout.importKey directory path = .ok key := by
  subst hp
  refine importKey_eq_ok_iff.2 ⟨_, names, _, importPath_eq_ok_iff.2 ⟨hs, rfl, ?_, ?_⟩, hd,
    Location.descend?_of_isNormal hb, hkey⟩
  · intro hhead
    exact (hb "" (List.mem_of_head? hhead)).ne_empty rfl
  · rw [Option.all_eq_true]
    intro last hlast
    have hname := hb last (List.mem_of_getLast? hlast)
    exact namesFile_iff.2 ⟨hname.ne_empty, hname.ne_dot, hname.ne_dots⟩

/-- **A key is read back**: its path and its relative path have it as that of an entry, and so do,
as import paths, its relative path seen from the root and its last name seen from its directory, if
they hold no backslash and no character that is not supported. -/
theorem key_read_back {settings : Settings} (hl : ofSettings settings = .ok layout)
    (hx : '/' ∉ settings.extension.toList) (hk : layout.Gives key) :
    layout.entryKey key.path = .ok key ∧ layout.entryKey key.relative = .ok key ∧
      ((∀ c ∈ key.relative.toList, c ≠ '\\' ∧ isUnsupported c = false) →
        layout.importKey layout.root.path key.relative = .ok key ∧
          ∃ last, key.names.getLast? = some last ∧
            layout.importKey key.directory last = .ok key) := by
  obtain ⟨hr, hext⟩ := isNormal_root hl
  rw [← hext] at hx
  obtain ⟨before, last, rfl, hnormal, hkey⟩ := hk.exists_names hr hx
  have hpath : Location.IsNormal (layout.root ++ (before ++ [last])) :=
    List.forall_mem_append.2 ⟨hr, hnormal⟩
  have hpieces : Path.pieces ("/".intercalate (before ++ [last])) = before ++ [last] :=
    Path.pieces_intercalate (by simp) fun name h => (hnormal name h).slash_notMem
  refine ⟨entryKey_eq_ok_iff.2 ⟨_, ?_, hkey⟩, entryKey_eq_ok_iff.2 ⟨_, ?_, hkey⟩, fun hs => ?_⟩
  · rw [Key.path, Location.look, Location.ofPath?_path hpath, Option.getD_some]
  · exact Location.look_intercalate hnormal (by simp)
  · have hplain : '\\' ∉ ("/".intercalate (before ++ [last])).toList := fun h => (hs _ h).1 rfl
    have hrel : importPieces ("/".intercalate (before ++ [last])) = before ++ [last] := by
      rw [importPieces_eq, slashed_of_notMem hplain, hpieces]
    have hmem : ∀ c ∈ last.toList, c ∈ ("/".intercalate (before ++ [last])).toList :=
      fun c => Path.mem_of_mem_pieces (by simp [hpieces])
    have hname : Path.IsName last := hnormal last (by simp)
    have hone : importPieces last = [last] := by
      refine importPieces_of_not_isSeparator fun c hc => ?_
      have hslash : c ≠ '/' := fun h => hname.slash_notMem (h ▸ hc)
      simp [isSeparator, hslash, (hs c (hmem c hc)).1]
    refine ⟨?_, last, List.getLast?_concat, ?_⟩
    · have hroot : Location.ofPath? layout.root.path = some (layout.root ++ []) := by
        rw [Location.ofPath?_path hr, List.append_nil]
      exact importKey_of_isNormal hroot (fun c h => (hs c h).2) hrel hnormal hkey
    · exact importKey_of_isNormal (ofPath?_directory hpath) (fun c h => (hs c (hmem c h)).2) hone
        hnormal.of_append_right hkey

/-- A hidden file of a project whose root is the top of the file system, and whose extension has a
dot in it. -/
theorem hidden_read_back :
    let layout : Layout := ⟨[], "v1.x"⟩
    let key : Key := ⟨[], ["a b", ".v1.x.v1.x"]⟩
    ofSettings (Settings.setExtension "..v1.x" .default) = .ok layout ∧ '/' ∉ "v1.x".toList ∧
      layout.importKey "/lib/.." "a b\\./.v1.x" = .ok key ∧
      layout.entryKey "/a b/.v1.x.v1.x" = .ok key ∧ layout.entryKey "a b/.v1.x.v1.x" = .ok key ∧
      layout.importKey "/" "a b/.v1.x.v1.x" = .ok key ∧
      layout.importKey "/a b" ".v1.x.v1.x" = .ok key := by
  intro layout key
  have hl : ofSettings (Settings.setExtension "..v1.x" .default) = .ok layout := rfl
  have hx : '/' ∉ "v1.x".toList := by decide
  have hi : layout.importKey "/lib/.." "a b\\./.v1.x" = .ok key := by cbv
  obtain ⟨hpath, hrelative, himport⟩ := key_read_back hl hx (.ofImport hi)
  have hall : key.relative.toList.all (fun c => c != '\\' && !isUnsupported c) = true := by cbv
  obtain ⟨hroot, last, hlast, hdirectory⟩ := himport (by simpa using hall)
  obtain rfl : ".v1.x.v1.x" = last := Option.some.inj hlast
  have hp : key.path = "/a b/.v1.x.v1.x" := by cbv
  have hrel : key.relative = "a b/.v1.x.v1.x" := by cbv
  have htop : layout.root.path = "/" := by cbv
  have hdir : key.directory = "/a b" := by decide +kernel
  rw [hp] at hpath
  rw [hrel] at hrelative
  rw [htop, hrel] at hroot
  rw [hdir] at hdirectory
  exact ⟨hl, hx, hi, hpath, hrelative, hroot, hdirectory⟩

end Layout

end ModuleResolution
