import ModuleResolution.Proofs.Refusing

/-!
# Imports as entries

An import path is followed from the names below the root down, and may not go above the root on its
way.  A path to start from is followed from the top of the file system, where going up from the top
does nothing, and only where it comes to has to lie in the project.  Both lead to one file wherever
the first one leads anywhere: the key of an import is that of the entry whose path is what is
written for the import behind the importing directory.  An entry may also be named by a path that
leaves the project and comes back, or that ends in a slash; no import may.

* `Location.walk_of_descend?` : a way that stays below some names is a way from the top.
* `Layout.importKey_eq_ok_iff_entryKey` : which keys of entries are those of imports.
-/

namespace ModuleResolution

theorem Path.pieces_append_slash (before after : String) :
    pieces (before ++ "/" ++ after) = pieces before ++ pieces after := by
  have hlist : (before ++ "/" ++ after).toList = before.toList ++ '/' :: after.toList := by simp
  rw [pieces, hlist, split_append_cons, List.map_append]
  rfl

theorem Path.isAbsolute_append {path : String} (h : isAbsolute path) (rest : String) :
    isAbsolute (path ++ rest) := by
  simp only [isAbsolute, beq_iff_eq] at h ⊢
  rw [String.toList_append, List.head?_append, h, Option.some_or]

namespace Location

variable {top l : Location} {names pieces below : List String} {piece directory path : String}

theorem walk_append (l : Location) (pieces pieces' : List String) :
    l.walk (pieces ++ pieces') = (l.walk pieces).walk pieces' := List.foldl_append

theorem step_append (h : piece = ".." → names ≠ []) :
    step (top ++ names) piece = top ++ step names piece := by
  unfold step
  split_ifs with hi hu
  · rfl
  · exact List.dropLast_append_of_ne_nil (h hu)
  · exact List.append_assoc ..

/-- A way that does not go above the names leads on below them. -/
theorem walk_of_descend? (h : descend? names pieces = some below) :
    walk (top ++ names) pieces = top ++ below := by
  induction pieces generalizing names with
  | nil =>
    cases h
    rfl
  | cons piece rest ih =>
    rw [descend?] at h
    rw [walk_cons]
    split_ifs at h with hi hu hn
    · rw [step_append (by rintro rfl; exact absurd hi (by decide)), step, if_pos hi, ih h]
    · rw [step_append fun _ => hn, step, if_neg hi, if_pos hu, ih h]
    · rw [step_append fun hup => absurd hup hu, step, if_neg hi, if_neg hu, ih h]

theorem ofPath?_join (hd : ofPath? directory = some l) (hp : Path.isAbsolute path = false) :
    ofPath? (Path.join directory path) = some (l.walk (Path.pieces path)) := by
  rw [ofPath?] at hd
  split_ifs at hd with habs
  have hstart : walk [] (Path.pieces directory) = l := Option.some.inj hd
  rw [Path.join, if_neg (by simp [hp])]
  split_ifs with hlast
  · -- the directory ends in a slash, behind which its last piece is empty
    have hslash : directory.toList.getLast? = some '/' := by
      cases hc : directory.toList.getLast? with
      | none => simp [Path.isAbsolute, List.getLast?_eq_none_iff.1 hc] at habs
      | some c => simpa [hc] using hlast
    obtain ⟨cs, hcs⟩ := List.getLast?_eq_some_iff.1 hslash
    obtain rfl : directory = String.ofList cs ++ "/" ++ "" := by simp [← String.toList_inj, hcs]
    rw [Path.pieces_append_slash, walk_append] at hstart
    rw [ofPath?, if_pos (Path.isAbsolute_append habs _), String.append_empty,
      Path.pieces_append_slash, walk_append, ← hstart]
    rfl
  · rw [ofPath?, String.append_assoc, if_pos (Path.isAbsolute_append habs _),
      ← String.append_assoc, Path.pieces_append_slash, walk_append, hstart]

end Location

namespace Layout

variable {layout : Layout} {directory path : String} {key : Key} {names : List String}

theorem WellFormed.isAbsolute_slashed (hw : WellFormed path) :
    Path.isAbsolute (slashed path) = false := by
  rw [Path.isAbsolute, slashed, String.toList_ofList, List.head?_map, beq_eq_false_iff_ne]
  intro h
  obtain ⟨c, hc, hslash⟩ := Option.map_eq_some_iff.1 h
  have hsep := hw.relative c hc
  rw [isSeparator_iff.2 hslash] at hsep
  cases hsep

theorem look_join (hw : WellFormed path)
    (hd : Location.ofPath? directory = some (layout.root ++ names)) :
    layout.root.look (Path.join directory (slashed path)) =
      Location.walk (layout.root ++ names) (importPieces path) := by
  rw [Location.look, Location.ofPath?_join hd hw.isAbsolute_slashed, Option.getD_some,
    importPieces_eq]

/-- **The key of an import is that of the entry** whose path is the path of the import, with slashes
for separators, behind that of the importing directory.  And an entry with such a path has a key
only if the import has it too, provided that what is written for the import has the right form, and
does not climb above the root. -/
theorem importKey_eq_ok_iff_entryKey
    (hd : Location.ofPath? directory = some (layout.root ++ names)) :
    layout.importKey directory path = .ok key ↔
      layout.entryKey (Path.join directory (slashed path)) = .ok key ∧
        WellFormed path ∧ ¬ Path.Climbs names.length (importPieces path) := by
  simp only [importKey_eq_ok_iff, importPath_eq_ok_iff_wellFormed, entryKey_eq_ok_iff, hd,
    ← Location.descend?_eq_none_iff]
  constructor
  · rintro ⟨pieces, names', below, ⟨hw, rfl⟩, hnames, hb, hkey⟩
    obtain rfl : names = names' := by simpa using hnames
    refine ⟨⟨below, ?_, hkey⟩, hw, by simp [hb]⟩
    rw [look_join hw hd, Location.walk_of_descend? hb]
  · rintro ⟨⟨below, hlook, hkey⟩, hw, hb⟩
    obtain ⟨below', hb⟩ := Option.ne_none_iff_exists'.1 hb
    rw [look_join hw hd, Location.walk_of_descend? hb, List.append_cancel_left_eq] at hlook
    exact ⟨_, names, below, ⟨hw, rfl⟩, rfl, hlook ▸ hb, hkey⟩

/-- An import with backslashes and a detour, seen from a directory that is not written in its normal
form, and the entry with the same key. -/
theorem roundabout_importKey :
    let layout : Layout := ⟨["p"], "hash"⟩
    let key : Key := ⟨["p"], ["lib", "a.hash"]⟩
    Location.ofPath? "/p/x/..//src/./y/" = some (layout.root ++ ["src", "y"]) ∧
      layout.importKey "/p/x/..//src/./y/" "..\\../lib\\b/.././a" = .ok key ∧
      layout.entryKey "/p/x/..//src/./y/../../lib/b/.././a" = .ok key := by
  intro layout key
  have hd : Location.ofPath? "/p/x/..//src/./y/" = some (layout.root ++ ["src", "y"]) := rfl
  have hi : layout.importKey "/p/x/..//src/./y/" "..\\../lib\\b/.././a" = .ok key := by cbv
  exact ⟨hd, hi, ((importKey_eq_ok_iff_entryKey hd).1 hi).1⟩

end Layout

end ModuleResolution
