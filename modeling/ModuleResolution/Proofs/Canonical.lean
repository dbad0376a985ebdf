import Mathlib.Data.List.Basic
import ModuleResolution.Path.Layout

/-!
# Keys are canonical

However a path is written, the key that it has is the root of the project with names below it: none
of them is empty, `.` or `..`, none holds a slash, and the last one ends in the extension, with
something in front of it.  So the names of a key can be read off its path, and off its relative
path.

* `Path.IsName` : a piece of a path leads down by one step.
* `Layout.IsFileName` : a name ends in the extension, with something in front of it.
* `Layout.Gives` : a key is that of an import path or of an entry.
* `Layout.Canonical` : a key is that of a file of the project, written in the one normal form.
* `Layout.gives_canonical` : the keys that a layout gives are canonical.
-/

namespace ModuleResolution

/-! ### Pieces of paths -/

namespace Path

theorem split_eq_splitOn (mark : Char) (cs : List Char) : split mark cs = cs.splitOn mark := by
  induction cs with
  | nil => rfl
  | cons c rest ih =>
    have hne := split_ne_nil mark rest
    rw [List.splitOn, List.splitOnP_cons_eq_if_modifyHead, ← List.splitOn, ← ih, split]
    cases hs : split mark rest with
    | nil => exact absurd hs hne
    | cons piece pieces => simp

/-- What stands in front of a mark and what stands behind it are split by themselves. -/
theorem split_append_cons (mark : Char) (before after : List Char) :
    split mark (before ++ mark :: after) = split mark before ++ split mark after := by
  simp only [split_eq_splitOn, List.splitOn]
  exact List.splitOnP_append_cons _ _ (beq_self_eq_true mark)

theorem notMem_of_mem_split {mark : Char} {cs piece : List Char} (h : piece ∈ split mark cs) :
    mark ∉ piece := by
  induction cs generalizing piece with
  | nil =>
    rw [split, List.mem_singleton] at h
    simp [h]
  | cons c rest ih =>
    rw [split] at h
    split at h
    · rcases List.mem_cons.1 h with rfl | h
      · simp
      · exact ih h
    · rename_i hc
      cases hs : split mark rest with
      | nil => exact absurd hs (split_ne_nil mark rest)
      | cons first pieces =>
        rw [hs] at h ih
        rcases List.mem_cons.1 h with rfl | h
        · rw [List.mem_cons, not_or]
          exact ⟨Ne.symm hc, ih List.mem_cons_self⟩
        · exact ih (List.mem_cons_of_mem _ h)

theorem slash_notMem_of_mem_pieces {path piece : String} (h : piece ∈ pieces path) :
    '/' ∉ piece.toList := by
  obtain ⟨cs, hcs, rfl⟩ := List.mem_map.1 h
  rw [String.toList_ofList]
  exact notMem_of_mem_split hcs

theorem pieces_intercalate {names : List String} (hne : names ≠ [])
    (hs : ∀ name ∈ names, '/' ∉ name.toList) : pieces ("/".intercalate names) = names := by
  have hsplit : split '/' ("/".intercalate names).toList = names.map String.toList := by
    rw [split_eq_splitOn, String.toList_intercalate]
    refine List.splitOn_intercalate '/' ?_ (by simpa using hne)
    intro cs hcs
    obtain ⟨name, hname, rfl⟩ := List.mem_map.1 hcs
    exact hs name hname
  rw [pieces, hsplit, List.map_map]
  exact (List.map_congr_left fun name _ => String.ofList_toList).trans (List.map_id names)

theorem pieces_of_slash_notMem {name : String} (h : '/' ∉ name.toList) : pieces name = [name] := by
  have hp : pieces ("/".intercalate [name]) = [name] :=
    pieces_intercalate (by simp) (by simpa using h)
  rwa [String.intercalate_singleton] at hp

/-- The piece leads down by one step: it is the name of a file or of a directory. -/
structure IsName (piece : String) : Prop where
  ne_empty : piece ≠ ""
  ne_dot : piece ≠ "."
  ne_dots : piece ≠ ".."
  slash_notMem : '/' ∉ piece.toList

theorem IsName.isIdle_eq_false {name : String} (h : IsName name) : isIdle name = false := by
  simp [isIdle, h.ne_empty, h.ne_dot]

end Path

/-! ### Locations -/

namespace Location

/-- The location is told by names alone. -/
def IsNormal (l : Location) : Prop := ∀ name ∈ l, Path.IsName name

variable {l : Location} {piece path : String} {names pieces : List String}

theorem isNormal_nil : IsNormal [] := by
  intro name h
  cases h

theorem IsNormal.concat (hl : l.IsNormal) (hp : Path.IsName piece) : (l ++ [piece]).IsNormal := by
  intro name h
  rcases List.mem_append.1 h with h | h
  · exact hl name h
  · rw [List.mem_singleton.1 h]
    exact hp

theorem IsNormal.dropLast (hl : l.IsNormal) : IsNormal l.dropLast :=
  fun name h => hl name (List.dropLast_subset l h)

theorem IsNormal.of_append_left {l' : Location} (h : IsNormal (l ++ l')) : l.IsNormal :=
  fun name hn => h name (List.mem_append_left _ hn)

theorem IsNormal.of_append_right {l' : Location} (h : IsNormal (l ++ l')) : l'.IsNormal :=
  fun name hn => h name (List.mem_append_right _ hn)

theorem isName_of_not_idle (hs : '/' ∉ piece.toList) (hi : ¬ Path.isIdle piece)
    (hu : piece ≠ "..") : Path.IsName piece := by
  simp only [Path.isIdle, Bool.or_eq_true, beq_iff_eq, not_or] at hi
  exact ⟨hi.1, hi.2, hu, hs⟩

theorem IsNormal.walk (hl : l.IsNormal) (hs : ∀ piece ∈ pieces, '/' ∉ piece.toList) :
    (l.walk pieces).IsNormal := by
  induction pieces generalizing l with
  | nil => exact hl
  | cons piece rest ih =>
    obtain ⟨hpiece, hrest⟩ := List.forall_mem_cons.1 hs
    refine ih ?_ hrest
    unfold step
    split_ifs with hi hu
    · exact hl
    · exact hl.dropLast
    · exact hl.concat (isName_of_not_idle hpiece hi hu)

theorem isNormal_of_ofPath? (h : ofPath? path = some l) : l.IsNormal := by
  rw [ofPath?] at h
  split at h
  · cases h
    exact isNormal_nil.walk fun _ => Path.slash_notMem_of_mem_pieces
  · cases h

theorem IsNormal.look (hl : l.IsNormal) (path : String) : (l.look path).IsNormal := by
  unfold Location.look
  cases h : ofPath? path with
  | some l' => exact isNormal_of_ofPath? h
  | none => exact hl.walk fun _ => Path.slash_notMem_of_mem_pieces

theorem IsNormal.descend? (hn : IsNormal names) (hs : ∀ piece ∈ pieces, '/' ∉ piece.toList)
    (h : descend? names pieces = some l) : l.IsNormal := by
  induction pieces generalizing names with
  | nil =>
    cases h
    exact hn
  | cons piece rest ih =>
    obtain ⟨hpiece, hrest⟩ := List.forall_mem_cons.1 hs
    rw [Location.descend?] at h
    split_ifs at h with hi hu
    · exact ih hn hrest h
    · exact ih hn.dropLast hrest h
    · exact ih (hn.concat (isName_of_not_idle hpiece hi hu)) hrest h

theorem pieces_path (l : Location) :
    Path.pieces l.path = "" :: Path.pieces ("/".intercalate l) := by
  simp [Path.pieces, path, Path.split]

theorem components_path (hl : l.IsNormal) : Path.components l.path = "/" :: l := by
  have habs : Path.isAbsolute l.path = true := by simp [Path.isAbsolute, path]
  have hpieces : (Path.pieces l.path).filter (!Path.isIdle ·) = l := by
    rw [pieces_path, List.filter_cons_of_neg (by simp [Path.isIdle])]
    by_cases hne : l = []
    · subst hne
      rfl
    · rw [Path.pieces_intercalate hne fun name h => (hl name h).slash_notMem, List.filter_eq_self]
      intro name h
      rw [(hl name h).isIdle_eq_false, Bool.not_false]
  rw [Path.components, if_pos habs, hpieces]

end Location

/-! ### Names of files -/

namespace Layout

variable {layout : Layout} {name : String} {key : Key} {names : List String}

/-- The name ends in the extension, with something in front of it. -/
def IsFileName (layout : Layout) (name : String) : Prop :=
  ∃ stem, stem ≠ "" ∧ name = stem ++ "." ++ layout.extension

theorem carriesExtension_iff : layout.carriesExtension name ↔ layout.IsFileName name := by
  simp only [carriesExtension, suffix, IsFileName, Bool.and_eq_true, List.isSuffixOf_iff_suffix,
    bne_iff_ne, ne_eq]
  constructor
  · rintro ⟨⟨stem, hstem⟩, hne⟩
    have hname : name = String.ofList stem ++ "." ++ layout.extension := by
      rw [← String.toList_inj, ← hstem]
      simp
    refine ⟨String.ofList stem, ?_, hname⟩
    intro he
    rw [he] at hname
    exact hne (by simpa using hname)
  · rintro ⟨stem, hstem, rfl⟩
    refine ⟨⟨stem.toList, by simp⟩, ?_⟩
    simpa [String.append_assoc] using hstem

theorem isFileName_fileName (hn : name ≠ "") : layout.IsFileName (layout.fileName name) := by
  unfold fileName
  split_ifs with h
  · exact carriesExtension_iff.1 h
  · exact ⟨name, hn, by rw [suffix, String.append_assoc]⟩

/-- The name of a file is a name: the extension makes neither `.` nor `..` of it. -/
theorem isName_fileName (hx : '/' ∉ layout.extension.toList) (hn : Path.IsName name) :
    Path.IsName (layout.fileName name) := by
  unfold fileName
  split_ifs with h
  · exact hn
  · -- a dot behind a name makes at least two characters, the first of which is not all
    obtain ⟨c, cs, hcs⟩ : ∃ c cs, name.toList = c :: cs := by
      refine List.exists_cons_of_ne_nil fun h => hn.ne_empty ?_
      rwa [← String.toList_inj]
    have hlist : (name ++ layout.suffix).toList = c :: (cs ++ '.' :: layout.extension.toList) := by
      simp [suffix, hcs]
    refine ⟨?_, ?_, ?_, ?_⟩
    · rw [ne_eq, ← String.toList_inj, hlist]
      simp
    · rw [ne_eq, ← String.toList_inj, hlist]
      simp
    · intro he
      rw [← String.toList_inj, hlist] at he
      obtain ⟨rfl, hrest⟩ := List.cons.inj he
      cases cs with
      | nil => exact hn.ne_dot (by rw [← String.toList_inj, hcs]; rfl)
      | cons c' cs => simpa using congrArg List.length hrest
    · have hslash := hn.slash_notMem
      rw [hcs] at hslash
      rw [hlist]
      simp only [List.mem_cons, List.mem_append, not_or] at hslash ⊢
      exact ⟨hslash.1, hslash.2, by decide, hx⟩

/-! ### Keys -/

theorem key_concat (hx : '/' ∉ layout.extension.toList) (hn : Path.IsName name) :
    layout.key (names ++ [name]) = .ok ⟨layout.root, names ++ [layout.fileName name]⟩ := by
  have hpieces := Path.pieces_of_slash_notMem (isName_fileName hx hn).slash_notMem
  simp only [Layout.key, List.getLast?_concat, List.dropLast_concat, hpieces]

theorem exists_concat_of_key (h : layout.key names = .ok key) :
    ∃ before name, names = before ++ [name] := by
  rcases List.eq_nil_or_concat names with rfl | ⟨before, name, rfl⟩
  · cases h
  · exact ⟨before, name, List.concat_eq_append⟩

theorem inside_eq_ok_iff {l : Location} :
    layout.inside l = .ok names ↔ l = layout.root ++ names := by
  rw [← Location.below?_eq_some_iff, inside]
  cases layout.root.below? l <;> simp

theorem importPath_eq_ok_iff {path : String} {pieces : List String} :
    importPath path = .ok pieces ↔ (∀ c ∈ path.toList, isUnsupported c = false) ∧
      pieces = importPieces path ∧ pieces.head? ≠ some "" ∧ pieces.getLast?.all namesFile := by
  have hempty : importPieces "" = [""] := rfl
  unfold importPath
  split_ifs with he
  · subst he
    simp only [hempty, false_iff]
    rintro ⟨-, rfl, hhead, -⟩
    exact hhead rfl
  · cases hc : path.toList.find? isUnsupported with
    | some c =>
      simp only [reduceCtorEq, false_iff]
      rintro ⟨hall, -⟩
      have hsome := List.find?_some hc
      rw [hall c (List.mem_of_find?_eq_some hc)] at hsome
      cases hsome
    | none =>
      have hall : ∀ c ∈ path.toList, isUnsupported c = false := by simpa using hc
      simp only
      split_ifs with hhead hlast
      · simp only [false_iff]
        rintro ⟨-, rfl, hhead', -⟩
        exact hhead' hhead
      · rw [Except.ok.injEq]
        refine ⟨?_, fun h => h.2.1.symm⟩
        rintro rfl
        exact ⟨hall, rfl, hhead, hlast⟩
      · simp only [false_iff]
        rintro ⟨-, rfl, -, hlast'⟩
        exact hlast hlast'

theorem importKey_eq_ok_iff {directory path : String} :
    layout.importKey directory path = .ok key ↔ ∃ pieces names below,
      importPath path = .ok pieces ∧ Location.ofPath? directory = some (layout.root ++ names) ∧
      Location.descend? names pieces = some below ∧ layout.key below = .ok key := by
  simp only [importKey, bind, Except.bind]
  cases importPath path with
  | error fault => simp
  | ok pieces =>
    cases hl : Location.ofPath? directory with
    | none => simp
    | some l =>
      simp only [Except.ok.injEq, Option.some.injEq, exists_and_left, exists_eq_left',
        ← inside_eq_ok_iff]
      cases layout.inside l with
      | error fault => simp
      | ok names =>
        simp only [Except.ok.injEq, exists_eq_left']
        cases Location.descend? names pieces <;> simp

theorem entryKey_eq_ok_iff {path : String} : layout.entryKey path = .ok key ↔
    ∃ names, layout.root.look path = layout.root ++ names ∧ layout.key names = .ok key := by
  simp only [entryKey, bind, Except.bind, ← inside_eq_ok_iff]
  cases layout.inside (layout.root.look path) <;> simp

/-- The key is that of an import path, seen from some directory, or that of an entry. -/
inductive Gives (layout : Layout) (key : Key) : Prop
  | ofImport {directory path : String} (h : layout.importKey directory path = .ok key)
  | ofEntry {path : String} (h : layout.entryKey path = .ok key)

/-- The key is that of the file that is reached from the root by way of `segments`. -/
structure Canonical (layout : Layout) (key : Key) (segments : List String) : Prop where
  relative : key.relative = "/".intercalate segments
  /-- No segment is empty, `.` or `..`, and none holds a slash. -/
  isName : ∀ segment ∈ segments, Path.IsName segment
  /-- The last one ends in the extension, with something in front of it. -/
  isFileName : ∃ last, segments.getLast? = some last ∧ layout.IsFileName last
  path : Path.components key.path = Path.components layout.root.path ++ segments

theorem isNormal_root {settings : Settings} (h : ofSettings settings = .ok layout) :
    layout.root.IsNormal ∧ layout.extension = settings.extension := by
  rw [ofSettings] at h
  cases hl : Location.ofPath? settings.root with
  | none =>
    rw [hl] at h
    cases h
  | some root =>
    rw [hl] at h
    cases h
    exact ⟨Location.isNormal_of_ofPath? hl, rfl⟩

theorem slash_notMem_of_mem_importPieces {path piece : String} (h : piece ∈ importPieces path) :
    '/' ∉ piece.toList := by
  obtain ⟨cs, hcs, rfl⟩ := List.mem_map.1 h
  rw [String.toList_ofList]
  exact Path.notMem_of_mem_split hcs

theorem isNormal_of_descend? {directory path : String} {pieces below : List String}
    (hp : importPath path = .ok pieces)
    (hd : Location.ofPath? directory = some (layout.root ++ names))
    (hb : Location.descend? names pieces = some below) : Location.IsNormal below := by
  have hnames : Location.IsNormal names := (Location.isNormal_of_ofPath? hd).of_append_right
  obtain ⟨-, rfl, -⟩ := importPath_eq_ok_iff.1 hp
  exact hnames.descend? (fun _ => slash_notMem_of_mem_importPieces) hb

theorem Gives.exists_normal (hr : layout.root.IsNormal) (hk : layout.Gives key) :
    ∃ names, Location.IsNormal names ∧ layout.key names = .ok key := by
  cases hk with
  | ofImport h =>
    obtain ⟨pieces, names, below, hp, hd, hb, hkey⟩ := importKey_eq_ok_iff.1 h
    exact ⟨below, isNormal_of_descend? hp hd hb, hkey⟩
  | @ofEntry path h =>
    obtain ⟨names, hl, hkey⟩ := entryKey_eq_ok_iff.1 h
    have hnormal := hr.look path
    rw [hl] at hnormal
    exact ⟨names, hnormal.of_append_right, hkey⟩

theorem Gives.eq_mk (hr : layout.root.IsNormal) (hx : '/' ∉ layout.extension.toList)
    (hk : layout.Gives key) : ∃ before name, Location.IsNormal (before ++ [name]) ∧
      key = ⟨layout.root, before ++ [layout.fileName name]⟩ := by
  obtain ⟨names, hnormal, hkey⟩ := hk.exists_normal hr
  obtain ⟨before, name, rfl⟩ := exists_concat_of_key hkey
  rw [key_concat hx (hnormal name (by simp))] at hkey
  exact ⟨before, name, hnormal, (Except.ok.inj hkey).symm⟩

/-- A key that a layout gives is canonical, and it is the one with these segments. -/
theorem Gives.canonical (hr : layout.root.IsNormal) (hx : '/' ∉ layout.extension.toList)
    (hk : layout.Gives key) :
    ∃ segments, key = ⟨layout.root, segments⟩ ∧ layout.Canonical key segments := by
  obtain ⟨before, name, hnormal, rfl⟩ := hk.eq_mk hr hx
  have hname := hnormal name (by simp)
  have hsegments : Location.IsNormal (before ++ [layout.fileName name]) :=
    hnormal.of_append_left.concat (isName_fileName hx hname)
  refine ⟨_, rfl, rfl, hsegments, ?_, ?_⟩
  · exact ⟨_, List.getLast?_concat, isFileName_fileName hname.ne_empty⟩
  · have hpath : Location.IsNormal (layout.root ++ (before ++ [layout.fileName name])) :=
      List.forall_mem_append.2 ⟨hr, hsegments⟩
    rw [Location.components_path hr, Key.path, Location.components_path hpath]
    rfl

namespace Canonical

variable {segments : List String}

theorem ne_nil (hc : layout.Canonical key segments) : segments ≠ [] := by
  obtain ⟨last, hlast, -⟩ := hc.isFileName
  rintro rfl
  cases hlast

theorem pieces_relative (hc : layout.Canonical key segments) :
    Path.pieces key.relative = segments := by
  rw [hc.relative]
  exact Path.pieces_intercalate hc.ne_nil fun s h => (hc.isName s h).slash_notMem

theorem drop_components (hc : layout.Canonical key segments) :
    (Path.components key.path).drop (Path.components layout.root.path).length = segments := by
  rw [hc.path, List.drop_left]

end Canonical

/-- **The keys of a project are canonical**, whatever directory an import is seen from, and whatever
is written for it or for an entry: such a key is made of the root of the project and of segments
below it, which are names, the last one ending in the extension with something in front of it.  So
two keys of one project are the same if their paths have the same components, and also if their
relative paths are the same. -/
theorem gives_canonical {settings : Settings} (hl : ofSettings settings = .ok layout)
    (hx : '/' ∉ settings.extension.toList) (hk : layout.Gives key) :
    (∃ segments, layout.Canonical key segments) ∧
      ∀ key', layout.Gives key' →
        (key = key' ↔ Path.components key.path = Path.components key'.path) ∧
        (key = key' ↔ key.relative = key'.relative) := by
  obtain ⟨hr, hext⟩ := isNormal_root hl
  rw [← hext] at hx
  obtain ⟨segments, hkey, hc⟩ := hk.canonical hr hx
  refine ⟨⟨segments, hc⟩, fun key' hk' => ?_⟩
  obtain ⟨segments', hkey', hc'⟩ := hk'.canonical hr hx
  have hsame : segments = segments' → key = key' := by
    rintro rfl
    rw [hkey, hkey']
  refine ⟨⟨fun h => by rw [h], fun h => hsame ?_⟩, ⟨fun h => by rw [h], fun h => hsame ?_⟩⟩
  · rw [← hc.drop_components, ← hc'.drop_components, h]
  · rw [← hc.pieces_relative, ← hc'.pieces_relative, h]

/-- A hidden name that is the dot and the extension gets the extension all the same, be it written
in an import with a detour or in an entry. -/
theorem hidden_canonical :
    let layout : Layout := ⟨["p"], "hash"⟩
    let key : Key := ⟨["p"], ["lib", ".hash.hash"]⟩
    ofSettings ⟨"/p/./x//..", "hash"⟩ = .ok layout ∧ '/' ∉ "hash".toList ∧
      layout.importKey "/p/lib/./sub" "..\\a/..//./.hash" = .ok key ∧
      layout.entryKey "/p/../p/lib/.hash/." = .ok key ∧
      (∃ segments, layout.Canonical key segments) ∧
      ∀ path key', layout.entryKey path = .ok key' → key'.relative = "lib/.hash.hash" →
        key = key' := by
  intro layout key
  have hl : ofSettings ⟨"/p/./x//..", "hash"⟩ = .ok layout := rfl
  have hx : '/' ∉ "hash".toList := by decide
  have hi : layout.importKey "/p/lib/./sub" "..\\a/..//./.hash" = .ok key := by cbv
  have he : layout.entryKey "/p/../p/lib/.hash/." = .ok key := by cbv
  obtain ⟨hc, hsame⟩ := gives_canonical hl hx (.ofImport hi)
  refine ⟨hl, hx, hi, he, hc, fun path key' h hrel => ?_⟩
  exact (hsame key' (.ofEntry h)).2.2 (hrel ▸ rfl)

end Layout

end ModuleResolution
