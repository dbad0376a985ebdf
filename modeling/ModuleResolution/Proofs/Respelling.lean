import Mathlib.Data.List.Induction
import ModuleResolution.Proofs.Canonical

/-!
# Spellings of one file

An import path has the key of the file that it names, which can be told by segments alone: those of
the importing directory below the root and those that are written, without the ones that mean
nothing, without each `..` and the segment that it goes back on, and with the extension at the end.
So two import paths have one key exactly if they come to the same segments, and a path may be
written in other ways without changing its key.

* `Path.cancel` : each `..` goes away together with the segment in front of it.
* `Layout.segments` : the segments that an import path comes to.
* `Layout.importKey_eq_mk` : the key of an import path has these segments.
* `Layout.Respells` : the ways to write a path differently.
* `Layout.same_key_iff` : which import paths have one key.
-/

namespace ModuleResolution

/-! ### Going back -/

namespace Path

/-- One more segment: `..` takes away the one in front of it. -/
def cancelNext (before : List String) (segment : String) : List String :=
  if segment = ".." then before.dropLast else before ++ [segment]

/-- The segments that are left when each `..` has taken away the one in front of it. -/
def cancel (segments : List String) : List String := segments.foldl cancelNext []

/-- The pieces of a path that lead anywhere. -/
def meaningful (path : String) : List String := (pieces path).filter (!isIdle ·)

variable {before after names : List String} {name : String}

theorem cancel_concat (segments : List String) (segment : String) :
    cancel (segments ++ [segment]) = cancelNext (cancel segments) segment := by
  rw [cancel, List.foldl_append]
  rfl

theorem cancel_of_notMem (h : ".." ∉ names) : cancel names = names := by
  induction names using List.reverseRecOn with
  | nil => rfl
  | append_singleton names name ih =>
    rw [List.mem_append, List.mem_singleton, not_or] at h
    rw [cancel_concat, cancelNext, if_neg (Ne.symm h.2), ih h.1]

/-- A segment and the `..` behind it go away together. -/
theorem cancel_detour (hn : name ≠ "..") :
    cancel (before ++ name :: ".." :: after) = cancel (before ++ after) := by
  have hback : cancel (before ++ [name] ++ [".."]) = cancel before := by
    rw [cancel_concat, cancelNext, if_pos rfl, cancel_concat, cancelNext, if_neg hn,
      List.dropLast_concat]
  have hsplit : before ++ name :: ".." :: after = before ++ [name] ++ [".."] ++ after := by simp
  rw [hsplit, cancel, List.foldl_append, ← cancel, hback, cancel, ← List.foldl_append, ← cancel]

end Path

namespace Location

variable {names pieces below : List String}

theorem walk_eq_foldl (l : Location) (pieces : List String) :
    l.walk pieces = (pieces.filter (!Path.isIdle ·)).foldl Path.cancelNext l := by
  induction pieces generalizing l with
  | nil => rfl
  | cons piece rest ih =>
    rw [walk_cons, ih, List.filter_cons]
    by_cases hi : Path.isIdle piece
    · simp [step, hi]
    · simp [step, hi, Path.cancelNext]

/-- Where a path leads that stays below its start, told by its segments. -/
theorem descend?_eq_cancel (hn : ".." ∉ names) (h : descend? names pieces = some below) :
    below = Path.cancel (names ++ pieces.filter (!Path.isIdle ·)) := by
  induction pieces generalizing names with
  | nil =>
    cases h
    rw [List.filter_nil, List.append_nil, Path.cancel_of_notMem hn]
  | cons piece rest ih =>
    rw [descend?] at h
    split_ifs at h with hi hu hnil
    · rw [ih hn h, List.filter_cons_of_neg (by simp [hi])]
    · rw [List.filter_cons_of_pos (by simp [hi]), hu]
      obtain ⟨before, name, rfl⟩ := (List.eq_nil_or_concat' names).resolve_left hnil
      rw [List.mem_append, List.mem_singleton, not_or] at hn
      rw [List.dropLast_concat] at h
      rw [ih hn.1 h, List.append_assoc, List.singleton_append, Path.cancel_detour (Ne.symm hn.2)]
    · have hn' : ".." ∉ names ++ [piece] := by
        rw [List.mem_append, List.mem_singleton, not_or]
        exact ⟨hn, Ne.symm hu⟩
      rw [ih hn' h, List.filter_cons_of_pos (by simp [hi]), List.append_assoc,
        List.singleton_append]

theorem descend?_append (names pieces pieces' : List String) :
    descend? names (pieces ++ pieces') = (descend? names pieces).bind (descend? · pieces') := by
  induction pieces generalizing names with
  | nil => rfl
  | cons piece rest ih =>
    rw [List.cons_append, descend?, descend?]
    split_ifs
    · exact ih names
    · rfl
    · exact ih _
    · exact ih _

end Location

/-! ### Segments -/

namespace Layout

variable {layout : Layout} {directory path path' : String} {key : Key}

instance (name : String) : Decidable (layout.IsFileName name) :=
  decidable_of_iff _ carriesExtension_iff

/-- The path with slashes in place of its backslashes. -/
def slashed (path : String) : String :=
  String.ofList (path.toList.map fun c => if c = '\\' then '/' else c)

/-- The segments with the extension at the end of the last one, unless that is a name of a file. -/
def completed (layout : Layout) (segments : List String) : List String :=
  segments.dropLast ++ segments.getLast?.toList.map fun last =>
    if layout.IsFileName last then last else last ++ "." ++ layout.extension

/-- The segments that the import path `path` comes to in a file of the directory `directory`. -/
def segments (layout : Layout) (directory path : String) : List String :=
  let below := (Path.cancel (Path.meaningful directory)).drop layout.root.length
  layout.completed (Path.cancel (below ++ Path.meaningful (slashed path)))

theorem slashed_of_notMem (h : '\\' ∉ path.toList) : slashed path = path := by
  rw [slashed, ← String.toList_inj, String.toList_ofList]
  refine (List.map_congr_left fun c hc => ?_).trans (List.map_id path.toList)
  rw [if_neg, id_eq]
  rintro rfl
  exact h hc

theorem importPieces_eq (path : String) : importPieces path = Path.pieces (slashed path) := by
  rw [importPieces, Path.pieces, slashed, String.toList_ofList]

theorem completed_concat (segments : List String) (last : String) :
    layout.completed (segments ++ [last]) = segments ++ [layout.fileName last] := by
  simp only [completed, List.dropLast_concat, List.getLast?_concat, Option.toList_some,
    List.map_singleton, fileName, suffix, carriesExtension_iff, String.append_assoc]

/-- **The key of an import path** is made of the root and of the segments that the path comes to. -/
theorem importKey_eq_mk (hx : '/' ∉ layout.extension.toList)
    (h : layout.importKey directory path = .ok key) :
    key = ⟨layout.root, layout.segments directory path⟩ := by
  obtain ⟨pieces, names, below, hp, hd, hb, hkey⟩ := importKey_eq_ok_iff.1 h
  have hnormal := isNormal_of_descend? hp hd hb
  have hnames : ".." ∉ names := fun h =>
    (Location.isNormal_of_ofPath? hd ".." (List.mem_append_right _ h)).ne_dots rfl
  obtain ⟨-, rfl, -⟩ := importPath_eq_ok_iff.1 hp
  -- the directory leads to the root and to the names below it
  have hdir : (Path.cancel (Path.meaningful directory)).drop layout.root.length = names := by
    rw [Location.ofPath?] at hd
    split at hd
    · rw [Path.cancel, Path.meaningful, ← Location.walk_eq_foldl, Option.some.inj hd,
        List.drop_left]
    · cases hd
  obtain ⟨before, name, rfl⟩ := exists_concat_of_key hkey
  rw [key_concat hx (hnormal name (by simp))] at hkey
  simp only [segments]
  rw [hdir, Path.meaningful, ← importPieces_eq, ← Location.descend?_eq_cancel hnames hb,
    completed_concat]
  exact (Except.ok.inj hkey).symm

/-! ### Other spellings -/

/-- The character stands between two segments of an import path. -/
def isSeparator (c : Char) : Bool := c = '/' || c = '\\'

/-- A segment may start behind `front`. -/
def EndsSegment (front : String) : Prop :=
  front = "" ∨ ∃ before c, isSeparator c ∧ front = before ++ String.singleton c

/-- The text is a segment that leads down by one step, and can be written in an import path. -/
structure IsSegment (name : String) : Prop where
  isName : Path.IsName name
  supported : ∀ c ∈ name.toList, isUnsupported c = false ∧ isSeparator c = false

/-- The second import path is another spelling of the first one. -/
inductive Respells : String → String → Prop
  /-- Slashes and backslashes take each other's place. -/
  | separators {path path' : String} (h : slashed path' = slashed path) : Respells path path'
  /-- A step that stays is put in front of a segment. -/
  | dot {front back} (hf : EndsSegment front) : Respells (front ++ back) (front ++ "./" ++ back)
  /-- A detour is put in front of a segment. -/
  | detour {front name back} (hf : EndsSegment front) (hn : IsSegment name) :
    Respells (front ++ back) (front ++ name ++ "/../" ++ back)
  /-- A separator is written twice. -/
  | doubled {front c back} (hc : isSeparator c) :
    Respells (front ++ String.singleton c ++ back)
      (front ++ String.singleton c ++ String.singleton c ++ back)

theorem importPieces_append_separator {c : Char} (hc : isSeparator c) (front back : String) :
    importPieces (front ++ String.singleton c ++ back) =
      importPieces front ++ importPieces back := by
  have hslash : (if c = '\\' then '/' else c) = '/' := by
    simp only [isSeparator, Bool.or_eq_true, decide_eq_true_eq] at hc
    rcases hc with rfl | rfl <;> rfl
  simp only [importPieces, String.toList_append, String.toList_singleton, List.map_append,
    List.map_cons, hslash, List.append_assoc, List.singleton_append, Path.split_append_cons]

theorem EndsSegment.exists_importPieces {front : String} (hf : EndsSegment front) :
    ∃ pieces, ∀ back, importPieces (front ++ back) = pieces ++ importPieces back := by
  rcases hf with rfl | ⟨before, c, hc, rfl⟩
  · exact ⟨[], fun back => by rw [String.empty_append, List.nil_append]⟩
  · exact ⟨importPieces before, importPieces_append_separator hc before⟩

theorem importPieces_of_not_isSeparator {name : String}
    (h : ∀ c ∈ name.toList, isSeparator c = false) : importPieces name = [name] := by
  have hslash : '/' ∉ name.toList := fun hmem => absurd (h _ hmem) (by decide)
  have hback : '\\' ∉ name.toList := fun hmem => absurd (h _ hmem) (by decide)
  rw [importPieces_eq, slashed_of_notMem hback, Path.pieces_of_slash_notMem hslash]

theorem importPieces_ne_nil (path : String) : importPieces path ≠ [] := by
  simp [importPieces, Path.split_ne_nil]

/-- What may be put between pieces of an import path that has a key: pieces that come back to where
they start, the first of which is not empty if it is the first of all. -/
theorem importKey_insert {front inserted back : List String}
    (h : layout.importKey directory path = .ok key) (hp : importPieces path = front ++ back)
    (hp' : importPieces path' = front ++ (inserted ++ back)) (hb : back ≠ [])
    (hhead : front = [] → ∃ first rest, inserted = first :: rest ∧ first ≠ "")
    (hback : ∀ names, Location.descend? names inserted = some names)
    (hc : ∀ c ∈ path'.toList, c ∈ path.toList ∨ isUnsupported c = false) :
    layout.importKey directory path' = .ok key := by
  obtain ⟨pieces, names, below, himport, hd, hbelow, hkey⟩ := importKey_eq_ok_iff.1 h
  obtain ⟨hall, rfl, hfirst, hlast⟩ := importPath_eq_ok_iff.1 himport
  refine importKey_eq_ok_iff.2 ⟨front ++ (inserted ++ back), names, below, ?_, hd, ?_, hkey⟩
  · refine importPath_eq_ok_iff.2 ⟨?_, hp'.symm, ?_, ?_⟩
    · exact fun c h => (hc c h).elim (hall c) id
    · rw [hp] at hfirst
      cases front with
      | cons first rest => exact hfirst
      | nil =>
        obtain ⟨first, rest, rfl, hne⟩ := hhead rfl
        simpa using hne
    · rw [hp, List.getLast?_append_of_ne_nil _ hb] at hlast
      rw [← List.append_assoc, List.getLast?_append_of_ne_nil _ hb]
      exact hlast
  · rw [hp, Location.descend?_append] at hbelow
    rw [Location.descend?_append, ← hbelow]
    congr 1
    funext names
    rw [Location.descend?_append, hback, Option.bind_some]

theorem isUnsupported_of_isSeparator {c : Char} (hc : isSeparator c) : isUnsupported c = false := by
  simp only [isSeparator, Bool.or_eq_true, decide_eq_true_eq] at hc
  rcases hc with rfl | rfl <;> decide

theorem isUnsupported_of_any {text : String} {c : Char}
    (h : text.toList.any isUnsupported = false) (hc : c ∈ text.toList) : isUnsupported c = false :=
  Bool.eq_false_iff.2 (List.any_eq_false.1 h c hc)

theorem mem_or_isSeparator_of_slashed {c : Char} (hs : slashed path' = slashed path)
    (hc : c ∈ path'.toList) : c ∈ path.toList ∨ isSeparator c := by
  simp only [slashed, ← String.toList_inj, String.toList_ofList] at hs
  have hmem := List.mem_map_of_mem (f := fun c => if c = '\\' then '/' else c) hc
  rw [hs] at hmem
  obtain ⟨c', hc', he⟩ := List.mem_map.1 hmem
  by_cases hsep : isSeparator c
  · exact .inr hsep
  · left
    simp only [isSeparator, Bool.or_eq_true, decide_eq_true_eq, not_or] at hsep
    rw [if_neg hsep.2] at he
    split_ifs at he
    · exact absurd he.symm hsep.1
    · exact he ▸ hc'

theorem importKey_slashed (hs : slashed path' = slashed path)
    (h : layout.importKey directory path = .ok key) :
    layout.importKey directory path' = .ok key := by
  obtain ⟨pieces, names, below, himport, hd, hbelow, hkey⟩ := importKey_eq_ok_iff.1 h
  obtain ⟨hall, hpieces, hends⟩ := importPath_eq_ok_iff.1 himport
  have hpieces' : pieces = importPieces path' := by
    rw [hpieces, importPieces_eq, importPieces_eq, hs]
  have hall' : ∀ c ∈ path'.toList, isUnsupported c = false := fun c hc =>
    (mem_or_isSeparator_of_slashed hs hc).elim (hall c) isUnsupported_of_isSeparator
  exact importKey_eq_ok_iff.2
    ⟨pieces, names, below, importPath_eq_ok_iff.2 ⟨hall', hpieces', hends⟩, hd, hbelow, hkey⟩

section Insert

variable {front name back : String} {c : Char}

theorem importKey_dot (hf : EndsSegment front)
    (h : layout.importKey directory (front ++ back) = .ok key) :
    layout.importKey directory (front ++ "./" ++ back) = .ok key := by
  obtain ⟨pieces, hpieces⟩ := hf.exists_importPieces
  have hdot : importPieces ("./" ++ back) = ["."] ++ importPieces back :=
    importPieces_append_separator (c := '/') rfl "." back
  have hpieces' : importPieces (front ++ "./" ++ back) =
      pieces ++ (["."] ++ importPieces back) := by
    rw [String.append_assoc, hpieces, hdot]
  refine importKey_insert h (hpieces back) hpieces' (importPieces_ne_nil back) ?_ ?_ ?_
  · exact fun _ => ⟨".", [], rfl, by decide⟩
  · exact fun _ => rfl
  · intro c hmem
    simp only [String.toList_append, List.mem_append] at hmem ⊢
    rcases hmem with (hmem | hmem) | hmem
    · exact .inl (.inl hmem)
    · exact .inr (isUnsupported_of_any (by decide) hmem)
    · exact .inl (.inr hmem)

theorem importKey_detour (hf : EndsSegment front) (hn : IsSegment name)
    (h : layout.importKey directory (front ++ back) = .ok key) :
    layout.importKey directory (front ++ name ++ "/../" ++ back) = .ok key := by
  obtain ⟨pieces, hpieces⟩ := hf.exists_importPieces
  have hdetour : importPieces (name ++ "/../" ++ back) = [name, ".."] ++ importPieces back := by
    have hsplit : name ++ "/../" ++ back =
        name ++ String.singleton '/' ++ (".." ++ String.singleton '/' ++ back) := by
      simp [← String.toList_inj]
    rw [hsplit, importPieces_append_separator (c := '/') rfl,
      importPieces_append_separator (c := '/') rfl,
      importPieces_of_not_isSeparator fun c hc => (hn.supported c hc).2]
    rfl
  have hpieces' : importPieces (front ++ name ++ "/../" ++ back) =
      pieces ++ ([name, ".."] ++ importPieces back) := by
    rw [String.append_assoc, String.append_assoc, hpieces, ← String.append_assoc, hdetour]
  refine importKey_insert h (hpieces back) hpieces' (importPieces_ne_nil back) ?_ ?_ ?_
  · exact fun _ => ⟨name, [".."], rfl, hn.isName.ne_empty⟩
  · intro names
    simp [Location.descend?, Path.isIdle, hn.isName.ne_empty, hn.isName.ne_dot, hn.isName.ne_dots]
  · intro c hmem
    simp only [String.toList_append, List.mem_append] at hmem ⊢
    rcases hmem with ((hmem | hmem) | hmem) | hmem
    · exact .inl (.inl hmem)
    · exact .inr (hn.supported c hmem).1
    · exact .inr (isUnsupported_of_any (by decide) hmem)
    · exact .inl (.inr hmem)

theorem importKey_doubled (hc : isSeparator c)
    (h : layout.importKey directory (front ++ String.singleton c ++ back) = .ok key) :
    layout.importKey directory
      (front ++ String.singleton c ++ String.singleton c ++ back) = .ok key := by
  have hdoubled : importPieces (front ++ String.singleton c ++ String.singleton c ++ back) =
      importPieces front ++ ([""] ++ importPieces back) := by
    rw [importPieces_append_separator hc, ← String.append_empty (s := front ++ String.singleton c),
      importPieces_append_separator hc, List.append_assoc]
    rfl
  refine importKey_insert h (importPieces_append_separator hc front back) hdoubled
    (importPieces_ne_nil back) ?_ ?_ ?_
  · exact fun h => absurd h (importPieces_ne_nil front)
  · exact fun _ => rfl
  · intro c' hmem
    simp only [String.toList_append, List.mem_append] at hmem ⊢
    rcases hmem with ((hmem | hmem) | hmem) | hmem
    · exact .inl (.inl (.inl hmem))
    · exact .inl (.inl (.inr hmem))
    · exact .inl (.inl (.inr hmem))
    · exact .inl (.inr hmem)

end Insert

/-- Another spelling of an import path that has a key has the same key. -/
theorem Respells.importKey_eq (hr : Respells path path')
    (h : layout.importKey directory path = .ok key) :
    layout.importKey directory path' = .ok key := by
  cases hr with
  | separators hs => exact importKey_slashed hs h
  | dot hf => exact importKey_dot hf h
  | detour hf hn => exact importKey_detour hf hn h
  | doubled hc => exact importKey_doubled hc h

/-- **Two import paths have the same key exactly if they come to the same segments**, whatever
directories they are seen from; and every other spelling of a path that has a key has this key. -/
theorem same_key_iff (hx : '/' ∉ layout.extension.toList) {directory' : String} {key' : Key}
    (h : layout.importKey directory path = .ok key)
    (h' : layout.importKey directory' path' = .ok key') :
    (key = key' ↔ layout.segments directory path = layout.segments directory' path') ∧
      ∀ other, Respells path other → layout.importKey directory other = .ok key := by
  refine ⟨?_, fun other hr => hr.importKey_eq h⟩
  rw [importKey_eq_mk hx h, importKey_eq_mk hx h', Key.mk.injEq]
  exact and_iff_right rfl

/-- A file of the directory above, named from two directories, with and without the extension. -/
theorem siblings_same_key :
    let layout : Layout := ⟨["p"], "hash"⟩
    let key : Key := ⟨["p"], ["lib", "a.hash"]⟩
    '/' ∉ layout.extension.toList ∧
      layout.importKey "/p/lib/sub/deep" "..\\.././a" = .ok key ∧
      layout.importKey "/p/x/.." "lib/sub/../a.hash" = .ok key ∧
      layout.segments "/p/lib/sub/deep" "..\\.././a" =
        layout.segments "/p/x/.." "lib/sub/../a.hash" ∧
      layout.importKey "/p/lib/sub/deep" "..\\../x.y/.././a" = .ok key := by
  intro layout key
  have hx : '/' ∉ layout.extension.toList := by decide
  have h : layout.importKey "/p/lib/sub/deep" "..\\.././a" = .ok key := by cbv
  have h' : layout.importKey "/p/x/.." "lib/sub/../a.hash" = .ok key := by cbv
  obtain ⟨hsame, hother⟩ := same_key_iff hx h h'
  refine ⟨hx, h, h', hsame.1 rfl, ?_⟩
  have hall : "x.y".toList.all (fun c => !isUnsupported c && !isSeparator c) = true := by decide
  have hname : IsSegment "x.y" :=
    ⟨⟨by decide, by decide, by decide, by decide⟩, by simpa using hall⟩
  have hfront : EndsSegment "..\\../" := .inr ⟨"..\\..", '/', rfl, rfl⟩
  have hdetour : Respells ("..\\../" ++ "./a") ("..\\../" ++ "x.y" ++ "/../" ++ "./a") :=
    .detour hfront hname
  exact hother _ hdetour

end Layout

end ModuleResolution
