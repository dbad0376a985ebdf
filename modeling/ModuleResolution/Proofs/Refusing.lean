import Mathlib.Data.List.DropRight
import Mathlib.Data.List.Infix
import ModuleResolution.Proofs.Respelling

/-!
# Refused import paths

Five things can speak against an import path: it is empty, it holds a character that none may hold,
it starts at the root of the file system, it does not end in a name, or it leads out of the project.
Several may do so at once.  They are tried in this order, and the first one is the answer; a path
that nothing speaks against has a key.

A path leads out of the project if it is seen from outside, and also if it goes above the root on
its way, wherever it comes to in the end (`Path.Climbs`).

* `Layout.Refuses` : what speaks against an import path.
* `PathFault.rank` : the order in which the reasons are tried.
* `Location.descend?_eq_none_iff` : a path that may not go above its start is lost if it climbs.
* `Layout.importKey_eq_error_iff` : which import paths have no key, and for which reason.
-/

namespace ModuleResolution

/-! ### Climbing -/

namespace Path

/-- Some of the first pieces go up more often than there are names above them: the `depth` names in
front of the pieces, and the pieces among them that lead down. -/
def Climbs (depth : Nat) (pieces : List String) : Prop :=
  ∃ front, front <+: pieces ∧ depth + front.countP Layout.namesFile < front.count ".."

variable {depth : Nat} {piece : String} {pieces : List String}

theorem not_climbs_nil : ¬ Climbs depth [] := by
  rintro ⟨front, hfront, hlt⟩
  rw [List.prefix_nil.1 hfront] at hlt
  exact Nat.not_lt_zero _ hlt

theorem climbs_cons_iff : Climbs depth (piece :: pieces) ↔ ∃ front, front <+: pieces ∧
    depth + (piece :: front).countP Layout.namesFile < (piece :: front).count ".." := by
  constructor
  · rintro ⟨front, hfront, hlt⟩
    rcases List.prefix_cons_iff.1 hfront with rfl | ⟨rest, rfl, hrest⟩
    · exact absurd hlt (Nat.not_lt_zero _)
    · exact ⟨rest, hrest, hlt⟩
  · rintro ⟨front, hfront, hlt⟩
    exact ⟨piece :: front, List.cons_prefix_cons.2 ⟨rfl, hfront⟩, hlt⟩

theorem climbs_idle (hi : isIdle piece) : Climbs depth (piece :: pieces) ↔ Climbs depth pieces := by
  have hdown : ¬ Layout.namesFile piece := by simp [Layout.namesFile, hi]
  have hu : piece ≠ ".." := by
    rintro rfl
    exact absurd hi (by decide)
  simp only [climbs_cons_iff, List.countP_cons_of_neg hdown, List.count_cons_of_ne hu]
  rfl

theorem climbs_up : Climbs depth (".." :: pieces) ↔ depth = 0 ∨ Climbs (depth - 1) pieces := by
  have hdown : ¬ Layout.namesFile ".." := by decide
  simp only [climbs_cons_iff, List.countP_cons_of_neg hdown, List.count_cons_self]
  constructor
  · rintro ⟨front, hfront, hlt⟩
    by_cases hd : depth = 0
    · exact .inl hd
    · exact .inr ⟨front, hfront, by omega⟩
  · rintro (rfl | ⟨front, hfront, hlt⟩)
    · exact ⟨[], List.nil_prefix, Nat.zero_lt_one⟩
    · exact ⟨front, hfront, by omega⟩

theorem climbs_down (hi : ¬ isIdle piece) (hu : piece ≠ "..") :
    Climbs depth (piece :: pieces) ↔ Climbs (depth + 1) pieces := by
  have hdown : Layout.namesFile piece := by simp [Layout.namesFile, hi, hu]
  rw [climbs_cons_iff]
  refine exists_congr fun front => and_congr_right fun _ => ?_
  rw [List.countP_cons_of_pos hdown, List.count_cons_of_ne hu]
  omega

end Path

namespace Location

variable {names pieces : List String}

/-- The way is lost exactly if the pieces climb above the start. -/
theorem descend?_eq_none_iff : descend? names pieces = none ↔ Path.Climbs names.length pieces := by
  induction pieces generalizing names with
  | nil => simpa [descend?] using Path.not_climbs_nil
  | cons piece rest ih =>
    rw [descend?]
    split_ifs with hi hu hn
    · rw [ih, Path.climbs_idle hi]
    · simp [hu, Path.climbs_up, hn]
    · rw [ih, hu, Path.climbs_up, List.length_dropLast, List.length_eq_zero_iff, or_iff_right hn]
    · rw [ih, Path.climbs_down hi hu, List.length_append, List.length_singleton]

end Location

/-- The place of a reason in the order in which they are tried. -/
@[simp]
def PathFault.rank : PathFault → Nat
  | empty => 0
  | unsupported _ => 1
  | absolute => 2
  | noFileName => 3
  | outside _ => 4
  | rootNotAbsolute _ => 5

namespace Layout

variable {layout : Layout} {directory path : String} {fault : PathFault} {key : Key}

/-! ### The form of an import path -/

/-- What stands behind the last separator of an import path. -/
def ending (path : String) : String := String.ofList (path.toList.rtakeWhile (!isSeparator ·))

theorem not_isSeparator_of_mem_ending {c : Char} (hc : c ∈ (ending path).toList) :
    isSeparator c = false := by
  rw [ending, String.toList_ofList] at hc
  simpa using List.mem_rtakeWhile_imp hc

theorem exists_front (path : String) :
    ∃ front, EndsSegment front ∧ path = front ++ ending path := by
  have hsplit := List.rdropWhile_append_rtakeWhile (p := (!isSeparator ·)) (l := path.toList)
  refine ⟨String.ofList (path.toList.rdropWhile (!isSeparator ·)), ?_, ?_⟩
  · rcases List.eq_nil_or_concat' (path.toList.rdropWhile (!isSeparator ·)) with
      hnil | ⟨before, c, hc⟩
    · exact .inl (by rw [hnil, String.ofList_nil])
    · have hlast := List.rdropWhile_last_not (!isSeparator ·) path.toList (by simp [hc])
      simp only [hc, List.getLast_concat, Bool.not_eq_true', Bool.not_eq_false] at hlast
      exact .inr ⟨String.ofList before, c, hlast, by rw [hc, String.ofList_append]; rfl⟩
  · rw [← String.toList_inj, String.toList_append, ending, String.toList_ofList,
      String.toList_ofList, hsplit]

theorem getLast?_importPieces (path : String) :
    (importPieces path).getLast? = some (ending path) := by
  obtain ⟨front, hf, hpath⟩ := exists_front path
  obtain ⟨pieces, hpieces⟩ := hf.exists_importPieces
  have hlast : importPieces (ending path) = [ending path] :=
    importPieces_of_not_isSeparator fun _ => not_isSeparator_of_mem_ending
  rw [hpath, hpieces, ← hpath, hlast, List.getLast?_concat]

theorem isSeparator_iff {c : Char} : isSeparator c ↔ (if c = '\\' then '/' else c) = '/' := by
  by_cases h : c = '\\' <;> simp [isSeparator, h]

theorem head?_importPieces (hne : path ≠ "") :
    (importPieces path).head? = some "" ↔ ∃ c, path.toList.head? = some c ∧ isSeparator c := by
  obtain ⟨c, cs, hcs⟩ : ∃ c cs, path.toList = c :: cs := by
    refine List.exists_cons_of_ne_nil fun h => hne ?_
    rwa [← String.toList_inj]
  simp only [importPieces, hcs, List.map_cons, List.head?_cons, Option.some.injEq,
    exists_eq_left', isSeparator_iff, Path.split]
  generalize (if c = '\\' then '/' else c) = c'
  by_cases h : c' = '/'
  · simp [h]
  · rw [if_neg h]
    split <;> simp [← String.toList_inj, h]

/-- The text has the form of an import path. -/
structure WellFormed (path : String) : Prop where
  ne_empty : path ≠ ""
  supported : ∀ c ∈ path.toList, isUnsupported c = false
  /-- It does not start at the root of the file system. -/
  relative : ∀ c, path.toList.head? = some c → isSeparator c = false
  /-- It ends in a name. -/
  named : ending path ≠ "" ∧ ending path ≠ "." ∧ ending path ≠ ".."

theorem namesFile_iff {piece : String} :
    namesFile piece ↔ piece ≠ "" ∧ piece ≠ "." ∧ piece ≠ ".." := by
  simp [namesFile, Path.isIdle, and_assoc]

theorem importPath_eq_ok_iff_wellFormed {pieces : List String} :
    importPath path = .ok pieces ↔ WellFormed path ∧ pieces = importPieces path := by
  have hempty : (importPieces "").head? = some "" := rfl
  rw [importPath_eq_ok_iff]
  constructor
  · rintro ⟨hall, rfl, hhead, hlast⟩
    have hne : path ≠ "" := by
      rintro rfl
      exact hhead hempty
    rw [ne_eq, head?_importPieces hne] at hhead
    rw [getLast?_importPieces, Option.all_some, namesFile_iff] at hlast
    exact ⟨⟨hne, hall, fun c hc => by simpa using fun h => hhead ⟨c, hc, h⟩, hlast⟩, rfl⟩
  · rintro ⟨hw, rfl⟩
    refine ⟨hw.supported, rfl, ?_, ?_⟩
    · rw [ne_eq, head?_importPieces hw.ne_empty]
      rintro ⟨c, hc, hsep⟩
      rw [hw.relative c hc] at hsep
      cases hsep
    · rw [getLast?_importPieces, Option.all_some, namesFile_iff]
      exact hw.named

theorem WellFormed.exists_concat {names below : List String} (hw : WellFormed path)
    (hb : Location.descend? names (importPieces path) = some below) :
    ∃ before, below = before ++ [ending path] := by
  obtain ⟨front, hfront⟩ := List.getLast?_eq_some_iff.1 (getLast?_importPieces path)
  rw [hfront, Location.descend?_append, Option.bind_eq_some_iff] at hb
  obtain ⟨before, -, hlast⟩ := hb
  have hdown := namesFile_iff.2 hw.named
  simp only [namesFile, Bool.and_eq_true, Bool.not_eq_true', bne_iff_ne, ne_eq] at hdown
  rw [Location.descend?, if_neg (by simp [hdown.1]), if_neg hdown.2] at hlast
  exact ⟨before, (Option.some.inj hlast).symm⟩

/-- An import path has a key exactly if it has the right form, is seen from inside of the project,
and does not climb above its root. -/
theorem exists_importKey_iff : (∃ key, layout.importKey directory path = .ok key) ↔
    WellFormed path ∧ ∃ names, Location.ofPath? directory = some (layout.root ++ names) ∧
      ¬ Path.Climbs names.length (importPieces path) := by
  simp only [← Location.descend?_eq_none_iff, importKey_eq_ok_iff, importPath_eq_ok_iff_wellFormed]
  constructor
  · rintro ⟨key, pieces, names, below, ⟨hw, rfl⟩, hd, hb, -⟩
    exact ⟨hw, names, hd, by simp [hb]⟩
  · rintro ⟨hw, names, hd, hb⟩
    obtain ⟨below, hb⟩ := Option.ne_none_iff_exists'.1 hb
    obtain ⟨before, rfl⟩ := hw.exists_concat hb
    have hkey : ∃ key, layout.key (before ++ [ending path]) = .ok key := by
      rw [Layout.key, List.getLast?_concat]
      exact ⟨_, rfl⟩
    obtain ⟨key, hkey⟩ := hkey
    exact ⟨key, _, names, _, ⟨hw, rfl⟩, hd, hb, hkey⟩

/-! ### Reasons -/

/-- What speaks against an import path, seen from a directory. -/
inductive Refuses (layout : Layout) (directory path : String) : PathFault → Prop
  | empty (h : path = "") : Refuses layout directory path .empty
  /-- This is the first character that no import path may hold. -/
  | unsupported {c before after} (h : path.toList = before ++ c :: after) (hc : isUnsupported c)
    (hb : ∀ b ∈ before, isUnsupported b = false) : Refuses layout directory path (.unsupported c)
  | absolute {c} (h : path.toList.head? = some c) (hc : isSeparator c) :
    Refuses layout directory path .absolute
  | noFileName (h : ending path = "" ∨ ending path = "." ∨ ending path = "..") :
    Refuses layout directory path .noFileName
  /-- The directory is neither the root of the project nor below it. -/
  | elsewhere (h : ∀ names, Location.ofPath? directory ≠ some (layout.root ++ names)) :
    Refuses layout directory path (.outside layout.root)
  /-- The path goes above the root. -/
  | climbing {names} (hd : Location.ofPath? directory = some (layout.root ++ names))
    (h : Path.Climbs names.length (importPieces path)) :
    Refuses layout directory path (.outside layout.root)

theorem find?_eq_some {c : Char} {before after : List Char} (h : path.toList = before ++ c :: after)
    (hc : isUnsupported c) (hb : ∀ b ∈ before, isUnsupported b = false) :
    path.toList.find? isUnsupported = some c :=
  List.find?_eq_some_iff_append.2 ⟨hc, before, after, h, fun b hmem => by simp [hb b hmem]⟩

namespace Refuses

variable {other : PathFault}

theorem eq_of_rank_eq (hr : layout.Refuses directory path fault)
    (hr' : layout.Refuses directory path other) (hrank : fault.rank = other.rank) :
    fault = other := by
  cases hr with
  | unsupported h hc hb =>
    cases hr' with
    | unsupported h' hc' hb' =>
      have hfirst : path.toList.find? isUnsupported = some _ := find?_eq_some h hc hb
      rw [find?_eq_some h' hc' hb'] at hfirst
      rw [Option.some.inj hfirst]
    | _ => cases hrank
  | _ => cases hr' <;> first | rfl | cases hrank

theorem le_rank {n : Nat} (hr : layout.Refuses directory path fault) (hn : n ≤ 4)
    (hempty : 0 < n → path ≠ "")
    (hsupported : 1 < n → ∀ c ∈ path.toList, isUnsupported c = false)
    (hrelative : 2 < n → ∀ c, path.toList.head? = some c → isSeparator c = false)
    (hnamed : 3 < n → ending path ≠ "" ∧ ending path ≠ "." ∧ ending path ≠ "..") :
    n ≤ fault.rank := by
  by_contra hlt
  rw [Nat.not_le] at hlt
  cases hr with
  | empty h => exact hempty hlt h
  | @unsupported c _ _ h hc =>
    have hmem : c ∈ path.toList := by simp [h]
    simp [hsupported hlt c hmem] at hc
  | absolute h hc => simp [hrelative hlt _ h] at hc
  | noFileName h => simp [hnamed hlt] at h
  | elsewhere | climbing => exact absurd hlt (Nat.not_lt.2 hn)

theorem four_le_rank (hr : layout.Refuses directory path fault) (hw : WellFormed path) :
    4 ≤ fault.rank :=
  hr.le_rank (Nat.le_refl 4) (fun _ => hw.ne_empty) (fun _ => hw.supported) (fun _ => hw.relative)
    fun _ => hw.named

end Refuses

/-- The reason that is told holds, and no reason in front of it does. -/
theorem refuses_of_importPath (h : importPath path = .error fault) :
    layout.Refuses directory path fault ∧
      ∀ other, layout.Refuses directory path other → fault.rank ≤ other.rank := by
  unfold importPath at h
  split_ifs at h with hempty
  · cases h
    exact ⟨.empty hempty, fun other _ => Nat.zero_le _⟩
  · cases hc : path.toList.find? isUnsupported with
    | some c =>
      simp only [hc, Except.error.injEq] at h
      obtain ⟨hsome, before, after, hpath, hbefore⟩ := List.find?_eq_some_iff_append.1 hc
      rw [← h]
      refine ⟨.unsupported hpath hsome (by simpa using hbefore), fun other hr => ?_⟩
      exact hr.le_rank (by simp) (fun _ => hempty) (by simp) (by simp) (by simp)
    | none =>
      have hall : ∀ c ∈ path.toList, isUnsupported c = false := by simpa using hc
      simp only [hc] at h
      split_ifs at h with hhead hlast
      · obtain ⟨c, hc, hsep⟩ := (head?_importPieces hempty).1 hhead
        cases h
        refine ⟨.absolute hc hsep, fun other hr => ?_⟩
        exact hr.le_rank (by simp) (fun _ => hempty) (fun _ => hall) (by simp) (by simp)
      · rw [head?_importPieces hempty, not_exists] at hhead
        rw [getLast?_importPieces, Option.all_some, namesFile_iff] at hlast
        cases h
        refine ⟨.noFileName (by tauto), fun other hr => ?_⟩
        have hrelative : ∀ c, path.toList.head? = some c → isSeparator c = false :=
          fun c hc => by simpa using fun hsep => hhead c ⟨hc, hsep⟩
        exact hr.le_rank (by simp) (fun _ => hempty) (fun _ => hall) (fun _ => hrelative) (by simp)

theorem inside_eq_error_iff {l : Location} : layout.inside l = .error fault ↔
    fault = .outside layout.root ∧ ∀ names, l ≠ layout.root ++ names := by
  simp only [ne_eq, ← inside_eq_ok_iff]
  unfold inside
  cases layout.root.below? l with
  | none => simp [eq_comm]
  | some names => simp

/-- A text of the right form is refused only because it leads out of the project. -/
theorem WellFormed.refuses (hw : WellFormed path)
    (h : layout.importKey directory path = .error fault) :
    layout.Refuses directory path fault ∧ fault = .outside layout.root := by
  have himport : importPath path = .ok (importPieces path) :=
    importPath_eq_ok_iff_wellFormed.2 ⟨hw, rfl⟩
  simp only [importKey, bind, Except.bind, himport] at h
  cases hl : Location.ofPath? directory with
  | none =>
    rw [hl] at h
    cases h
    exact ⟨.elsewhere (by simp [hl]), rfl⟩
  | some l =>
    simp only [hl] at h
    cases hinside : layout.inside l with
    | error fault' =>
      simp only [hinside] at h
      cases h
      obtain ⟨rfl, houtside⟩ := inside_eq_error_iff.1 hinside
      exact ⟨.elsewhere (by simpa [hl] using houtside), rfl⟩
    | ok names =>
      simp only [hinside] at h
      rw [inside_eq_ok_iff.1 hinside] at hl
      cases hb : Location.descend? names (importPieces path) with
      | none =>
        simp only [hb] at h
        cases h
        exact ⟨.climbing hl (Location.descend?_eq_none_iff.1 hb), rfl⟩
      | some below =>
        -- there is a name at the end, so that there is a key
        obtain ⟨before, rfl⟩ := hw.exists_concat hb
        simp only [hb, Layout.key, List.getLast?_concat] at h
        cases h

theorem refuses_of_importKey (h : layout.importKey directory path = .error fault) :
    layout.Refuses directory path fault ∧
      ∀ other, layout.Refuses directory path other → fault.rank ≤ other.rank := by
  cases himport : importPath path with
  | error fault' =>
    simp only [importKey, bind, Except.bind, himport] at h
    cases h
    exact refuses_of_importPath himport
  | ok pieces =>
    have hw : WellFormed path := (importPath_eq_ok_iff_wellFormed.1 himport).1
    obtain ⟨hrefuses, rfl⟩ := hw.refuses h
    exact ⟨hrefuses, fun other hr => hr.four_le_rank hw⟩

theorem not_refuses (h : ∃ key, layout.importKey directory path = .ok key) :
    ¬ layout.Refuses directory path fault := by
  intro hr
  obtain ⟨hw, names, hd, hclimbs⟩ := exists_importKey_iff.1 h
  have hrank := hr.four_le_rank hw
  cases hr with
  | elsewhere h => exact h names hd
  | climbing hd' h =>
    rw [hd, Option.some.injEq, List.append_cancel_left_eq] at hd'
    exact hclimbs (hd' ▸ h)
  | _ => simp at hrank

/-- **An import path is refused exactly for the first thing that speaks against it**, and it has a
key if nothing does, whatever directory it is seen from. -/
theorem importKey_eq_error_iff (layout : Layout) (directory path : String) :
    (∀ fault, layout.importKey directory path = .error fault ↔
        layout.Refuses directory path fault ∧
          ∀ other, layout.Refuses directory path other → fault.rank ≤ other.rank) ∧
      ((∃ key, layout.importKey directory path = .ok key) ↔
        ∀ fault, ¬ layout.Refuses directory path fault) := by
  refine ⟨fun fault => ⟨refuses_of_importKey, ?_⟩, fun h fault => not_refuses h, ?_⟩
  · rintro ⟨hr, hfirst⟩
    cases h : layout.importKey directory path with
    | ok key => exact absurd hr (not_refuses ⟨key, h⟩)
    | error fault' =>
      obtain ⟨hr', hfirst'⟩ := refuses_of_importKey h
      rw [hr.eq_of_rank_eq hr' (Nat.le_antisymm (hfirst _ hr') (hfirst' _ hr))]
  · intro hnone
    cases h : layout.importKey directory path with
    | ok key => exact ⟨key, rfl⟩
    | error fault => exact absurd (refuses_of_importKey h).1 (hnone fault)

/-- Three things speak against this path, the first of which is the character. -/
example : (⟨["p"], "hash"⟩ : Layout).importKey "/q" "/a*/.." = .error (.unsupported '*') := by cbv

/-- This path comes back to the project, but not before it has left it. -/
example : (⟨["p"], "hash"⟩ : Layout).importKey "/p/lib" "../../p/a" = .error (.outside ["p"]) := by
  cbv

end Layout

end ModuleResolution
