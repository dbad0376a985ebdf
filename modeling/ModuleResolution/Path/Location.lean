import ModuleResolution.Path.Basic

/-!
# Locations

A location is a place in the tree of directories, given by the names on the way from the top; it
is what an absolute path denotes when `.` and `..` are taken at their word, without a look at the
files themselves.  Different paths may denote one location.

* `Location.walk` : where some steps lead.
* `Location.ofPath?` : what an absolute path denotes.
* `Location.below?` : the names from one location down to another.
-/

namespace ModuleResolution

/-- A place in the tree of directories: the names on the way from the top. -/
abbrev Location := List String

namespace Location

/-- Where one step leads; there is no way up from the top. -/
def step (l : Location) (piece : String) : Location :=
  if Path.isIdle piece then l else if piece = ".." then l.dropLast else l ++ [piece]

/-- Where some steps lead. -/
def walk (l : Location) (pieces : List String) : Location := pieces.foldl step l

/-- What an absolute path denotes. -/
def ofPath? (path : String) : Option Location :=
  if Path.isAbsolute path then some (walk [] (Path.pieces path)) else none

/-- What a path denotes that is seen from `l`. -/
def look (l : Location) (path : String) : Location :=
  (ofPath? path).getD (walk l (Path.pieces path))

/-- The absolute path of a location. -/
def path (l : Location) : String := "/" ++ "/".intercalate l

/-- The names from `top` down to `l`, if `l` is `top` or below it. -/
def below? (top l : Location) : Option (List String) :=
  if top.isPrefixOf l then some (l.drop top.length) else none

/-- Where some steps lead that may not go above the start; `names` are the names below the start so
far. -/
def descend? (names : List String) : List String → Option (List String)
  | [] => some names
  | piece :: pieces =>
    if Path.isIdle piece then descend? names pieces
    else if piece = ".." then if names = [] then none else descend? names.dropLast pieces
    else descend? (names ++ [piece]) pieces

@[simp] theorem walk_cons (l : Location) (piece : String) (pieces : List String) :
    walk l (piece :: pieces) = walk (l.step piece) pieces := rfl

theorem below?_eq_some_iff {top l : Location} {names : List String} :
    below? top l = some names ↔ l = top ++ names := by
  simp only [below?]
  split
  · rename_i h
    obtain ⟨t, rfl⟩ := List.isPrefixOf_iff_prefix.1 h
    simp [eq_comm]
  · rename_i h
    simp only [reduceCtorEq, false_iff]
    rintro rfl
    exact h (List.isPrefixOf_iff_prefix.2 ⟨names, rfl⟩)

end Location

end ModuleResolution
