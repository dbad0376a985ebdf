import ModuleResolution.Module.Failure
import ModuleResolution.Source.Program

/-!
# Projects

What a module is loaded with: the layout that gives paths their keys, a source of texts, and a way
to read the items of a text.

* `Loader` : a source of texts, which has finitely many.
* `ItemReader` : how the items of a text are read; `Program.itemsOf` is the usual way.

Both are supplied from outside, and both have promised how they fail: a source says that the text of
the key it was asked for is missing or cannot be read, and a reader gives all the syntax errors of
the text it was given.  The types leave them no other way, and the failure is told of that key
(`ReadFault.failure`, `Failure.malformed`).
-/

namespace ModuleResolution

/-- Why the text of a module cannot be had. -/
inductive ReadFault where
  /-- There is no file. -/
  | missing
  /-- There is one, but it cannot be read. -/
  | unreadable (reason : String)
deriving DecidableEq

/-- The failure of a module whose text cannot be had. -/
def ReadFault.failure (key : Key) : ReadFault → Failure
  | missing => .missing key
  | unreadable reason => .unreadable key reason

/-- A source of texts.  What it may fail with is fixed by its contract, not proved of it: a source
that answers for another key, or in another way, is none.  Only finitely many keys have a text,
which is no restriction on what happens: a request that ends has asked for finitely many. -/
structure Loader where
  /-- The text of a module. -/
  read : Key → Except ReadFault String
  /-- The keys that may have a text. -/
  served : List Key
  mem_served : ∀ key text, read key = .ok text → key ∈ served

/-- How the items of a text are read; it may depend on whose text it is.  By its contract it fails
with the syntax errors of that text and with nothing else. -/
abbrev ItemReader := Key → String → Except (List SyntaxError) (List Item)

/-- What a module is loaded with. -/
structure Project where
  layout : Layout
  loader : Loader
  items : ItemReader

namespace Program

/-- The items of a text as its program says. -/
def itemsOf : ItemReader := fun _ source => (ofText source).map fun items => items.map Located.value

/-- The items of a text, with the declarations hidden that `hidden` names for its module. -/
def itemsHiding (hidden : Key → List String) : ItemReader := fun key source =>
  (itemsOf key source).map fun items => items.map (Item.hide (hidden key))

end Program

/-! ### Loaders -/

namespace Loader

/-- A source of texts for `served`, read by `read`. -/
def serving (served : List Key) (read : Key → Except ReadFault String) : Loader where
  read key :=
    match read key with
    | .ok text => if key ∈ served then .ok text else .error .missing
    | .error fault => .error fault
  served := served
  mem_served key text h := by
    split at h
    · split at h
      · assumption
      · cases h
    · cases h

/-- A source of texts that knows the answers for some keys; no other key has a text. -/
def ofAnswers (answers : List (Key × Except ReadFault String)) : Loader :=
  serving (answers.map (·.1)) fun key =>
    ((answers.find? (·.1 == key)).map (·.2)).getD (.error .missing)

end Loader

end ModuleResolution
