import ModuleResolution.Module.Registry

/-!
# Reports

What is shown of a failure: its message, code and help, and the places it points at in the text of
a module, as far as the registry has that text.

* `Report` : what a failure is shown with.
* `Report.ofFailure` : the reports for a failure; syntax errors are reported one by one.
* `Report.text` : a report as lines of text.
-/

namespace ModuleResolution

/-- A place in a source text, with a caption. -/
structure Report.Label where
  offset : Nat
  length : Nat
  caption : String

/-- What a failure is shown with. -/
inductive Report where
  | mk (message : String) (code : String) (help : Option String) (labels : List Report.Label)
    (source : Option (String × String)) (related : List Report)

namespace Report

/-- The message. -/
def message : Report → String
  | mk message .. => message

/-- The code that stands for the kind of failure. -/
def code : Report → String
  | mk _ code .. => code

/-- Advice. -/
def help : Report → Option String
  | mk _ _ help .. => help

/-- The places pointed at. -/
def labels : Report → List Label
  | mk _ _ _ labels .. => labels

/-- The text that the places are in, behind its name. -/
def source : Report → Option (String × String)
  | mk _ _ _ _ source _ => source

/-- The reports that belong to this one. -/
def related : Report → List Report
  | mk _ _ _ _ _ related => related

/-- A place with its caption. -/
def Label.of (l : Located String) : Label := ⟨l.span.start, l.span.length, l.value⟩

/-- The code of all syntax errors. -/
def syntaxCode : String := "hash::syntax"

/-- The report of a syntax error in a text. -/
def ofSyntaxError (source : Option (String × String)) (e : SyntaxError) : Report :=
  mk e.value.message syntaxCode e.value.hint [.of ⟨"here", e.span⟩] source []

/-- The report of a failure without any text to point into. -/
def bare (f : Failure) : Report :=
  mk f.message f.code f.help [] none <|
    match f with
    | .malformed _ errors => errors.map (ofSyntaxError none)
    | _ => []

/-- The name and the text of the module that a failure points into. -/
def sourceOf? (r : Registry) (f : Failure) : Option (String × String) := do
  let m := r.record (← r.find? (← f.pointsInto?))
  some (m.key.relative, m.source)

/-- The reports for a failure in a run that has come to the registry `r`. -/
def ofFailure (r : Registry) (f : Failure) : List Report :=
  match sourceOf? r f with
  | none => [bare f]
  | some source =>
    match f with
    | .malformed _ errors => errors.map (ofSyntaxError (some source))
    | _ =>
      if f.labels = [] then [bare f]
      else [mk f.message f.code f.help (f.labels.map .of) (some source) []]

/-! ### Text -/

/-- A line on a place in a text of the given name. -/
def Label.line (name : String) (l : Label) : String :=
  "  --> " ++ name ++ ":" ++ toString l.offset ++ "+" ++ toString l.length ++ ": " ++ l.caption ++
    "\n"

/-- The report as lines of text, those of the related reports behind its own. -/
def text : Report → String
  | mk message code help labels source related =>
    "error[" ++ code ++ "]: " ++ message ++ "\n" ++
      String.join (labels.map (Label.line ((source.map (·.1)).getD "-"))) ++
      ((help.map fun advice => "  help: " ++ advice ++ "\n").getD "") ++
      texts related
where
  /-- The lines of some reports. -/
  texts : List Report → String
    | [] => ""
    | report :: rest => text report ++ texts rest

end Report

end ModuleResolution
