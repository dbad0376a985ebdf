import ModuleResolution.Command.Arguments
import ModuleResolution.Listing
import ModuleResolution.Module.Loading
import ModuleResolution.Report

/-!
# Running a command

A command loads a module and everything it imports into an empty registry, and prints one listing.

* `Command.Request.settings` : the settings a request asks for, seen from a working directory.
* `Command.run` : what a request comes to.
* `Command.Outcome.written` : what it comes to when the text is written.
-/

namespace ModuleResolution

namespace Command

/-- What is shown of a failure. -/
inductive Note where
  | report (report : Report)
  | line (text : String)

/-- What is shown, as lines of text. -/
def Note.text : Note → String
  | report r => r.text
  | line text => text ++ "\n"

/-- What a request comes to. -/
inductive Outcome where
  /-- This is to be printed. -/
  | printed (text : String)
  /-- It failed, which is shown so. -/
  | failed (notes : List Note)

namespace Outcome

/-- What is printed. -/
def text : Outcome → String
  | printed text => text
  | failed _ => ""

/-- What is shown of the failure. -/
def notes : Outcome → List Note
  | printed _ => []
  | failed notes => notes

/-- The exit code. -/
def exitCode : Outcome → Nat
  | printed _ => 0
  | failed _ => 1

/-- What an outcome comes to when its text is written; `refusal?` is why the writer takes no text,
if it takes none. -/
def written (refusal? : Option String) (outcome : Outcome) : Outcome :=
  match refusal? with
  | some reason =>
    if outcome.text = "" then outcome else failed [.line ("Error writing output: " ++ reason)]
  | none => outcome

end Outcome

/-- The settings that a request asks for in the working directory `cwd`. -/
def Request.settings (cwd : String) (request : Request) : Settings :=
  (Settings.default.setRoot ((request.root.map (Path.join cwd)).getD cwd)).setExtension
    (request.extension.getD Settings.usualExtension)

/-- What is printed of a module. -/
def Action.listing (action : Action) (r : Registry) (h : Handle) : String :=
  match action with
  | .check => Listing.summary r h
  | .deps => Listing.dependencies r
  | .exports => Listing.exports (r.record h)

/-- Loads the module of the given file in a project with the given settings, and says what an action
comes to and what was asked for on the way. -/
def perform (loader : Layout → Loader) (settings : Settings) (file : String) (action : Action) :
    Outcome × List Call :=
  match Layout.ofSettings settings with
  | .error reason => (.failed [.line ("Error: " ++ reason.message)], [])
  | .ok layout =>
    match Project.obtainEntry ⟨layout, loader layout, Program.itemsOf⟩ file .empty with
    | (.ok h, s) => (.printed (action.listing s.registry h), s.calls)
    | (.error failure, s) =>
      (.failed ((Report.ofFailure s.registry failure).map .report), s.calls)

/-- What a request comes to in the working directory `cwd`, and what was asked for on the way. -/
def run (loader : Layout → Loader) (cwd : String) (request : Request) : Outcome × List Call :=
  perform loader (request.settings cwd) (Path.join cwd request.file) request.action

end Command

end ModuleResolution
