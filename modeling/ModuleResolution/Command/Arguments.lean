/-!
# Arguments of the command line

    [--root DIR] [--ext EXT] [-v | --verbose] (check | deps | exports) FILE

The options may stand before the command and behind it; where an option is given in both places,
the one behind the command counts.  The value of an option is the next argument or follows an equals
sign, and flags of one letter may be written together.  Behind `--` nothing is an option.

* `Request.ofArguments` : what is asked for, or why the arguments ask for nothing.
-/

namespace ModuleResolution

namespace Command

/-- What can be asked of a module. -/
inductive Action where
  /-- Whether it can be loaded. -/
  | check
  /-- The modules it needs. -/
  | deps
  /-- The names it exports. -/
  | exports
deriving DecidableEq

/-- The word for an action. -/
def Action.word : Action → String
  | check => "check"
  | deps => "deps"
  | exports => "exports"

/-- The action with the given word. -/
def Action.ofWord? (word : String) : Option Action :=
  [check, deps, exports].find? (·.word == word)

/-- What is asked for. -/
structure Request where
  action : Action
  /-- The file of the module, as given. -/
  file : String
  /-- The root of the project, if it is given. -/
  root : Option String
  extension : Option String
  verbose : Bool

/-- Why some arguments ask for nothing that could be done. -/
inductive Usage where
  /-- Help is asked for. -/
  | help
  /-- The version is asked for. -/
  | version
  /-- There are no arguments. -/
  | nothing
  /-- There are options, but no command. -/
  | missingCommand
  /-- There is a command, but no file. -/
  | missingFile
  /-- The first word is no command. -/
  | unknownCommand
  /-- An option is not known, or there is a word too many. -/
  | unknownArgument
  /-- An option has no value, or an empty one that may not be empty. -/
  | badValue
  /-- A flag has a value. -/
  | needlessValue
  /-- An option or a flag is given twice. -/
  | repeated
deriving DecidableEq

/-- The exit code. -/
def Usage.exitCode : Usage → Nat
  | help | version => 0
  | _ => 2

/-- The name and the version of the program. -/
def versionText : String := "hash 0.1.0-alpha.1\n"

/-- How the program is used. -/
def helpText : String :=
  "Resolve and inspect Hash modules\n\n" ++
  "Usage: hash [OPTIONS] <COMMAND> <FILE>\n\n" ++
  "Commands:\n" ++
  "  check    Resolve a module and everything it imports\n" ++
  "  deps     Print modules in load order (dependencies first) with their direct imports\n" ++
  "  exports  Print the names a module exports\n" ++
  "  help     Print this message\n\n" ++
  "Options:\n" ++
  "      --root <DIR>  Project root; imports may not leave it (default: current directory)\n" ++
  "      --ext <EXT>   Module file extension (default: hash)\n" ++
  "  -v, --verbose     Log at debug level\n" ++
  "  -h, --help        Print help\n" ++
  "  -V, --version     Print version\n"

/-- What is printed of arguments that ask for nothing that could be done. -/
def Usage.text : Usage → String
  | help | nothing => helpText
  | version => versionText
  | missingCommand => "error: a command is required\n\n" ++ helpText
  | missingFile => "error: the argument <FILE> is required\n\n" ++ helpText
  | unknownCommand => "error: unrecognized command\n\n" ++ helpText
  | unknownArgument => "error: unexpected argument\n\n" ++ helpText
  | badValue => "error: a value is required\n\n" ++ helpText
  | needlessValue => "error: unexpected value\n\n" ++ helpText
  | repeated => "error: an argument cannot be used multiple times\n\n" ++ helpText

/-! ### Words -/

/-- What an argument looks like. -/
inductive Word where
  /-- `--` -/
  | escape
  /-- `--name` or `--name=value` -/
  | long (name : String) (value? : Option String)
  /-- `-` and letters. -/
  | short (letters : List Char)
  /-- Anything else. -/
  | plain

/-- What an argument looks like. -/
def Word.of (argument : String) : Word :=
  match argument.toList with
  | ['-', '-'] => .escape
  | '-' :: '-' :: rest =>
    .long (String.ofList (rest.takeWhile (· != '='))) <|
      match rest.dropWhile (· != '=') with
      | [] => none
      | _ :: value => some (String.ofList value)
  | '-' :: c :: rest => .short (c :: rest)
  | _ => .plain

/-! ### Options -/

/-- What takes a value. -/
inductive Slot where
  | root
  | extension
  | file
deriving DecidableEq

/-- The values given so far. -/
structure Given where
  root : Option String
  extension : Option String
  verbose : Bool
  file : Option String

namespace Given

/-- Nothing is given. -/
def none : Given := ⟨.none, .none, false, .none⟩

/-- The value of a slot. -/
def get? (g : Given) : Slot → Option String
  | .root => g.root
  | .extension => g.extension
  | .file => g.file

/-- Gives a slot its value. -/
def set (value : String) (g : Given) : Slot → Given
  | .root => { g with root := some value }
  | .extension => { g with extension := some value }
  | .file => { g with file := some value }

/-- Nothing at all is given. -/
def isEmpty (g : Given) : Bool :=
  g.root.isNone && g.extension.isNone && g.file.isNone && !g.verbose

/-- Gives a slot its value, once; only the extension may be empty. -/
def store (slot : Slot) (value : String) (g : Given) : Except Usage Given :=
  if (g.get? slot).isSome then .error .repeated
  else if value = "" ∧ slot ≠ .extension then .error .badValue
  else .ok (g.set value slot)

/-- Sets the flag, once. -/
def raise (g : Given) : Except Usage Given :=
  if g.verbose then .error .repeated else .ok { g with verbose := true }

end Given

/-- The state of reading arguments.  A value is stored when the next argument that could be wrong
has been looked at. -/
structure State where
  given : Given
  /-- The slot that is being filled, with its value if that has been met. -/
  pending : Option (Slot × Option String)
  /-- The file has been met. -/
  filed : Bool
  /-- Nothing more is an option. -/
  escaped : Bool

namespace State

/-- Nothing has been read. -/
def start : State := ⟨.none, none, false, false⟩

/-- An option waits for its value. -/
def isWaiting (s : State) : Bool :=
  match s.pending with
  | some (_, none) => true
  | _ => false

/-- Stores the pending value. -/
def settle (s : State) : Except Usage State :=
  match s.pending with
  | none => .ok s
  | some (_, none) => .error .badValue
  | some (slot, some value) => do
    pure { s with given := ← s.given.store slot value, pending := none }

/-- An option that takes a value, with the value if it follows an equals sign. -/
def option (slot : Slot) (value? : Option String) (s : State) : Except Usage State := do
  let s ← s.settle
  match value? with
  | some value => pure { s with given := ← s.given.store slot value }
  | none => pure { s with pending := some (slot, none) }

/-- The flag. -/
def flag (s : State) : Except Usage State := do
  let s ← s.settle
  pure { s with given := ← s.given.raise }

/-- A flag that ends the reading. -/
def final (usage : Usage) (s : State) : Except Usage State := do
  let _ ← s.settle
  .error usage

end State

/-! ### Reading arguments -/

/-- An option by its long name.  The version is known in front of a command only (`top`). -/
def long (top : Bool) (name : String) (value? : Option String) (s : State) : Except Usage State :=
  match name with
  | "root" => s.option .root value?
  | "ext" => s.option .extension value?
  | "verbose" => if value?.isSome then .error .needlessValue else s.flag
  | "help" => if value?.isSome then .error .needlessValue else s.final .help
  | "version" =>
    if !top then .error .unknownArgument
    else if value?.isSome then .error .needlessValue
    else s.final .version
  | _ => .error .unknownArgument

/-- Flags by their letters. -/
def short (top : Bool) : List Char → State → Except Usage State
  | [], s => .ok s
  | 'v' :: rest, s => do short top rest (← s.flag)
  | 'h' :: _, s => s.final .help
  | 'V' :: _, s => if top then s.final .version else .error .unknownArgument
  | _ :: _, _ => .error .unknownArgument

/-- An argument that is no option, behind a command: the file, if there is none yet. -/
def positional (argument : String) (s : State) : Except Usage State :=
  if s.filed then .error .unknownArgument
  else do
    let s ← s.settle
    pure { s with pending := some (.file, some argument), filed := true }

/-- An argument; `other` takes those that are neither options nor values of options. -/
def take (top : Bool) (other : String → State → Except Usage State) (argument : String)
    (s : State) : Except Usage State :=
  if s.escaped then other argument s
  else
    match Word.of argument with
    | .escape => .ok { s with escaped := true }
    | .long name value? => long top name value? s
    | .short letters => short top letters s
    | .plain =>
      match s.pending with
      | some (slot, none) => .ok { s with pending := some (slot, some argument) }
      | _ => other argument s

/-- The arguments behind a command. -/
def behind (s : State) (arguments : List String) : Except Usage Given := do
  let s ← arguments.foldlM (fun s argument => take false positional argument s) s
  let s ← s.settle
  if s.given.file.isNone then .error .missingFile else pure s.given

/-- What an argument in front of a command is if it is neither an option nor a command. -/
def misplaced (argument : String) (s : State) : Except Usage State :=
  .error <|
    if s.escaped && (argument == "help" || (Action.ofWord? argument).isSome) then .unknownArgument
    else .unknownCommand

/-- What help is asked for behind the word `help`: there is help for each command and for the word
itself. -/
def helpOn : List String → Usage
  | [] => .help
  | [word] =>
    if word = "help" ∨ (Action.ofWord? word).isSome then .help else .unknownCommand
  | _ => .unknownCommand

/-- The arguments up to a command, and those behind it. -/
def read (s : State) : List String → Except Usage Request
  | [] => do
    let s ← s.settle
    .error (if s.given.isEmpty then .nothing else .missingCommand)
  | argument :: rest =>
    let free := !s.escaped && !s.isWaiting
    if free && argument == "help" then .error (helpOn rest)
    else
      match if free then Action.ofWord? argument else none with
      | some action => do
        let inner ← behind .start rest
        let outer := (← s.settle).given
        pure
          { action
            file := inner.file.getD ""
            root := inner.root.or outer.root
            extension := inner.extension.or outer.extension
            verbose := inner.verbose || outer.verbose }
      | none => do read (← take true misplaced argument s) rest

/-- What some arguments ask for. -/
def Request.ofArguments (arguments : List String) : Except Usage Request := read .start arguments

end Command

end ModuleResolution
