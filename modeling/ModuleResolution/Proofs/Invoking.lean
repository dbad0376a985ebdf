import ModuleResolution.Command.Run
import ModuleResolution.Files.Held
import ModuleResolution.Proofs.Confinement
import ModuleResolution.Proofs.Entering

/-!
# What a command depends on

Of the root, the file and the extension that a request gives, a command uses only what they denote:
two places, whatever is written for them, and what the extension is behind its dots.  Requests that
denote the same come to the same.  Only where the file cannot have a key does the failure tell what
was written.

* `Command.Request.Alike` : two requests denote the same.
* `Command.perform_of_error`, `Command.perform_of_ok` : what a command comes to by the key of its
  file.
* `Command.run_alike` : requests that denote the same come to the same.
-/

namespace ModuleResolution

/-! ### Places -/

theorem Path.isAbsolute_join {directory : String} (h : isAbsolute directory) (path : String) :
    isAbsolute (join directory path) := by
  unfold join
  split_ifs with hp
  · exact hp
  · exact isAbsolute_append h path
  · rw [String.append_assoc]
    exact isAbsolute_append h _

theorem Location.isSome_ofPath? {path : String} (h : Path.isAbsolute path) :
    (ofPath? path).isSome := by
  rw [ofPath?, if_pos h]
  rfl

/-- What an absolute path denotes is all that is seen of it. -/
theorem Location.look_congr {path path' : String} (h : Path.isAbsolute path)
    (hp : ofPath? path = ofPath? path') (l : Location) : l.look path = l.look path' := by
  obtain ⟨place, hplace⟩ := Option.isSome_iff_exists.1 (isSome_ofPath? h)
  rw [look, look, ← hp, hplace, Option.getD_some, Option.getD_some]

theorem Layout.entryKey_congr {path path' : String} (layout : Layout) (h : Path.isAbsolute path)
    (hp : Location.ofPath? path = Location.ofPath? path') :
    layout.entryKey path = layout.entryKey path' := by
  rw [entryKey, entryKey, Location.look_congr h hp]

theorem Settings.setExtension_dots (s : Settings) (n : Nat) (rest : List Char) :
    s.setExtension (String.ofList (List.replicate n '.' ++ rest)) =
      s.setExtension (String.ofList rest) := by
  have hdots : ∀ c ∈ List.replicate n '.', (c == '.') = true := by simp
  rw [setExtension, setExtension, String.toList_ofList, String.toList_ofList,
    List.dropWhile_append_of_pos hdots]

namespace Command

variable {loader : Layout → Loader} {settings : Settings} {layout : Layout} {cwd cwd' : String}
  {file file' : String} {action : Action} {reason : PathFault} {key : Key} {r r' : Request}

/-! ### Requests that denote the same -/

/-- The path of the root that a request gives, seen from the working directory, or else that of the
working directory. -/
def Request.rootPath (cwd : String) (r : Request) : String :=
  match r.root with
  | some root => Path.join cwd root
  | none => cwd

/-- The path of the file, seen from the working directory. -/
def Request.filePath (cwd : String) (r : Request) : String := Path.join cwd r.file

/-- What is written for the extension, or else the usual one. -/
def Request.extensionText (r : Request) : String := r.extension.getD Settings.usualExtension

/-- The requests, made in the working directories `cwd` and `cwd'`, denote the same: their roots are
one place, so are their files, and their extensions differ at most in dots in front of them. -/
structure Request.Alike (cwd cwd' : String) (r r' : Request) : Prop where
  action_eq : r.action = r'.action
  root_eq : Location.ofPath? (r.rootPath cwd) = Location.ofPath? (r'.rootPath cwd')
  file_eq : Location.ofPath? (r.filePath cwd) = Location.ofPath? (r'.filePath cwd')
  extension_eq : ∃ rest n n',
    r.extensionText = String.ofList (List.replicate n '.' ++ rest) ∧
      r'.extensionText = String.ofList (List.replicate n' '.' ++ rest)

theorem Request.settings_eq (cwd : String) (r : Request) :
    r.settings cwd = (Settings.default.setRoot (r.rootPath cwd)).setExtension r.extensionText := by
  unfold settings rootPath extensionText
  cases r.root <;> rfl

theorem Request.isAbsolute_rootPath (h : Path.isAbsolute cwd) (r : Request) :
    Path.isAbsolute (r.rootPath cwd) := by
  unfold rootPath
  split
  · exact Path.isAbsolute_join h _
  · exact h

/-- Seen from an absolute path, every request has a layout. -/
theorem Request.exists_layout (h : Path.isAbsolute cwd) (r : Request) :
    ∃ root, Location.ofPath? (r.rootPath cwd) = some root ∧
      Layout.ofSettings (r.settings cwd) = .ok ⟨root, (r.settings cwd).extension⟩ := by
  obtain ⟨root, hroot⟩ := Option.isSome_iff_exists.1
    (Location.isSome_ofPath? (r.isAbsolute_rootPath h))
  refine ⟨root, hroot, ?_⟩
  have hsettings : Location.ofPath? (r.settings cwd).root = some root := by
    rw [r.settings_eq]
    exact hroot
  rw [Layout.ofSettings, hsettings]

namespace Request.Alike

theorem settings_extension_eq (ha : r.Alike cwd cwd' r') :
    (r.settings cwd).extension = (r'.settings cwd').extension := by
  obtain ⟨rest, n, n', hr, hr'⟩ := ha.extension_eq
  rw [r.settings_eq, r'.settings_eq, hr, hr', Settings.setExtension_dots,
    Settings.setExtension_dots]
  rfl

theorem exists_layout (ha : r.Alike cwd cwd' r') (h : Path.isAbsolute cwd)
    (h' : Path.isAbsolute cwd') : ∃ layout, Layout.ofSettings (r.settings cwd) = .ok layout ∧
      Layout.ofSettings (r'.settings cwd') = .ok layout := by
  obtain ⟨root, hroot, hlayout⟩ := r.exists_layout h
  obtain ⟨root', hroot', hlayout'⟩ := r'.exists_layout h'
  rw [ha.root_eq, hroot', Option.some_inj] at hroot
  subst hroot
  rw [← ha.settings_extension_eq] at hlayout'
  exact ⟨_, hlayout, hlayout'⟩

theorem entryKey_eq (ha : r.Alike cwd cwd' r') (h : Path.isAbsolute cwd) (layout : Layout) :
    layout.entryKey (r.filePath cwd) = layout.entryKey (r'.filePath cwd') :=
  layout.entryKey_congr (Path.isAbsolute_join h _) ha.file_eq

end Request.Alike

/-! ### What a command comes to -/

/-- The failure of a command whose file has no key tells what was written for the file. -/
def pathNotes (file : String) (reason : PathFault) : List Note :=
  [.report (.bare (.badPath none file reason none))]

theorem perform_of_error (hl : Layout.ofSettings settings = .ok layout)
    (hk : layout.entryKey file = .error reason) :
    perform loader settings file action = (.failed (pathNotes file reason), []) := by
  have hentry := Project.obtainEntry_of_error ⟨layout, loader layout, Program.itemsOf⟩ .empty hk
  simp only [perform, hl, hentry]
  rfl

/-- A command uses no more of its file than the key. -/
theorem perform_of_ok (hl : Layout.ofSettings settings = .ok layout)
    (hk : layout.entryKey file = .ok key) :
    perform loader settings file action =
      match Project.obtain ⟨layout, loader layout, Program.itemsOf⟩ key .empty with
      | (.ok h, s) => (.printed (action.listing s.registry h), s.calls)
      | (.error failure, s) =>
        (.failed ((Report.ofFailure s.registry failure).map .report), s.calls) := by
  have hentry := Project.obtainEntry_of_ok ⟨layout, loader layout, Program.itemsOf⟩ .empty hk
  rcases hv : Project.obtain ⟨layout, loader layout, Program.itemsOf⟩ key .empty with
    ⟨failure | h, s⟩
  · simp only [perform, hl, hentry, hv]
  · simp only [perform, hl, hentry, hv]

theorem Outcome.exitCode_cases (outcome : Outcome) :
    outcome.exitCode = 0 ∨ outcome.exitCode = 1 := by
  cases outcome with
  | printed => exact .inl rfl
  | failed => exact .inr rfl

/-- **Requests that denote the same come to the same**, with the same requests for texts and for
items on the way: both print the same text, or both fail and show the same.  Only where their file
has no key does each of them show the path of its own. -/
theorem run_alike (loader : Layout → Loader) (refusal? : Option String) (h : Path.isAbsolute cwd)
    (h' : Path.isAbsolute cwd') (ha : r.Alike cwd cwd' r') :
    let outcome := (run loader cwd r).1.written refusal?
    let outcome' := (run loader cwd' r').1.written refusal?
    (run loader cwd r).2 = (run loader cwd' r').2 ∧
      ((outcome.exitCode = 0 ∧ outcome'.exitCode = 0 ∧ outcome.text = outcome'.text) ∨
        (outcome.exitCode = 1 ∧ outcome'.exitCode = 1 ∧
          (outcome.notes = outcome'.notes ∨
            ∃ reason, outcome.notes = pathNotes (r.filePath cwd) reason ∧
              outcome'.notes = pathNotes (r'.filePath cwd') reason))) := by
  intro outcome outcome'
  obtain ⟨layout, hlayout, hlayout'⟩ := ha.exists_layout h h'
  have hkey := ha.entryKey_eq h layout
  cases hk : layout.entryKey (r.filePath cwd) with
  | error reason =>
    have hrun : run loader cwd r = (.failed (pathNotes (r.filePath cwd) reason), []) :=
      perform_of_error hlayout hk
    have hrun' : run loader cwd' r' = (.failed (pathNotes (r'.filePath cwd') reason), []) :=
      perform_of_error hlayout' (hkey.symm.trans hk)
    have hfailed : ∀ notes, (Outcome.failed notes).written refusal? = .failed notes := by
      intro notes
      cases refusal? <;> rfl
    refine ⟨by rw [hrun, hrun'], ?_⟩
    simp only [outcome, outcome', hrun, hrun', hfailed]
    exact .inr ⟨rfl, rfl, .inr ⟨reason, rfl, rfl⟩⟩
  | ok key =>
    have hrun : run loader cwd r = run loader cwd' r' := by
      rw [run, run, ← Request.filePath, ← Request.filePath, perform_of_ok hlayout hk,
        perform_of_ok hlayout' (hkey.symm.trans hk), ha.action_eq]
    have houtcome : outcome = outcome' := by simp only [outcome, outcome', hrun]
    rw [hrun, houtcome]
    rcases outcome'.exitCode_cases with hzero | hone
    · exact ⟨rfl, .inl ⟨hzero, hzero, rfl⟩⟩
    · exact ⟨rfl, .inr ⟨hone, hone, .inl rfl⟩⟩

/-- A module and one that it imports. -/
def pairFiles : HeldFiles :=
  (HeldFiles.empty.write "/w/p/main.hash" "lib := import(\"sub/lib\"); x := 1;").write
    "/w/p/sub/lib.hash" "y := 2;"

/-- A request without a root, with a file behind a detour and dots in front of the extension. -/
def plainRequest : Request := ⟨.check, "./sub/../main", none, some "..hash", false⟩

/-- A request with a root behind a detour, and with the path of the file from the top. -/
def windingRequest : Request := ⟨.check, "/w//q/../p/main", some "../p/.", none, true⟩

/-- The two requests denote the same, and come to the same. -/
theorem winding_alike :
    let outcome := (run pairFiles.loader "/w/p" plainRequest).1.written none
    let outcome' := (run pairFiles.loader "/w/p" windingRequest).1.written none
    Path.isAbsolute "/w/p" ∧ plainRequest.Alike "/w/p" "/w/p" windingRequest ∧
      outcome.text = "✓ main.hash resolved: 2 module(s), 1 export(s)\n" ∧
      (run pairFiles.loader "/w/p" plainRequest).2 =
        (run pairFiles.loader "/w/p" windingRequest).2 ∧
      ((outcome.exitCode = 0 ∧ outcome'.exitCode = 0 ∧ outcome.text = outcome'.text) ∨
        (outcome.exitCode = 1 ∧ outcome'.exitCode = 1 ∧
          (outcome.notes = outcome'.notes ∨
            ∃ reason, outcome.notes = pathNotes (plainRequest.filePath "/w/p") reason ∧
              outcome'.notes = pathNotes (windingRequest.filePath "/w/p") reason))) := by
  intro outcome outcome'
  have habs : Path.isAbsolute "/w/p" := by decide +kernel
  have halike : plainRequest.Alike "/w/p" "/w/p" windingRequest :=
    { action_eq := rfl
      root_eq := by decide +kernel
      file_eq := by decide +kernel
      extension_eq := ⟨"hash".toList, 2, 0, by decide +kernel, by decide +kernel⟩ }
  exact ⟨habs, halike, by decide +kernel, run_alike pairFiles.loader none habs habs halike⟩

end Command

end ModuleResolution
