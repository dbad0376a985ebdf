import ModuleResolution.Source.Item
import ModuleResolution.Source.Lexeme
import ModuleResolution.Source.Reading

/-!
# Programs

The items of a module, read from its tokens:

    program := (`;` | item)*
    item    := `import` `(` TEXT `)` `;`
             | `{` requests `}` `:=` `import` `(` TEXT `)` `;`
             | WORD `:=` value `;`
             | WORD `:` type `=` value `;`
    request := WORD | WORD `:` WORD
    value   := `import` `(` TEXT `)` | tokens

Types and values other than imports are opaque: of them only the brackets, the end and the
qualified names are looked at (`scan`).  After a mistake reading goes on behind the next semicolon
outside brackets (`recover`), so that all mistakes are told together.

* `Program.ofTokens` : the items of a list of tokens, or all that is wrong with it.
* `Program.ofText` : the items of a source text.
-/

namespace ModuleResolution

namespace Program

open Reading

/-! ### Imports -/

/-- The tokens start with the word `import` and an opening parenthesis. -/
def atImport : List Token → Bool
  | ⟨.word name, _⟩ :: rest => name == "import" && kind rest == .opening .round
  | _ => false

/-- Takes the word `import` if it stands in front of an opening parenthesis. -/
def acceptImport : Reading Bool := fun _ tokens =>
  if atImport tokens then .done true tokens.tail else .done false tokens

/-- Takes the path of an import. -/
def importPath : Reading (Located String)
  | _, ⟨.text path, span⟩ :: rest => .done ⟨path, span⟩ rest
  | ending, tokens => fail .expectedPath ending tokens

/-- The path in parentheses behind the word `import`. -/
def importTarget : Reading (Located String) := do
  let _ ← expect (.opening .round) .afterImportWord
  let path ← importPath
  let _ ← expect (.closing .round) .closingImport
  pure path

/-- The rest of an import item of the given form that starts at `start`, behind the word
`import`. -/
def importRest (start : Span) (form : Import.Form) : Reading (Located Item) := do
  let path ← importTarget
  let stop ← expect .semicolon .afterImport
  pure ⟨.importing ⟨path, form⟩, start.join stop⟩

/-! ### Destructuring patterns -/

/-- The requests of a destructuring pattern, up to its closing bracket. -/
def requests (ending : Span) : List Token → Step (List Import.Request)
  | ⟨.closing .curly, span⟩ :: rest => .done [] (⟨.closing .curly, span⟩ :: rest)
  | ⟨.word exported, span⟩ :: ⟨.colon, _⟩ :: ⟨.word renamed, span'⟩ :: ⟨.comma, _⟩ :: rest =>
    (requests ending rest).map (⟨⟨exported, span⟩, some ⟨renamed, span'⟩⟩ :: ·)
  | ⟨.word exported, span⟩ :: ⟨.colon, _⟩ :: ⟨.word renamed, span'⟩ :: rest =>
    .done [⟨⟨exported, span⟩, some ⟨renamed, span'⟩⟩] rest
  | ⟨.word _, _⟩ :: ⟨.colon, _⟩ :: rest => fail (.expectedName (kind rest)) ending rest
  | ⟨.word exported, span⟩ :: ⟨.comma, _⟩ :: rest =>
    (requests ending rest).map (⟨⟨exported, span⟩, none⟩ :: ·)
  | ⟨.word exported, span⟩ :: rest => .done [⟨⟨exported, span⟩, none⟩] rest
  | tokens => fail (.expectedName (kind tokens)) ending tokens

/-- An import of selected names, behind its opening bracket. -/
def selection (start : Span) : Reading (Located Item) := do
  let names ← requests
  let _ ← expect (.closing .curly) .closingPattern
  let _ ← expect .define .afterPattern
  if ← acceptImport then importRest start (.selected names)
  else fail (.expectedImport (← next))

/-! ### Types and values -/

/-- The names that qualify further, each behind `::`, and the tokens behind them. -/
def members : List Token → List (Located String) × List Token
  | ⟨.member, _⟩ :: ⟨.word name, span⟩ :: rest =>
    (⟨name, span⟩ :: (members rest).1, (members rest).2)
  | tokens => ([], tokens)

theorem members_suffix (tokens : List Token) : (members tokens).2 <:+ tokens := by
  fun_induction members tokens with
  | case1 _ _ _ rest ih => exact (ih.trans (List.suffix_cons ..)).trans (List.suffix_cons ..)
  | case2 tokens => exact List.suffix_refl tokens

/-- What is known of opaque tokens. -/
structure Stretch where
  /-- Offset of the byte behind the last of them. -/
  stop : Nat
  /-- The qualified names among them, in order. -/
  references : List (Located Reference)

/-- The stretch with one more reference in front. -/
def Stretch.cons (reference : Located Reference) (s : Stretch) : Stretch :=
  ⟨s.stop, reference :: s.references⟩

/-- The qualified name that starts with the word `name` at `span`, goes on with the members up to
`last`, and has the tokens `behind` it. -/
def referenceOf (name : String) (span : Span) (path : List (Located String))
    (last : Located String) (behind : List Token) : Located Reference :=
  ⟨⟨name :: path.map Located.value, kind behind == .opening .curly⟩, span.join last.span⟩

/-- Goes over opaque tokens up to a token of kind `wanted` outside brackets.  `openers` are the
brackets still open, innermost first, and `stop` is where the tokens so far end. -/
def scanFrom (ending : Span) (wanted : Token.Kind) (openers : List Span) (stop : Nat) :
    List Token → Step Stretch
  | [] =>
    match openers with
    | opener :: _ => .fail ⟨.openBracket, opener⟩ []
    | [] => .fail ⟨.endedBefore wanted, ending⟩ []
  | ⟨kind, span⟩ :: rest =>
    if openers = [] ∧ kind = wanted then .done ⟨stop, []⟩ (⟨kind, span⟩ :: rest)
    else
      match kind with
      | .opening _ => scanFrom ending wanted (span :: openers) span.stop rest
      | .closing bracket =>
        match openers with
        | [] => .fail ⟨.unmatched bracket, span⟩ (⟨kind, span⟩ :: rest)
        | _ :: outer => scanFrom ending wanted outer span.stop rest
      | .word name =>
        if atImport (⟨kind, span⟩ :: rest) then .fail ⟨.innerImport, span⟩ (⟨kind, span⟩ :: rest)
        else
          match (members rest).1.getLast? with
          | none => scanFrom ending wanted openers span.stop rest
          | some last =>
            (scanFrom ending wanted openers last.span.stop (members rest).2).map
              (Stretch.cons (referenceOf name span (members rest).1 last (members rest).2))
      | _ => scanFrom ending wanted openers span.stop rest
termination_by tokens => tokens.length
decreasing_by
  all_goals
    first
    | exact Nat.lt_succ_of_le (members_suffix rest).length_le
    | exact Nat.lt_succ_self _

/-- Goes over opaque tokens up to a token of kind `wanted` outside brackets, and says where they
stand and which qualified names are among them. -/
def scan (wanted : Token.Kind) : Reading (Span × List (Located Reference)) := fun ending tokens =>
  let start := (place ending tokens).start
  (scanFrom ending wanted [] start tokens).map fun s => (⟨start, s.stop⟩, s.references)

/-- The tokens behind the bracket that brings the depth to zero, whatever the kinds of brackets. -/
def afterGroup (depth : Nat) : List Token → Option (List Token)
  | [] => none
  | token :: rest =>
    match token.kind with
    | .opening _ => afterGroup (depth + 1) rest
    | .closing _ => if depth ≤ 1 then some rest else afterGroup (depth - 1) rest
    | _ => afterGroup depth rest

/-- What a declaration defines whose value starts with the given tokens: a type behind one of the
words for types, a function if an arrow stands behind the parentheses at the start. -/
def valueKind : List Token → Declaration.Kind
  | ⟨.word name, _⟩ :: rest =>
    match kind rest with
    | .opening .round | .opening .curly =>
      if ["struct", "enum", "trait"].contains name then .type else .value
    | .word _ => if name = "type" then .type else .value
    | _ => .value
  | ⟨.opening .round, _⟩ :: rest =>
    match (afterGroup 1 rest).map kind with
    | some .thickArrow | some .thinArrow => .function
    | _ => .value
  | _ => .value

/-! ### Bindings -/

/-- The type of a binding, if there is one, and the sign behind it.  The qualified names in it are
kept. -/
def bindingType (name : Located String) : Reading (List (Located Reference)) := do
  if ← accept .colon then
    let (_, references) ← scan .equals
    let _ ← expect .equals .afterType
    pure references
  else
    let _ ← expect .define (.afterName name.value)
    pure []

/-- The value of a binding.  `references` are the qualified names in its type. -/
def value (name : Located String) (references : List (Located Reference)) :
    Reading (Located Item) := do
  let kind : Declaration.Kind ← fun _ tokens => .done (valueKind tokens) tokens
  let (body, more) ← scan .semicolon
  if body.isEmpty then fail (.expectedValue name.value)
  else
    let stop ← expect .semicolon (.afterDeclaration name.value)
    pure ⟨.declaration ⟨name, kind, .exported, body, references ++ more⟩, name.span.join stop⟩

/-- A binding of `name`, behind the name.  What is bound to an import is the module. -/
def binding (name : Located String) : Reading (Located Item) := do
  let references ← bindingType name
  if ← acceptImport then importRest name.span (.whole (some name))
  else value name references

/-! ### Items -/

/-- The item that starts with the given token. -/
def item (first : Token) : Reading (Located Item) := fun ending rest =>
  match first with
  | ⟨.word name, span⟩ =>
    if atImport (first :: rest) then importRest span (.whole none) ending rest
    else binding ⟨name, span⟩ ending rest
  | ⟨.opening .curly, span⟩ => selection span ending rest
  | ⟨kind, span⟩ => .fail ⟨.expectedItem kind, span⟩ (first :: rest)

/-- The tokens behind the next semicolon outside the brackets opened from here on. -/
def recover (depth : Nat) : List Token → List Token
  | [] => []
  | token :: rest =>
    match token.kind with
    | .semicolon => if depth = 0 then rest else recover depth rest
    | .opening _ => recover (depth + 1) rest
    | .closing _ => recover (depth - 1) rest
    | _ => recover depth rest

/-! ### What is left -/

theorem keeps_acceptImport : Keeps acceptImport := by
  intro ending tokens
  unfold acceptImport
  split
  · exact List.tail_suffix tokens
  · exact List.suffix_refl tokens

theorem keeps_importPath : Keeps importPath := by
  intro ending tokens
  unfold importPath
  split
  · exact List.suffix_cons ..
  · exact List.suffix_refl _

theorem keeps_importTarget : Keeps importTarget :=
  (keeps_expect _ _).bind fun _ => keeps_importPath.bind fun _ => (keeps_expect _ _).bind fun _ =>
    keeps_pure _

theorem keeps_importRest (start : Span) (form : Import.Form) : Keeps (importRest start form) :=
  keeps_importTarget.bind fun _ => (keeps_expect _ _).bind fun _ => keeps_pure _

theorem keeps_requests : Keeps requests := by
  intro ending tokens
  fun_induction requests ending tokens with
  | case1 => exact List.suffix_refl _
  | case2 _ _ _ _ _ _ rest ih =>
    rw [Step.rest_map]
    exact ih.trans ⟨[_, _, _, _], rfl⟩
  | case3 => exact ⟨[_, _, _], rfl⟩
  | case4 => exact ⟨[_, _], rfl⟩
  | case5 _ _ _ rest ih =>
    rw [Step.rest_map]
    exact ih.trans ⟨[_, _], rfl⟩
  | case6 => exact ⟨[_], rfl⟩
  | case7 => exact List.suffix_refl _

theorem keeps_selection (start : Span) : Keeps (selection start) := by
  refine keeps_requests.bind fun _ => (keeps_expect _ _).bind fun _ =>
    (keeps_expect _ _).bind fun _ => keeps_acceptImport.bind fun taken => ?_
  split
  · exact keeps_importRest _ _
  · exact keeps_next.bind fun _ => keeps_fail _

theorem scanFrom_suffix (ending : Span) (wanted : Token.Kind) (openers : List Span) (stop : Nat)
    (tokens : List Token) : (scanFrom ending wanted openers stop tokens).rest <:+ tokens := by
  fun_induction scanFrom ending wanted openers stop tokens with
  | case1 | case2 | case3 | case5 => exact List.suffix_refl _
  | case4 _ _ _ _ _ _ ih => exact ih.trans (List.suffix_cons ..)
  | case6 _ _ _ _ _ _ _ ih => exact ih.trans (List.suffix_cons ..)
  | case7 _ _ _ _ _ _ h => rw [if_pos h]; exact List.suffix_refl _
  | case8 _ _ _ _ _ none _ h ih => rw [if_neg h, none]; exact ih.trans (List.suffix_cons ..)
  | case9 _ _ _ _ _ _ some _ h ih =>
    rw [if_neg h, some]
    dsimp only
    rw [Step.rest_map]
    exact (ih.trans (members_suffix _)).trans (List.suffix_cons ..)
  | case10 _ _ _ _ _ _ _ _ _ ih => exact ih.trans (List.suffix_cons ..)

theorem keeps_scan (wanted : Token.Kind) : Keeps (scan wanted) := by
  intro ending tokens
  simp only [scan, Step.rest_map]
  exact scanFrom_suffix ..

theorem keeps_bindingType (name : Located String) : Keeps (bindingType name) := by
  refine (keeps_accept _).bind fun taken => ?_
  split
  · exact (keeps_scan _).bind fun _ => (keeps_expect _ _).bind fun _ => keeps_pure _
  · exact (keeps_expect _ _).bind fun _ => keeps_pure _

theorem keeps_value (name : Located String) (references : List (Located Reference)) :
    Keeps (value name references) := by
  refine Keeps.bind (fun _ tokens => List.suffix_refl tokens) fun _ => (keeps_scan _).bind ?_
  intro stretch
  dsimp only
  split
  · exact keeps_fail _
  · exact (keeps_expect _ _).bind fun _ => keeps_pure _

theorem keeps_binding (name : Located String) : Keeps (binding name) := by
  refine (keeps_bindingType name).bind fun _ => keeps_acceptImport.bind fun taken => ?_
  split
  · exact keeps_importRest _ _
  · exact keeps_value _ _

/-- What is left behind an item that starts with `first`: behind a whole item a tail of `rest`,
behind a mistake perhaps the first token too. -/
def Leaves (first : Token) (rest : List Token) : Step (Located Item) → Prop
  | .done _ left => left <:+ rest
  | .fail _ left => left <:+ first :: rest

theorem Leaves.of_keeps {reading : Reading (Located Item)} (h : Keeps reading) (first : Token)
    (ending : Span) (rest : List Token) : Leaves first rest (reading ending rest) := by
  have := h ending rest
  cases hs : reading ending rest with
  | done value left => rw [hs] at this; exact this
  | fail error left => rw [hs] at this; exact this.trans (List.suffix_cons ..)

theorem item_leaves (first : Token) (ending : Span) (rest : List Token) :
    Leaves first rest (item first ending rest) := by
  simp only [item]
  split
  · split
    · exact Leaves.of_keeps (keeps_importRest _ _) ..
    · exact Leaves.of_keeps (keeps_binding _) ..
  · exact Leaves.of_keeps (keeps_selection _) ..
  · exact List.suffix_refl _

/-- Recovery leaves a tail of the tokens behind the first. -/
theorem recover_suffix (depth : Nat) (tokens : List Token) :
    recover depth tokens <:+ tokens.tail := by
  have step {depth : Nat} {rest : List Token} (h : recover depth rest <:+ rest.tail) :
      recover depth rest <:+ rest := h.trans (List.tail_suffix rest)
  fun_induction recover depth tokens with
  | case1 => exact List.suffix_refl _
  | case2 => exact List.suffix_refl _
  | case3 _ _ _ _ _ ih => exact step ih
  | case4 _ _ _ _ _ ih => exact step ih
  | case5 _ _ _ _ _ ih => exact step ih
  | case6 _ _ _ _ _ _ ih => exact step ih

theorem length_lt_of_done {first : Token} {ending : Span} {rest left : List Token}
    {found : Located Item} (h : item first ending rest = .done found left) :
    left.length < (first :: rest).length := by
  have taken := item_leaves first ending rest
  rw [h] at taken
  exact Nat.lt_succ_of_le taken.length_le

theorem length_recover_lt {first : Token} {ending : Span} {rest left : List Token}
    {error : SyntaxError} (h : item first ending rest = .fail error left) :
    (recover 0 left).length < (first :: rest).length := by
  have taken := item_leaves first ending rest
  rw [h] at taken
  have shorter := (recover_suffix 0 left).length_le
  have := taken.length_le
  simp only [List.length_tail, List.length_cons] at *
  omega

/-! ### Programs -/

/-- The mistakes and the items in a list of tokens. -/
def items (ending : Span) : List Token → List SyntaxError × List (Located Item)
  | [] => ([], [])
  | first :: rest =>
    if first.kind = .semicolon then items ending rest
    else
      match h : item first ending rest with
      | .done found left =>
        have := length_lt_of_done h
        let more := items ending left
        (more.1, found :: more.2)
      | .fail error left =>
        have := length_recover_lt h
        let more := items ending (recover 0 left)
        (error :: more.1, more.2)
termination_by tokens => tokens.length
decreasing_by
  · exact Nat.lt_succ_self _
  · assumption
  · assumption

/-- Where a list of tokens ends: at its first end of file, or else behind its last token. -/
def ending (tokens : List Token) : Span :=
  match tokens.find? (·.kind == .endOfFile) with
  | some token => token.span
  | none => .point ((tokens.getLast?.map (·.span.stop)).getD 0)

/-- The items in a list of tokens, or all that is wrong with it.  Nothing behind the first end of
file is looked at. -/
def ofTokens (tokens : List Token) : Except (List SyntaxError) (List (Located Item)) :=
  match items (ending tokens) (tokens.takeWhile (·.kind != .endOfFile)) with
  | ([], found) => .ok found
  | (errors, _) => .error errors

/-- The items in a source text, or all that is wrong with it; a text that cannot be cut into tokens
is not read any further. -/
def ofText (source : String) : Except (List SyntaxError) (List (Located Item)) :=
  match tokenize source with
  | .ok tokens => ofTokens tokens
  | .error errors => .error errors

end Program

end ModuleResolution
