import ModuleResolution.Source.Problem
import ModuleResolution.Text.Blank

/-!
# Lexemes

A source text is cut into *lexemes* from left to right: gaps (blanks and comments), tokens, and
stretches that are no token (`cut`).  Every character of the text belongs to exactly one lexeme
(`text_cut`), so where a lexeme stands is read off the widths of those before it.

* `first` : what the lexeme is that a text starts with, and how far it reaches.
* `tokenize` : the tokens of a text, closed by its end, or all that is wrong with it.
-/

namespace ModuleResolution

/-- What a stretch of a source text is. -/
inductive Lexeme.Content where
  /-- A blank or a comment. -/
  | gap
  | token (kind : Token.Kind)
  /-- No token, for these reasons; their spans count from the start of the stretch. -/
  | faults (errors : List SyntaxError)

/-- A stretch of a source text. -/
structure Lexeme where
  /-- The characters of the stretch. -/
  text : List Char
  /-- What it is. -/
  content : Lexeme.Content

namespace Lexeme

/-- Length in bytes. -/
def width (cs : List Char) : Nat := cs.foldr (fun c n => c.utf8Size + n) 0

@[simp] theorem width_nil : width [] = 0 := rfl

@[simp] theorem width_cons (c : Char) (cs : List Char) : width (c :: cs) = c.utf8Size + width cs :=
  rfl

@[simp] theorem width_append (cs ds : List Char) : width (cs ++ ds) = width cs + width ds := by
  induction cs with
  | nil => simp
  | cons c cs ih => simp [ih, Nat.add_assoc]

/-! ### Words and numbers -/

/-- A letter of ASCII or `_`. -/
def startsWord (c : Char) : Bool := c.isAlpha || c == '_'

/-- A letter or digit of ASCII or `_`. -/
def continuesWord (c : Char) : Bool := c.isAlphanum || c == '_'

/-- How many characters continue a word. -/
def wordRest (cs : List Char) : Nat := (cs.takeWhile continuesWord).length

/-- How many characters continue a number: letters, digits and `_`, and a dot in front of a
digit. -/
def numberRest : List Char → Nat
  | [] => 0
  | c :: rest =>
    if continuesWord c || (c == '.' && rest.head?.any Char.isDigit) then numberRest rest + 1 else 0

/-! ### Comments -/

/-- How many characters close a block comment with `depth` more around it. -/
def commentRest (depth : Nat) : List Char → Option Nat
  | '*' :: '/' :: rest =>
    match depth with
    | 0 => some 2
    | outer + 1 => (commentRest outer rest).map (· + 2)
  | '/' :: '*' :: rest => (commentRest (depth + 1) rest).map (· + 2)
  | _ :: rest => (commentRest depth rest).map (· + 1)
  | [] => none

/-- What a slash starts: a comment up to the end of its line, a block comment, or an operator. -/
def slash : List Char → Nat × Content
  | '/' :: rest => ((rest.takeWhile (· != '\n')).length + 1, .gap)
  | '*' :: rest =>
    match commentRest 0 rest with
    | some n => (n + 1, .gap)
    | none => (rest.length + 1, .faults [⟨.openComment, 0, width rest + 2⟩])
  | _ => (0, .token (.operator '/'))

/-! ### Texts and characters -/

/-- What an escape stands for, if the character may stand behind a backslash. -/
def unescape : Char → Option Char
  | 'n' => some '\n'
  | 't' => some '\t'
  | 'r' => some '\r'
  | '0' => some '\x00'
  | '\\' => some '\\'
  | '"' => some '"'
  | '\'' => some '\''
  | _ => none

/-- What stands behind the opening quote of a text literal. -/
structure TextBody where
  /-- How many characters belong to the literal, its closing quote included. -/
  size : Nat
  /-- The text, with its escapes processed; an unknown escape stands for its character. -/
  value : List Char
  /-- The unknown escapes. -/
  errors : List SyntaxError
  /-- The literal has a closing quote. -/
  closed : Bool

/-- Reads a text literal behind its opening quote, `offset` bytes after its start. -/
def textBody (offset : Nat) : List Char → TextBody
  | [] => ⟨0, [], [], false⟩
  | '"' :: _ => ⟨1, [], [], true⟩
  | ['\\'] => ⟨1, [], [], false⟩
  | '\\' :: c :: rest =>
    let stop := offset + 1 + c.utf8Size
    let body := textBody stop rest
    match unescape c with
    | some value => ⟨body.size + 2, value :: body.value, body.errors, body.closed⟩
    | none =>
      ⟨body.size + 2, c :: body.value, ⟨.unknownEscape c, offset, stop⟩ :: body.errors, body.closed⟩
  | c :: rest =>
    let body := textBody (offset + c.utf8Size) rest
    ⟨body.size + 1, c :: body.value, body.errors, body.closed⟩

/-- What a double quote starts. -/
def textLiteral (cs : List Char) : Nat × Content :=
  let body := textBody 1 cs
  let errors :=
    if body.closed then body.errors else body.errors ++ [⟨.openText, 0, width cs + 1⟩]
  (body.size, if errors.isEmpty then .token (.text (String.ofList body.value)) else .faults errors)

/-- The end of a character literal whose value was read: the closing quote makes it a token, unless
there were errors; anything else is malformed.  `stop` is where the value ends. -/
def characterEnd (size stop : Nat) (value : Char) (errors : List SyntaxError) :
    List Char → Nat × Content
  | '\'' :: _ =>
    (size + 1, if errors.isEmpty then .token (.character value) else .faults errors)
  | _ => (size, .faults (errors ++ [⟨.malformedCharacter, 0, stop⟩]))

/-- What a single quote starts. -/
def characterLiteral : List Char → Nat × Content
  | [] => (0, .faults [⟨.malformedCharacter, 0, 1⟩])
  | '\'' :: _ => (1, .faults [⟨.malformedCharacter, 0, 2⟩])
  | ['\\'] => (1, .faults [⟨.malformedCharacter, 0, 2⟩])
  | '\\' :: c :: rest =>
    let stop := 2 + c.utf8Size
    match unescape c with
    | some value => characterEnd 2 stop value [] rest
    | none => characterEnd 2 stop c [⟨.unknownEscape c, 0, stop⟩] rest
  | c :: rest => characterEnd 1 (1 + c.utf8Size) c [] rest

/-! ### Symbols -/

/-- What a punctuation character starts: how many more characters belong to it, and its kind. -/
def symbol : Char → List Char → Option (Nat × Token.Kind)
  | ':', '=' :: _ => some (1, .define)
  | ':', ':' :: _ => some (1, .member)
  | ':', _ => some (0, .colon)
  | '=', '>' :: _ => some (1, .thickArrow)
  | '=', '=' :: _ => some (1, .operator '=')
  | '=', _ => some (0, .equals)
  | '-', '>' :: _ => some (1, .thinArrow)
  | '-', _ => some (0, .operator '-')
  | ';', _ => some (0, .semicolon)
  | ',', _ => some (0, .comma)
  | '.', _ => some (0, .dot)
  | '(', _ => some (0, .opening .round)
  | ')', _ => some (0, .closing .round)
  | '[', _ => some (0, .opening .square)
  | ']', _ => some (0, .closing .square)
  | '{', _ => some (0, .opening .curly)
  | '}', _ => some (0, .closing .curly)
  | c, _ =>
    if ['+', '*', '%', '<', '>', '!', '&', '|', '^', '~', '?', '#', '@'].contains c then
      some (0, .operator c)
    else none

/-! ### Cutting a text -/

/-- What the lexeme is that the text `c :: cs` starts with, and how many characters of `cs` belong
to it. -/
def first (c : Char) (cs : List Char) : Nat × Content :=
  if Text.isBlank c then (0, .gap)
  else if c = '/' then slash cs
  else if c = '"' then textLiteral cs
  else if c = '\'' then characterLiteral cs
  else if c.isDigit then
    let n := numberRest cs
    (n, .token (.number (String.ofList (c :: cs.take n))))
  else if startsWord c then
    let n := wordRest cs
    (n, .token (.word (String.ofList (c :: cs.take n))))
  else
    match symbol c cs with
    | some (n, kind) => (n, .token kind)
    | none => (0, .faults [⟨.unexpectedCharacter c, 0, c.utf8Size⟩])

/-- Cuts a text into its lexemes. -/
def cut : List Char → List Lexeme
  | [] => []
  | c :: cs =>
    let (n, content) := first c cs
    ⟨c :: cs.take n, content⟩ :: cut (cs.drop n)
termination_by cs => cs.length
decreasing_by simp only [List.length_cons, List.length_drop]; omega

@[simp] theorem cut_nil : cut [] = [] := by rw [cut]

theorem cut_cons (c : Char) (cs : List Char) :
    cut (c :: cs) =
      ⟨c :: cs.take (first c cs).1, (first c cs).2⟩ :: cut (cs.drop (first c cs).1) := by
  rw [cut]

/-- **Nothing is lost**: the lexemes of a text put together are the text. -/
theorem text_cut (cs : List Char) : (cut cs).flatMap text = cs := by
  fun_induction cut cs with
  | case1 => rfl
  | case2 c cs n content _ ih => simp [ih]

/-! ### Tokens and errors -/

/-- The tokens among the lexemes of a text that starts at `offset`, closed by its end. -/
def tokensFrom (offset : Nat) : List Lexeme → List Token
  | [] => [⟨.endOfFile, .point offset⟩]
  | lexeme :: rest =>
    let next := offset + width lexeme.text
    match lexeme.content with
    | .token kind => ⟨kind, offset, next⟩ :: tokensFrom next rest
    | _ => tokensFrom next rest

/-- The errors in the lexemes of a text that starts at `offset`. -/
def errorsFrom (offset : Nat) : List Lexeme → List SyntaxError
  | [] => []
  | lexeme :: rest =>
    let next := offset + width lexeme.text
    match lexeme.content with
    | .faults errors => errors.map (Located.shift offset) ++ errorsFrom next rest
    | _ => errorsFrom next rest

end Lexeme

/-- The tokens of a source text, closed by its end; or all that keeps it from being cut into
tokens. -/
def tokenize (source : String) : Except (List SyntaxError) (List Token) :=
  let lexemes := Lexeme.cut source.toList
  match Lexeme.errorsFrom 0 lexemes with
  | [] => .ok (Lexeme.tokensFrom 0 lexemes)
  | errors => .error errors

end ModuleResolution
