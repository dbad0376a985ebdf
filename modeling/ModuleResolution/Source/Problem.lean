import ModuleResolution.Source.Token

/-!
# Syntax errors

* `Problem` : what can be wrong with a source text, by cause.
* `Problem.message`, `Problem.hint` : how a problem is told.
* `SyntaxError` : a problem and the place it is shown at.
-/

namespace ModuleResolution

/-- Where in an item a token was missed. -/
inductive Problem.Place where
  /-- Behind the call of an import. -/
  | afterImport
  /-- Behind the word `import`. -/
  | afterImportWord
  /-- At the end of the call of an import. -/
  | closingImport
  /-- At the end of a destructuring pattern. -/
  | closingPattern
  /-- Behind a destructuring pattern. -/
  | afterPattern
  /-- Behind the type of a binding. -/
  | afterType
  /-- Behind the name of a binding. -/
  | afterName (name : String)
  /-- Behind the value of a binding. -/
  | afterDeclaration (name : String)
deriving DecidableEq

/-- What can be wrong with a source text. -/
inductive Problem where
  /-- A character that starts no token. -/
  | unexpectedCharacter (c : Char)
  /-- A block comment that the text ends in. -/
  | openComment
  /-- A backslash in front of a character that needs none. -/
  | unknownEscape (c : Char)
  /-- A text literal that the text ends in. -/
  | openText
  /-- A single quote that starts no character literal. -/
  | malformedCharacter
  /-- A token that starts no item. -/
  | expectedItem (found : Token.Kind)
  /-- A destructuring pattern with something other than an import on its right. -/
  | expectedImport (found : Token.Kind)
  /-- An import of something other than a text. -/
  | expectedPath
  /-- A token where a name should be. -/
  | expectedName (found : Token.Kind)
  /-- A token where `wanted` should be. -/
  | expected (wanted : Token.Kind) (place : Problem.Place) (found : Token.Kind)
  /-- A binding with nothing on its right. -/
  | expectedValue (name : String)
  /-- A bracket that is never closed. -/
  | openBracket
  /-- The text ends before `wanted`. -/
  | endedBefore (wanted : Token.Kind)
  /-- A closing bracket that no opening one stands before. -/
  | unmatched (bracket : Bracket)
  /-- An import inside the type or the value of a binding. -/
  | innerImport
deriving DecidableEq

namespace Problem

/-- The words for a place. -/
def Place.text : Place → String
  | afterImport => "after import"
  | afterImportWord => "after `import`"
  | closingImport => "to close `import(`"
  | closingPattern => "to close the destructuring pattern"
  | afterPattern => "after the destructuring pattern"
  | afterType => "after the type annotation"
  | afterName name => "after `" ++ name ++ "`"
  | afterDeclaration name => "after the declaration of `" ++ name ++ "`"

/-- The message of a problem. -/
def message : Problem → String
  | unexpectedCharacter c => "Unexpected character '" ++ c.toString ++ "'"
  | openComment => "Unterminated block comment"
  | unknownEscape c => "Unknown escape sequence '\\" ++ c.toString ++ "'"
  | openText => "Unterminated string literal"
  | malformedCharacter => "Malformed character literal"
  | expectedItem found => "Expected a top-level binding, found " ++ found.describe
  | expectedImport found =>
    "Expected `import(...)` on the right of a destructuring pattern, found " ++ found.describe
  | expectedPath => "Expected an import path which should be a string"
  | expectedName found => "Expected identifier, found " ++ found.describe
  | expected wanted place found =>
    "Expected " ++ wanted.describe ++ " " ++ place.text ++ ", found " ++ found.describe
  | expectedValue name => "Expected a value for `" ++ name ++ "`"
  | openBracket => "Unclosed delimiter"
  | endedBefore wanted => "Expected " ++ wanted.describe ++ ", found end of file"
  | unmatched bracket => "Unmatched " ++ (Token.Kind.closing bracket).describe
  | innerImport => "`import(...)` must be bound directly at the top level"

/-- A hint on what to write instead. -/
def hint : Problem → Option String
  | expectedItem _ => some "top-level items look like `name := value;`"
  | expectedImport _ => some "only modules can be destructured at the top level"
  | innerImport => some "write `alias := import(\"path\");` and refer to `alias::Name`"
  | _ => none

end Problem

/-- A problem and the place it is shown at. -/
abbrev SyntaxError := Located Problem

end ModuleResolution
