import ModuleResolution.Source.Span
import ModuleResolution.Text.Quoted

/-!
# Tokens

What a source text is made of once blanks and comments are left out.

* `Token.Kind` : the kinds of token, each with the value it carries.
* `Token.Kind.describe` : how a message names a kind.
-/

namespace ModuleResolution

/-- The three pairs of brackets. -/
inductive Bracket where
  | round
  | square
  | curly
deriving DecidableEq

namespace Bracket

/-- The opening bracket as written. -/
def opener : Bracket → String
  | round => "("
  | square => "["
  | curly => "\x7b"

/-- The closing bracket as written. -/
def closer : Bracket → String
  | round => ")"
  | square => "]"
  | curly => "\x7d"

end Bracket

/-- The kinds of token. -/
inductive Token.Kind where
  /-- A word: a letter or `_`, then letters, digits and `_`. -/
  | word (name : String)
  /-- A number, kept as written. -/
  | number (spelling : String)
  /-- A text between double quotes, with its escapes processed. -/
  | text (value : String)
  /-- A character between single quotes, with its escape processed. -/
  | character (value : Char)
  /-- `:=` -/
  | define
  /-- `::` -/
  | member
  /-- `:` -/
  | colon
  /-- `=` -/
  | equals
  /-- `=>` -/
  | thickArrow
  /-- `->` -/
  | thinArrow
  /-- `;` -/
  | semicolon
  /-- `,` -/
  | comma
  /-- `.` -/
  | dot
  | opening (bracket : Bracket)
  | closing (bracket : Bracket)
  /-- Any other operator; nothing is read off it. -/
  | operator (symbol : Char)
  /-- The end of the text. -/
  | endOfFile
deriving DecidableEq

/-- A token and where it stands. -/
structure Token where
  kind : Token.Kind
  span : Span
deriving DecidableEq

namespace Token

/-- A symbol as a message shows it. -/
def Kind.ticked (symbol : String) : String := "`" ++ symbol ++ "`"

/-- How a message names a token of this kind. -/
def Kind.describe : Kind → String
  | word name => "identifier " ++ ticked name
  | number spelling => "number " ++ ticked spelling
  | text value => "string " ++ Text.quote value
  | character value => "char " ++ Text.quoteChar value
  | define => ticked ":="
  | member => ticked "::"
  | colon => ticked ":"
  | equals => ticked "="
  | thickArrow => ticked "=>"
  | thinArrow => ticked "->"
  | semicolon => ticked ";"
  | comma => ticked ","
  | dot => ticked "."
  | opening bracket => ticked bracket.opener
  | closing bracket => ticked bracket.closer
  | operator symbol => ticked symbol.toString
  | endOfFile => "end of file"

/-- The same token in a text that has `n` more bytes in front. -/
def shift (n : Nat) (t : Token) : Token := ⟨t.kind, t.span.shift n⟩

end Token

end ModuleResolution
