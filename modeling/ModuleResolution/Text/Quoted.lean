import ModuleResolution.Text.Unprintable

/-!
# Quoted text

How a message shows a text or a character so that the reader can tell where it ends and what it
holds: between quotes, with the usual short escapes (`\n`, `\t`, `\r`, `\0`, `\\`), with the quote
that encloses it escaped and the other one not, and with unprintable characters by their number
(`\u{7f}`).

* `Text.quote` shows a text between double quotes, `Text.quoteChar` a character between single
  ones.
* `Text.escape` is what stands for one character.
-/

namespace ModuleResolution

namespace Text

/-- The digits of `n` to base sixteen, in lower case. -/
def hex (n : Nat) : String := String.ofList (Nat.toDigits 16 n)

/-- What stands for `c` between two marks `mark`. -/
def escape (mark c : Char) : String :=
  match c with
  | '\n' => "\\n"
  | '\t' => "\\t"
  | '\r' => "\\r"
  | '\x00' => "\\0"
  | '\\' => "\\\\"
  | c =>
    if c = mark then "\\" ++ c.toString
    else if isUnprintable c then "\\u\x7b" ++ hex c.toNat ++ "\x7d"
    else c.toString

/-- A text between double quotes. -/
def quote (text : String) : String :=
  "\"" ++ String.join (text.toList.map (escape '"')) ++ "\""

/-- A character between single quotes. -/
def quoteChar (c : Char) : String := "'" ++ escape '\'' c ++ "'"

end Text

end ModuleResolution
