/-!
# Blank characters

`Text.isBlank` is the `White_Space` property of Unicode: the twenty-five characters that separate
tokens without being part of one.  It is wider than the blanks of ASCII: the no-break
space and the ideographic space are blank too.
-/

namespace ModuleResolution

namespace Text

/-- The characters with the Unicode property `White_Space`. -/
def isBlank (c : Char) : Bool :=
  let n := c.toNat
  (0x09 ≤ n && n ≤ 0x0d) || n == 0x20 || n == 0x85 || n == 0xa0 || n == 0x1680 ||
    (0x2000 ≤ n && n ≤ 0x200a) || n == 0x2028 || n == 0x2029 || n == 0x202f || n == 0x205f ||
    n == 0x3000

end Text

end ModuleResolution
