/-!
# White space and line ends

`isBlank` is the Unicode property White_Space, which decides what separates tokens. Line ends are
the two characters that start a new line of a script.
-/

namespace ScriptLint.Text

/-- Whether `c` has the Unicode property White_Space. -/
def isBlank (c : Char) : Bool :=
  let n := c.toNat
  (0x09 ≤ n && n ≤ 0x0D) || n == 0x20 || n == 0x85 || n == 0xA0 || n == 0x1680 ||
    (0x2000 ≤ n && n ≤ 0x200A) || n == 0x2028 || n == 0x2029 || n == 0x202F || n == 0x205F ||
    n == 0x3000

/-- Whether `c` is a line feed or a carriage return. -/
def isLineEnd (c : Char) : Bool :=
  c == '\n' || c == '\r'

/-- White space that stays on its line. -/
def isInlineBlank (c : Char) : Bool :=
  isBlank c && !isLineEnd c

end ScriptLint.Text
