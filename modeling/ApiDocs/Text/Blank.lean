/-!
# Blank characters

Two classes of blank characters are used in documentation text. Names and section lines are
trimmed of every character with the Unicode property `White_Space`; text between the top-level
elements of a documentation file may hold ASCII blanks only.

## Main definitions

* `Text.isBlank`: the Unicode property `White_Space`.
* `Text.isAsciiBlank`: space, tab, line feed, form feed and carriage return.
* `Text.trim`: a text without the blanks at its two ends.
-/

namespace ApiDocs.Text

/-- Characters with the Unicode property `White_Space`. -/
def isBlank (c : Char) : Bool :=
  let n := c.toNat
  (0x9 ≤ n && n ≤ 0xD) || n == 0x20 || n == 0x85 || n == 0xA0 || n == 0x1680 ||
    (0x2000 ≤ n && n ≤ 0x200A) || n == 0x2028 || n == 0x2029 || n == 0x202F || n == 0x205F ||
    n == 0x3000

/-- The blanks of ASCII: space, tab, line feed, form feed and carriage return. The vertical tab
is not among them. -/
def isAsciiBlank (c : Char) : Bool :=
  c == ' ' || c == '\t' || c == '\n' || c == '\x0c' || c == '\r'

/-- Drops the last characters that satisfy `p`. -/
def dropEndWhile (p : Char → Bool) (cs : List Char) : List Char :=
  (cs.reverse.dropWhile p).reverse

/-- A list of characters without the blanks at its two ends. -/
def trimChars (cs : List Char) : List Char :=
  dropEndWhile isBlank (cs.dropWhile isBlank)

/-- A text without the blanks at its two ends. -/
def trim (s : String) : String :=
  String.ofList (trimChars s.toList)

end ApiDocs.Text
