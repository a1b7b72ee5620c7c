import ApiDocs.Json.Basic

/-!
# Writing JSON texts

Values are written with one item or field on a line, indented by two blanks for each array or object
around it.

## Main definitions

* `Json.quote`: a text as a JSON string.
* `Json.pretty`: the text of a value.
-/

namespace ApiDocs.Json

/-- A hexadecimal digit in lower case, for numbers below sixteen. -/
def hexDigit (n : Nat) : Char :=
  if n < 10 then Char.ofNat ('0'.toNat + n) else Char.ofNat ('a'.toNat + (n - 10))

/-- A character inside a string. Quotes, backslashes and control characters are escaped, all other
characters stand for themselves. -/
def escapeChar (c : Char) : List Char :=
  match c with
  | '"' => ['\\', '"']
  | '\\' => ['\\', '\\']
  | '\x08' => ['\\', 'b']
  | '\x0c' => ['\\', 'f']
  | '\n' => ['\\', 'n']
  | '\r' => ['\\', 'r']
  | '\t' => ['\\', 't']
  | c =>
    if c.toNat < 0x20 then
      ['\\', 'u', '0', '0', hexDigit (c.toNat / 16), hexDigit (c.toNat % 16)]
    else
      [c]

/-- A text as a JSON string. -/
def quote (s : String) : String :=
  String.ofList ('"' :: s.toList.flatMap escapeChar ++ ['"'])

/-- A number without blanks. -/
def numberText (n : JsonNumber) : String :=
  (if n.isNegative then "-" else "") ++ Nat.repr n.whole ++
    (if n.fraction.isEmpty then "" else "." ++ String.ofList n.fraction) ++
    match n.exponent with
    | none => ""
    | some (.ofNat e) => "e" ++ Nat.repr e
    | some (.negSucc e) => "e-" ++ Nat.repr (e + 1)

/-- A new line indented for a number of arrays and objects around it. -/
def newLine (level : Nat) : String :=
  String.ofList ('\n' :: List.replicate (2 * level) ' ')

mutual

/-- The text of a value inside a number of arrays and objects. -/
def prettyAt (level : Nat) : Json → String
  | null => "null"
  | bool true => "true"
  | bool false => "false"
  | num n => numberText n
  | str s => quote (s.getD "")
  | arr [] => "[]"
  | arr (item :: items) =>
    "[" ++ newLine (level + 1) ++ item.prettyAt (level + 1) ++ prettyItems (level + 1) items ++
      newLine level ++ "]"
  | obj [] => "\x7b\x7d"
  | obj ((name, value) :: fields) =>
    "\x7b" ++ newLine (level + 1) ++ quote (name.getD "") ++ ": " ++ value.prettyAt (level + 1) ++
      prettyFields (level + 1) fields ++ newLine level ++ "\x7d"

/-- The texts of the items after the first. -/
def prettyItems (level : Nat) : List Json → String
  | [] => ""
  | item :: items => "," ++ newLine level ++ item.prettyAt level ++ prettyItems level items

/-- The texts of the fields after the first. -/
def prettyFields (level : Nat) : List (JsonText × Json) → String
  | [] => ""
  | (name, value) :: fields =>
    "," ++ newLine level ++ quote (name.getD "") ++ ": " ++ value.prettyAt level ++
      prettyFields level fields

end

/-- The text of a value. -/
def pretty (v : Json) : String :=
  v.prettyAt 0

end ApiDocs.Json
