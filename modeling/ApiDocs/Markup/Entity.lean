import ApiDocs.Text.Basic

/-!
# Character references

In attribute values an ampersand begins a reference to a character, by number or by one of five
names, which a semicolon ends.

## Main definitions

* `Markup.ReferenceFault`, `Markup.EntityFault`: what can be wrong with a reference.
* `Markup.unescape`: a value with its references resolved.
-/

namespace ApiDocs.Markup

/-- Why a number does not refer to a character. -/
inductive ReferenceFault where
  /-- The number has a sign. -/
  | signed
  /-- There is no number. -/
  | noDigits
  /-- Something else than a digit stands in the number. -/
  | notADigit
  /-- The number does not fit a 32-bit word. -/
  | tooLarge
  /-- The number is zero. -/
  | zero
  /-- No character has this number. -/
  | notACharacter (code : Nat)
deriving DecidableEq, Repr

/-- The text of a fault. -/
def ReferenceFault.message : ReferenceFault → String
  | signed => "unexpected number sign"
  | noDigits => "cannot parse integer from empty string"
  | notADigit => "invalid digit found in string"
  | tooLarge => "number too large to fit in target type"
  | zero => "0x0 character is not permitted in XML"
  | notACharacter code => "`" ++ Nat.repr code ++ "` is not a valid codepoint"

/-- Why references in a value cannot be resolved. Places are counted in bytes of the value. -/
inductive EntityFault where
  /-- A reference does not end. -/
  | unterminated (start stop : Nat)
  /-- A reference by number is no reference. -/
  | reference (fault : ReferenceFault)
  /-- A reference by name uses a name that is not known. -/
  | unknown (start stop : Nat) (name : String)
deriving DecidableEq, Repr

/-- The text of a fault. -/
def EntityFault.message : EntityFault → String
  | unterminated start stop =>
    "Error while escaping character at range " ++ Nat.repr start ++ ".." ++ Nat.repr stop ++
      ": Cannot find ';' after '&'"
  | reference fault => "invalid character reference: " ++ fault.message
  | unknown start stop name =>
    "at " ++ Nat.repr start ++ ".." ++ Nat.repr stop ++ ": unrecognized entity `" ++ name ++ "`"

/-- The value of a digit in a base up to sixteen. -/
def digitValue? (base : Nat) (c : Char) : Option Nat :=
  (Text.hexDigit? c).filter (· < base)

/-- Reads digits after a number that is already read, as long as the number fits a 32-bit word. -/
def digits (base : Nat) (number : Nat) : List Char → Except ReferenceFault Nat
  | [] => .ok number
  | c :: cs =>
    match digitValue? base c with
    | none => .error .notADigit
    | some d =>
      let number := number * base + d
      if number < UInt32.size then digits base number cs else .error .tooLarge

/-- Reads a number without sign. -/
def number (base : Nat) (cs : List Char) : Except ReferenceFault Nat :=
  match cs with
  | [] => .error .noDigits
  | c :: _ => if c = '+' ∨ c = '-' then .error .signed else digits base 0 cs

/-- The character with a number. -/
def character (code : Nat) : Except ReferenceFault Char :=
  if code = 0 then .error .zero
  else if code.isValidChar then .ok (Char.ofNat code)
  else .error (.notACharacter code)

/-- The character that a number refers to, in base sixteen after the letter `x` and otherwise in
base ten. -/
def numbered : List Char → Except ReferenceFault Char
  | 'x' :: cs => number 16 cs >>= character
  | cs => number 10 cs >>= character

/-- The character that a name refers to. -/
def named? (name : List Char) : Option Char :=
  if name = "lt".toList then some '<'
  else if name = "gt".toList then some '>'
  else if name = "amp".toList then some '&'
  else if name = "apos".toList then some '\''
  else if name = "quot".toList then some '"'
  else none

/-- The character that the text between an ampersand at `start` and a semicolon refers to. -/
def resolve (start : Nat) (body : List Char) : Except EntityFault Char :=
  match body with
  | '#' :: cs => (numbered cs).mapError .reference
  | _ =>
    match named? body with
    | some c => .ok c
    | none =>
      .error (.unknown (start + 1) (start + 1 + Text.byteCount body) (String.ofList body))

/-- Whether a character ends the text of a reference, well or not. -/
def endsReference (c : Char) : Bool :=
  c == '&' || c == ';'

/-- Resolves the references in the rest of a value, which starts at byte `start` of `total`. -/
def unescapeFrom (total : Nat) (start : Nat) (cs : List Char) : Except EntityFault (List Char) :=
  match cs with
  | [] => .ok []
  | '&' :: rest =>
    let body := rest.takeWhile fun c ↦ !endsReference c
    match h : rest.dropWhile fun c ↦ !endsReference c with
    | ';' :: rest' => do
      have : rest'.length < rest.length := by
        have := Text.length_dropWhile_le (fun c ↦ !endsReference c) rest
        rw [h, List.length_cons] at this
        omega
      let c ← resolve start body
      let more ← unescapeFrom total (start + Text.byteCount body + 2) rest'
      return c :: more
    | _ => .error (.unterminated start total)
  | c :: rest => do
    let more ← unescapeFrom total (start + c.utf8Size) rest
    return c :: more
termination_by cs.length

/-- A value with its references resolved. -/
def unescape (cs : List Char) : Except EntityFault (List Char) :=
  unescapeFrom (Text.byteCount cs) 0 cs

end ApiDocs.Markup
