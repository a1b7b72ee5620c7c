import ApiDocs.Text.Basic

/-!
# Tokens of a markup text

A markup text is a sequence of tags, texts, character data sections and asides, which are comments,
declarations and processing instructions. Every token keeps the characters it was read from.

## Main definitions

* `Markup.Tag`: an opening or self-closing tag.
* `Markup.Event`, `Markup.Token`: what a token is, and where it was read from.
* `Markup.Fault`, `Markup.Fault.message`: why a text is no sequence of tokens.
-/

namespace ApiDocs.Markup

/-- The blanks that separate names and attributes inside tags. -/
def isSpace (c : Char) : Bool :=
  c == ' ' || c == '\t' || c == '\r' || c == '\n'

/-- An opening or self-closing tag. -/
structure Tag where
  /-- The characters between the angle brackets, without the slash of a self-closing tag. -/
  content : List Char
deriving DecidableEq

/-- The characters of the element's name: all before the first blank. -/
def Tag.nameChars (t : Tag) : List Char :=
  t.content.takeWhile fun c ↦ !isSpace c

/-- The name of the element; it may be empty. -/
def Tag.name (t : Tag) : String :=
  String.ofList t.nameChars

/-- What a token is. -/
inductive Event where
  /-- The opening tag of an element. -/
  | start (tag : Tag)
  /-- A self-closing tag: an element without content. -/
  | empty (tag : Tag)
  /-- The closing tag of the innermost open element. -/
  | close
  /-- Text between two tags. -/
  | text
  /-- A character data section. -/
  | cdata
  /-- A comment, declaration or processing instruction. -/
  | aside
deriving DecidableEq

/-- A token with the characters it was read from. -/
structure Token where
  /-- What the token is. -/
  event : Event
  /-- The characters of the token. -/
  source : List Char
deriving DecidableEq

/-- The number of bytes that a token takes. -/
def Token.size (t : Token) : Nat :=
  Text.byteCount t.source

/-- Why a text is no sequence of tokens. -/
inductive Fault where
  /-- A tag does not end. -/
  | tagNotClosed
  /-- A character data section does not end. -/
  | cdataNotClosed
  /-- A comment does not end. -/
  | commentNotClosed
  /-- A document type declaration does not end. -/
  | doctypeNotClosed
  /-- A processing instruction does not end. -/
  | instructionNotClosed
  /-- Nothing begins with the character after an exclamation mark. -/
  | unknownMarkup
  /-- A document type declaration names no type. -/
  | unnamedDoctype
  /-- A closing tag stands where no element is open. -/
  | strayClose (name : String)
  /-- A closing tag does not belong to the innermost open element. -/
  | wrongClose (opened name : String)
deriving DecidableEq, Repr

/-- The text of a fault. -/
def Fault.message : Fault → String
  | tagNotClosed => "syntax error: tag not closed: `>` not found before end of input"
  | cdataNotClosed => "syntax error: CDATA not closed: `]]>` not found before end of input"
  | commentNotClosed => "syntax error: comment not closed: `-->` not found before end of input"
  | doctypeNotClosed => "syntax error: DOCTYPE not closed: `>` not found before end of input"
  | instructionNotClosed =>
    "syntax error: processing instruction or xml declaration not closed: " ++
      "`?>` not found before end of input"
  | unknownMarkup => "syntax error: unknown or missed symbol in markup"
  | unnamedDoctype =>
    "ill-formed document: `<!DOCTYPE>` declaration does not contain a name of a document type"
  | strayClose name =>
    "ill-formed document: close tag `</" ++ name ++ ">` does not match any open tag"
  | wrongClose opened name =>
    "ill-formed document: expected `</" ++ opened ++ ">`, but `</" ++ name ++ ">` was found"

end ApiDocs.Markup
