import ApiDocs.Comment.Collection
import ApiDocs.Markup.Attribute
import ApiDocs.Markup.Scanner
import ApiDocs.Text.Lines

/-!
# Reading documentation files

A documentation file is a markup text with one `doc` element. Inside it, at any depth, `member`
elements hold the comments, and a `name` element directly inside `assembly` names the assembly. The
child elements of a member are the sections of its comment; a section's text is the markup between
its tags as it is written, normalised.

The file is read token by token. The reader's state says where it stands: outside members, among the
sections of a member, or inside a section. A fault is reported with the number of bytes read when it
was found.

## Main definitions

* `ReadFault`, `ReadError`: what can be wrong with a documentation file, and where.
* `Reader.State`, `Reader.State.step`: the states of the reader and its step at a token.
* `Comments.read`: the comments of a documentation file.
-/

namespace ApiDocs

/-- What can be wrong with a documentation file. -/
inductive ReadFault where
  /-- The text is no markup. -/
  | markup (fault : Markup.Fault)
  /-- An attribute cannot be read. -/
  | lookup (fault : Markup.LookupFault)
  /-- A second element stands at the top. -/
  | secondRoot (tag : String)
  /-- The element at the top has the wrong name. -/
  | wrongRoot (tag : String)
  /-- There is no element at the top. -/
  | noRoot
  /-- Text stands outside the element at the top. -/
  | strayText
  /-- A member has no name. -/
  | unnamedMember
  /-- The file ends inside an element. -/
  | openElement (tag : String)
  /-- The file ends inside a member, outside its sections. -/
  | openMember (key : String)
  /-- The file ends inside a section. -/
  | openSection (tag : String)
deriving DecidableEq, Repr

/-- The text of a fault. -/
def ReadFault.message : ReadFault → String
  | markup fault => fault.message
  | lookup fault => fault.message
  | secondRoot tag => "second root element <" ++ tag ++ ">"
  | wrongRoot tag => "root element is <" ++ tag ++ ">, expected <doc>"
  | noRoot => "missing <doc> root element"
  | strayText => "text outside the <doc> element"
  | unnamedMember => "<member> without a name attribute"
  | openElement tag => "unterminated element <" ++ tag ++ ">"
  | openMember key => "unterminated <member name=\"" ++ key ++ "\">"
  | openSection tag =>
    "ill-formed document: start tag not closed: `</" ++ tag ++ ">` not found before end of input"

/-- A fault in a documentation file, with the number of bytes read when it was found. -/
structure ReadError where
  /-- The number of bytes. -/
  position : Nat
  /-- The fault. -/
  fault : ReadFault
deriving DecidableEq, Repr

/-! ### Sections of a comment -/

/-- A comment with one more section, given the section's tag and text. A section that a comment has
once is replaced, one that it has several times is appended. Texts about parameters are left out if
the tag does not say which parameter they are about. -/
def Comment.absorb (c : Comment) (tag : Markup.Tag) (text : String) :
    Except Markup.LookupFault Comment :=
  match tag.name with
  | "summary" => .ok { c with summary := some text }
  | "remarks" => .ok { c with remarks := some text }
  | "returns" => .ok { c with returns := some text }
  | "value" => .ok { c with value := some text }
  | "example" => .ok { c with sample := some text }
  | "param" => do
    match ← tag.attribute? "name" with
    | some name => return { c with params := c.params ++ [⟨Text.trim name, text⟩] }
    | none => return c
  | "typeparam" => do
    match ← tag.attribute? "name" with
    | some name => return { c with typeParams := c.typeParams ++ [⟨Text.trim name, text⟩] }
    | none => return c
  | "exception" => do
    let cref ← tag.attribute? "cref"
    return { c with exceptions := c.exceptions ++ [⟨cref.getD "", text⟩] }
  | "seealso" => do
    match ← tag.attribute? "cref" with
    | some cref => return { c with seeAlso := c.seeAlso ++ [cref] }
    | none => return c
  | "inheritdoc" => .ok { c with inheritDoc := true }
  | other => .ok { c with other := c.other ++ [⟨other, text⟩] }

/-! ### The reader -/

namespace Reader

/-- What a section belongs to. -/
inductive SectionOwner where
  /-- The header of the file: the section names the assembly. -/
  | header
  /-- A member, with its comment so far. -/
  | member (comment : Comment)

/-- Where the reader stands. -/
inductive Focus where
  /-- Outside members and sections. -/
  | outline
  /-- Among the sections of a member, with its comment so far. -/
  | member (comment : Comment)
  /-- Inside a section, with the number of elements open in it and its text so far. -/
  | inside (owner : SectionOwner) (tag : Markup.Tag) (depth : Nat) (text : List Char)

/-- The state of the reader between two tokens. -/
structure State where
  /-- Whether the element at the top has been opened. -/
  hasRoot : Bool := false
  /-- The names of the open elements outside members, innermost first. -/
  path : List String := []
  /-- The comments so far. -/
  comments : Comments := .empty
  /-- Where the reader stands. -/
  focus : Focus := .outline

namespace State

/-- Opens the element at the top, of which a file has one. -/
def enterRoot (s : State) (tag : String) : Except ReadFault State :=
  if s.hasRoot then .error (.secondRoot tag)
  else if tag = "doc" then .ok { s with hasRoot := true }
  else .error (.wrongRoot tag)

/-- The empty comment of a member. -/
def openComment (tag : Markup.Tag) : Except ReadFault Comment := do
  match ← (tag.attribute? "name").mapError .lookup with
  | some key => return { key := Text.trim key }
  | none => .error .unnamedMember

/-- Files a comment that is complete. -/
def fileComment (s : State) (c : Comment) : State :=
  { s with comments := s.comments.insert c, focus := .outline }

/-- The step outside members and sections. -/
def outlineStep (s : State) (t : Markup.Token) : Except ReadFault State :=
  match t.event with
  | .start tag =>
    if s.path.isEmpty then do
      let s ← s.enterRoot tag.name
      return { s with path := [tag.name] }
    else if tag.name = "member" then do
      return { s with focus := .member (← openComment tag) }
    else if tag.name = "name" ∧ s.path.head? = some "assembly" then
      .ok { s with focus := .inside .header tag 0 [] }
    else
      .ok { s with path := tag.name :: s.path }
  | .empty tag =>
    if s.path.isEmpty then
      s.enterRoot tag.name
    else if tag.name = "member" then do
      return s.fileComment (← openComment tag)
    else
      .ok s
  | .close => .ok { s with path := s.path.tail }
  | .text => if s.path.isEmpty ∧ !t.source.all Text.isAsciiBlank then .error .strayText else .ok s
  | .cdata => if s.path.isEmpty then .error .strayText else .ok s
  | .aside => .ok s

/-- Adds a section to the comment of the member that the reader stands in. -/
def addSection (s : State) (c : Comment) (tag : Markup.Tag) (text : List Char) :
    Except ReadFault State := do
  let c ← (c.absorb tag (Text.normalize (String.ofList text))).mapError .lookup
  return { s with focus := .member c }

/-- The step among the sections of a member. -/
def memberStep (s : State) (c : Comment) (t : Markup.Token) : Except ReadFault State :=
  match t.event with
  | .start tag => .ok { s with focus := .inside (.member c) tag 0 [] }
  | .empty tag => s.addSection c tag []
  | .close => .ok (s.fileComment c)
  | .text | .cdata | .aside => .ok s

/-- Ends a section. -/
def closeSection (s : State) (owner : SectionOwner) (tag : Markup.Tag) (text : List Char) :
    Except ReadFault State :=
  match owner with
  | .header =>
    let name := Text.normalize (String.ofList text)
    .ok { s with comments := { s.comments with assemblyName := some name }, focus := .outline }
  | .member c => s.addSection c tag text

/-- The step inside a section. -/
def sectionStep (s : State) (owner : SectionOwner) (tag : Markup.Tag) (depth : Nat)
    (text : List Char) (t : Markup.Token) : Except ReadFault State :=
  let stay (depth : Nat) : State := { s with focus := .inside owner tag depth (text ++ t.source) }
  match t.event, depth with
  | .start _, depth => .ok (stay (depth + 1))
  | .close, 0 => s.closeSection owner tag text
  | .close, depth + 1 => .ok (stay depth)
  | _, depth => .ok (stay depth)

/-- The state after one more token. -/
def step (s : State) (t : Markup.Token) : Except ReadFault State :=
  match s.focus with
  | .outline => s.outlineStep t
  | .member c => s.memberStep c t
  | .inside owner tag depth text => s.sectionStep owner tag depth text t

/-- The comments at the end of the file. -/
def finish (s : State) : Except ReadFault Comments :=
  match s.focus with
  | .inside _ tag _ _ => .error (.openSection tag.name)
  | .member c => .error (.openMember c.key)
  | .outline =>
    match s.path with
    | tag :: _ => .error (.openElement tag)
    | [] => if s.hasRoot then .ok s.comments else .error .noRoot

/-- The state after all tokens of a list and the number of bytes read, given the number read
before. -/
def run (s : State) (position : Nat) : List Markup.Token → Except ReadError (State × Nat)
  | [] => .ok (s, position)
  | t :: ts =>
    match s.step t with
    | .ok s => s.run (position + t.size) ts
    | .error fault => .error ⟨position + t.size, fault⟩

end State

end Reader

/-- The comments that a sequence of tokens and its ending hold. -/
def Comments.ofTokens (tokens : List Markup.Token) (ending : Markup.Ending) :
    Except ReadError Comments := do
  let reached ← Reader.State.run {} 0 tokens
  match ending with
  | .fault fault consumed => .error ⟨reached.2 + consumed, .markup fault⟩
  | .complete => reached.1.finish.mapError fun fault ↦ ⟨reached.2, fault⟩

/-- The comments of a documentation file. -/
def Comments.read (text : String) : Except ReadError Comments :=
  let scanned := Markup.scan text
  Comments.ofTokens scanned.1 scanned.2

end ApiDocs
