import ApiDocs.Crash
import ApiDocs.Decl.Member

/-!
# Documentation ids

Comments are filed under documentation ids. A member's id is a letter for its kind, the full name of
its declaring type, its name, its number of generic parameters and the types of its parameters. The
arguments of a generic type stand in braces in place of its arity marker; the list of arguments is
flat, and every segment of a nested name takes as many as its own marker states.

The number of arguments that a name's markers state has to fit a 64-bit word, and otherwise the id
cannot be written. If it is the number of arguments given, no segment asks for more than are left.

## Main definitions

* `TypeName.instantiate`: a full name with its arguments in place of the markers.
* `TypeExpr.docText`: a type expression inside an id.
* `MemberDecl.docId`: the id of a member.
* `DocKind`, `DocKind.ofKey?`: what an id stands for.
-/

namespace ApiDocs

namespace TypeName

/-- Arguments between braces. -/
def braced (args : List String) : String :=
  "\x7b" ++ String.intercalate "," args ++ "\x7d"

/-- The number of arguments that the markers of all segments state. -/
def declaredArity : List (List Char) → Nat
  | [] => 0
  | seg :: segs => (arity seg).toNat + declaredArity segs

/-- Writes each segment with as many of the arguments as its marker states. -/
def distribute : List (List Char) → List String → Except Crash (List String)
  | [], _ => .ok []
  | seg :: segs, args =>
    let own := (arity seg).toNat
    let name := String.ofList (stripArityChars seg)
    if args.length < own then
      .error .pastTheEnd
    else do
      let rest ← distribute segs (args.drop own)
      return (if own = 0 then name else name ++ braced (args.take own)) :: rest

/-- A full name with arguments. If the markers do not account for the arguments, the innermost type
takes them all. -/
def instantiate (fullName : String) (args : List String) : Except Crash String :=
  let segs := segments fullName
  if UInt64.size ≤ declaredArity segs then
    .error .overflow
  else if declaredArity segs = args.length then
    (distribute segs args).map (String.intercalate ".")
  else
    let names := segs.map fun seg ↦ String.ofList (stripArityChars seg)
    .ok (String.intercalate "." names ++ braced args)

end TypeName

/-- The written form of a derived type in an id, from that of its target. -/
def TypeForm.docText (target : String) : TypeForm → String
  | array rank =>
    target ++
      if rank ≤ 1 then "[]"
      else "[" ++ String.intercalate "," (List.replicate rank.toNat "0:") ++ "]"
  | byRef => target ++ "@"
  | pointer => target ++ "*"

/-- The mark before the position of a generic parameter. -/
def GenericScope.mark : GenericScope → String
  | type => "`"
  | method => "``"

namespace TypeExpr

mutual

/-- A type expression as ids write it. -/
def docText : TypeExpr → Except Crash String
  | named fullName [] => .ok (TypeName.dotted fullName)
  | named fullName (arg :: args) => do
    TypeName.instantiate fullName (← docTexts (arg :: args))
  | param scope position _ => .ok (scope.mark ++ Nat.repr position.toNat)
  | derived form target => target.docText.map fun text ↦ form.docText text

/-- The written forms of a list of type expressions. -/
def docTexts : List TypeExpr → Except Crash (List String)
  | [] => .ok []
  | arg :: args => do
    let text ← arg.docText
    let texts ← docTexts args
    return text :: texts

end

end TypeExpr

namespace MemberDecl

/-- The letter that begins the ids of members of this kind. -/
def idLetter (m : MemberDecl) : String :=
  match m.shape with
  | .constructor _ | .method _ => "M"
  | .property _ => "P"
  | .field _ => "F"
  | .event _ => "E"

/-- The name of a member inside an id, where a dot would end the name of the type. -/
def idName (m : MemberDecl) : String :=
  String.ofList (m.name.toList.map fun c ↦ if c = '.' then '#' else c)

/-- The mark of a generic method. -/
def idArity (m : MemberDecl) : String :=
  match m.genericParameters with
  | [] => ""
  | params => "``" ++ Nat.repr params.length

/-- The types of the parameters in parentheses, if there are any. -/
def idParameters (m : MemberDecl) : Except Crash String :=
  match m.parameters with
  | [] => .ok ""
  | params =>
    (TypeExpr.docTexts (params.map Parameter.type)).map fun texts ↦
      "(" ++ String.intercalate "," texts ++ ")"

/-- The type that a conversion leads to, which tells conversions of one type apart. -/
def idResult (m : MemberDecl) : Except Crash String :=
  match m.isConversion, m.valueType? with
  | true, some type => type.docText.map ("~" ++ ·)
  | _, _ => .ok ""

/-- The documentation id of a member. -/
def docId (m : MemberDecl) : Except Crash String := do
  let parameters ← m.idParameters
  let result ← m.idResult
  return m.idLetter ++ ":" ++ TypeName.dotted m.declaringType ++ "." ++ m.idName ++ m.idArity ++
    parameters ++ result

end MemberDecl

/-! ### Kinds of ids -/

/-- What an id stands for. -/
inductive DocKind where
  /-- A namespace. -/
  | ofNamespace
  /-- A type. -/
  | ofType
  /-- A method or constructor. -/
  | ofMethod
  /-- A property. -/
  | ofProperty
  /-- A field. -/
  | ofField
  /-- An event. -/
  | ofEvent
  /-- Something that the compiler could not resolve. -/
  | ofError
deriving DecidableEq, Repr

namespace DocKind

/-- The letter that begins ids of this kind. -/
def letter : DocKind → Char
  | ofNamespace => 'N'
  | ofType => 'T'
  | ofMethod => 'M'
  | ofProperty => 'P'
  | ofField => 'F'
  | ofEvent => 'E'
  | ofError => '!'

/-- The letter and the colon before the name. -/
def tag (k : DocKind) : String :=
  String.ofList [k.letter, ':']

/-- Whether ids of this kind stand for members. -/
def isMember : DocKind → Bool
  | ofMethod | ofProperty | ofField | ofEvent => true
  | ofNamespace | ofType | ofError => false

/-- The kind of an id, read off a single letter before the first colon. -/
def ofKey? (key : String) : Option DocKind :=
  match key.toList with
  | c :: ':' :: _ =>
    [ofNamespace, ofType, ofMethod, ofProperty, ofField, ofEvent, ofError].find? fun k ↦
      k.letter == c
  | _ => none

end DocKind

end ApiDocs
