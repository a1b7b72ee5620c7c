import ApiDocs.Decl.Member

/-!
# Signatures of members

The short signature of a member is its name as a reader sees it, with generic parameters in angle
brackets and the types of its parameters. Members of a kind are listed in the order of their
signatures.

## Main definitions

* `MemberDecl.simpleName`: the name by which overloads are grouped.
* `MemberDecl.signature`: the short signature.
* `MemberDecl.extensionSignature`: the signature of a method called on its first argument.
-/

namespace ApiDocs.MemberDecl

/-- The name without the mark of operators and without an arity marker. -/
def simpleName (m : MemberDecl) : String :=
  if m.isOperator then
    TypeName.stripArity (String.ofList (m.name.toList.drop operatorMark.length))
  else
    TypeName.stripArity m.name

/-- The types of parameters, separated by commas. -/
def parameterList (params : List Parameter) : String :=
  String.intercalate ", " (params.map fun p ↦ p.type.displayName)

/-- The names of generic parameters in angle brackets, if there are any. -/
def genericList (params : List GenericParameter) : String :=
  if params.isEmpty then ""
  else "<" ++ String.intercalate ", " (params.map GenericParameter.name) ++ ">"

/-- The signature of a method without its first `skip` parameters. -/
def methodSignature (m : MemberDecl) (skip : Nat) : String :=
  m.simpleName ++ genericList m.genericParameters ++
    "(" ++ parameterList (m.parameters.drop skip) ++ ")"

/-- The short signature of a member found on the type with the given full name. -/
def signature (reflectedType : String) (m : MemberDecl) : String :=
  match m.shape with
  | .constructor c =>
    TypeName.display reflectedType ++ "(" ++ parameterList c.parameters ++ ")"
  | .method _ => m.methodSignature 0
  | .property p =>
    if p.indexParameters.isEmpty then m.name
    else m.name ++ "[" ++ parameterList p.indexParameters ++ "]"
  | .field _ | .event _ => m.name

/-- The signature of a method that is called on its first argument; other members keep their short
signature. -/
def extensionSignature (reflectedType : String) (m : MemberDecl) : String :=
  if m.isExtension then m.methodSignature 1 else m.signature reflectedType

end ApiDocs.MemberDecl
