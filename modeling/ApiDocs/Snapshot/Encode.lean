import ApiDocs.Decl.Type
import ApiDocs.Json.Basic

/-!
# Declarations as JSON values

The JSON form of declarations, in which snapshots of assemblies are kept. Every field is written,
also those that hold a default.

## Main definitions

* `TypeExpr.toJson`, `MemberDecl.toJson`, `TypeDecl.toJson`, `AssemblyDecl.toJson`: the JSON forms.
-/

namespace ApiDocs

/-- The JSON form of a text that may be missing. -/
def Json.ofText? : Option String → Json
  | none => .null
  | some s => .text s

/-- The JSON form of a 32-bit word. -/
def Json.word (n : UInt32) : Json :=
  .nat n.toNat

/-- The JSON form of an access level. -/
def Access.toJson (a : Access) : Json :=
  .text a.word

/-- The JSON form of the marks of a type. -/
def TypeTraits.toJson (t : TypeTraits) : Json :=
  .object
    [("isInterface", .bool t.isInterface), ("isEnum", .bool t.isEnum),
      ("isValueType", .bool t.isValueType), ("isAbstract", .bool t.isAbstract),
      ("isSealed", .bool t.isSealed)]

/-- The word for a generic parameter of a type or method. -/
def GenericScope.word : GenericScope → String
  | type => "genericTypeParam"
  | method => "genericMethodParam"

namespace TypeExpr

mutual

/-- The JSON form of a type expression. -/
def toJson : TypeExpr → Json
  | named fullName args =>
    .object
      [("kind", .text "named"), ("fullName", .text fullName), ("args", .arr (listToJson args))]
  | param scope position name =>
    .object [("kind", .text scope.word), ("position", .word position), ("name", .text name)]
  | derived (.array rank) target =>
    .object [("kind", .text "array"), ("element", target.toJson), ("rank", .word rank)]
  | derived .byRef target => .object [("kind", .text "byRef"), ("target", target.toJson)]
  | derived .pointer target => .object [("kind", .text "pointer"), ("target", target.toJson)]

/-- The JSON forms of a list of type expressions. -/
def listToJson : List TypeExpr → List Json
  | [] => []
  | type :: types => type.toJson :: listToJson types

end

@[simp] theorem listToJson_eq_map (types : List TypeExpr) :
    listToJson types = types.map toJson := by
  induction types with
  | nil => rfl
  | cons type types ih => simp [listToJson, ih]

/-- The JSON form of a type expression that may be missing. -/
def optionToJson : Option TypeExpr → Json
  | none => .null
  | some type => type.toJson

end TypeExpr

/-- The JSON form of a generic parameter. -/
def GenericParameter.toJson (p : GenericParameter) : Json :=
  .object [("position", .word p.position), ("name", .text p.name)]

/-- The JSON form of a parameter. -/
def Parameter.toJson (p : Parameter) : Json :=
  .object [("name", .text p.name), ("ty", p.type.toJson), ("isOptional", .bool p.isOptional)]

/-- The JSON form of an accessor. -/
def Accessor.toJson (a : Accessor) : Json :=
  .object [("visibility", a.access.toJson), ("isStatic", .bool a.isStatic)]

/-- The JSON form of an accessor that may be missing. -/
def Accessor.optionToJson : Option Accessor → Json
  | none => .null
  | some a => a.toJson

/-- The word for the kind of a member. -/
def MemberShape.word : MemberShape → String
  | constructor _ => "constructor"
  | method _ => "method"
  | property _ => "property"
  | field _ => "field"
  | event _ => "event"

/-- The fields in which the shape of a member is written. -/
def MemberShape.toFields : MemberShape → List (String × Json)
  | constructor c =>
    [("visibility", c.access.toJson), ("isStatic", .bool c.isStatic),
      ("parameters", .arr (c.parameters.map Parameter.toJson))]
  | method f =>
    [("visibility", f.access.toJson), ("isStatic", .bool f.isStatic),
      ("isVirtual", .bool f.isVirtual), ("isAbstract", .bool f.isAbstract),
      ("isSpecialName", .bool f.isSpecialName), ("isExtension", .bool f.isExtension),
      ("returnType", f.returnType.toJson),
      ("parameters", .arr (f.parameters.map Parameter.toJson)),
      ("genericParameters", .arr (f.genericParameters.map GenericParameter.toJson))]
  | property p =>
    [("getter", Accessor.optionToJson p.getter), ("setter", Accessor.optionToJson p.setter),
      ("propertyType", p.type.toJson),
      ("indexParameters", .arr (p.indexParameters.map Parameter.toJson))]
  | field f =>
    [("visibility", f.access.toJson), ("isStatic", .bool f.isStatic),
      ("isLiteral", .bool f.isLiteral), ("fieldType", f.type.toJson)]
  | event e =>
    [("add", e.add.toJson), ("remove", e.remove.toJson), ("handlerType", e.handlerType.toJson)]

namespace MemberDecl

mutual

/-- The JSON form of a member. -/
def toJson : MemberDecl → Json
  | ⟨name, declaringType, base, shape⟩ =>
    .object
      ([("name", .text name), ("declaringType", .text declaringType),
        ("baseDefinition", optionToJson base), ("kind", .text shape.word)] ++ shape.toFields)

/-- The JSON form of a member that may be missing. -/
def optionToJson : Option MemberDecl → Json
  | none => .null
  | some base => base.toJson

end

end MemberDecl

/-- The JSON form of a type. -/
def TypeDecl.toJson (t : TypeDecl) : Json :=
  .object
    [("fullName", .text t.fullName), ("visibility", t.access.toJson), ("flags", t.traits.toJson),
      ("baseType", TypeExpr.optionToJson t.baseType),
      ("interfaces", .arr (t.interfaces.map TypeExpr.toJson)),
      ("declaringType", .ofText? t.declaringType),
      ("genericParameters", .arr (t.genericParameters.map GenericParameter.toJson)),
      ("members", .arr (t.members.map MemberDecl.toJson))]

/-- The JSON form of an assembly. -/
def AssemblyDecl.toJson (a : AssemblyDecl) : Json :=
  .object [("name", .text a.name), ("types", .arr (a.types.map TypeDecl.toJson))]

end ApiDocs
