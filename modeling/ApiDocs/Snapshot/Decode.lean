import ApiDocs.Decl.Type
import ApiDocs.Json.Basic

/-!
# Declarations from JSON values

Declarations are read back from their JSON form. Fields that hold a default may be missing, fields
with other names are passed over, and a field that is read may be there once only. Except for a
member, an array may stand for an object: it has the values of the fields in order.

The words for kinds and access levels have other forms too. Which of them are read depends on where
a value stands: it is *inner* if it is part of a member or of a type expression.

Type expressions and members contain each other to any depth; they are read with a number of levels,
for which the nesting depth of the value is enough.

## Main definitions

* `TypeExpr.ofJson?`, `MemberDecl.ofJson?`, `TypeDecl.ofJson?`, `AssemblyDecl.ofJson?`: the
  declarations that JSON values stand for.
-/

namespace ApiDocs

open JsonFields

/-- The 32-bit word that a value stands for. -/
def Json.word? (value : Json) : Option UInt32 := do
  let n ← value.nat?
  if n < UInt32.size then some (UInt32.ofNat n) else none

/-- The items of an array, each read by the same function. -/
def Json.list? {α : Type} (read : Json → Option α) (value : Json) : Option (List α) := do
  (← value.items?).mapM read

/-- The word that a value stands for: itself, or its place in a list of words. -/
def Json.choice? (words : List String) : Json → Option String
  | .str s => s
  | .num n => do words[← n.toNat?]?
  | _ => none

namespace Access

/-- Reads an access level. It is a word, or an object that has nothing under the word; an inner
value may write nothing as an object without fields. -/
def read (isInner : Bool) : Json → Option Access
  | .str s => s.bind ofWord?
  | .obj [(some word, .null)] => ofWord? word
  | .obj [(some word, .obj [])] => if isInner then ofWord? word else none
  | _ => none

/-- The access level that a value stands for. -/
def ofJson? : Json → Option Access :=
  read false

end Access

namespace TypeTraits

/-- The names of the fields for the marks of a type. -/
def fieldNames : List String :=
  ["isInterface", "isEnum", "isValueType", "isAbstract", "isSealed"]

/-- The marks of a type that a value stands for. -/
def ofJson? (value : Json) : Option TypeTraits := do
  let fields ← value.record? fieldNames
  return {
    isInterface := ← optional fields "isInterface" false Json.bool?
    isEnum := ← optional fields "isEnum" false Json.bool?
    isValueType := ← optional fields "isValueType" false Json.bool?
    isAbstract := ← optional fields "isAbstract" false Json.bool?
    isSealed := ← optional fields "isSealed" false Json.bool? }

end TypeTraits

namespace TypeExpr

/-- The words for the kinds of type expressions. -/
def kindWords : List String :=
  ["named", "genericTypeParam", "genericMethodParam", "array", "byRef", "pointer"]

/-- The names of the fields of a type expression, by the word for its kind. -/
def fieldNames : String → List String
  | "named" => ["fullName", "args"]
  | "genericTypeParam" | "genericMethodParam" => ["position", "name"]
  | "array" => ["element", "rank"]
  | "byRef" | "pointer" => ["target"]
  | _ => []

/-- The word for the kind of a type expression, and its fields. In an array the kind comes first.
The kind of an inner expression may be given by its place among the words. -/
def parts? (isInner : Bool) (value : Json) : Option (String × List (JsonText × Json)) :=
  let kind? := if isInner then Json.choice? kindWords else Json.text?
  match value with
  | .arr (first :: items) => do
    let kind ← kind? first
    return (kind, ← (Json.arr items).record? (fieldNames kind))
  | value => do
    let fields ← value.fields?
    return (← required fields "kind" kind?, fields)

/-- Reads a type expression that contains others on fewer than `levels` levels. -/
def read (levels : Nat) (isInner : Bool) (value : Json) : Option TypeExpr :=
  match levels with
  | 0 => none
  | levels + 1 => do
    let (kind, fields) ← parts? isInner value
    match kind with
    | "named" =>
      return named (← required fields "fullName" Json.text?)
        (← optional fields "args" [] (Json.list? (read levels true)))
    | "genericTypeParam" =>
      return param .type (← required fields "position" Json.word?)
        (← required fields "name" Json.text?)
    | "genericMethodParam" =>
      return param .method (← required fields "position" Json.word?)
        (← required fields "name" Json.text?)
    | "array" =>
      return derived (.array (← required fields "rank" Json.word?))
        (← required fields "element" (read levels true))
    | "byRef" => return derived .byRef (← required fields "target" (read levels true))
    | "pointer" => return derived .pointer (← required fields "target" (read levels true))
    | _ => none

/-- The type expression that a value stands for. -/
def ofJson? (value : Json) : Option TypeExpr :=
  read value.depth false value

/-- The type expression that a part of a member stands for. -/
def ofInner? (value : Json) : Option TypeExpr :=
  read value.depth true value

end TypeExpr

namespace GenericParameter

/-- The names of the fields of a generic parameter. -/
def fieldNames : List String :=
  ["position", "name"]

/-- The generic parameter that a value stands for. -/
def ofJson? (value : Json) : Option GenericParameter := do
  let fields ← value.record? fieldNames
  return {
    position := ← required fields "position" Json.word?
    name := ← required fields "name" Json.text? }

end GenericParameter

namespace Parameter

/-- The names of the fields of a parameter. -/
def fieldNames : List String :=
  ["name", "ty", "isOptional"]

/-- Reads a parameter, given how its type is read. -/
def read (readType : Json → Option TypeExpr) (value : Json) : Option Parameter := do
  let fields ← value.record? fieldNames
  return {
    name := ← required fields "name" Json.text?
    type := ← required fields "ty" readType
    isOptional := ← optional fields "isOptional" false Json.bool? }

/-- The parameter that a value stands for. -/
def ofJson? : Json → Option Parameter :=
  read TypeExpr.ofJson?

/-- The parameters that a part of a member stands for. -/
def listOfInner? : Json → Option (List Parameter) :=
  Json.list? (read TypeExpr.ofInner?)

end Parameter

namespace Accessor

/-- The names of the fields of an accessor. -/
def fieldNames : List String :=
  ["visibility", "isStatic"]

/-- Reads an accessor. -/
def read (isInner : Bool) (value : Json) : Option Accessor := do
  let fields ← value.record? fieldNames
  return {
    access := ← optional fields "visibility" .everyone (Access.read isInner)
    isStatic := ← optional fields "isStatic" false Json.bool? }

/-- The accessor that a value stands for. -/
def ofJson? : Json → Option Accessor :=
  read false

end Accessor

/-- The words for the kinds of members. -/
def MemberShape.kindWords : List String :=
  ["constructor", "method", "property", "field", "event"]

/-- The shape of a member, read from the fields that the word for its kind asks for. -/
def MemberShape.ofFields? (fields : List (JsonText × Json)) : String → Option MemberShape
  | "constructor" => do
    return constructor {
      access := ← required fields "visibility" (Access.read true)
      isStatic := ← required fields "isStatic" Json.bool?
      parameters := ← required fields "parameters" Parameter.listOfInner? }
  | "method" => do
    return method {
      access := ← required fields "visibility" (Access.read true)
      isStatic := ← required fields "isStatic" Json.bool?
      isVirtual := ← required fields "isVirtual" Json.bool?
      isAbstract := ← required fields "isAbstract" Json.bool?
      isSpecialName := ← required fields "isSpecialName" Json.bool?
      isExtension := ← required fields "isExtension" Json.bool?
      returnType := ← required fields "returnType" TypeExpr.ofInner?
      parameters := ← required fields "parameters" Parameter.listOfInner?
      genericParameters :=
        ← required fields "genericParameters" (Json.list? GenericParameter.ofJson?) }
  | "property" => do
    return property {
      getter := ← optional fields "getter" none (Json.nullable (Accessor.read true))
      setter := ← optional fields "setter" none (Json.nullable (Accessor.read true))
      type := ← required fields "propertyType" TypeExpr.ofInner?
      indexParameters := ← required fields "indexParameters" Parameter.listOfInner? }
  | "field" => do
    return field {
      access := ← required fields "visibility" (Access.read true)
      isStatic := ← required fields "isStatic" Json.bool?
      isLiteral := ← required fields "isLiteral" Json.bool?
      type := ← required fields "fieldType" TypeExpr.ofInner? }
  | "event" => do
    return event {
      add := ← required fields "add" (Accessor.read true)
      remove := ← required fields "remove" (Accessor.read true)
      handlerType := ← required fields "handlerType" TypeExpr.ofInner? }
  | _ => none

namespace MemberDecl

/-- Reads a member that overrides others on fewer than `levels` levels. -/
def read (levels : Nat) (value : Json) : Option MemberDecl :=
  match levels with
  | 0 => none
  | levels + 1 => do
    let fields ← value.fields?
    return {
      name := ← required fields "name" Json.text?
      declaringType := ← required fields "declaringType" Json.text?
      baseDefinition := ← optional fields "baseDefinition" none (Json.nullable (read levels))
      shape := ← MemberShape.ofFields? fields
        (← required fields "kind" (Json.choice? MemberShape.kindWords)) }

/-- The member that a value stands for. -/
def ofJson? (value : Json) : Option MemberDecl :=
  read value.depth value

end MemberDecl

namespace TypeDecl

/-- The names of the fields of a type. -/
def fieldNames : List String :=
  ["fullName", "visibility", "flags", "baseType", "interfaces", "declaringType",
    "genericParameters", "members"]

/-- The type that a value stands for. -/
def ofJson? (value : Json) : Option TypeDecl := do
  let fields ← value.record? fieldNames
  return {
    fullName := ← required fields "fullName" Json.text?
    access := ← optional fields "visibility" .everyone Access.ofJson?
    traits := ← optional fields "flags" {} TypeTraits.ofJson?
    baseType := ← optional fields "baseType" none (Json.nullable TypeExpr.ofJson?)
    interfaces := ← optional fields "interfaces" [] (Json.list? TypeExpr.ofJson?)
    declaringType := ← optional fields "declaringType" none (Json.nullable Json.text?)
    genericParameters :=
      ← optional fields "genericParameters" [] (Json.list? GenericParameter.ofJson?)
    members := ← optional fields "members" [] (Json.list? MemberDecl.ofJson?) }

end TypeDecl

namespace AssemblyDecl

/-- The names of the fields of an assembly. -/
def fieldNames : List String :=
  ["name", "types"]

/-- The assembly that a value stands for. -/
def ofJson? (value : Json) : Option AssemblyDecl := do
  let fields ← value.record? fieldNames
  return {
    name := ← required fields "name" Json.text?
    types := ← optional fields "types" [] (Json.list? TypeDecl.ofJson?) }

end AssemblyDecl

end ApiDocs
