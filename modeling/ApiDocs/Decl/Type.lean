import ApiDocs.Decl.Member

/-!
# Declared types and assemblies

A type as its assembly declares it. All that is said of the type itself stands in its header, apart
from its members, so that a type's entry can carry the header and choose among the members.

## Main definitions

* `TypeTraits`: the marks from which the kind of a type is read off.
* `TypeHeader`, `TypeDecl`, `AssemblyDecl`: declared types and assemblies.
* `TypeKind`, `TypeHeader.kind`: class, structure, interface, delegate or enumeration.
-/

namespace ApiDocs

/-- Marks of a declared type. -/
structure TypeTraits where
  /-- The type is an interface. -/
  isInterface : Bool := false
  /-- The type is an enumeration. -/
  isEnum : Bool := false
  /-- The type's values are copied. -/
  isValueType : Bool := false
  /-- The type has no instances of its own. -/
  isAbstract : Bool := false
  /-- No type derives from the type. -/
  isSealed : Bool := false
deriving DecidableEq, Repr

namespace TypeTraits

/-- The marks of an ordinary class: none. -/
def ofClass : TypeTraits := {}

/-- The marks of a structure. -/
def ofStruct : TypeTraits := { isValueType := true, isSealed := true }

/-- The marks of an interface. -/
def ofInterface : TypeTraits := { isInterface := true, isAbstract := true }

/-- The marks of an enumeration. -/
def ofEnum : TypeTraits := { isEnum := true, isValueType := true, isSealed := true }

/-- The marks of a class that has no instances. -/
def ofStaticClass : TypeTraits := { isAbstract := true, isSealed := true }

end TypeTraits

/-- What a type declares besides its members. -/
structure TypeHeader where
  /-- The full name of the type. -/
  fullName : String
  /-- Who may use the type. -/
  access : Access := .everyone
  /-- The marks of the type. -/
  traits : TypeTraits := {}
  /-- The type that this type derives from. -/
  baseType : Option TypeExpr := none
  /-- The interfaces that the type implements. -/
  interfaces : List TypeExpr := []
  /-- The full name of the type that this type is nested in. -/
  declaringType : Option String := none
  /-- The generic parameters in order. -/
  genericParameters : List GenericParameter := []
deriving DecidableEq

/-- A declared type with the members found on it, inherited ones included. -/
structure TypeDecl extends TypeHeader where
  /-- The members in the order they were found. -/
  members : List MemberDecl := []
deriving DecidableEq

/-- A declared assembly. -/
structure AssemblyDecl where
  /-- The name of the assembly. -/
  name : String
  /-- The types in the order they were found, nested ones included. -/
  types : List TypeDecl := []
deriving DecidableEq

/-- The kinds of types. -/
inductive TypeKind where
  /-- A class. -/
  | classType
  /-- A structure. -/
  | structType
  /-- An interface. -/
  | interfaceType
  /-- A delegate. -/
  | delegateType
  /-- An enumeration. -/
  | enumType
deriving DecidableEq, Repr

/-- The written form of a kind. -/
def TypeKind.word : TypeKind → String
  | .classType => "class"
  | .structType => "struct"
  | .interfaceType => "interface"
  | .delegateType => "delegate"
  | .enumType => "enum"

namespace TypeHeader

/-- The base type of all delegates. -/
def delegateBase : String := "System.MulticastDelegate"

/-- The base type of all classes. -/
def objectBase : String := "System.Object"

/-- The namespace of the type; empty for the global namespace. -/
def namespaceName (t : TypeHeader) : String :=
  TypeName.namespaceOf t.fullName

/-- The name of the type as a reader sees it. -/
def name (t : TypeHeader) : String :=
  TypeName.display t.fullName

/-- Whether the type is declared inside another one. -/
def isNested (t : TypeHeader) : Bool :=
  t.declaringType.isSome

/-- Whether the type has generic parameters. -/
def isGeneric (t : TypeHeader) : Bool :=
  !t.genericParameters.isEmpty

/-- The full name of the base type, if it is a named type. -/
def baseName? (t : TypeHeader) : Option String :=
  t.baseType.bind TypeExpr.definitionName?

/-- The kind of the type. Delegates are known by their base type, whatever their marks. -/
def kind (t : TypeHeader) : TypeKind :=
  if t.baseName? = some delegateBase then .delegateType
  else if t.traits.isInterface then .interfaceType
  else if t.traits.isEnum then .enumType
  else if t.traits.isValueType then .structType
  else .classType

end TypeHeader

end ApiDocs
