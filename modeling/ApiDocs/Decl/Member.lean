import ApiDocs.Decl.Access
import ApiDocs.Decl.TypeExpr

/-!
# Declared members

A member as its assembly declares it: constructors, methods, properties, fields and events with
their access levels and types. A member that overrides another one carries the declaration of the
member it overrides.

## Main definitions

* `MemberDecl`: a declared member, with its `MemberShape` by kind.
* `MemberDecl.isOperator`, `MemberDecl.isAccessor`: methods with special names.
* `MemberDecl.isPublic`, `MemberDecl.isStatic`, `MemberDecl.isHidden`: what holds of the member, or
  of its accessors taken together.
-/

namespace ApiDocs

/-- A parameter of a constructor, method or indexer. -/
structure Parameter where
  /-- The name of the parameter. -/
  name : String
  /-- The type of the parameter. -/
  type : TypeExpr
  /-- Whether a call may leave the parameter out. -/
  isOptional : Bool := false
deriving DecidableEq

/-- A generic parameter of a type or method. -/
structure GenericParameter where
  /-- The place among the generic parameters. -/
  position : UInt32
  /-- The name of the parameter. -/
  name : String
deriving DecidableEq, Repr

/-- One of the methods behind a property or event. -/
structure Accessor where
  /-- Who may call the accessor. -/
  access : Access := .everyone
  /-- Whether the accessor needs no instance. -/
  isStatic : Bool := false
deriving DecidableEq, Repr

/-- What a constructor declares. -/
structure ConstructorShape where
  /-- Who may call the constructor. -/
  access : Access := .everyone
  /-- Whether it initialises the type and not an instance. -/
  isStatic : Bool := false
  /-- The parameters in order. -/
  parameters : List Parameter := []
deriving DecidableEq

/-- What a method declares. -/
structure MethodShape where
  /-- Who may call the method. -/
  access : Access := .everyone
  /-- Whether the method needs no instance. -/
  isStatic : Bool := false
  /-- Whether derived types may override the method. -/
  isVirtual : Bool := false
  /-- Whether the method has no body. -/
  isAbstract : Bool := false
  /-- Whether the name was made by a compiler, as those of operators and accessors are. -/
  isSpecialName : Bool := false
  /-- Whether the method may be called on its first argument. -/
  isExtension : Bool := false
  /-- The type of the result. -/
  returnType : TypeExpr
  /-- The parameters in order. -/
  parameters : List Parameter := []
  /-- The generic parameters in order. -/
  genericParameters : List GenericParameter := []
deriving DecidableEq

/-- What a property declares. -/
structure PropertyShape where
  /-- The accessor that reads, if there is one. -/
  getter : Option Accessor := some {}
  /-- The accessor that writes, if there is one. -/
  setter : Option Accessor := none
  /-- The type of the value. -/
  type : TypeExpr
  /-- The parameters of an indexer. -/
  indexParameters : List Parameter := []
deriving DecidableEq

/-- The accessors that a property has, the reading one first. -/
def PropertyShape.accessors (p : PropertyShape) : List Accessor :=
  p.getter.toList ++ p.setter.toList

/-- What a field declares. -/
structure FieldShape where
  /-- Who may use the field. -/
  access : Access := .everyone
  /-- Whether the field belongs to the type and not to an instance. -/
  isStatic : Bool := false
  /-- Whether the field is a constant. -/
  isLiteral : Bool := false
  /-- The type of the value. -/
  type : TypeExpr
deriving DecidableEq

/-- What an event declares. -/
structure EventShape where
  /-- The accessor that adds a handler. -/
  add : Accessor := {}
  /-- The accessor that removes a handler. -/
  remove : Accessor := {}
  /-- The type of the handlers. -/
  handlerType : TypeExpr
deriving DecidableEq

/-- What a member declares besides its name, by kind. -/
inductive MemberShape where
  /-- A constructor. -/
  | constructor (shape : ConstructorShape)
  /-- A method or operator. -/
  | method (shape : MethodShape)
  /-- A property or indexer. -/
  | property (shape : PropertyShape)
  /-- A field. -/
  | field (shape : FieldShape)
  /-- An event. -/
  | event (shape : EventShape)
deriving DecidableEq

/-- A member as found on a type. -/
structure MemberDecl where
  /-- The name of the member. -/
  name : String
  /-- The full name of the type that declares the member; it is not the type the member was found
  on if the member is inherited. -/
  declaringType : String
  /-- The declaration that the member overrides, if it is known. -/
  baseDefinition : Option MemberDecl := none
  /-- What the member declares, by kind. -/
  shape : MemberShape

namespace MemberDecl

mutual

/-- Decides whether two declarations are equal. -/
def decEq : (a b : MemberDecl) → Decidable (a = b)
  | ⟨n, d, base, s⟩, ⟨n', d', base', s'⟩ =>
    match decEqOption base base' with
    | .isTrue h =>
      if h' : n = n' ∧ d = d' ∧ s = s' then
        .isTrue (by simp [h, h'])
      else
        .isFalse fun e ↦ h' (by injection e; simp_all)
    | .isFalse h => .isFalse (by simp [h])

/-- Decides whether two declarations are equal, if there are any. -/
def decEqOption : (a b : Option MemberDecl) → Decidable (a = b)
  | none, none => .isTrue rfl
  | none, some _ => .isFalse nofun
  | some _, none => .isFalse nofun
  | some a, some b =>
    match decEq a b with
    | .isTrue h => .isTrue (by rw [h])
    | .isFalse h => .isFalse (by simp [h])

end

instance : DecidableEq MemberDecl := decEq

/-! ### Parts of a declaration -/

/-- The parameters of a constructor or method, or the index parameters of a property. -/
def parameters (m : MemberDecl) : List Parameter :=
  match m.shape with
  | .constructor c => c.parameters
  | .method f => f.parameters
  | .property p => p.indexParameters
  | .field _ | .event _ => []

/-- The generic parameters of a method; other members have none. -/
def genericParameters (m : MemberDecl) : List GenericParameter :=
  match m.shape with
  | .method f => f.genericParameters
  | _ => []

/-- The type of a result or value; a constructor has none. -/
def valueType? (m : MemberDecl) : Option TypeExpr :=
  match m.shape with
  | .constructor _ => none
  | .method f => some f.returnType
  | .property p => some p.type
  | .field f => some f.type
  | .event e => some e.handlerType

/-- Whether the member is a method whose name a compiler made. -/
def isSpecialMethod (m : MemberDecl) : Bool :=
  match m.shape with
  | .method f => f.isSpecialName
  | _ => false

/-- The beginning of all names of operators. -/
def operatorMark : String := "op_"

/-- Whether the name begins as those of operators do. -/
def hasOperatorName (m : MemberDecl) : Bool :=
  operatorMark.toList.isPrefixOf m.name.toList

/-- Whether the member is an operator that a type defines. -/
def isOperator (m : MemberDecl) : Bool :=
  m.isSpecialMethod && m.hasOperatorName

/-- Whether the member is a method behind a property or event. -/
def isAccessor (m : MemberDecl) : Bool :=
  m.isSpecialMethod && !m.hasOperatorName

/-- Whether the member is an operator that converts from one type to another. -/
def isConversion (m : MemberDecl) : Bool :=
  m.isOperator && (m.name == "op_Implicit" || m.name == "op_Explicit")

/-- Whether the member is a method that may be called on its first argument. -/
def isExtension (m : MemberDecl) : Bool :=
  match m.shape with
  | .method f => f.isExtension
  | _ => false

/-! ### Access -/

/-- Whether all code may use the member or one of its accessors. -/
def isPublic (m : MemberDecl) : Bool :=
  match m.shape with
  | .constructor c => c.access.isPublic
  | .method f => f.access.isPublic
  | .property p => p.accessors.any fun a ↦ a.access.isPublic
  | .field f => f.access.isPublic
  | .event e => e.add.access.isPublic || e.remove.access.isPublic

/-- Whether the member or one of its accessors needs no instance. -/
def isStatic (m : MemberDecl) : Bool :=
  match m.shape with
  | .constructor c => c.isStatic
  | .method f => f.isStatic
  | .property p => p.accessors.any fun a ↦ a.isStatic
  | .field f => f.isStatic
  | .event e => e.add.isStatic || e.remove.isStatic

/-- Whether no code outside the assembly may use the member. Properties and events count by their
widest accessor, and a property without accessors is hidden. -/
def isHidden (m : MemberDecl) : Bool :=
  match m.shape with
  | .constructor c => c.access.isHidden
  | .method f => f.access.isHidden
  | .property p =>
    match p.accessors with
    | [] => true
    | a :: rest => (rest.foldl (fun w b ↦ w.widest b.access) a.access).isHidden
  | .field f => f.access.isHidden
  | .event e => (e.add.access.widest e.remove.access).isHidden

end MemberDecl

end ApiDocs
