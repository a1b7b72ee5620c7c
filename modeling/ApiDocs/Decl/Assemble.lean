import ApiDocs.Decl.Type

/-!
# Declarations put together by hand

Functions with which a caller writes declarations down step by step, as a reader of compiled code
would report them.

## Main definitions

* `MemberDecl.constructorOf`, `MemberDecl.methodOf`, `MemberDecl.operatorOf`,
  `MemberDecl.propertyOf`, `MemberDecl.fieldOf`, `MemberDecl.eventOf`: public members of each kind.
* `MemberDecl.withAccess`, `MemberDecl.asStatic` and their companions: changes of one part.
* `TypeDecl.ofTraits`, `TypeDecl.classNamed` and the changes of a type.
-/

namespace ApiDocs

/-- The same accessor with another access level. -/
def Accessor.withAccess (access : Access) (a : Accessor) : Accessor :=
  { a with access }

/-- The same accessor, needing no instance. -/
def Accessor.asStatic (a : Accessor) : Accessor :=
  { a with isStatic := true }

namespace MemberDecl

/-- A public constructor without parameters. -/
def constructorOf (declaringType : String) : MemberDecl :=
  { name := ".ctor", declaringType, shape := .constructor {} }

/-- A public method without parameters. -/
def methodOf (declaringType name : String) (returnType : TypeExpr) : MemberDecl :=
  { name, declaringType, shape := .method { returnType } }

/-- A public operator without parameters. -/
def operatorOf (declaringType name : String) (returnType : TypeExpr) : MemberDecl :=
  { name, declaringType,
    shape := .method { returnType, isStatic := true, isSpecialName := true } }

/-- A property that all code may read. -/
def propertyOf (declaringType name : String) (type : TypeExpr) : MemberDecl :=
  { name, declaringType, shape := .property { type } }

/-- A public field. -/
def fieldOf (declaringType name : String) (type : TypeExpr) : MemberDecl :=
  { name, declaringType, shape := .field { type } }

/-- A public event. -/
def eventOf (declaringType name : String) (handlerType : TypeExpr) : MemberDecl :=
  { name, declaringType, shape := .event { handlerType } }

/-- Sets the access level of the member, or of every accessor it has. -/
def withAccess (access : Access) (m : MemberDecl) : MemberDecl :=
  { m with
    shape :=
      match m.shape with
      | .constructor c => .constructor { c with access }
      | .method f => .method { f with access }
      | .property p =>
        .property
          { p with
            getter := p.getter.map (Accessor.withAccess access)
            setter := p.setter.map (Accessor.withAccess access) }
      | .field f => .field { f with access }
      | .event e =>
        .event { e with add := e.add.withAccess access, remove := e.remove.withAccess access } }

/-- Makes the member, or every accessor it has, need no instance. A constructor takes the name of
a type's initialiser. -/
def asStatic (m : MemberDecl) : MemberDecl :=
  match m.shape with
  | .constructor c =>
    { m with name := ".cctor", shape := .constructor { c with isStatic := true } }
  | .method f => { m with shape := .method { f with isStatic := true } }
  | .property p =>
    { m with
      shape := .property
        { p with
          getter := p.getter.map Accessor.asStatic
          setter := p.setter.map Accessor.asStatic } }
  | .field f => { m with shape := .field { f with isStatic := true } }
  | .event e =>
    { m with shape := .event { e with add := e.add.asStatic, remove := e.remove.asStatic } }

/-- Changes the shape of a method and leaves other members alone. -/
def mapMethod (change : MethodShape → MethodShape) (m : MemberDecl) : MemberDecl :=
  match m.shape with
  | .method f => { m with shape := .method (change f) }
  | _ => m

/-- Changes the shape of a property and leaves other members alone. -/
def mapProperty (change : PropertyShape → PropertyShape) (m : MemberDecl) : MemberDecl :=
  match m.shape with
  | .property p => { m with shape := .property (change p) }
  | _ => m

/-- Makes a method one that may be called on its first argument. -/
def asExtension : MemberDecl → MemberDecl :=
  mapMethod fun f ↦ { f with isExtension := true, isStatic := true }

/-- Makes a method one that derived types may override. -/
def asVirtual : MemberDecl → MemberDecl :=
  mapMethod fun f ↦ { f with isVirtual := true }

/-- Gives a property an accessor that writes. -/
def withSetter (accessor : Accessor) : MemberDecl → MemberDecl :=
  mapProperty fun p ↦ { p with setter := some accessor }

/-- Sets or removes the accessor of a property that reads. -/
def withGetter (accessor : Option Accessor) : MemberDecl → MemberDecl :=
  mapProperty fun p ↦ { p with getter := accessor }

/-- Appends a parameter; fields and events take none. -/
def withParameter (name : String) (type : TypeExpr) (m : MemberDecl) : MemberDecl :=
  { m with
    shape :=
      match m.shape with
      | .constructor c => .constructor { c with parameters := c.parameters ++ [{ name, type }] }
      | .method f => .method { f with parameters := f.parameters ++ [{ name, type }] }
      | .property p =>
        .property { p with indexParameters := p.indexParameters ++ [{ name, type }] }
      | .field f => .field f
      | .event e => .event e }

/-- Appends a generic parameter to a list, at the next position. -/
def appendGeneric (params : List GenericParameter) (name : String) : List GenericParameter :=
  params ++ [{ position := UInt32.ofNat params.length, name }]

/-- Appends a generic parameter to a method. -/
def withGenericParameter (name : String) : MemberDecl → MemberDecl :=
  mapMethod fun f ↦ { f with genericParameters := appendGeneric f.genericParameters name }

/-- States the declaration that the member overrides. -/
def withBaseDefinition (m base : MemberDecl) : MemberDecl :=
  { m with baseDefinition := some base }

end MemberDecl

namespace TypeDecl

/-- A public type with the given marks and no base type. -/
def ofTraits (fullName : String) (traits : TypeTraits) : TypeDecl :=
  { fullName, traits }

/-- A public class that derives from the base of all classes. -/
def classNamed (fullName : String) : TypeDecl :=
  { fullName, baseType := some (.named TypeHeader.objectBase []) }

/-- Sets the access level of the type. -/
def withAccess (access : Access) (t : TypeDecl) : TypeDecl :=
  { t with access }

/-- Sets the type that the type derives from. -/
def withBase (base : TypeExpr) (t : TypeDecl) : TypeDecl :=
  { t with baseType := some base }

/-- Appends an interface that the type implements. -/
def withInterface (type : TypeExpr) (t : TypeDecl) : TypeDecl :=
  { t with interfaces := t.interfaces ++ [type] }

/-- Puts the type inside another one. -/
def nestedIn (outer : String) (t : TypeDecl) : TypeDecl :=
  { t with declaringType := some outer }

/-- Appends a generic parameter. -/
def withGenericParameter (name : String) (t : TypeDecl) : TypeDecl :=
  { t with genericParameters := MemberDecl.appendGeneric t.genericParameters name }

/-- Appends a member. -/
def withMember (member : MemberDecl) (t : TypeDecl) : TypeDecl :=
  { t with members := t.members ++ [member] }

end TypeDecl

/-- Appends a type to an assembly. -/
def AssemblyDecl.withType (type : TypeDecl) (a : AssemblyDecl) : AssemblyDecl :=
  { a with types := a.types ++ [type] }

end ApiDocs
