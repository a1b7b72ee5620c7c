import ApiDocs.Decl.Type

/-!
# Consistency of an assembly's declarations

Declarations can be bound if full names are distinct, if every declaring type is declared and no
type lies inside itself, and if all members have a declaring type.

## Main definitions

* `MetadataFault`: what can be wrong with the declarations of an assembly.
* `TypeDecl.outer?`: the type that a type is nested in.
* `TypeDecl.validate`: the check of an assembly's declarations.
-/

namespace ApiDocs

/-- What can be wrong with the declarations of an assembly. -/
inductive MetadataFault where
  /-- Two types have the same full name. -/
  | declaredTwice (fullName : String)
  /-- A type lies inside a type that is not declared. -/
  | unknownOuter (inner outer : String)
  /-- A type lies inside itself. -/
  | nestingCycle (fullName : String)
  /-- A member has no declaring type. -/
  | orphanMember (fullName member : String)
  /-- Something that the source of the declarations found out. -/
  | reported (text : String)
deriving DecidableEq, Repr

/-- The text of a fault. -/
def MetadataFault.message : MetadataFault → String
  | declaredTwice fullName => "type " ++ fullName ++ " is declared twice"
  | unknownOuter inner outer => inner ++ " is nested in unknown type " ++ outer
  | nestingCycle fullName => "declaring-type cycle through " ++ fullName
  | orphanMember fullName member =>
    "member " ++ fullName ++ "." ++ member ++ " has no declaring type"
  | reported text => text

namespace TypeDecl

/-- The type with a full name. -/
def named? (types : List TypeDecl) (fullName : String) : Option TypeDecl :=
  types.find? fun t ↦ t.fullName == fullName

/-- The type that a type is nested in, if it is declared. -/
def outer? (types : List TypeDecl) (t : TypeDecl) : Option TypeDecl :=
  t.declaringType.bind (named? types)

/-- The first full name that a list repeats, given the names before it. -/
def repeated? (seen : List String) : List TypeDecl → Option String
  | [] => none
  | t :: ts =>
    if seen.contains t.fullName then some t.fullName
    else repeated? (t.fullName :: seen) ts

/-- Follows declaring types from `current`, at most `steps` of them, on behalf of `start`. -/
def walkOut (types : List TypeDecl) (start : String) (steps : Nat) (current : TypeDecl) :
    Except MetadataFault Unit :=
  match current.declaringType with
  | none => .ok ()
  | some outer =>
    match named? types outer with
    | none => .error (.unknownOuter current.fullName outer)
    | some next =>
      match steps with
      | 0 => .error (.nestingCycle start)
      | steps + 1 => walkOut types start steps next

/-- Checks one type: its declaring types, then its members. -/
def validateOne (types : List TypeDecl) (t : TypeDecl) : Except MetadataFault Unit := do
  walkOut types t.fullName types.length t
  match t.members.find? fun m ↦ m.declaringType.isEmpty with
  | some m => .error (.orphanMember t.fullName m.name)
  | none => .ok ()

/-- Checks a list of types one after another. -/
def validateEach (types : List TypeDecl) : List TypeDecl → Except MetadataFault Unit
  | [] => .ok ()
  | t :: ts => do
    validateOne types t
    validateEach types ts

/-- Checks the declarations of an assembly. -/
def validate (types : List TypeDecl) : Except MetadataFault Unit :=
  match repeated? [] types with
  | some fullName => .error (.declaredTwice fullName)
  | none => validateEach types types

end TypeDecl

end ApiDocs
