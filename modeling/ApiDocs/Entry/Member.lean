import ApiDocs.Comment.Collection
import ApiDocs.Entry.Parameter
import ApiDocs.Entry.Signature
import ApiDocs.Identity

/-!
# Entries of members

A member's entry joins its declaration with its comment. A member that overrides a member of another
type is linked to a stand-in for it, which has a comment but no link of its own.

## Main definitions

* `MemberOwner`: the type that an entry belongs to, or the name of a type in its place.
* `BoundMember`: a declaration with its comment.
* `MemberEntry`: the entry of a member.
* `MemberEntry.build`: the entry of a declared member.
-/

namespace ApiDocs

/-- What a member belongs to. -/
inductive MemberOwner where
  /-- A type of the reference. -/
  | type (id : TypeId)
  /-- A type that is known by name only, because an override points to it. -/
  | synthetic (fullName : String)
deriving DecidableEq, Repr

/-- The identifier of the owner, if it is a type of the reference. -/
def MemberOwner.typeId? : MemberOwner → Option TypeId
  | type id => some id
  | synthetic _ => none

/-- A declared member with its comment. -/
structure BoundMember where
  /-- What the member belongs to. -/
  owner : MemberOwner
  /-- The declaration. -/
  decl : MemberDecl
  /-- The full name of the type that the member was found on. -/
  reflectedType : String
  /-- The documentation id. -/
  docId : String
  /-- The short signature. -/
  signature : String
  /-- The comment, if there is one. -/
  comment : Option Comment
  /-- Whether the comment is that of an overridden member. -/
  isInherited : Bool := false
  /-- The parameters with their texts. -/
  parameters : List BoundParameter
  /-- The generic parameters with their texts. -/
  genericParameters : List BoundGeneric
deriving DecidableEq

/-- The entry of a member. -/
structure MemberEntry extends BoundMember where
  /-- The member of another type that this one overrides. -/
  overrides : Option BoundMember
  /-- The place among methods of the same name, from one and as a word; none if the name is not
  shared. -/
  ordinal : Option UInt32 := none
deriving DecidableEq

namespace BoundMember

/-- Joins a declaration with its comment. -/
def ofDecl (comments : Comments) (owner : MemberOwner) (reflectedType : String)
    (decl : MemberDecl) : Except Crash BoundMember := do
  let docId ← decl.docId
  let comment := comments.get? docId
  return {
    owner, decl, reflectedType, docId, comment
    signature := decl.signature reflectedType
    parameters := decl.parameters.map (Parameter.bind comment)
    genericParameters := decl.genericParameters.map (GenericParameter.bind comment) }

/-- The declaring type of a member that the type it was found on inherits. -/
def inheritedFrom? (m : BoundMember) : Option String :=
  if m.decl.declaringType = m.reflectedType then none else some m.decl.declaringType

/-- The member with the comment of a member it overrides. -/
def adopt (comment : Comment) (m : BoundMember) : BoundMember :=
  { m with
    comment := some comment
    isInherited := true
    parameters := m.parameters.map (BoundParameter.rebind (some comment))
    genericParameters := m.genericParameters.map (BoundGeneric.rebind (some comment)) }

end BoundMember

/-- The declaration that a member overrides, if the type being built declares the member and another
type declares what it overrides. -/
def MemberDecl.overridden? (buildingType : String) (m : MemberDecl) : Option MemberDecl :=
  if m.declaringType = buildingType then
    m.baseDefinition.filter fun base ↦
      base.declaringType != m.declaringType && !base.declaringType.isEmpty
  else
    none

namespace MemberEntry

/-- The stand-in for the member that a declared member overrides. -/
def buildOverride (comments : Comments) (buildingType : String) (decl : MemberDecl) :
    Except Crash (Option BoundMember) :=
  match decl.overridden? buildingType with
  | none => .ok none
  | some base =>
    (BoundMember.ofDecl comments (.synthetic base.declaringType) base.declaringType base).map some

/-- The entry of a member declared or inherited by the type being built. -/
def build (comments : Comments) (owner : TypeId) (buildingType : String) (decl : MemberDecl) :
    Except Crash MemberEntry := do
  let overrides ← buildOverride comments buildingType decl
  let bound ← BoundMember.ofDecl comments (.type owner) buildingType decl
  return { bound with overrides }

/-- The place among methods of the same name as a number. -/
def overloadIndex (m : MemberEntry) : Option Nat :=
  m.ordinal.map UInt32.toNat

/-- The entry with the comment of the member it overrides. -/
def adopt (comment : Comment) (m : MemberEntry) : MemberEntry :=
  { m with toBoundMember := m.toBoundMember.adopt comment }

end MemberEntry

end ApiDocs
