import ApiDocs.Decl.Type
import ApiDocs.Entry.Member
import ApiDocs.Inclusion

/-!
# Entries of types

A type's entry holds the entries of those of its members that the reference shows, in six groups by
kind. Within a group members stand in the order of their short signatures, and members with equal
signatures in the order they were found.

## Main definitions

* `MemberGroup`, `MemberTable`: the groups of members.
* `MemberFilter`: a caller's choice among members, which may crash.
* `TypeEntry`, `TypeEntry.build`: the entry of a type.
* `TypeEntry.numberOverloads`: methods of the same name are numbered.
-/

namespace ApiDocs

/-- The groups in which members are listed. -/
inductive MemberGroup where
  /-- Constructors. -/
  | constructors
  /-- Fields. -/
  | fields
  /-- Properties. -/
  | properties
  /-- Methods that are no operators. -/
  | methods
  /-- Operators. -/
  | operators
  /-- Events. -/
  | events
deriving DecidableEq, Repr

/-- The group of a member. -/
def MemberDecl.group (m : MemberDecl) : MemberGroup :=
  match m.shape with
  | .constructor _ => .constructors
  | .field _ => .fields
  | .property _ => .properties
  | .method _ => if m.isOperator then .operators else .methods
  | .event _ => .events

/-- The members of a type, group by group. -/
structure MemberTable where
  /-- The constructors. -/
  constructors : List MemberEntry := []
  /-- The fields. -/
  fields : List MemberEntry := []
  /-- The properties. -/
  properties : List MemberEntry := []
  /-- The methods that are no operators. -/
  methods : List MemberEntry := []
  /-- The operators. -/
  operators : List MemberEntry := []
  /-- The events. -/
  events : List MemberEntry := []
deriving DecidableEq

namespace MemberTable

/-- The members of a group. -/
def get (t : MemberTable) : MemberGroup → List MemberEntry
  | .constructors => t.constructors
  | .fields => t.fields
  | .properties => t.properties
  | .methods => t.methods
  | .operators => t.operators
  | .events => t.events

/-- A table from what each group holds. -/
def ofGroups (members : MemberGroup → List MemberEntry) : MemberTable where
  constructors := members .constructors
  fields := members .fields
  properties := members .properties
  methods := members .methods
  operators := members .operators
  events := members .events

@[simp] theorem get_ofGroups (members : MemberGroup → List MemberEntry) (g : MemberGroup) :
    (ofGroups members).get g = members g := by
  cases g <;> rfl

/-- All members, group after group. -/
def toList (t : MemberTable) : List MemberEntry :=
  t.constructors ++ t.fields ++ t.properties ++ t.methods ++ t.operators ++ t.events

/-- Changes every group in the same way. -/
def mapGroups (change : List MemberEntry → List MemberEntry) (t : MemberTable) : MemberTable :=
  ofGroups fun g ↦ change (t.get g)

/-- The order of members in a group. -/
def bySignature (a b : MemberEntry) : Bool :=
  a.signature ≤ b.signature

/-- Sorts entries into groups. -/
def ofList (entries : List MemberEntry) : MemberTable :=
  ofGroups fun g ↦ (entries.filter fun e ↦ e.decl.group == g).mergeSort bySignature

end MemberTable

/-- A caller's choice among members, made when an entry is first built. -/
abbrev MemberFilter := MemberEntry → Except Crash Bool

/-- The filter that lets every member pass. -/
def MemberFilter.all : MemberFilter :=
  fun _ ↦ .ok true

/-- The entry of a type. -/
structure TypeEntry where
  /-- The identifier of the type. -/
  id : TypeId
  /-- What the type declares besides its members. -/
  header : TypeHeader
  /-- The comment, if there is one. -/
  comment : Option Comment
  /-- The generic parameters with their texts. -/
  genericParameters : List BoundGeneric
  /-- The type that this type is nested in. -/
  declaringType : Option TypeId := none
  /-- The types nested in this type. -/
  nestedTypes : List TypeId := []
  /-- The members that the reference shows. -/
  members : MemberTable
  /-- Methods anywhere in the reference that may be called on values of this type. -/
  extensionMethods : List MethodRef := []
deriving DecidableEq

namespace TypeEntry

/-- The full name of the type. -/
def fullName (t : TypeEntry) : String :=
  t.header.fullName

/-- The name of the type as a reader sees it. -/
def name (t : TypeEntry) : String :=
  t.header.name

/-- The namespace of the type. -/
def namespaceName (t : TypeEntry) : String :=
  t.header.namespaceName

/-- The documentation id of the type. -/
def docId (t : TypeEntry) : String :=
  TypeName.docId t.fullName

/-- Whether the type is nested in a type of the reference. -/
def isNested (t : TypeEntry) : Bool :=
  t.declaringType.isSome

/-- The name with the generic parameters in angle brackets. -/
def displayName (t : TypeEntry) : String :=
  t.name ++ MemberDecl.genericList (t.genericParameters.map BoundGeneric.toGenericParameter)

/-- The number of members. -/
def memberCount (t : TypeEntry) : Nat :=
  t.members.toList.length

/-! ### Building -/

/-- Whether the switches let a member pass. A member without a comment may still get the one of a
member it overrides. -/
def admits (inclusion : Inclusion) (m : MemberEntry) : Bool :=
  (!m.decl.isHidden || inclusion.hiddenMembers) &&
    (m.comment.isSome || m.overrides.isSome || inclusion.undocumentedMembers)

/-- Whether the reference shows a member. The caller's filter sees what the switches let pass. -/
def keeps (inclusion : Inclusion) (filter : MemberFilter) (m : MemberEntry) : Except Crash Bool :=
  if admits inclusion m then filter m else .ok false

/-- The entries of the members that the reference shows, in the order they were found. The methods
behind properties and events are left out. -/
def memberEntries (inclusion : Inclusion) (filter : MemberFilter) (comments : Comments)
    (id : TypeId) (fullName : String) : List MemberDecl → Except Crash (List MemberEntry)
  | [] => .ok []
  | m :: ms =>
    if m.isAccessor then
      memberEntries inclusion filter comments id fullName ms
    else do
      let entry ← MemberEntry.build comments id fullName m
      let kept ← keeps inclusion filter entry
      let rest ← memberEntries inclusion filter comments id fullName ms
      return if kept then entry :: rest else rest

/-- The entry of a type, not yet linked to other types. -/
def build (inclusion : Inclusion) (filter : MemberFilter) (comments : Comments) (id : TypeId)
    (decl : TypeDecl) : Except Crash TypeEntry := do
  let comment := comments.get? (TypeName.docId decl.fullName)
  let entries ← memberEntries inclusion filter comments id decl.fullName decl.members
  return {
    id, comment
    header := decl.toTypeHeader
    genericParameters := decl.genericParameters.map (GenericParameter.bind comment)
    members := .ofList entries }

/-! ### Overloads -/

/-- Counters under names, with that of one name moved up; they are words. -/
def bump (counters : String → UInt32) (name : String) : String → UInt32 :=
  fun other ↦ if other = name then counters other + 1 else counters other

/-- How many entries there are of each simple name. -/
def tally (entries : List MemberEntry) : String → UInt32 :=
  entries.foldl (fun counters e ↦ bump counters e.decl.simpleName) fun _ ↦ 0

/-- Numbers entries one after another, given how many there are of each name and the numbers given
last. An entry that shares its name with no other gets no number. -/
def numberFrom (totals last : String → UInt32) : List MemberEntry → List MemberEntry
  | [] => []
  | e :: es =>
    if 1 < totals e.decl.simpleName then
      { e with ordinal := some (last e.decl.simpleName + 1) } ::
        numberFrom totals (bump last e.decl.simpleName) es
    else
      { e with ordinal := none } :: numberFrom totals last es

/-- The entries of a list, each with its place among those that share its simple name. -/
def numbered (entries : List MemberEntry) : List MemberEntry :=
  numberFrom (tally entries) (fun _ ↦ 0) entries

/-- The entry with its methods of the same name numbered. -/
def numberOverloads (t : TypeEntry) : TypeEntry :=
  { t with members := { t.members with methods := numbered t.members.methods } }

end TypeEntry

end ApiDocs
