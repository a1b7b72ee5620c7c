import ApiDocs.Decl.Consistency
import ApiDocs.Diagnostic
import ApiDocs.Entry.Type

/-!
# Entries of assemblies

An assembly is bound by checking its declarations, selecting the types that the switches let pass,
building their entries, linking nested types to the types they lie in, and listing the others by
namespace. Comments that belong to no declaration are reported.

A nested type is shown only if all types around it are. Selection therefore follows declaring types,
of which there are no more than types in a consistent assembly.

## Main definitions

* `AssemblySource`, `BindError`: where declarations come from, and why an assembly is not bound.
* `NamespaceEntry`, `AssemblyEntry`: the entries.
* `AssemblyEntry.select`: the types that the switches let pass.
* `AssemblyEntry.link`: nested types linked to the types they lie in.
* `AssemblyEntry.listNamespaces`: types that are not nested, by namespace.
* `AssemblyEntry.unbound`: comments that belong to no declaration.
* `AssemblyEntry.build`: the entry of an assembly.
-/

namespace ApiDocs

/-- Why an assembly is not bound. -/
inductive BindError where
  /-- The declarations cannot be read. -/
  | unreadable (text : String)
  /-- The declarations are not consistent. -/
  | malformed (assembly : String) (fault : MetadataFault)
  /-- Reading, binding or filtering crashed. -/
  | crashed (crash : Crash)
deriving DecidableEq, Repr

/-- The text of an error. -/
def BindError.message : BindError → String
  | unreadable text => "IO error: " ++ text
  | malformed assembly fault => "Malformed metadata in " ++ assembly ++ ": " ++ fault.message
  | crashed crash => "binding panicked: " ++ crash.message

/-- Where the declarations of an assembly come from. -/
structure AssemblySource where
  /-- The name of the assembly. -/
  name : String
  /-- The declared types, or why there are none. -/
  load : Except BindError (List TypeDecl)

/-- The source of declarations that are held already. -/
def AssemblyDecl.source (a : AssemblyDecl) : AssemblySource :=
  ⟨a.name, .ok a.types⟩

/-- The entry of a namespace. -/
structure NamespaceEntry where
  /-- The name; empty for the global namespace. -/
  name : String
  /-- The types of the namespace that are not nested. -/
  types : List TypeId
  /-- The comment, if there is one. -/
  comment : Option Comment
deriving DecidableEq

/-- The entry of an assembly. -/
structure AssemblyEntry where
  /-- The identifier of the assembly. -/
  id : AssemblyId
  /-- The name of the assembly. -/
  name : String
  /-- The types, nested ones included; a type stands in the slot that its identifier names. -/
  types : List TypeEntry
  /-- The namespaces in the order of their names. -/
  namespaces : List NamespaceEntry
  /-- What was found out while binding. -/
  diagnostics : List Diagnostic
deriving DecidableEq

namespace AssemblyEntry

/-! ### Selection -/

/-- Whether the switches let a type pass, whatever it is nested in. -/
def passes (inclusion : Inclusion) (comments : Comments) (t : TypeDecl) : Bool :=
  (!t.access.isHidden || inclusion.hiddenTypes) &&
    (inclusion.undocumentedTypes || comments.contains (TypeName.docId t.fullName))

/-- Whether a condition holds of a type and of all types around it, as far as `steps` reach. -/
def allAround (types : List TypeDecl) (p : TypeDecl → Bool) (steps : Nat) (t : TypeDecl) : Bool :=
  p t &&
    match t.outer? types with
    | none => true
    | some outer =>
      match steps with
      | 0 => false
      | steps + 1 => allAround types p steps outer

/-- The types that the switches let pass together with all types around them. -/
def select (inclusion : Inclusion) (comments : Comments) (types : List TypeDecl) : List TypeDecl :=
  types.filter (allAround types (passes inclusion comments) types.length)

/-! ### Building and linking -/

/-- The entries of types in the slots from `slot` on. -/
def buildTypes (inclusion : Inclusion) (filter : MemberFilter) (comments : Comments)
    (id : AssemblyId) (slot : Nat) : List TypeDecl → Except Crash (List TypeEntry)
  | [] => .ok []
  | t :: ts => do
    let entry ← TypeEntry.build inclusion filter comments (.ofSlot id slot) t
    let rest ← buildTypes inclusion filter comments id (slot + 1) ts
    return entry :: rest

/-- The order of types by name, then by full name. -/
def byName (a b : TypeEntry) : Bool :=
  a.name < b.name || (a.name == b.name && a.fullName ≤ b.fullName)

/-- The identifier of the type that a type is nested in. -/
def declaringId? (types : List TypeEntry) (t : TypeEntry) : Option TypeId :=
  t.header.declaringType.bind fun outer ↦
    (types.find? fun p ↦ p.fullName == outer).map TypeEntry.id

/-- The identifiers of the types nested in a type, by name. -/
def nestedIds (types : List TypeEntry) (t : TypeEntry) : List TypeId :=
  ((types.filter fun c ↦ c.header.declaringType == some t.fullName).mergeSort byName).map
    TypeEntry.id

/-- Links every nested type and the type it lies in with each other. -/
def link (types : List TypeEntry) : List TypeEntry :=
  types.map fun t ↦
    { t with declaringType := declaringId? types t, nestedTypes := nestedIds types t }

/-! ### Namespaces -/

/-- Names without repetition, in order. -/
def sortedNames (names : List String) : List String :=
  names.eraseDups.mergeSort fun a b ↦ a ≤ b

/-- Lists the types that are not nested by namespace. -/
def listNamespaces (comments : Comments) (types : List TypeEntry) : List NamespaceEntry :=
  let outermost := types.filter fun t ↦ !t.isNested
  (sortedNames (outermost.map TypeEntry.namespaceName)).map fun name ↦
    { name
      types :=
        ((outermost.filter fun t ↦ t.namespaceName == name).mergeSort byName).map TypeEntry.id
      comment := comments.namespaceComment? name }

/-! ### Comments that belong to no declaration -/

/-- The documentation ids of members. -/
def memberIds : List MemberDecl → Except Crash (List String)
  | [] => .ok []
  | m :: ms => do
    let id ← m.docId
    let ids ← memberIds ms
    return id :: ids

/-- The documentation ids of types and of all their members. -/
def knownIds : List TypeDecl → Except Crash (List String)
  | [] => .ok []
  | t :: ts => do
    let own ← memberIds t.members
    let rest ← knownIds ts
    return TypeName.docId t.fullName :: own ++ rest

/-- Whether a comment is on a type. -/
def isOnType (c : Comment) : Bool :=
  c.kind? == some .ofType

/-- Whether a comment is on a member. -/
def isOnMember (c : Comment) : Bool :=
  c.kind?.any DocKind.isMember

/-- The report on comments whose ids are not known, if there are any. -/
def unbound (assembly : String) (known : List String) (comments : Comments) : List Diagnostic :=
  let strangers := comments.entries.filter fun c ↦ !known.contains c.key
  let types := strangers.filter isOnType
  let members := strangers.filter isOnMember
  if types.isEmpty && members.isEmpty then [] else [.unboundEntries assembly types members]

/-! ### The whole assembly -/

/-- The entry of an assembly. -/
def build (inclusion : Inclusion) (filter : MemberFilter) (id : AssemblyId)
    (source : AssemblySource) (comments : Comments) : Except BindError AssemblyEntry := do
  let declared ← source.load
  (TypeDecl.validate declared).mapError (.malformed source.name)
  let selected := select inclusion comments declared
  let built ← (buildTypes inclusion filter comments id 0 selected).mapError .crashed
  let known ← (knownIds declared).mapError .crashed
  let types := link built
  return {
    id, types
    name := source.name
    namespaces := listNamespaces comments types
    diagnostics := unbound source.name known comments }

/-- The type with an identifier, if it is a type of this assembly. -/
def type? (a : AssemblyEntry) (id : TypeId) : Option TypeEntry :=
  if id.assembly = a.id then a.types[id.slot.toNat]? else none

/-- The first type with a full name. -/
def findType? (a : AssemblyEntry) (fullName : String) : Option TypeEntry :=
  a.types.find? fun t ↦ t.fullName == fullName

end AssemblyEntry

end ApiDocs
