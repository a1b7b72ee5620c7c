import ApiDocs.Reference.Index

/-!
# References

A reference is what a documentation site is made from: the assemblies with their types and members,
the namespaces across assemblies, and the reports on what could not be used. Entries point to each
other by identifier.

## Main definitions

* `Reference`: the finished reference.
* `Reference.assembly?`, `Reference.type?`, `Reference.findType?`, `Reference.namespace?`,
  `Reference.method?`, `Reference.extensionMethods`: lookups.
-/

namespace ApiDocs

/-- The reference of a number of assemblies. -/
structure Reference where
  /-- The assemblies that were bound, in the order of the inputs. -/
  assemblies : List AssemblyEntry
  /-- The namespaces in the order of their names. -/
  namespaces : List NamespaceEntry
  /-- All types, nested ones included. -/
  types : List TypeId
  /-- The types by full name. -/
  index : TypeIndex
  /-- What was found out while the reference was built. -/
  diagnostics : List Diagnostic
deriving DecidableEq

namespace Reference

/-- The assembly with an identifier. -/
def assembly? (r : Reference) (id : AssemblyId) : Option AssemblyEntry :=
  Assemblies.find? r.assemblies id

/-- The assembly with a name. -/
def assemblyNamed? (r : Reference) (name : String) : Option AssemblyEntry :=
  r.assemblies.find? fun a ↦ a.name == name

/-- The namespace with a name. -/
def namespace? (r : Reference) (name : String) : Option NamespaceEntry :=
  Search.find? (fun n ↦ compareOfLessAndEq n.name name) r.namespaces

/-- The type with an identifier. -/
def type? (r : Reference) (id : TypeId) : Option TypeEntry :=
  Assemblies.type? r.assemblies id

/-- The type that a full name stands for. -/
def findType? (r : Reference) (fullName : String) : Option TypeEntry :=
  r.index.type? r.assemblies fullName

/-- The method that a reference points to. -/
def method? (r : Reference) (ref : MethodRef) : Option MemberEntry :=
  (r.type? ref.owner).bind fun t ↦ t.members.methods[ref.index.toNat]?

/-- The methods that may be called on values of a type. -/
def extensionMethods (r : Reference) (id : TypeId) : List MemberEntry :=
  match r.type? id with
  | some t => t.extensionMethods.filterMap r.method?
  | none => []

/-- The types of a namespace, in order. -/
def namespaceTypes (r : Reference) (n : NamespaceEntry) : List TypeEntry :=
  n.types.filterMap r.type?

end Reference

end ApiDocs
