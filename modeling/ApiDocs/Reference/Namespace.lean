import ApiDocs.Reference.Index

/-!
# Namespaces across assemblies

Namespaces of the same name in different assemblies are one namespace of the reference. Its types
stand in the order of their names, and types of the same name in the order of their assemblies.

## Main definitions

* `NamespaceEntry.merge`: the namespaces of a list of assemblies.
-/

namespace ApiDocs.NamespaceEntry

/-- The order of types by name. -/
def byTypeName (as : List AssemblyEntry) (a b : TypeId) : Bool :=
  let name (id : TypeId) : String := ((Assemblies.type? as id).map TypeEntry.name).getD ""
  name a ≤ name b

/-- The comment on a namespace: the one in the file of comments on namespaces, or else the first one
of an assembly. -/
def mergedComment (comments : Option Comments) (name : String) (parts : List NamespaceEntry) :
    Option Comment :=
  (comments.bind fun cs ↦ cs.namespaceComment? name) <|> parts.findSome? NamespaceEntry.comment

/-- The namespace of a name, from the parts of it that assemblies have. -/
def mergeParts (as : List AssemblyEntry) (comments : Option Comments) (name : String)
    (parts : List NamespaceEntry) : NamespaceEntry where
  name := name
  types := (parts.flatMap NamespaceEntry.types).eraseDups.mergeSort (byTypeName as)
  comment := mergedComment comments name parts

/-- The namespaces of a list of assemblies, given the comments on namespaces. -/
def merge (as : List AssemblyEntry) (comments : Option Comments) : List NamespaceEntry :=
  let parts := as.flatMap AssemblyEntry.namespaces
  (AssemblyEntry.sortedNames (parts.map NamespaceEntry.name)).map fun name ↦
    mergeParts as comments name (parts.filter fun part ↦ part.name == name)

end ApiDocs.NamespaceEntry
