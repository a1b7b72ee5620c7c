import ApiDocs.Reference.Index

/-!
# Extension methods

A static method that is marked as an extension may be called on values of its first parameter's
type. It is listed with that type, wherever in the reference the type stands.

## Main definitions

* `Extension.target?`: the type that a method extends.
* `Extension.attach`: the types with the methods that extend them.
-/

namespace ApiDocs.Extension

/-- The type that a method extends. -/
def target? (index : TypeIndex) (m : MemberEntry) : Option TypeId :=
  if m.decl.isStatic && m.decl.isExtension then do
    let first ← m.parameters.head?
    let name ← first.type.definitionName?
    index.find? name
  else
    none

/-- The extensions that a type declares, with the types that they extend. -/
def ofType (index : TypeIndex) (t : TypeEntry) : List (TypeId × MethodRef) :=
  t.members.methods.zipIdx.filterMap fun (m, i) ↦
    (target? index m).map fun target ↦ (target, .ofPosition t.id i)

/-- All extensions of a list of assemblies, with the types that they extend. -/
def all (index : TypeIndex) (as : List AssemblyEntry) : List (TypeId × MethodRef) :=
  (Assemblies.types as).flatMap (ofType index)

/-- Lists all extensions with the types that they extend. -/
def attach (index : TypeIndex) (as : List AssemblyEntry) : List AssemblyEntry :=
  let extensions := all index as
  Assemblies.mapTypes
    (fun t ↦
      { t with
        extensionMethods := (extensions.filter fun e ↦ e.1 == t.id).map Prod.snd })
    as

end ApiDocs.Extension
