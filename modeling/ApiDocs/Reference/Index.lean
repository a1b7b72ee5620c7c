import ApiDocs.Entry.Assembly
import ApiDocs.Search

/-!
# Looking up types across assemblies

Types of a reference are found by identifier and by full name. Assemblies stand in the order of
their identifiers and are searched by halving. If several assemblies declare types of the same full
name, the name stands for the first one.

## Main definitions

* `Assemblies.find?`: the assembly with an identifier.
* `Assemblies.type?`: the type with an identifier.
* `Assemblies.modifyType`: a change of one type.
* `TypeIndex`: the identifiers of types by full name.
-/

namespace ApiDocs

namespace Assemblies

/-- All types of a list of assemblies, assembly by assembly. -/
def types (as : List AssemblyEntry) : List TypeEntry :=
  as.flatMap AssemblyEntry.types

/-- The place of the assembly with an identifier. -/
def position? (as : List AssemblyEntry) (id : AssemblyId) : Option Nat :=
  Search.position? (fun a ↦ a.id.cmp id) as

/-- The assembly with an identifier. -/
def find? (as : List AssemblyEntry) (id : AssemblyId) : Option AssemblyEntry :=
  (position? as id).bind fun i ↦ as[i]?

/-- The type with an identifier. -/
def type? (as : List AssemblyEntry) (id : TypeId) : Option TypeEntry :=
  (find? as id.assembly).bind fun a ↦ a.types[id.slot.toNat]?

/-- Changes all types in the same way. -/
def mapTypes (change : TypeEntry → TypeEntry) (as : List AssemblyEntry) : List AssemblyEntry :=
  as.map fun a ↦ { a with types := a.types.map change }

/-- Changes the type with an identifier. -/
def modifyType (id : TypeId) (change : TypeEntry → TypeEntry) (as : List AssemblyEntry) :
    List AssemblyEntry :=
  match position? as id.assembly with
  | none => as
  | some i => as.modify i fun a ↦ { a with types := a.types.modify id.slot.toNat change }

end Assemblies

/-- The identifiers of types by full name, each name once. -/
structure TypeIndex where
  /-- The names with the types they stand for. -/
  entries : List (String × TypeId) := []
deriving DecidableEq

namespace TypeIndex

/-- The type that a full name stands for. -/
def find? (index : TypeIndex) (fullName : String) : Option TypeId :=
  index.entries.lookup fullName

/-- The number of names. -/
def size (index : TypeIndex) : Nat :=
  index.entries.length

/-- Adds a type, unless its name stands for another one already. -/
def add (index : TypeIndex) (t : TypeEntry) : TypeIndex :=
  if (index.find? t.fullName).isSome then index
  else ⟨index.entries ++ [(t.fullName, t.id)]⟩

/-- The index of all types of a list of assemblies. -/
def ofAssemblies (as : List AssemblyEntry) : TypeIndex :=
  (Assemblies.types as).foldl add {}

/-- The type that a full name stands for, in a list of assemblies. -/
def type? (index : TypeIndex) (as : List AssemblyEntry) (fullName : String) : Option TypeEntry :=
  (index.find? fullName).bind (Assemblies.type? as)

end TypeIndex

end ApiDocs
