/-!
# Identifiers

Assemblies, types and methods of a reference point to each other by number. An assembly's number is
its place among the inputs, a type's is its slot in its assembly, and a method's is its place in its
type's list of methods. All are 32-bit words.

## Main definitions

* `AssemblyId`, `TypeId`, `MethodRef`: the identifiers.
* `AssemblyId.cmp`: the order of assemblies.
* `TypeId.le`: the order by assembly first and slot second.
-/

namespace ApiDocs

/-- The number of an assembly among the inputs of a reference. -/
structure AssemblyId where
  /-- The number as a word. -/
  val : UInt32
deriving DecidableEq, Repr

/-- A type: the assembly that holds it and its slot there. -/
structure TypeId where
  /-- The assembly that holds the type. -/
  assembly : AssemblyId
  /-- The place of the type in its assembly. -/
  slot : UInt32
deriving DecidableEq, Repr

/-- A method: the type that holds it and its place among that type's methods. -/
structure MethodRef where
  /-- The type that holds the method. -/
  owner : TypeId
  /-- The place of the method in its type's list of methods. -/
  index : UInt32
deriving DecidableEq, Repr

namespace AssemblyId

/-- The identifier of the assembly at a position; positions count modulo `2 ^ 32`. -/
def ofNat (n : Nat) : AssemblyId :=
  ⟨UInt32.ofNat n⟩

/-- The position as a number. -/
def toNat (id : AssemblyId) : Nat :=
  id.val.toNat

/-- The written form, such as `asm#3`. -/
def text (id : AssemblyId) : String :=
  "asm#" ++ Nat.repr id.toNat

/-- The order of identifiers. -/
def cmp (a b : AssemblyId) : Ordering :=
  compareOfLessAndEq a.val b.val

end AssemblyId

namespace TypeId

/-- The identifier of the type in a slot of an assembly; slots count modulo `2 ^ 32`. -/
def ofSlot (assembly : AssemblyId) (slot : Nat) : TypeId :=
  ⟨assembly, UInt32.ofNat slot⟩

/-- The written form, such as `asm#3/type#0`. -/
def text (id : TypeId) : String :=
  id.assembly.text ++ "/type#" ++ Nat.repr id.slot.toNat

/-- The order by assembly, then by slot. -/
def le (a b : TypeId) : Bool :=
  a.assembly.val < b.assembly.val || (a.assembly.val == b.assembly.val && a.slot ≤ b.slot)

end TypeId

namespace MethodRef

/-- The reference to the method at a position; positions count modulo `2 ^ 32`. -/
def ofPosition (owner : TypeId) (position : Nat) : MethodRef :=
  ⟨owner, UInt32.ofNat position⟩

end MethodRef

end ApiDocs
