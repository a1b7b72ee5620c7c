/-!
# Access levels

Types, members and accessors are declared with one of six access levels, ordered by how far they
can be reached.

## Main definitions

* `Access`: the six levels.
* `Access.widest`: the level of the two that reaches further.
* `Access.isHidden`: levels that cannot be reached from another assembly.
* `Access.word`, `Access.ofWord?`: the written form of a level.
-/

namespace ApiDocs

/-- Who may use a type, a member or an accessor. A family is a type with the types derived from
it. -/
inductive Access where
  /-- All code. -/
  | everyone
  /-- The family, and all code of the assembly. -/
  | familyOrAssembly
  /-- The family. -/
  | family
  /-- All code of the assembly. -/
  | assembly
  /-- The family inside the assembly. -/
  | familyAndAssembly
  /-- The declaring type. -/
  | owner
deriving DecidableEq, Repr

namespace Access

/-- The place of a level in the order from wide to narrow. -/
def rank : Access → Nat
  | everyone => 0
  | familyOrAssembly => 1
  | family => 2
  | assembly => 3
  | familyAndAssembly => 4
  | owner => 5

/-- The wider one of two levels. -/
def widest (a b : Access) : Access :=
  if a.rank ≤ b.rank then a else b

/-- Whether all code may use what has this level. -/
def isPublic (a : Access) : Bool :=
  a == everyone

/-- Whether no code outside the assembly may use what has this level. -/
def isHidden : Access → Bool
  | assembly | familyAndAssembly | owner => true
  | everyone | familyOrAssembly | family => false

/-- The written form of a level. -/
def word : Access → String
  | everyone => "public"
  | familyOrAssembly => "protectedInternal"
  | family => "protected"
  | assembly => "internal"
  | familyAndAssembly => "privateProtected"
  | owner => "private"

/-- Reads the written form of a level. -/
def ofWord? : String → Option Access
  | "public" => some everyone
  | "protectedInternal" => some familyOrAssembly
  | "protected" => some family
  | "internal" => some assembly
  | "privateProtected" => some familyAndAssembly
  | "private" => some owner
  | _ => none

@[simp] theorem ofWord?_word (a : Access) : ofWord? a.word = some a := by
  cases a <;> rfl

end Access

end ApiDocs
