import ApiDocs.Reference.Index

/-!
# Inherited comments

A member without a comment of its own takes over the comment of the member it overrides. That member
may have taken over its comment itself, so types are treated in the order of their depth below the
base types that the reference knows.

The comment of an overridden member is that of its entry; if the reference has no usable comment
there, it is looked up in the documentation files of all assemblies.

## Main definitions

* `Inheritance.baseDepth`: the number of known base types above a type.
* `Inheritance.inherited?`: the comment that an override takes over.
* `Inheritance.propagate`: all comments taken over.
* `Inheritance.dropUndocumented`: members without a comment left out.
-/

namespace ApiDocs.Inheritance

/-- The number of base types from a name upwards that the reference knows, counting no more than
`steps` and one. -/
def climb (index : TypeIndex) (as : List AssemblyEntry) (steps : Nat) : Option String → Nat
  | none => 0
  | some name =>
    match index.type? as name with
    | none => 0
    | some next =>
      match steps with
      | 0 => 1
      | steps + 1 => climb index as steps next.header.baseName? + 1

/-- The number of known base types above a type. If base types lead back to each other, it is one
more than the number of all types. -/
def baseDepth (index : TypeIndex) (as : List AssemblyEntry) (t : TypeEntry) : Nat :=
  climb index as index.size t.header.baseName?

/-- Whether a member with this comment looks for that of the member it overrides. -/
def isWanting (comment : Option Comment) : Bool :=
  match comment with
  | none => true
  | some c => c.isPlaceholder

/-- Whether a comment says something that can be taken over. -/
def isUsable (c : Comment) : Bool :=
  !c.isPlaceholder

/-- The comment on the entry of an overridden member. -/
def builtComment? (index : TypeIndex) (as : List AssemblyEntry) (base : BoundMember) :
    Option Comment := do
  let t ← index.type? as base.decl.declaringType
  let m ← t.members.toList.find? fun m ↦ m.docId == base.docId
  m.comment

/-- The first usable comment under an id in a list of documentation files. -/
def filedComment? (files : List Comments) (docId : String) : Option Comment :=
  (files.filterMap fun file ↦ file.get? docId).find? isUsable

/-- The comment that an override takes over: the one on the overridden member's entry, or one from a
documentation file, or the one found when the override was linked. -/
def inherited? (index : TypeIndex) (files : List Comments) (as : List AssemblyEntry)
    (base : BoundMember) : Option Comment :=
  (builtComment? index as base).filter isUsable <|> filedComment? files base.docId <|>
    base.comment.filter isUsable

/-- A member with the comment it takes over, if it looks for one and there is one. -/
def inheritMember (index : TypeIndex) (files : List Comments) (as : List AssemblyEntry)
    (m : MemberEntry) : MemberEntry :=
  if isWanting m.comment then
    match m.overrides.bind (inherited? index files as) with
    | some c => m.adopt c
    | none => m
  else
    m

/-- A type whose members have taken over their comments from the reference as it stands. -/
def inheritType (index : TypeIndex) (files : List Comments) (as : List AssemblyEntry)
    (t : TypeEntry) : TypeEntry :=
  { t with members := t.members.mapGroups (List.map (inheritMember index files as)) }

/-- The types in the order of their depth below known base types. -/
def order (index : TypeIndex) (as : List AssemblyEntry) : List TypeId :=
  let depths := (Assemblies.types as).map fun t ↦ (baseDepth index as t, t.id)
  (depths.mergeSort fun a b ↦ a.1 ≤ b.1).map Prod.snd

/-- Lets the types of a list take over comments, one after another. -/
def propagateAlong (index : TypeIndex) (files : List Comments) (ids : List TypeId)
    (as : List AssemblyEntry) : List AssemblyEntry :=
  ids.foldl (fun as id ↦ Assemblies.modifyType id (inheritType index files as) as) as

/-- Lets all types take over comments, base types before the types derived from them. -/
def propagate (index : TypeIndex) (files : List Comments) (as : List AssemblyEntry) :
    List AssemblyEntry :=
  propagateAlong index files (order index as) as

/-- Leaves out the members without a comment. -/
def dropUndocumented (as : List AssemblyEntry) : List AssemblyEntry :=
  Assemblies.mapTypes
    (fun t ↦
      { t with members := t.members.mapGroups (List.filter fun m ↦ m.comment.isSome) })
    as

end ApiDocs.Inheritance
