import ApiDocs.Proofs.Reference.Content
import ApiDocs.Proofs.Reference.Inheritance

/-!
# States of the sweep

While comments are inherited, types have their turns one after another, and each turn changes the
members of one type. A state of the sweep is described by what has become of every member in its
place: the position of the assembly, the slot of the type and the entry as it was bound. Nothing is
assumed about identifiers, which may be repeated if there are more types than words.

## Main definitions

* `Inheritance.membersAt`: the members of the type in a place.
* `Inheritance.overriddenAt?`: the entry that an override leads to, with its place.
* `Inheritance.Sweeps`: a state of the sweep.

## Main results

* `Inheritance.Sweeps.overridden?_eq`: where an override leads does not change in the sweep.
* `Inheritance.Sweeps.modifyType`: the state after the next turn.
-/

namespace ApiDocs.Inheritance

open Assemblies

section

variable (index : TypeIndex) (as : List AssemblyEntry)

/-- The place of the type that a full name stands for: the position of the assembly and the slot. -/
def place? (name : String) : Option (Nat × Nat) :=
  (index.find? name).bind fun id ↦
    (position? as id.assembly).map fun i ↦ (i, id.slot.toNat)

/-- The members of the type in a place. -/
def membersAt (q : Nat × Nat) : List MemberEntry :=
  ((typeAt? as q.1 q.2).map fun t ↦ t.members.toList).getD []

/-- The entry that an override leads to, with the place of its type. -/
def overriddenAt? (base : BoundMember) : Option ((Nat × Nat) × MemberEntry) :=
  (place? index as base.decl.declaringType).bind fun q ↦
    ((membersAt as q).find? fun m ↦ m.docId == base.docId).map (Prod.mk q)

end

variable {index : TypeIndex} {as : List AssemblyEntry}

theorem membersAt_of_typeAt? {i j : Nat} {t : TypeEntry}
    (h : typeAt? as i j = some t) : membersAt as (i, j) = t.members.toList := by
  rw [membersAt, h]
  rfl

theorem place?_congr {bs : List AssemblyEntry}
    (h : bs.map AssemblyEntry.id = as.map AssemblyEntry.id) (name : String) :
    place? index bs name = place? index as name := by
  simp only [place?, position?_congr h]

theorem overridden?_eq_bind (base : BoundMember) :
    overridden? index as base = (place? index as base.decl.declaringType).bind fun q ↦
      (membersAt as q).find? fun m ↦ m.docId == base.docId := by
  have htype : index.type? as base.decl.declaringType =
      (place? index as base.decl.declaringType).bind fun q ↦ typeAt? as q.1 q.2 := by
    rw [TypeIndex.type?, place?, Option.bind_assoc]
    refine congrArg (Option.bind _) (funext fun id ↦ ?_)
    rw [type?_eq_bind, Option.bind_map]
    rfl
  change (index.type? as base.decl.declaringType).bind _ = _
  rw [htype, Option.bind_assoc]
  refine congrArg (Option.bind _) (funext fun q ↦ ?_)
  rw [membersAt]
  cases typeAt? as q.1 q.2 <;> rfl

/-- A state of the sweep: the members of the type in every place, changed one by one. -/
structure Sweeps (as bs : List AssemblyEntry) (g : Nat × Nat → MemberEntry → MemberEntry) :
    Prop where
  ids_eq : bs.map AssemblyEntry.id = as.map AssemblyEntry.id
  changes : ∀ q, ChangesComments (g q)
  typeAt?_eq : ∀ q, typeAt? bs q.1 q.2 = (typeAt? as q.1 q.2).map (TypeEntry.mapMembers (g q))

theorem sweeps_self (as : List AssemblyEntry) : Sweeps as as fun _ m ↦ m := by
  refine ⟨rfl, fun _ ↦ ⟨fun _ ↦ rfl, fun _ ↦ rfl⟩, fun q ↦ ?_⟩
  rw [show TypeEntry.mapMembers (fun m ↦ m) = fun t ↦ t from funext TypeEntry.mapMembers_self,
    Option.map_id']

namespace Sweeps

variable {bs : List AssemblyEntry} {g : Nat × Nat → MemberEntry → MemberEntry}

theorem membersAt_eq (h : Sweeps as bs g) (q : Nat × Nat) :
    membersAt bs q = (membersAt as q).map (g q) := by
  rw [membersAt, membersAt, h.typeAt?_eq]
  cases typeAt? as q.1 q.2 with
  | none => rfl
  | some t => exact MemberTable.toList_mapGroups (g q) t.members

/-- Where an override leads does not change in the sweep. -/
theorem overridden?_eq (h : Sweeps as bs g) (index : TypeIndex) (base : BoundMember) :
    overridden? index bs base = (overriddenAt? index as base).map fun p ↦ g p.1 p.2 := by
  rw [overridden?_eq_bind, overriddenAt?, place?_congr h.ids_eq, Option.map_bind]
  refine congrArg (Option.bind _) (funext fun q ↦ ?_)
  have hid (m : MemberEntry) : (g q m).docId = m.docId :=
    congrArg (fun m ↦ m.docId) ((h.changes q).outline_eq m)
  rw [h.membersAt_eq, List.find?_map, Function.comp_apply, Option.map_map]
  simp only [Function.comp_def, hid]

/-- The next state: the type with an identifier has its turn. -/
theorem modifyType (h : Sweeps as bs g) (index : TypeIndex) (files : List Comments) (id : TypeId) :
    Sweeps as (Assemblies.modifyType id (inheritType index files bs) bs) fun q ↦
      if position? as id.assembly = some q.1 ∧ id.slot.toNat = q.2 then
        inheritMember index files bs ∘ g q
      else g q := by
  refine ⟨(map_id_modifyType id _ bs).trans h.ids_eq, fun q ↦ ?_, fun q ↦ ?_⟩
  · split_ifs
    · exact (changesComments_inheritMember bs).comp (h.changes q)
    · exact h.changes q
  · rw [typeAt?_modifyType_eq_ite, position?_congr h.ids_eq]
    split_ifs
    · rw [h.typeAt?_eq, Option.map_map]
      exact congrArg (Option.map · _) (funext fun t ↦ TypeEntry.mapMembers_mapMembers _ _ t)
    · exact h.typeAt?_eq q

end Sweeps

end ApiDocs.Inheritance
