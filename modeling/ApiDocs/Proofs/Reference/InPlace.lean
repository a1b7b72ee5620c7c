import ApiDocs.Proofs.Reference.Extensions
import ApiDocs.Proofs.Reference.StandIns

/-!
# Passes in place

The passes over all assemblies say what becomes of every type. They can also be carried out one
change at a time, each in the slot that an identifier leads to.

In its turn, a type is looked up and the comments that its members take over are worked out first,
with the places of the members among all members of the type. Then they are put in these places.
Extensions are collected first, and then each method is appended to the methods that extend the type
in a slot.

## Main definitions

* `MemberTable.modifyAt`: a change of the member in a place.
* `Inheritance.updates`, `Inheritance.inheritInPlace`: the two halves of the turn of a type.
* `Extension.pushAll`: appends methods to those that extend types, one after another.
* `Reference.completeInPlace`: all passes.

## Main results

* `Inheritance.propagateAlong_eq_foldl`: the turns of some types.
* `Extension.attach_eq_pushAll`: extensions are attached one after another.
* `Reference.assemblies_eq_completeInPlace`: the assemblies of every reference that is built.
-/

namespace ApiDocs

/-! ### Members in places -/

namespace MemberTable

/-- Changes the member in a place, in the order in which all members are listed. -/
def modifyAt (i : Nat) (change : MemberEntry → MemberEntry) (t : MemberTable) : MemberTable :=
  ofGroups fun g ↦
    if t.offset g ≤ i then (t.get g).modify (i - t.offset g) change else t.get g

theorem toList_modifyAt (i : Nat) (change : MemberEntry → MemberEntry) (t : MemberTable) :
    (t.modifyAt i change).toList = t.toList.modify i change := by
  have hfirst : t.constructors.modify i change =
      if 0 ≤ i then t.constructors.modify (i - 0) change else t.constructors := by
    rw [if_pos (Nat.zero_le i), Nat.sub_zero]
  simp only [toList, modify_append, List.length_append, hfirst]
  rfl

theorem length_get_modifyAt (i : Nat) (change : MemberEntry → MemberEntry) (t : MemberTable)
    (g : MemberGroup) : ((t.modifyAt i change).get g).length = (t.get g).length := by
  rw [modifyAt, get_ofGroups]
  split_ifs
  · exact List.length_modify ..
  · rfl

/-- A table is told by all members together if it is known how many there are in each group. -/
theorem eq_of_toList_eq {t u : MemberTable} (hlength : ∀ g, (t.get g).length = (u.get g).length)
    (h : t.toList = u.toList) : t = u := by
  obtain ⟨h, hevents⟩ := List.append_inj' h (hlength .events)
  obtain ⟨h, hoperators⟩ := List.append_inj' h (hlength .operators)
  obtain ⟨h, hmethods⟩ := List.append_inj' h (hlength .methods)
  obtain ⟨h, hproperties⟩ := List.append_inj' h (hlength .properties)
  obtain ⟨hconstructors, hfields⟩ := List.append_inj' h (hlength .fields)
  cases t
  cases u
  congr

end MemberTable

/-! ### Comments -/

namespace Inheritance

open Assemblies

section

variable (index : TypeIndex) (files : List Comments) (as : List AssemblyEntry)

/-- The comment that a member takes over. -/
def taken? (m : MemberEntry) : Option Comment :=
  if isWanting m.comment then m.overrides.bind (inherited? index files as) else none

/-- The comments that the members of a type take over, with the places of the members. -/
def updates (t : TypeEntry) : List (Nat × Comment) :=
  t.members.toList.zipIdx.filterMap fun p ↦ (taken? index files as p.1).map fun c ↦ (p.2, c)

/-- Puts comments in the places of members, one after another. -/
def adoptAt (us : List (Nat × Comment)) (members : MemberTable) : MemberTable :=
  us.foldl (fun members u ↦ members.modifyAt u.1 fun m ↦ m.adopt u.2) members

/-- The turn of the type with an identifier. -/
def inheritInPlace (id : TypeId) : List AssemblyEntry :=
  match type? as id with
  | none => as
  | some t =>
    let us := updates index files as t
    if us.isEmpty then as else modifyType id (fun t ↦ { t with members := adoptAt us t.members }) as

end

variable {index : TypeIndex} {files : List Comments} {as : List AssemblyEntry}

theorem inheritMember_eq_getD (m : MemberEntry) :
    inheritMember index files as m = ((taken? index files as m).map (m.adopt ·)).getD m := by
  unfold inheritMember taken?
  split_ifs
  · cases m.overrides.bind (inherited? index files as) <;> rfl
  · rfl

theorem toList_adoptAt (us : List (Nat × Comment)) (members : MemberTable) :
    (adoptAt us members).toList =
      us.foldl (fun ms u ↦ ms.modify u.1 fun m ↦ m.adopt u.2) members.toList := by
  induction us generalizing members with
  | nil => rfl
  | cons u us ih =>
    rw [List.foldl_cons, ← MemberTable.toList_modifyAt]
    exact ih _

theorem length_get_adoptAt (us : List (Nat × Comment)) (members : MemberTable) (g : MemberGroup) :
    ((adoptAt us members).get g).length = (members.get g).length := by
  induction us generalizing members with
  | nil => rfl
  | cons u us ih => exact (ih _).trans (MemberTable.length_get_modifyAt u.1 _ members g)

/-- The comments that are worked out for the members of a type and put in their places are those
that its members take over. -/
theorem members_inheritType (t : TypeEntry) :
    (inheritType index files as t).members = adoptAt (updates index files as t) t.members := by
  refine MemberTable.eq_of_toList_eq (fun g ↦ ?_) ?_
  · rw [length_get_adoptAt, inheritType, MemberTable.mapGroups, MemberTable.get_ofGroups,
      List.length_map]
  · have hplaces := foldl_modify_zipIdx (taken? index files as) (fun c m ↦ m.adopt c) []
      t.members.toList
    rw [toList_adoptAt, updates]
    refine Eq.trans ?_ hplaces.symm
    rw [inheritType, MemberTable.toList_mapGroups]
    exact List.map_congr_left fun m _ ↦ inheritMember_eq_getD m

/-- One turn. -/
theorem modifyType_inheritType (id : TypeId) :
    modifyType id (inheritType index files as) as = inheritInPlace index files as id := by
  unfold inheritInPlace
  cases hid : type? as id with
  | none => exact modifyType_of_eq_self fun t ht ↦ by rw [hid] at ht; cases ht
  | some t =>
    have heq (u : TypeEntry) (hu : type? as id = some u) : inheritType index files as u =
        { u with members := adoptAt (updates index files as t) u.members } := by
      obtain rfl := Option.some.inj (hid.symm.trans hu)
      rw [← members_inheritType]
      rfl
    by_cases hempty : (updates index files as t).isEmpty = true
    · rw [List.isEmpty_iff] at hempty
      simp only [hempty, List.isEmpty_nil, if_true]
      refine modifyType_of_eq_self fun u hu ↦ ?_
      rw [heq u hu, hempty]
      rfl
    · simp only [hempty]
      exact modifyType_congr heq

/-- The turns of some types. -/
theorem propagateAlong_eq_foldl (ids : List TypeId) :
    propagateAlong index files ids as = ids.foldl (inheritInPlace index files) as := by
  rw [propagateAlong]
  exact congrArg (fun step ↦ ids.foldl step as)
    (funext fun as ↦ funext fun id ↦ modifyType_inheritType id)

end Inheritance

/-! ### Extensions -/

namespace Extension

open Assemblies

/-- A type with more methods that extend it, after those it has. -/
def extendBy (refs : List MethodRef) (t : TypeEntry) : TypeEntry :=
  { t with extensionMethods := t.extensionMethods ++ refs }

/-- Appends methods to those that extend the types in some slots, one after another. -/
def pushAll (extensions : List (TypeId × MethodRef)) (as : List AssemblyEntry) :
    List AssemblyEntry :=
  extensions.foldl (fun as e ↦ modifyType e.1 (extendBy [e.2]) as) as

/-- The methods that are meant for a type. -/
def refsTo (extensions : List (TypeId × MethodRef)) (id : TypeId) : List MethodRef :=
  (extensions.filter fun e ↦ e.1 == id).map Prod.snd

theorem refsTo_cons (e : TypeId × MethodRef) (extensions : List (TypeId × MethodRef))
    (id : TypeId) :
    refsTo (e :: extensions) id =
      if id = e.1 then e.2 :: refsTo extensions id else refsTo extensions id := by
  rw [refsTo, List.filter_cons]
  by_cases hid : id = e.1
  · rw [if_pos (beq_iff_eq.mpr hid.symm), if_pos hid]
    rfl
  · rw [if_neg fun h ↦ hid (eq_of_beq h).symm, if_neg hid]
    rfl

/-- Every type gets the methods that are meant for it, after those it has. -/
theorem pushAll_eq_mapTypes {as : List AssemblyEntry} (h : Addressed as)
    (extensions : List (TypeId × MethodRef)) :
    pushAll extensions as = mapTypes (fun t ↦ extendBy (refsTo extensions t.id) t) as := by
  induction extensions generalizing as with
  | nil =>
    have hsame (t : TypeEntry) : extendBy [] t = t := by rw [extendBy, List.append_nil]
    exact ((congrArg (fun f ↦ mapTypes f as) (funext hsame)).trans (mapTypes_self as)).symm
  | cons e extensions ih =>
    have houtline : outline (modifyType e.1 (extendBy [e.2]) as) = outline as :=
      outline_modifyType (f := extendBy [e.2]) (fun _ ↦ rfl) e.1 as
    have hstep (t : TypeEntry) : extendBy (refsTo (e :: extensions) t.id) t =
        extendBy (refsTo extensions t.id) (if t.id = e.1 then extendBy [e.2] t else t) := by
      rw [refsTo_cons]
      split_ifs
      · rw [extendBy, extendBy, extendBy, List.append_assoc, List.singleton_append]
      · rfl
    have hid (t : TypeEntry) : (if t.id = e.1 then extendBy [e.2] t else t).id = t.id := by
      split_ifs <;> rfl
    change pushAll extensions (modifyType e.1 (extendBy [e.2]) as) = _
    rw [ih (h.of_outline_eq houtline), h.modifyType_eq_mapTypes, mapTypes_mapTypes]
    refine congrArg (fun f ↦ mapTypes f as) (funext fun t ↦ ?_)
    rw [hstep, hid]

/-- Extensions are attached one after another, if there are none yet. -/
theorem attach_eq_pushAll {as : List AssemblyEntry} (h : Addressed as)
    (hnone : ∀ t ∈ types as, t.extensionMethods = []) (index : TypeIndex) :
    attach index as = pushAll (all index as) as := by
  rw [pushAll_eq_mapTypes h, attach]
  refine mapTypes_congr fun t ht ↦ ?_
  rw [extendBy, hnone t ht, List.nil_append, refsTo]

end Extension

/-! ### The whole reference -/

namespace Reference

open Assemblies

/-- All passes, one change at a time. -/
def completeInPlace (inclusion : Inclusion) (index : TypeIndex) (files : List Comments)
    (as : List AssemblyEntry) : List AssemblyEntry :=
  let as := (Inheritance.order index as).foldl (Inheritance.inheritInPlace index files) as
  let as := if inclusion.undocumentedMembers then as else Inheritance.dropUndocumented as
  let as := Extension.pushAll (Extension.all index as) as
  mapTypes TypeEntry.numberOverloads as

/-- A type that is bound has no extension methods yet. -/
theorem IsBound.extensionMethods_eq_nil {bound : List (AssemblyEntry × Comments)}
    (h : IsBound bound) {t : TypeEntry} (ht : t ∈ Assemblies.types (bound.map Prod.fst)) :
    t.extensionMethods = [] := by
  obtain ⟨a, ha, hta⟩ := mem_types.mp ht
  obtain ⟨p, hp, rfl⟩ := List.mem_map.mp ha
  obtain ⟨inclusion, filter, source, hbuild⟩ := h.built p hp
  obtain ⟨j, hj⟩ := List.getElem?_of_mem hta
  obtain ⟨d, u, hu, heq⟩ := AssemblyEntry.exists_build_of_getElem? hbuild hj
  obtain ⟨entries, -, rfl⟩ := TypeEntry.exists_of_build hu
  rw [heq]

/-- The sweep attaches no extensions. -/
theorem extensionMethods_propagateAlong {index : TypeIndex} {files : List Comments}
    {as : List AssemblyEntry} (h : ∀ t ∈ Assemblies.types as, t.extensionMethods = [])
    (ids : List TypeId) :
    ∀ t ∈ Assemblies.types (Inheritance.propagateAlong index files ids as),
      t.extensionMethods = [] := by
  induction ids generalizing as with
  | nil => exact h
  | cons id ids ih =>
    rw [Inheritance.propagateAlong_cons]
    refine ih fun t ht ↦ ?_
    obtain ⟨t₀, ht₀, rfl | rfl⟩ := exists_of_mem_modifyType ht
    · exact h t ht₀
    · exact h t₀ ht₀

/-- The passes over bound assemblies can be carried out one change at a time. -/
theorem IsBound.complete_eq_completeInPlace {bound : List (AssemblyEntry × Comments)}
    (h : IsBound bound) (inclusion : Inclusion) (index : TypeIndex) (files : List Comments) :
    complete inclusion index files (bound.map Prod.fst) =
      completeInPlace inclusion index files (bound.map Prod.fst) := by
  set as := bound.map Prod.fst with has
  have hnone : ∀ t ∈ Assemblies.types (Inheritance.propagate index files as),
      t.extensionMethods = [] :=
    extensionMethods_propagateAlong (fun t ht ↦ h.extensionMethods_eq_nil ht) _
  have haddr : Addressed (Inheritance.propagate index files as) :=
    h.addressed.of_outline_eq (Inheritance.outline_propagateAlong _)
  simp only [complete, completeInPlace, ← Inheritance.propagateAlong_eq_foldl]
  refine congrArg (mapTypes TypeEntry.numberOverloads) ?_
  split_ifs
  · exact Extension.attach_eq_pushAll haddr hnone index
  · refine Extension.attach_eq_pushAll (haddr.of_outline_eq ?_) (fun t ht ↦ ?_) index
    · exact outline_mapTypes (fun t ↦ (TypeEntry.StemsFrom.keepMembers _ t).1) _
    · rw [Inheritance.dropUndocumented, types_mapTypes] at ht
      obtain ⟨t₀, ht₀, rfl⟩ := List.mem_map.mp ht
      exact hnone t₀ ht₀

/-- **The passes of every reference can be carried out one change at a time.** There must be words
enough to number the assemblies and the types of each assembly. -/
theorem assemblies_eq_completeInPlace {inclusion : Inclusion} {filter : MemberFilter}
    {inputs : List AssemblyInput} {namespaceComments : Option CommentSource} {r : Reference}
    (h : build inclusion filter inputs namespaceComments = .ok r)
    (hinputs : inputs.length ≤ UInt32.size)
    (hslots : ∀ a ∈ r.assemblies, a.types.length ≤ UInt32.size)
    {bound : List (AssemblyEntry × Comments)}
    (hbound : boundEntries (bindAll inclusion filter inputs) = bound) :
    r.assemblies = completeInPlace inclusion (TypeIndex.ofAssemblies (bound.map Prod.fst))
      (bound.map Prod.snd) (bound.map Prod.fst) := by
  subst hbound
  obtain ⟨-, rfl⟩ := build_eq_ok_iff.mp h
  have hbound : IsBound (boundEntries (bindAll inclusion filter inputs)) :=
    isBound_boundEntries hinputs fun p hp ↦ length_types_of_mem_boundEntries hslots hp
  exact hbound.complete_eq_completeInPlace inclusion _ _

end Reference

end ApiDocs
