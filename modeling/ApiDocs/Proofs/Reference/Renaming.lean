import ApiDocs.Proofs.Entry.Overloads
import ApiDocs.Proofs.Entry.Renaming
import ApiDocs.Proofs.Reference.Lookup
import ApiDocs.Reference.Build

/-!
# Renaming assemblies in references

The passes over several assemblies use the numbers of assemblies to find types, and for nothing
else. They commute with a renaming that keeps distinct numbers distinct and leaves the assemblies of
the list in the order of their numbers.

## Main definitions

* `Assemblies.rename`, `TypeIndex.rename`, `Reference.rename`: the numbers of assemblies renamed.
* `KeepsOrder`: a renaming under which assemblies are found as before.

## Main results

* `Assemblies.type?_rename`: lookups by identifier.
* `Inheritance.propagate_rename`, `Extension.attach_rename`, `NamespaceEntry.merge_rename`: the
  passes one by one.
* `Reference.complete_rename`: the passes together.
-/

namespace ApiDocs

/-! ### Definitions -/

section

variable (ρ : AssemblyId → AssemblyId)

/-- A list of assemblies with all identifiers renamed. -/
def Assemblies.rename (as : List AssemblyEntry) : List AssemblyEntry :=
  as.map (AssemblyEntry.rename ρ)

/-- An index with all identifiers renamed. -/
def TypeIndex.rename (index : TypeIndex) : TypeIndex :=
  ⟨index.entries.map fun e ↦ (e.1, e.2.rename ρ)⟩

/-- A reference with all identifiers renamed. -/
def Reference.rename (r : Reference) : Reference :=
  { r with
    assemblies := Assemblies.rename ρ r.assemblies
    namespaces := r.namespaces.map (NamespaceEntry.rename ρ)
    types := r.types.map (TypeId.rename ρ)
    index := r.index.rename ρ }

/-- A renaming that keeps distinct numbers distinct and the numbers of a list in order. -/
structure KeepsOrder (ids : List AssemblyId) : Prop where
  injective : Function.Injective ρ
  before : ids.Pairwise fun a b ↦ a.val < b.val
  after : ids.Pairwise fun a b ↦ (ρ a).val < (ρ b).val

end

variable {ρ : AssemblyId → AssemblyId}

/-! ### Lookups -/

namespace Assemblies

theorem types_rename (as : List AssemblyEntry) :
    types (rename ρ as) = (types as).map (TypeEntry.rename ρ) := by
  rw [types, types, rename, List.flatMap_map, List.map_flatMap]
  rfl

/-- A change of all types that commutes with renaming them. -/
theorem mapTypes_rename {f g : TypeEntry → TypeEntry}
    (h : ∀ t, g (t.rename ρ) = (f t).rename ρ) (as : List AssemblyEntry) :
    mapTypes g (rename ρ as) = rename ρ (mapTypes f as) := by
  simp only [mapTypes, rename, AssemblyEntry.rename, List.map_map, Function.comp_def, h]

/-- An assembly is found under its new number where it was found under the old one. -/
theorem position?_rename {as : List AssemblyEntry} (h : KeepsOrder ρ (as.map AssemblyEntry.id))
    (id : AssemblyId) : position? (rename ρ as) (ρ id) = position? as id := by
  have hbefore := List.pairwise_map.mp h.before
  have hafter : (rename ρ as).Pairwise fun a b ↦ a.id.val < b.id.val := by
    have hids := List.pairwise_map.mp h.after
    exact List.pairwise_map.mpr hids
  refine Option.ext fun i ↦ ?_
  rw [position?, position?, Search.position?_eq_some_iff (ranked_of_increasing hbefore id),
    Search.position?_eq_some_iff (ranked_of_increasing hafter (ρ id))]
  simp only [AssemblyId.cmp_eq_eq_iff, rename, List.getElem?_map, Option.map_eq_some_iff]
  constructor
  · rintro ⟨-, ⟨a, ha, rfl⟩, hid⟩
    exact ⟨a, ha, h.injective hid⟩
  · rintro ⟨a, ha, rfl⟩
    exact ⟨a.rename ρ, ⟨a, ha, rfl⟩, rfl⟩

/-- A type is found under its new identifier if it was found under the old one. -/
theorem type?_rename {as : List AssemblyEntry} (h : KeepsOrder ρ (as.map AssemblyEntry.id))
    (id : TypeId) : type? (rename ρ as) (id.rename ρ) = (type? as id).map (TypeEntry.rename ρ) := by
  rw [type?_eq_bind, type?_eq_bind,
    show position? (rename ρ as) (id.rename ρ).assembly = position? as id.assembly from
      position?_rename h id.assembly, Option.map_bind]
  refine congrArg (Option.bind _) (funext fun i ↦ ?_)
  rw [Function.comp_apply, rename, List.getElem?_map]
  cases as[i]? with
  | none => rfl
  | some a => exact List.getElem?_map

/-- A change of one type that commutes with renaming it. -/
theorem modifyType_rename {as : List AssemblyEntry} (h : KeepsOrder ρ (as.map AssemblyEntry.id))
    {f g : TypeEntry → TypeEntry} (hfg : ∀ t, g (t.rename ρ) = (f t).rename ρ) (id : TypeId) :
    modifyType (id.rename ρ) g (rename ρ as) = rename ρ (modifyType id f as) := by
  unfold modifyType
  rw [show position? (rename ρ as) (id.rename ρ).assembly = position? as id.assembly from
    position?_rename h id.assembly]
  cases position? as id.assembly with
  | none => rfl
  | some i =>
    refine modify_map_of_comm (fun a ↦ ?_) as i
    simp only [AssemblyEntry.rename, TypeId.rename, modify_map_of_comm hfg]

end Assemblies

namespace TypeIndex

theorem size_rename (index : TypeIndex) : (index.rename ρ).size = index.size :=
  List.length_map _

theorem find?_rename (index : TypeIndex) (name : String) :
    (index.rename ρ).find? name = (index.find? name).map (TypeId.rename ρ) := by
  obtain ⟨entries⟩ := index
  change (entries.map _).lookup name = (entries.lookup name).map _
  induction entries with
  | nil => rfl
  | cons e es ih =>
    rw [List.map_cons, List.lookup_cons, List.lookup_cons, ih]
    cases name == e.1 <;> rfl

theorem add_rename (index : TypeIndex) (t : TypeEntry) :
    (index.rename ρ).add (t.rename ρ) = (index.add t).rename ρ := by
  have hsome : ((index.rename ρ).find? t.fullName).isSome = (index.find? t.fullName).isSome := by
    rw [find?_rename, Option.isSome_map]
  unfold add
  rw [show (t.rename ρ).fullName = t.fullName from rfl, hsome]
  split_ifs
  · rfl
  · refine congrArg TypeIndex.mk ?_
    rw [List.map_append]
    rfl

theorem ofAssemblies_rename (as : List AssemblyEntry) :
    ofAssemblies (Assemblies.rename ρ as) = (ofAssemblies as).rename ρ := by
  have hfold (ts : List TypeEntry) (index : TypeIndex) :
      (ts.map (TypeEntry.rename ρ)).foldl add (index.rename ρ) = (ts.foldl add index).rename ρ := by
    induction ts generalizing index with
    | nil => rfl
    | cons t ts ih => rw [List.map_cons, List.foldl_cons, List.foldl_cons, add_rename, ih]
  rw [ofAssemblies, Assemblies.types_rename]
  exact hfold _ {}

theorem type?_rename {as : List AssemblyEntry} (h : KeepsOrder ρ (as.map AssemblyEntry.id))
    (index : TypeIndex) (name : String) :
    (index.rename ρ).type? (Assemblies.rename ρ as) name =
      (index.type? as name).map (TypeEntry.rename ρ) := by
  rw [type?, type?, find?_rename, Option.bind_map, Option.map_bind]
  exact congrArg (Option.bind _) (funext (Assemblies.type?_rename h))

end TypeIndex

/-! ### Inherited comments -/

namespace Inheritance

variable {as : List AssemblyEntry} (h : KeepsOrder ρ (as.map AssemblyEntry.id))
  (index : TypeIndex) (files : List Comments)

include h

theorem climb_rename (steps : Nat) (name : Option String) :
    climb (index.rename ρ) (Assemblies.rename ρ as) steps name = climb index as steps name := by
  induction steps generalizing name with
  | zero =>
    cases name with
    | none => rfl
    | some name =>
      rw [climb, climb, TypeIndex.type?_rename h]
      cases index.type? as name <;> rfl
  | succ steps ih =>
    cases name with
    | none => rfl
    | some name =>
      rw [climb, climb, TypeIndex.type?_rename h]
      cases index.type? as name with
      | none => rfl
      | some t => exact congrArg (· + 1) (ih t.header.baseName?)

theorem baseDepth_rename (t : TypeEntry) :
    baseDepth (index.rename ρ) (Assemblies.rename ρ as) (t.rename ρ) = baseDepth index as t := by
  rw [baseDepth, climb_rename h, TypeIndex.size_rename]
  rfl

theorem order_rename :
    order (index.rename ρ) (Assemblies.rename ρ as) = (order index as).map (TypeId.rename ρ) := by
  let f : Nat × TypeId → Nat × TypeId := fun p ↦ (p.1, p.2.rename ρ)
  have hdepths : (Assemblies.types (Assemblies.rename ρ as)).map
        (fun t ↦ (baseDepth (index.rename ρ) (Assemblies.rename ρ as) t, t.id)) =
      ((Assemblies.types as).map fun t ↦ (baseDepth index as t, t.id)).map f := by
    rw [Assemblies.types_rename, List.map_map, List.map_map]
    refine List.map_congr_left fun t _ ↦ ?_
    simp only [Function.comp_apply, baseDepth_rename h, f]
    rfl
  have hle (p q : Nat × TypeId) : decide (p.1 ≤ q.1) = decide ((f p).1 ≤ (f q).1) := rfl
  simp only [order]
  rw [hdepths, ← List.map_mergeSort fun p _ q _ ↦ hle p q, List.map_map, List.map_map]
  rfl

theorem builtComment?_rename (base : BoundMember) :
    builtComment? (index.rename ρ) (Assemblies.rename ρ as) (base.rename ρ) =
      builtComment? index as base := by
  unfold builtComment?
  rw [show (base.rename ρ).decl.declaringType = base.decl.declaringType from rfl,
    TypeIndex.type?_rename h]
  cases index.type? as base.decl.declaringType with
  | none => rfl
  | some t =>
    change ((t.members.rename ρ).toList.find? _ >>= _) = (t.members.toList.find? _ >>= _)
    rw [MemberTable.toList_rename, List.find?_map]
    change ((t.members.toList.find? fun m ↦ m.docId == base.docId).map _ >>= _) = _
    cases t.members.toList.find? fun m ↦ m.docId == base.docId <;> rfl

theorem inheritMember_rename (m : MemberEntry) :
    inheritMember (index.rename ρ) files (Assemblies.rename ρ as) (m.rename ρ) =
      (inheritMember index files as m).rename ρ := by
  have hcomment : (m.rename ρ).overrides.bind
        (inherited? (index.rename ρ) files (Assemblies.rename ρ as)) =
      m.overrides.bind (inherited? index files as) := by
    rw [show (m.rename ρ).overrides = m.overrides.map (BoundMember.rename ρ) from rfl,
      Option.bind_map]
    refine congrArg (Option.bind _) (funext fun base ↦ ?_)
    rw [Function.comp_apply, inherited?, inherited?, builtComment?_rename h]
    rfl
  unfold inheritMember
  rw [hcomment, show (m.rename ρ).comment = m.comment from rfl]
  split_ifs
  · cases m.overrides.bind (inherited? index files as) <;> rfl
  · rfl

theorem inheritType_rename (t : TypeEntry) :
    inheritType (index.rename ρ) files (Assemblies.rename ρ as) (t.rename ρ) =
      (inheritType index files as t).rename ρ := by
  refine congrArg (fun table ↦ { t.rename ρ with members := table })
    (MemberTable.mapGroups_rename (fun ms ↦ ?_) t.members)
  rw [List.map_map, List.map_map]
  exact List.map_congr_left fun m _ ↦ inheritMember_rename h index files m

theorem propagateAlong_rename (ids : List TypeId) :
    propagateAlong (index.rename ρ) files (ids.map (TypeId.rename ρ)) (Assemblies.rename ρ as) =
      Assemblies.rename ρ (propagateAlong index files ids as) := by
  induction ids generalizing as with
  | nil => rfl
  | cons id ids ih =>
    simp only [propagateAlong, List.map_cons, List.foldl_cons]
    rw [Assemblies.modifyType_rename h (inheritType_rename h index files)]
    refine ih ?_
    rw [Assemblies.map_id_modifyType]
    exact h

/-- Comments are inherited alike under new numbers. -/
theorem propagate_rename :
    propagate (index.rename ρ) files (Assemblies.rename ρ as) =
      Assemblies.rename ρ (propagate index files as) := by
  rw [propagate, order_rename h, propagateAlong_rename h]
  rfl

omit h in
/-- Members are left out alike under new numbers. -/
theorem dropUndocumented_rename (as : List AssemblyEntry) :
    dropUndocumented (Assemblies.rename ρ as) = Assemblies.rename ρ (dropUndocumented as) := by
  refine Assemblies.mapTypes_rename (fun t ↦ ?_) as
  refine congrArg (fun table ↦ { t.rename ρ with members := table })
    (MemberTable.mapGroups_rename (fun ms ↦ ?_) t.members)
  rw [List.filter_map]
  rfl

end Inheritance

/-! ### Extensions and overloads -/

namespace Extension

theorem target?_rename (index : TypeIndex) (m : MemberEntry) :
    target? (index.rename ρ) (m.rename ρ) = (target? index m).map (TypeId.rename ρ) := by
  unfold target?
  rw [show (m.rename ρ).decl = m.decl from rfl,
    show (m.rename ρ).parameters = m.parameters from rfl]
  split_ifs
  · cases m.parameters.head? with
    | none => rfl
    | some first =>
      change (first.type.definitionName? >>= _) = Option.map _ (first.type.definitionName? >>= _)
      cases first.type.definitionName? with
      | none => rfl
      | some name => exact TypeIndex.find?_rename index name
  · rfl

theorem ofType_rename (index : TypeIndex) (t : TypeEntry) :
    ofType (index.rename ρ) (t.rename ρ) =
      (ofType index t).map fun e ↦ (e.1.rename ρ, e.2.rename ρ) := by
  have hmethods : (t.rename ρ).members.methods = t.members.methods.map (MemberEntry.rename ρ) := rfl
  unfold ofType
  rw [hmethods, List.zipIdx_map, List.filterMap_map, List.map_filterMap]
  refine congrArg (List.filterMap · _) (funext fun p ↦ ?_)
  simp only [Function.comp_apply, Prod.map, id, target?_rename, Option.map_map]
  rfl

theorem all_rename (index : TypeIndex) (as : List AssemblyEntry) :
    all (index.rename ρ) (Assemblies.rename ρ as) =
      (all index as).map fun e ↦ (e.1.rename ρ, e.2.rename ρ) := by
  rw [all, all, Assemblies.types_rename, List.flatMap_map, List.map_flatMap]
  exact congrArg (List.flatMap · _) (funext (ofType_rename index))

/-- Extensions are attached alike under new numbers. -/
theorem attach_rename (hρ : Function.Injective ρ) (index : TypeIndex) (as : List AssemblyEntry) :
    attach (index.rename ρ) (Assemblies.rename ρ as) = Assemblies.rename ρ (attach index as) := by
  unfold attach
  rw [all_rename]
  refine Assemblies.mapTypes_rename (fun t ↦ ?_) as
  have hlisted : (((all index as).map fun e ↦ (e.1.rename ρ, e.2.rename ρ)).filter fun e ↦
        e.1 == (t.rename ρ).id).map Prod.snd =
      (((all index as).filter fun e ↦ e.1 == t.id).map Prod.snd).map (MethodRef.rename ρ) := by
    rw [List.filter_map, List.map_map, List.map_map]
    refine congrArg (List.map _) (List.filter_congr fun e _ ↦ ?_)
    rw [Bool.eq_iff_iff, Function.comp_apply, beq_iff_eq, beq_iff_eq]
    exact (TypeId.rename_injective hρ).eq_iff
  exact congrArg (fun methods ↦ { t.rename ρ with extensionMethods := methods }) hlisted

end Extension

theorem TypeEntry.numberOverloads_rename (t : TypeEntry) :
    (t.rename ρ).numberOverloads = t.numberOverloads.rename ρ := by
  have hcount (name : String) (entries : List MemberEntry) :
      countNamed name (entries.map (MemberEntry.rename ρ)) = countNamed name entries := by
    rw [countNamed, List.countP_map]
    rfl
  have hnumbered (entries : List MemberEntry) :
      numbered (entries.map (MemberEntry.rename ρ)) =
        (numbered entries).map (MemberEntry.rename ρ) := by
    rw [numbered_eq, numbered_eq, List.zipIdx_map, List.map_map, List.map_map]
    refine List.map_congr_left fun p _ ↦ ?_
    simp only [Function.comp_apply, Prod.map, ← List.map_take, hcount]
    rfl
  exact congrArg
    (fun methods ↦ { t.rename ρ with members := { t.members.rename ρ with methods := methods } })
    (hnumbered t.members.methods)

/-! ### The passes together -/

namespace Reference

/-- The passes over several assemblies commute with a renaming under which assemblies are found as
before. -/
theorem complete_rename {as : List AssemblyEntry} (h : KeepsOrder ρ (as.map AssemblyEntry.id))
    (inclusion : Inclusion) (index : TypeIndex) (files : List Comments) :
    complete inclusion (index.rename ρ) files (Assemblies.rename ρ as) =
      Assemblies.rename ρ (complete inclusion index files as) := by
  have hnumber (bs : List AssemblyEntry) :
      Assemblies.mapTypes TypeEntry.numberOverloads
          (Extension.attach (index.rename ρ) (Assemblies.rename ρ bs)) =
        Assemblies.rename ρ (Assemblies.mapTypes TypeEntry.numberOverloads
          (Extension.attach index bs)) := by
    rw [Extension.attach_rename h.injective,
      Assemblies.mapTypes_rename TypeEntry.numberOverloads_rename]
  simp only [complete]
  rw [Inheritance.propagate_rename h]
  split_ifs
  · exact hnumber _
  · rw [Inheritance.dropUndocumented_rename]
    exact hnumber _

end Reference

/-! ### Namespaces -/

namespace NamespaceEntry

/-- Namespaces are merged alike under new numbers. -/
theorem merge_rename {as : List AssemblyEntry} (h : KeepsOrder ρ (as.map AssemblyEntry.id))
    (comments : Option Comments) :
    merge (Assemblies.rename ρ as) comments =
      (merge as comments).map (NamespaceEntry.rename ρ) := by
  have hparts : (Assemblies.rename ρ as).flatMap AssemblyEntry.namespaces =
      (as.flatMap AssemblyEntry.namespaces).map (NamespaceEntry.rename ρ) := by
    rw [Assemblies.rename, List.flatMap_map, List.map_flatMap]
    rfl
  have hname (a b : TypeId) : byTypeName as a b =
      byTypeName (Assemblies.rename ρ as) (a.rename ρ) (b.rename ρ) := by
    simp only [byTypeName, Assemblies.type?_rename h, Option.map_map]
    rfl
  have htypes (parts : List NamespaceEntry) :
      ((parts.map (NamespaceEntry.rename ρ)).flatMap NamespaceEntry.types).eraseDups.mergeSort
          (byTypeName (Assemblies.rename ρ as)) =
        ((parts.flatMap NamespaceEntry.types).eraseDups.mergeSort (byTypeName as)).map
          (TypeId.rename ρ) := by
    have hflat : (parts.map (NamespaceEntry.rename ρ)).flatMap NamespaceEntry.types =
        (parts.flatMap NamespaceEntry.types).map (TypeId.rename ρ) := by
      rw [List.flatMap_map, List.map_flatMap]
      rfl
    rw [hflat, eraseDups_map_of_injective (TypeId.rename_injective h.injective),
      List.map_mergeSort fun a _ b _ ↦ hname a b]
  have hcomment (name : String) (parts : List NamespaceEntry) :
      mergedComment comments name (parts.map (NamespaceEntry.rename ρ)) =
        mergedComment comments name parts := by
    rw [mergedComment, List.findSome?_map]
    rfl
  simp only [merge]
  rw [hparts, List.map_map, List.map_map]
  refine List.map_congr_left fun name _ ↦ ?_
  rw [Function.comp_apply, List.filter_map, mergeParts, htypes, hcomment]
  rfl

end NamespaceEntry

end ApiDocs
