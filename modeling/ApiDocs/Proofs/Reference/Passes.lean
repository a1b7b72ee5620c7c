import ApiDocs.Proofs.Entry.Overloads
import ApiDocs.Proofs.Reference.Lookup
import ApiDocs.Reference.Build

/-!
# What the passes over several assemblies keep

After the inputs are bound one by one, four passes change the members of types and the methods that
extend them. They keep everything else, and they add no members: what a type has in the end was
there when it was built, up to its comment and its number among overloads.

## Main definitions

* `MemberEntry.outline`: a member's entry without what the passes change.
* `TypeEntry.StemsFrom`: a type that the passes may have made of another one.

## Main results

* `Reference.outline_complete`: the passes keep the outline.
* `Reference.exists_stemsFrom_of_mem_complete`: every type of the finished assemblies stems from one
  that was built.
-/

namespace ApiDocs

/-! ### Members and types -/

/-- A member's entry without its comment, the texts of the comment and its number among
overloads. -/
def MemberEntry.outline (m : MemberEntry) : MemberEntry :=
  { m with
    comment := none
    isInherited := false
    parameters := m.parameters.map (BoundParameter.rebind none)
    genericParameters := m.genericParameters.map (BoundGeneric.rebind none)
    ordinal := none }

theorem MemberEntry.outline_adopt (c : Comment) (m : MemberEntry) :
    (m.adopt c).outline = m.outline := by
  simp only [outline, adopt, BoundMember.adopt, List.map_map]
  rfl

/-- A type with the outline of another one, all of whose members have the outlines of members of the
other one. -/
def TypeEntry.StemsFrom (t t₀ : TypeEntry) : Prop :=
  t.outline = t₀.outline ∧
    ∀ m ∈ t.members.toList, ∃ m₀ ∈ t₀.members.toList, m.outline = m₀.outline

namespace TypeEntry.StemsFrom

theorem refl (t : TypeEntry) : t.StemsFrom t :=
  ⟨rfl, fun m hm ↦ ⟨m, hm, rfl⟩⟩

theorem trans {t t₁ t₀ : TypeEntry} (h : t.StemsFrom t₁) (h₁ : t₁.StemsFrom t₀) :
    t.StemsFrom t₀ := by
  refine ⟨h.1.trans h₁.1, fun m hm ↦ ?_⟩
  obtain ⟨m₁, hm₁, heq⟩ := h.2 m hm
  obtain ⟨m₀, hm₀, heq₁⟩ := h₁.2 m₁ hm₁
  exact ⟨m₀, hm₀, heq.trans heq₁⟩

theorem id_eq {t t₀ : TypeEntry} (h : t.StemsFrom t₀) : t.id = t₀.id :=
  congrArg (fun t ↦ t.id) h.1

end TypeEntry.StemsFrom

/-! ### Changes of types -/

namespace Assemblies

theorem exists_stemsFrom_of_mem_mapTypes {f : TypeEntry → TypeEntry}
    (hf : ∀ t, (f t).StemsFrom t) {as : List AssemblyEntry} {t : TypeEntry}
    (ht : t ∈ types (mapTypes f as)) : ∃ t₀ ∈ types as, t.StemsFrom t₀ := by
  rw [types_mapTypes] at ht
  obtain ⟨t₀, ht₀, rfl⟩ := List.mem_map.mp ht
  exact ⟨t₀, ht₀, hf t₀⟩

/-- A type after a change of one type was there before or is the changed one. -/
theorem exists_of_mem_modifyType {f : TypeEntry → TypeEntry} {as : List AssemblyEntry}
    {id : TypeId} {t : TypeEntry} (ht : t ∈ types (modifyType id f as)) :
    ∃ t₀ ∈ types as, t = t₀ ∨ t = f t₀ := by
  unfold modifyType at ht
  split at ht
  · exact ⟨t, ht, Or.inl rfl⟩
  · obtain ⟨b, hb, htb⟩ := mem_types.mp ht
    obtain ⟨a, ha, heq | rfl⟩ := exists_of_mem_modify hb
    · exact ⟨t, mem_types.mpr ⟨a, ha, heq ▸ htb⟩, Or.inl rfl⟩
    · obtain ⟨t₀, ht₀, heq⟩ := exists_of_mem_modify htb
      exact ⟨t₀, mem_types.mpr ⟨a, ha, ht₀⟩, heq⟩

theorem exists_stemsFrom_of_mem_modifyType {f : TypeEntry → TypeEntry}
    (hf : ∀ t, (f t).StemsFrom t) {as : List AssemblyEntry} {id : TypeId} {t : TypeEntry}
    (ht : t ∈ types (modifyType id f as)) : ∃ t₀ ∈ types as, t.StemsFrom t₀ := by
  obtain ⟨t₀, ht₀, rfl | rfl⟩ := exists_of_mem_modifyType ht
  · exact ⟨t, ht₀, .refl t⟩
  · exact ⟨t₀, ht₀, hf t₀⟩

end Assemblies

/-! ### Inherited comments -/

namespace Inheritance

open Assemblies

variable {index : TypeIndex} {files : List Comments} {as : List AssemblyEntry}

theorem outline_inheritMember (m : MemberEntry) :
    (inheritMember index files as m).outline = m.outline := by
  unfold inheritMember
  split_ifs
  · cases m.overrides.bind (inherited? index files as) with
    | none => rfl
    | some c => exact MemberEntry.outline_adopt c m
  · rfl

theorem toList_members_inheritType (t : TypeEntry) :
    (inheritType index files as t).members.toList =
      t.members.toList.map (inheritMember index files as) :=
  MemberTable.toList_mapGroups _ _

theorem stemsFrom_inheritType (t : TypeEntry) : (inheritType index files as t).StemsFrom t := by
  refine ⟨rfl, fun m hm ↦ ?_⟩
  rw [toList_members_inheritType] at hm
  obtain ⟨m₀, hm₀, rfl⟩ := List.mem_map.mp hm
  exact ⟨m₀, hm₀, outline_inheritMember m₀⟩

/-- A step of the sweep. -/
theorem propagateAlong_cons (id : TypeId) (ids : List TypeId) :
    propagateAlong index files (id :: ids) as =
      propagateAlong index files ids (modifyType id (inheritType index files as) as) := rfl

/-- The sweep changes nothing but members. -/
theorem outline_propagateAlong (ids : List TypeId) :
    outline (propagateAlong index files ids as) = outline as := by
  induction ids generalizing as with
  | nil => rfl
  | cons id ids ih =>
    rw [propagateAlong_cons, ih, outline_modifyType fun t ↦ (stemsFrom_inheritType t).1]

theorem exists_stemsFrom_of_mem_propagateAlong {ids : List TypeId} {t : TypeEntry}
    (ht : t ∈ types (propagateAlong index files ids as)) : ∃ t₀ ∈ types as, t.StemsFrom t₀ := by
  induction ids generalizing as with
  | nil => exact ⟨t, ht, .refl t⟩
  | cons id ids ih =>
    obtain ⟨t₁, ht₁, h⟩ := ih ht
    obtain ⟨t₀, ht₀, h₁⟩ := exists_stemsFrom_of_mem_modifyType stemsFrom_inheritType ht₁
    exact ⟨t₀, ht₀, h.trans h₁⟩

end Inheritance

/-! ### Members left out, extensions and overloads -/

namespace TypeEntry.StemsFrom

theorem keepMembers (p : MemberEntry → Bool) (t : TypeEntry) :
    StemsFrom { t with members := t.members.mapGroups (List.filter p) } t := by
  refine ⟨rfl, fun m hm ↦ ⟨m, ?_, rfl⟩⟩
  obtain ⟨g, hg⟩ := MemberTable.mem_toList.mp hm
  rw [MemberTable.mapGroups, MemberTable.get_ofGroups] at hg
  exact MemberTable.mem_toList.mpr ⟨g, List.mem_of_mem_filter hg⟩

theorem extend (methods : List MethodRef) (t : TypeEntry) :
    StemsFrom { t with extensionMethods := methods } t :=
  ⟨rfl, fun m hm ↦ ⟨m, hm, rfl⟩⟩

theorem numberOverloads (t : TypeEntry) : StemsFrom t.numberOverloads t := by
  refine ⟨rfl, fun m hm ↦ ?_⟩
  obtain ⟨g, hg⟩ := MemberTable.mem_toList.mp hm
  by_cases hmethods : g = .methods
  · subst hmethods
    have hmem : m.unnumbered ∈ t.members.methods.map MemberEntry.unnumbered := by
      rw [← map_unnumbered_numbered]
      exact List.mem_map_of_mem hg
    obtain ⟨m₀, hm₀, heq⟩ := List.mem_map.mp hmem
    exact ⟨m₀, MemberTable.mem_toList.mpr ⟨.methods, hm₀⟩,
      (congrArg MemberEntry.outline heq).symm⟩
  · rw [t.get_numberOverloads_of_ne hmethods] at hg
    exact ⟨m, MemberTable.mem_toList.mpr ⟨g, hg⟩, rfl⟩

end TypeEntry.StemsFrom

/-! ### The passes together -/

namespace Reference

open Assemblies

variable {inclusion : Inclusion} {index : TypeIndex} {files : List Comments}
  {as : List AssemblyEntry}

/-- The passes keep the outline. -/
theorem outline_complete : outline (complete inclusion index files as) = outline as := by
  have hprop : outline (Inheritance.propagate index files as) = outline as :=
    Inheritance.outline_propagateAlong _
  rw [complete, outline_mapTypes fun t ↦ (TypeEntry.StemsFrom.numberOverloads t).1,
    Extension.attach, outline_mapTypes fun t ↦ (TypeEntry.StemsFrom.extend _ t).1]
  split_ifs
  · exact hprop
  · rw [Inheritance.dropUndocumented,
      outline_mapTypes fun t ↦ (TypeEntry.StemsFrom.keepMembers _ t).1]
    exact hprop

/-- Every type of the finished assemblies stems from one that was built. -/
theorem exists_stemsFrom_of_mem_complete {t : TypeEntry}
    (ht : t ∈ Assemblies.types (complete inclusion index files as)) :
    ∃ t₀ ∈ Assemblies.types as, t.StemsFrom t₀ := by
  obtain ⟨t₃, ht₃, h₃⟩ := exists_stemsFrom_of_mem_mapTypes .numberOverloads ht
  obtain ⟨t₂, ht₂, h₂⟩ := exists_stemsFrom_of_mem_mapTypes (fun t ↦ .extend _ t) ht₃
  have hdrop : ∃ t₁ ∈ Assemblies.types (Inheritance.propagate index files as),
      t₂.StemsFrom t₁ := by
    split_ifs at ht₂
    · exact ⟨t₂, ht₂, .refl t₂⟩
    · exact exists_stemsFrom_of_mem_mapTypes (.keepMembers _) ht₂
  obtain ⟨t₁, ht₁, h₁⟩ := hdrop
  obtain ⟨t₀, ht₀, h₀⟩ := Inheritance.exists_stemsFrom_of_mem_propagateAlong ht₁
  exact ⟨t₀, ht₀, ((h₃.trans h₂).trans h₁).trans h₀⟩

end Reference

end ApiDocs
