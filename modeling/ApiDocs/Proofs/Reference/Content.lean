import ApiDocs.Decl.Assemble
import ApiDocs.Proofs.Entry.Overloads
import ApiDocs.Proofs.Reference.Binding
import ApiDocs.Proofs.Reference.Passes
import Mathlib.Tactic.MkIffOfInductiveProp

/-!
# The members of a finished reference

Whether a reference shows a member is decided twice: when the entry of its type is built, and after
comments have been inherited across assemblies. The passes in between and afterwards work on six
groups of members that are already sorted. In the end every type shows exactly the members that meet
the conditions of both decisions, each once, in its group and in order.

Types are followed through the passes by their places, the position of the assembly and the slot,
so that nothing has to be assumed about identifiers.

## Main definitions

* `Assemblies.typeAt?`: the type in a place.
* `TypeEntry.mapMembers`: a change of all members of a type.
* `Reference.Inherits`: what inheritance makes of the members of the type in a place.
* `Reference.Shown`, `Reference.shown?`: the conditions under which a declared member is shown, and
  its final entry.

## Main results

* `Inheritance.exists_typeAt?_propagate`: inheritance changes the members of a type one by one.
* `Reference.exists_typeAt?_complete`: what all passes make of a type.
* `Reference.exists_lists_of_build`: the members of every type of a finished reference.
-/

namespace ApiDocs

/-! ### Types by place -/

namespace Assemblies

/-- The type in a slot of the assembly at a position. -/
def typeAt? (as : List AssemblyEntry) (i j : Nat) : Option TypeEntry :=
  as[i]?.bind fun a ↦ a.types[j]?

theorem typeAt?_mapTypes (f : TypeEntry → TypeEntry) (as : List AssemblyEntry) (i j : Nat) :
    typeAt? (mapTypes f as) i j = (typeAt? as i j).map f := by
  rw [typeAt?, typeAt?, mapTypes, List.getElem?_map]
  cases as[i]? with
  | none => rfl
  | some a => exact List.getElem?_map

/-- A change of one type changes the type in the place that its identifier leads to. -/
theorem typeAt?_modifyType_eq_ite (id : TypeId) (f : TypeEntry → TypeEntry)
    (as : List AssemblyEntry) (i j : Nat) :
    typeAt? (modifyType id f as) i j =
      if position? as id.assembly = some i ∧ id.slot.toNat = j then (typeAt? as i j).map f
      else typeAt? as i j := by
  unfold modifyType
  cases position? as id.assembly with
  | none => rw [if_neg fun h ↦ Option.some_ne_none i h.1.symm]
  | some k =>
    simp only [typeAt?, Option.some.injEq]
    by_cases hk : k = i
    · subst hk
      rw [List.getElem?_modify_eq]
      cases as[k]? with
      | none => exact (ite_self _).symm
      | some a =>
        by_cases hj : id.slot.toNat = j
        · subst hj
          rw [if_pos ⟨rfl, rfl⟩]
          exact List.getElem?_modify_eq f _ a.types
        · rw [if_neg fun h ↦ hj h.2]
          exact List.getElem?_modify_ne f a.types hj
    · rw [List.getElem?_modify_ne _ _ hk, if_neg fun h ↦ hk h.1]

/-- A change of one type changes the type in a place or leaves it as it is. -/
theorem typeAt?_modifyType (id : TypeId) (f : TypeEntry → TypeEntry) (as : List AssemblyEntry)
    (i j : Nat) :
    typeAt? (modifyType id f as) i j = typeAt? as i j ∨
      typeAt? (modifyType id f as) i j = (typeAt? as i j).map f := by
  rw [typeAt?_modifyType_eq_ite]
  split_ifs
  · exact Or.inr rfl
  · exact Or.inl rfl

end Assemblies

/-! ### Members one by one -/

/-- A type with all its members changed in the same way. -/
def TypeEntry.mapMembers (f : MemberEntry → MemberEntry) (t : TypeEntry) : TypeEntry :=
  { t with members := t.members.mapGroups (List.map f) }

theorem TypeEntry.mapMembers_mapMembers (f g : MemberEntry → MemberEntry) (t : TypeEntry) :
    (t.mapMembers f).mapMembers g = t.mapMembers (g ∘ f) := by
  simp only [mapMembers, MemberTable.mapGroups, MemberTable.get_ofGroups, List.map_map]

theorem TypeEntry.mapMembers_self (t : TypeEntry) : t.mapMembers (fun m ↦ m) = t := by
  simp only [mapMembers, MemberTable.mapGroups, List.map_id']
  rfl

/-- A change of members that touches nothing but comments and the texts of comments. -/
structure ChangesComments (f : MemberEntry → MemberEntry) : Prop where
  outline_eq : ∀ m, (f m).outline = m.outline
  ordinal_eq : ∀ m, (f m).ordinal = m.ordinal

namespace ChangesComments

theorem comp {f g : MemberEntry → MemberEntry} (hg : ChangesComments g) (hf : ChangesComments f) :
    ChangesComments (g ∘ f) :=
  ⟨fun m ↦ (hg.outline_eq (f m)).trans (hf.outline_eq m),
    fun m ↦ (hg.ordinal_eq (f m)).trans (hf.ordinal_eq m)⟩

theorem decl_eq {f : MemberEntry → MemberEntry} (hf : ChangesComments f) (m : MemberEntry) :
    (f m).decl = m.decl :=
  congrArg (fun m ↦ m.decl) (hf.outline_eq m)

theorem signature_eq {f : MemberEntry → MemberEntry} (hf : ChangesComments f) (m : MemberEntry) :
    (f m).signature = m.signature :=
  congrArg (fun m ↦ m.signature) (hf.outline_eq m)

end ChangesComments

namespace Inheritance

open Assemblies

variable {index : TypeIndex} {files : List Comments}

theorem changesComments_inheritMember (as : List AssemblyEntry) :
    ChangesComments (inheritMember index files as) := by
  refine ⟨outline_inheritMember, fun m ↦ ?_⟩
  unfold inheritMember
  split_ifs
  · cases m.overrides.bind (inherited? index files as) <;> rfl
  · rfl

/-- The sweep changes the members of the type in a place one by one. -/
theorem exists_typeAt?_propagateAlong (ids : List TypeId) (as : List AssemblyEntry) (i j : Nat) :
    ∃ f, ChangesComments f ∧
      typeAt? (propagateAlong index files ids as) i j =
        (typeAt? as i j).map (TypeEntry.mapMembers f) := by
  induction ids generalizing as with
  | nil =>
    refine ⟨fun m ↦ m, ⟨fun _ ↦ rfl, fun _ ↦ rfl⟩, ?_⟩
    rw [show TypeEntry.mapMembers (fun m ↦ m) = fun t ↦ t from funext TypeEntry.mapMembers_self,
      Option.map_id']
    rfl
  | cons id ids ih =>
    obtain ⟨g, hg, hrest⟩ := ih (modifyType id (inheritType index files as) as)
    rw [propagateAlong_cons, hrest]
    rcases typeAt?_modifyType id (inheritType index files as) as i j with heq | heq
    · exact ⟨g, hg, by rw [heq]⟩
    · refine ⟨g ∘ inheritMember index files as, hg.comp (changesComments_inheritMember as), ?_⟩
      rw [heq, Option.map_map]
      refine congrArg (Option.map · _) (funext fun t ↦ ?_)
      exact TypeEntry.mapMembers_mapMembers _ _ t

theorem exists_typeAt?_propagate (index : TypeIndex) (files : List Comments)
    (as : List AssemblyEntry) (i j : Nat) :
    ∃ f, ChangesComments f ∧
      typeAt? (propagate index files as) i j = (typeAt? as i j).map (TypeEntry.mapMembers f) :=
  exists_typeAt?_propagateAlong _ as i j

end Inheritance

/-- The comments that an input comes with; none if they cannot be had. -/
def AssemblyInput.loaded (input : AssemblyInput) : Comments :=
  (CommentSource.loadAny (some input.source.name) input.comments).1.getD .empty

/-! ### All passes -/

theorem TypeEntry.get_numberOverloads (t : TypeEntry) (g : MemberGroup) :
    (t.numberOverloads.members.get g).map MemberEntry.unnumbered =
      (t.members.get g).map MemberEntry.unnumbered := by
  cases g with
  | constructors | fields | properties | operators | events => rfl
  | methods => exact map_unnumbered_numbered t.members.methods

namespace Reference

open Assemblies

/-- What the passes make of the type in a place, given the change of the members' comments that
inheritance leads to: members without a comment are left out if the switches say so, and then
methods are numbered. -/
theorem exists_numberOverloads_of_complete (inclusion : Inclusion) {index : TypeIndex}
    {files : List Comments} {as : List AssemblyEntry} {i j : Nat} {f : MemberEntry → MemberEntry}
    (hprop : typeAt? (Inheritance.propagate index files as) i j =
      (typeAt? as i j).map (TypeEntry.mapMembers f))
    {t : TypeEntry} (ht : t ∈ typeAt? (complete inclusion index files as) i j) :
    ∃ t₀ ∈ typeAt? as i j, ∃ u : TypeEntry, t = u.numberOverloads ∧ u.outline = t₀.outline ∧
      ∀ g, u.members.get g =
        ((t₀.members.get g).map f).filter fun m ↦
          m.comment.isSome || inclusion.undocumentedMembers := by
  rw [Option.mem_def, complete, typeAt?_mapTypes, Extension.attach, typeAt?_mapTypes] at ht
  obtain ⟨t₂, ht₂, rfl⟩ := Option.map_eq_some_iff.mp ht
  obtain ⟨t₁, ht₁, rfl⟩ := Option.map_eq_some_iff.mp ht₂
  cases hswitch : inclusion.undocumentedMembers with
  | true =>
    rw [if_pos hswitch, hprop] at ht₁
    obtain ⟨t₀, ht₀, rfl⟩ := Option.map_eq_some_iff.mp ht₁
    refine ⟨t₀, ht₀, _, rfl, rfl, fun g ↦ ?_⟩
    simp only [TypeEntry.mapMembers, MemberTable.mapGroups, MemberTable.get_ofGroups, Bool.or_true,
      List.filter_true]
  | false =>
    rw [if_neg (Bool.eq_false_iff.mp hswitch), Inheritance.dropUndocumented, typeAt?_mapTypes,
      hprop, Option.map_map] at ht₁
    obtain ⟨t₀, ht₀, rfl⟩ := Option.map_eq_some_iff.mp ht₁
    refine ⟨t₀, ht₀, _, rfl, rfl, fun g ↦ ?_⟩
    simp only [Function.comp_apply, TypeEntry.mapMembers, MemberTable.mapGroups,
      MemberTable.get_ofGroups, Bool.or_false]

/-- What the passes make of the type in a place, apart from numbers among overloads, given the
change of the members' comments that inheritance leads to. -/
theorem exists_typeAt?_of_complete (inclusion : Inclusion) {index : TypeIndex}
    {files : List Comments} {as : List AssemblyEntry} {i j : Nat} {f : MemberEntry → MemberEntry}
    (hprop : typeAt? (Inheritance.propagate index files as) i j =
      (typeAt? as i j).map (TypeEntry.mapMembers f))
    {t : TypeEntry} (ht : t ∈ typeAt? (complete inclusion index files as) i j) :
    ∃ t₀ ∈ typeAt? as i j, t.outline = t₀.outline ∧
      ∀ g, (t.members.get g).map MemberEntry.unnumbered =
        (((t₀.members.get g).map f).filter fun m ↦
          m.comment.isSome || inclusion.undocumentedMembers).map MemberEntry.unnumbered := by
  obtain ⟨t₀, ht₀, u, rfl, houtline, hget⟩ := exists_numberOverloads_of_complete inclusion hprop ht
  refine ⟨t₀, ht₀, houtline, fun g ↦ ?_⟩
  rw [TypeEntry.get_numberOverloads, hget]

/-- What the passes make of the type in a place, apart from numbers among overloads: a change of the
members' comments, after which members without a comment are left out if the switches say so. -/
theorem exists_typeAt?_complete (inclusion : Inclusion) (index : TypeIndex) (files : List Comments)
    (as : List AssemblyEntry) (i j : Nat) :
    ∃ f, ChangesComments f ∧
      typeAt? (Inheritance.propagate index files as) i j =
        (typeAt? as i j).map (TypeEntry.mapMembers f) ∧
      ∀ t ∈ typeAt? (complete inclusion index files as) i j, ∃ t₀ ∈ typeAt? as i j,
        t.outline = t₀.outline ∧
        ∀ g, (t.members.get g).map MemberEntry.unnumbered =
          (((t₀.members.get g).map f).filter fun m ↦
            m.comment.isSome || inclusion.undocumentedMembers).map MemberEntry.unnumbered := by
  obtain ⟨f, hf, hprop⟩ := Inheritance.exists_typeAt?_propagate index files as i j
  exact ⟨f, hf, hprop, fun t ht ↦ exists_typeAt?_of_complete inclusion hprop ht⟩

/-! ### Declared members and their final entries -/

/-- A function is what inheritance makes of the members of the type in a place, if it changes only
their comments and leads from the bound assemblies to those that the sweep leaves. -/
def Inherits (bound : List (AssemblyEntry × Comments)) (i j : Nat)
    (final : MemberEntry → MemberEntry) : Prop :=
  ChangesComments final ∧
    ∃ t₀ ∈ typeAt? (bound.map Prod.fst) i j,
      typeAt? (Inheritance.propagate (TypeIndex.ofAssemblies (bound.map Prod.fst))
        (bound.map Prod.snd) (bound.map Prod.fst)) i j = some (t₀.mapMembers final)

/-- The conditions under which a type shows a member that was found on it, given the member's entry
as it is first built and as inheritance leaves it. -/
@[mk_iff]
structure Shown (inclusion : Inclusion) (filter : MemberFilter) (comments : Comments)
    (m : MemberDecl) (built final : MemberEntry) : Prop where
  /-- A method with a special name is an operator. -/
  proper : m.isSpecialMethod = true → "op_".toList <+: m.name.toList
  /-- Hidden members are asked for. -/
  reachable : m.isHidden = true → inclusion.hiddenMembers = true
  /-- There is a comment under the member's id, or the member overrides another one, or undocumented
  members are asked for. -/
  hopeful : (comments.get? built.docId).isSome = true ∨ built.overrides.isSome = true ∨
    inclusion.undocumentedMembers = true
  /-- The caller's filter accepts the member as it is first built. -/
  accepted : filter built = .ok true
  /-- The member has a comment in the end, or undocumented members are asked for. -/
  documented : final.comment.isSome = true ∨ inclusion.undocumentedMembers = true

instance (inclusion : Inclusion) (filter : MemberFilter) (comments : Comments) (m : MemberDecl)
    (built final : MemberEntry) : Decidable (Shown inclusion filter comments m built final) :=
  decidable_of_iff _ (shown_iff inclusion filter comments m built final).symm

/-- The final entry of a member that was found on a type, if the type shows the member. -/
def shown? (inclusion : Inclusion) (filter : MemberFilter) (comments : Comments) (id : TypeId)
    (fullName : String) (final : MemberEntry → MemberEntry) (m : MemberDecl) :
    Option MemberEntry :=
  match MemberEntry.build comments id fullName m with
  | .error _ => none
  | .ok built =>
    if Shown inclusion filter comments m built (final built) then some (final built) else none

/-- The switches and the filter decide as the conditions say. -/
theorem keeps_eq_ok_true_iff {inclusion : Inclusion} {filter : MemberFilter} {m : MemberEntry} :
    TypeEntry.keeps inclusion filter m = .ok true ↔
      (m.decl.isHidden = true → inclusion.hiddenMembers = true) ∧
      (m.comment.isSome = true ∨ m.overrides.isSome = true ∨
        inclusion.undocumentedMembers = true) ∧
      filter m = .ok true := by
  have hadmits : TypeEntry.admits inclusion m = true ↔
      (m.decl.isHidden = true → inclusion.hiddenMembers = true) ∧
      (m.comment.isSome = true ∨ m.overrides.isSome = true ∨
        inclusion.undocumentedMembers = true) := by
    rw [TypeEntry.admits, Bool.and_eq_true, Bool.or_eq_true, Bool.or_eq_true, Bool.or_eq_true,
      Bool.not_eq_true', or_assoc, ← Bool.not_eq_true, ← imp_iff_not_or]
  unfold TypeEntry.keeps
  split_ifs with h
  · rw [hadmits] at h
    exact ⟨fun hf ↦ ⟨h.1, h.2, hf⟩, fun hf ↦ hf.2.2⟩
  · rw [hadmits] at h
    exact ⟨fun hf ↦ absurd (Except.ok.inj hf) Bool.false_ne_true,
      fun hf ↦ absurd ⟨hf.1, hf.2.1⟩ h⟩

/-- Two decisions together, one about the entry as it is first built and one about the final entry,
are the conditions under which a member is shown. -/
theorem shown_iff_keeps (inclusion : Inclusion) (filter : MemberFilter) {comments : Comments}
    {id : TypeId} {fullName : String} {m : MemberDecl} {built : MemberEntry} (final : MemberEntry)
    (hbuilt : MemberEntry.build comments id fullName m = .ok built) :
    Shown inclusion filter comments m built final ↔
      ¬ m.isAccessor = true ∧ TypeEntry.keeps inclusion filter built = .ok true ∧
      (final.comment.isSome || inclusion.undocumentedMembers) = true := by
  obtain ⟨bound, overrides, hbound, -, rfl⟩ := MemberEntry.exists_of_build hbuilt
  obtain ⟨docId, -, rfl⟩ := BoundMember.exists_of_ofDecl hbound
  have hproper : ¬ m.isAccessor = true ↔
      (m.isSpecialMethod = true → "op_".toList <+: m.name.toList) := by
    rw [MemberDecl.isAccessor, Bool.and_eq_true, Bool.not_eq_true', ← Bool.not_eq_true,
      m.hasOperatorName_iff, not_and_not_right]
  rw [shown_iff, keeps_eq_ok_true_iff, hproper, Bool.or_eq_true]
  constructor
  · rintro ⟨hp, hr, hh, ha, hd⟩
    exact ⟨hp, ⟨hr, hh, ha⟩, hd⟩
  · rintro ⟨hp, ⟨hr, hh, ha⟩, hd⟩
    exact ⟨hp, hr, hh, ha, hd⟩

/-- The final entries of the chosen members that have a comment, if they need one, are the final
entries of the members that are shown. -/
theorem filter_map_filterMap_chosen? {inclusion : Inclusion} {filter : MemberFilter}
    {comments : Comments} {id : TypeId} {fullName : String} (final : MemberEntry → MemberEntry)
    (decls : List MemberDecl) :
    ((decls.filterMap (TypeEntry.chosen? inclusion filter comments id fullName)).map final).filter
        (fun m ↦ m.comment.isSome || inclusion.undocumentedMembers) =
      decls.filterMap (shown? inclusion filter comments id fullName final) := by
  rw [List.map_filterMap, List.filter_filterMap]
  refine List.filterMap_congr fun m _ ↦ ?_
  unfold TypeEntry.chosen? shown?
  cases hbuilt : MemberEntry.build comments id fullName m with
  | error crash => split_ifs <;> rfl
  | ok built =>
    have hiff := shown_iff_keeps inclusion filter (final built) hbuilt
    by_cases hshown : Shown inclusion filter comments m built (final built)
    · obtain ⟨hproper, hkeeps, hdocumented⟩ := hiff.mp hshown
      rw [if_neg hproper]
      simp only [if_pos hkeeps, if_pos hshown, Option.map_some, Option.filter_some,
        if_pos hdocumented]
    · simp only [if_neg hshown]
      split_ifs with hproper hkeeps
      · rfl
      · have hdocumented :
            ¬((final built).comment.isSome || inclusion.undocumentedMembers) = true :=
          fun h ↦ hshown (hiff.mpr ⟨hproper, hkeeps, h⟩)
        rw [Option.map_some, Option.filter_some, if_neg hdocumented]
      · rfl

/-! ### From inputs to types -/

/-- A bound assembly was built from the input in the place that its identifier names, with the
comments that the input comes with. -/
theorem exists_place_of_mem_boundEntries {inclusion : Inclusion} {filter : MemberFilter}
    {inputs : List AssemblyInput} {p : AssemblyEntry × Comments}
    (h : p ∈ boundEntries (bindAll inclusion filter inputs)) :
    ∃ i input, inputs[i]? = some input ∧ p.1.id = .ofNat i ∧ p.2 = input.loaded ∧
      AssemblyEntry.build inclusion filter p.1.id input.source p.2 = .ok p.1 := by
  obtain ⟨b, hb, hp⟩ := List.mem_filterMap.mp h
  obtain ⟨⟨input, i⟩, hi, rfl⟩ := List.mem_map.mp hb
  obtain ⟨a, ha, rfl⟩ := Option.map_eq_some_iff.mp hp
  have hbuild := build_of_bind_entry ha
  have hid := AssemblyEntry.id_of_build hbuild
  refine ⟨i, input, List.mem_zipIdx_iff_getElem?.mp hi, hid, ?_, ?_⟩
  · unfold AssemblyInput.bind
    simp only
    split <;> rfl
  · rw [hid]
    exact hbuild

/-- A bound assembly was built from an input with the comments that the input comes with. -/
theorem exists_input_of_mem_boundEntries {inclusion : Inclusion} {filter : MemberFilter}
    {inputs : List AssemblyInput} {p : AssemblyEntry × Comments}
    (h : p ∈ boundEntries (bindAll inclusion filter inputs)) :
    ∃ input ∈ inputs, p.2 = input.loaded ∧
      AssemblyEntry.build inclusion filter p.1.id input.source p.2 = .ok p.1 := by
  obtain ⟨i, input, hinput, -, hcomments, hbuild⟩ := exists_place_of_mem_boundEntries h
  exact ⟨input, List.mem_of_getElem? hinput, hcomments, hbuild⟩

/-- A type of an assembly that was built shows the chosen members of a declared type. -/
theorem exists_decl_of_getElem? {inclusion : Inclusion} {filter : MemberFilter} {id : AssemblyId}
    {source : AssemblySource} {comments : Comments} {a : AssemblyEntry}
    (h : AssemblyEntry.build inclusion filter id source comments = .ok a) {j : Nat} {t : TypeEntry}
    (ht : a.types[j]? = some t) :
    ∃ declared, source.load = .ok declared ∧ ∃ d ∈ declared, t.header = d.toTypeHeader ∧
      t.members = .ofList
        (d.members.filterMap (TypeEntry.chosen? inclusion filter comments t.id d.fullName)) := by
  have hid : t.id = .ofSlot id j := AssemblyEntry.id_of_getElem? h ht
  obtain ⟨declared, hload, d, hd, u, hbuild, heq⟩ :=
    AssemblyEntry.exists_decl_build_of_getElem? h ht
  obtain ⟨entries, hentries, rfl⟩ := TypeEntry.exists_of_build hbuild
  rw [← hid] at hentries
  refine ⟨declared, hload, d, hd, by rw [heq], ?_⟩
  rw [← TypeEntry.memberEntries_eq_filterMap hentries, heq]

theorem name_eq_of_outline_eq {as bs : List AssemblyEntry} (h : outline as = outline bs) {i : Nat}
    {a b : AssemblyEntry} (ha : as[i]? = some a) (hb : bs[i]? = some b) : b.name = a.name := by
  have hnames := congrArg (fun cs ↦ cs[i]?.map AssemblyEntry.name) h
  simp only [outline, mapTypes, List.getElem?_map, ha, hb, Option.map_some] at hnames
  exact (Option.some.inj hnames).symm

theorem map_unnumbered_eq {entries : List MemberEntry}
    (h : ∀ m ∈ entries, m.ordinal = none) :
    entries.map MemberEntry.unnumbered = entries := by
  have hself : ∀ m ∈ entries, m.unnumbered = m := fun m hm ↦ by
    rw [MemberEntry.unnumbered, ← h m hm]
  rw [List.map_congr_left hself, List.map_id']

theorem ordinal_of_mem_ofList_chosen? {inclusion : Inclusion} {filter : MemberFilter}
    {comments : Comments} {id : TypeId} {fullName : String} {decls : List MemberDecl}
    {g : MemberGroup} {m : MemberEntry}
    (h : m ∈ (MemberTable.ofList
      (decls.filterMap (TypeEntry.chosen? inclusion filter comments id fullName))).get g) :
    m.ordinal = none := by
  have hmem := MemberTable.mem_toList_ofList.mp (MemberTable.mem_toList.mpr ⟨g, h⟩)
  obtain ⟨d, -, hd⟩ := List.mem_filterMap.mp hmem
  unfold TypeEntry.chosen? at hd
  split_ifs at hd
  split at hd
  · cases hd
  · rename_i entry hentry
    split_ifs at hd
    obtain rfl := Option.some.inj hd
    obtain ⟨bound, overrides, -, -, rfl⟩ := MemberEntry.exists_of_build hentry
    rfl

/-- **The members of a finished reference.** Every type of a reference stems from a type that an
input declares, and its groups list exactly the final entries of those members found on it that meet
the conditions: every one once, in the group of its kind and in the order of the signatures' bytes,
and members with equal signatures in the order in which they were found. -/
theorem exists_lists_of_build {inclusion : Inclusion} {filter : MemberFilter}
    {inputs : List AssemblyInput} {namespaceComments : Option CommentSource} {r : Reference}
    (h : build inclusion filter inputs namespaceComments = .ok r) {i j : Nat} {a : AssemblyEntry}
    (ha : r.assemblies[i]? = some a) {t : TypeEntry} (ht : a.types[j]? = some t) :
    ∃ input ∈ inputs, input.source.name = a.name ∧
    ∃ declared, input.source.load = .ok declared ∧
    ∃ d ∈ declared, t.header = d.toTypeHeader ∧
    ∃ final, Inherits (boundEntries (bindAll inclusion filter inputs)) i j final ∧
      t.members.Lists
        (d.members.filterMap
          (shown? inclusion filter input.loaded t.id d.fullName final)) := by
  obtain ⟨-, rfl⟩ := build_eq_ok_iff.mp h
  set bound := boundEntries (bindAll inclusion filter inputs) with hbound
  obtain ⟨final, hfinal, hprop, hpasses⟩ := exists_typeAt?_complete inclusion
    (TypeIndex.ofAssemblies (bound.map Prod.fst)) (bound.map Prod.snd) (bound.map Prod.fst) i j
  have htype : typeAt? (complete inclusion (TypeIndex.ofAssemblies (bound.map Prod.fst))
      (bound.map Prod.snd) (bound.map Prod.fst)) i j = some t :=
    Option.bind_eq_some_iff.mpr ⟨a, ha, ht⟩
  obtain ⟨t₀, ht₀, houtline, hget⟩ := hpasses t htype
  obtain ⟨a₀, ha₀, hslot⟩ := Option.bind_eq_some_iff.mp ht₀
  obtain ⟨p, hp, rfl⟩ := List.mem_map.mp (List.mem_of_getElem? ha₀)
  obtain ⟨input, hinput, hcomments, hbuild⟩ := exists_input_of_mem_boundEntries hp
  obtain ⟨declared, hload, d, hd, hheader, hmembers⟩ := exists_decl_of_getElem? hbuild hslot
  have hname : p.1.name = a.name := name_eq_of_outline_eq outline_complete ha ha₀
  have hsource : p.1.name = input.source.name := by
    obtain ⟨_, _, _, -, -, -, -, heq⟩ := AssemblyEntry.exists_of_build hbuild
    rw [heq]
  refine ⟨input, hinput, hsource.symm.trans hname, declared, hload, d,
    hd, (congrArg (fun t ↦ t.header) houtline).trans hheader, final, ⟨hfinal, t₀, ht₀, ?_⟩, ?_⟩
  · rw [hprop, Option.mem_def.mp ht₀, Option.map_some]
  · have hid : t.id = t₀.id := congrArg (fun t ↦ t.id) houtline
    rw [hid, ← hcomments, ← filter_map_filterMap_chosen?]
    refine MemberTable.lists_of_get_eq hfinal.decl_eq hfinal.signature_eq fun g ↦ ?_
    rw [hget, hmembers]
    refine map_unnumbered_eq fun m hm ↦ ?_
    obtain ⟨m₀, hm₀, rfl⟩ := List.mem_map.mp (List.mem_of_mem_filter hm)
    rw [hfinal.ordinal_eq]
    exact ordinal_of_mem_ofList_chosen? hm₀

/-! ### A type with members of many kinds -/

/-- Discs override two members of shapes. They also have a method behind a property, a hidden field,
an operator, and two methods of their own. -/
def discDecl : TypeDecl where
  fullName := "Disc"
  baseType := some (.named "Shape" [])
  members :=
    [MemberDecl.operatorOf "Disc" "op_Equality" .void,
      (MemberDecl.methodOf "Disc" "Area" .void).withBaseDefinition
        (.methodOf "Shape" "Area" .void),
      (MemberDecl.propertyOf "Disc" "Edge" .void).withBaseDefinition
        (.propertyOf "Shape" "Edge" .void),
      .operatorOf "Disc" "get_Edge" .void,
      (MemberDecl.fieldOf "Disc" "edge" .void).withAccess .owner,
      .methodOf "Disc" "Draw" .void,
      .methodOf "Disc" "Roll" .void]

/-- Of the overridden members one has a comment, and of the members of discs all have one but the
overrides and the method `Roll`. -/
def discInputs : List AssemblyInput :=
  [⟨⟨"Shapes", .ok [(TypeDecl.classNamed "Shape").withMember (.methodOf "Shape" "Area" .void)]⟩,
      some (.memory (.ofList none [{ key := "T:Shape" }, { key := "M:Shape.Area" }]))⟩,
    ⟨⟨"Discs", .ok [discDecl]⟩,
      some (.memory (.ofList none
        [{ key := "T:Disc" }, { key := "M:Disc.op_Equality" },
          { key := "M:Disc.get_Edge" }, { key := "F:Disc.edge" }, { key := "M:Disc.Draw" }]))⟩]

/-- All members but those named `Draw`. -/
def notDrawn : MemberFilter :=
  fun m ↦ .ok (m.decl.name != "Draw")

/-- The assemblies of shapes and discs as they are bound. -/
def discs : List (AssemblyEntry × Comments) :=
  boundEntries (bindAll {} notDrawn discInputs)

theorem order_discs :
    Inheritance.order (TypeIndex.ofAssemblies (discs.map Prod.fst)) (discs.map Prod.fst) =
      [⟨⟨0⟩, 0⟩, ⟨⟨1⟩, 0⟩] := by
  have hdepths : ((Assemblies.types (discs.map Prod.fst)).map fun t ↦
      (Inheritance.baseDepth (TypeIndex.ofAssemblies (discs.map Prod.fst)) (discs.map Prod.fst) t,
        t.id)) = [(0, ⟨⟨0⟩, 0⟩), (1, ⟨⟨1⟩, 0⟩)] := by
    decide +kernel
  rw [Inheritance.order, hdepths]
  simp [List.mergeSort]

theorem exists_lists_of_build_discs :
    ∃ r a t, build {} notDrawn discInputs none = .ok r ∧ r.assemblies[1]? = some a ∧
      a.types[0]? = some t ∧
      t.members.toList.map (fun m ↦ (m.docId, m.isInherited)) =
        [("M:Disc.Area", true), ("M:Disc.op_Equality", false)] ∧
      ∃ input ∈ discInputs, input.source.name = a.name ∧
      ∃ declared, input.source.load = .ok declared ∧
      ∃ d ∈ declared, t.header = d.toTypeHeader ∧
      ∃ final, Inherits (boundEntries (bindAll {} notDrawn discInputs)) 1 0 final ∧
        t.members.Lists
          (d.members.filterMap (shown? {} notDrawn input.loaded t.id d.fullName final)) := by
  have hbuild : build {} notDrawn discInputs none =
      .ok (ofBindings {} (bindAll {} notDrawn discInputs) none) :=
    build_eq_ok_iff.mpr ⟨by decide +kernel, rfl⟩
  have hassemblies : (ofBindings {} (bindAll {} notDrawn discInputs) none).assemblies =
      mapTypes TypeEntry.numberOverloads
        (Extension.attach (TypeIndex.ofAssemblies (discs.map Prod.fst))
          (Inheritance.dropUndocumented
            (Inheritance.propagateAlong (TypeIndex.ofAssemblies (discs.map Prod.fst))
              (discs.map Prod.snd) [⟨⟨0⟩, 0⟩, ⟨⟨1⟩, 0⟩] (discs.map Prod.fst)))) := by
    rw [← order_discs]
    rfl
  have hmembers : (typeAt? (ofBindings {} (bindAll {} notDrawn discInputs) none).assemblies 1 0).map
      (fun t ↦ t.members.toList.map fun m ↦ (m.docId, m.isInherited)) =
        some [("M:Disc.Area", true), ("M:Disc.op_Equality", false)] := by
    rw [hassemblies]
    decide +kernel
  obtain ⟨t, htype, hlist⟩ := Option.map_eq_some_iff.mp hmembers
  obtain ⟨a, ha, ht⟩ := Option.bind_eq_some_iff.mp htype
  exact ⟨_, a, t, hbuild, ha, ht, hlist, exists_lists_of_build hbuild ha ht⟩

end Reference

end ApiDocs
