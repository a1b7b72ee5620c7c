import ApiDocs.Entry.Assembly
import Mathlib.Data.List.Forall2

/-!
# What building leaves in entries

Entries are built from declarations one by one. Whatever stands in a finished entry can be traced
back to the declaration it was built from: a member to a declared member, with its owner, its
comment and the stand-in for what it overrides; a type to the slot it was built for.

## Main results

* `MemberEntry.exists_of_build`: the parts of a member's entry.
* `MemberEntry.comment_of_build`: comments are those under the ids.
* `TypeEntry.exists_decl_of_mem_members`: every member of a type's entry was declared.
* `AssemblyEntry.exists_of_build`, `AssemblyEntry.build_of_parts`: the parts of an assembly's entry.
* `AssemblyEntry.exists_decl_build_of_getElem?`: every type stands in the slot it was built for.
-/

namespace ApiDocs

variable {inclusion : Inclusion} {filter : MemberFilter} {comments : Comments}

/-! ### Members -/

theorem BoundMember.exists_of_ofDecl {owner : MemberOwner} {reflectedType : String}
    {decl : MemberDecl} {b : BoundMember}
    (h : BoundMember.ofDecl comments owner reflectedType decl = .ok b) :
    ∃ docId, decl.docId = .ok docId ∧
      b = {
        owner, decl, reflectedType, docId
        comment := comments.get? docId
        signature := decl.signature reflectedType
        parameters := decl.parameters.map (Parameter.bind (comments.get? docId))
        genericParameters :=
          decl.genericParameters.map (GenericParameter.bind (comments.get? docId)) } := by
  obtain ⟨docId, hid, hb⟩ := bind_eq_ok_iff.mp h
  exact ⟨docId, hid, (Except.ok.inj hb).symm⟩

namespace MemberEntry

/-- A stand-in for an overridden member is built from the overridden declaration. -/
theorem exists_of_buildOverride {buildingType : String} {decl : MemberDecl}
    {o : Option BoundMember} (h : buildOverride comments buildingType decl = .ok o)
    {base : BoundMember} (hbase : o = some base) :
    ∃ baseDecl, decl.overridden? buildingType = some baseDecl ∧
      BoundMember.ofDecl comments (.synthetic baseDecl.declaringType) baseDecl.declaringType
        baseDecl = .ok base := by
  subst hbase
  unfold buildOverride at h
  cases ho : decl.overridden? buildingType with
  | none =>
    rw [ho] at h
    cases h
  | some baseDecl =>
    rw [ho] at h
    obtain ⟨b, hb, hbase⟩ := map_eq_ok_iff.mp h
    obtain rfl := Option.some.inj hbase
    exact ⟨baseDecl, rfl, hb⟩

/-- A member's entry is its declaration with its comment, and the stand-in for what it overrides. -/
theorem exists_of_build {owner : TypeId} {buildingType : String} {decl : MemberDecl}
    {m : MemberEntry} (h : build comments owner buildingType decl = .ok m) :
    ∃ bound overrides, BoundMember.ofDecl comments (.type owner) buildingType decl = .ok bound ∧
      buildOverride comments buildingType decl = .ok overrides ∧ m = { bound with overrides } := by
  obtain ⟨overrides, ho, h⟩ := bind_eq_ok_iff.mp h
  obtain ⟨bound, hb, h⟩ := bind_eq_ok_iff.mp h
  exact ⟨bound, overrides, hb, ho, (Except.ok.inj h).symm⟩

/-- The comments of a member and of the stand-in for what it overrides are those under their ids. -/
theorem comment_of_build {owner : TypeId} {buildingType : String} {decl : MemberDecl}
    {m : MemberEntry} (h : build comments owner buildingType decl = .ok m) :
    m.comment = comments.get? m.docId ∧
      ∀ base, m.overrides = some base → base.comment = comments.get? base.docId := by
  obtain ⟨bound, overrides, hb, ho, rfl⟩ := exists_of_build h
  obtain ⟨docId, -, rfl⟩ := BoundMember.exists_of_ofDecl hb
  refine ⟨rfl, fun base hbase ↦ ?_⟩
  obtain ⟨baseDecl, -, hbaseDecl⟩ := exists_of_buildOverride ho hbase
  obtain ⟨baseId, -, rfl⟩ := BoundMember.exists_of_ofDecl hbaseDecl
  rfl

theorem decl_of_build {owner : TypeId} {buildingType : String} {decl : MemberDecl}
    {m : MemberEntry} (h : build comments owner buildingType decl = .ok m) : m.decl = decl := by
  obtain ⟨bound, overrides, hb, -, rfl⟩ := exists_of_build h
  obtain ⟨docId, -, rfl⟩ := BoundMember.exists_of_ofDecl hb
  rfl

theorem owner_of_build {owner : TypeId} {buildingType : String} {decl : MemberDecl}
    {m : MemberEntry} (h : build comments owner buildingType decl = .ok m) :
    m.owner = .type owner := by
  obtain ⟨bound, overrides, hb, -, rfl⟩ := exists_of_build h
  obtain ⟨docId, -, rfl⟩ := BoundMember.exists_of_ofDecl hb
  rfl

theorem isInherited_of_build {owner : TypeId} {buildingType : String} {decl : MemberDecl}
    {m : MemberEntry} (h : build comments owner buildingType decl = .ok m) :
    m.isInherited = false := by
  obtain ⟨bound, overrides, hb, -, rfl⟩ := exists_of_build h
  obtain ⟨docId, -, rfl⟩ := BoundMember.exists_of_ofDecl hb
  rfl

/-- A type declares the members on it that are linked to members they override. -/
theorem declaringType_of_build {owner : TypeId} {buildingType : String} {decl : MemberDecl}
    {m : MemberEntry} (h : build comments owner buildingType decl = .ok m)
    (hlinked : m.overrides.isSome = true) : m.decl.declaringType = buildingType := by
  obtain ⟨bound, overrides, hb, ho, rfl⟩ := exists_of_build h
  obtain ⟨docId, -, rfl⟩ := BoundMember.exists_of_ofDecl hb
  obtain ⟨base, hbase⟩ := Option.isSome_iff_exists.mp hlinked
  obtain ⟨baseDecl, hoverridden, -⟩ := exists_of_buildOverride ho hbase
  unfold MemberDecl.overridden? at hoverridden
  split_ifs at hoverridden with hdeclares
  exact hdeclares

end MemberEntry

/-! ### Types -/

namespace MemberTable

theorem toList_mapGroups (f : MemberEntry → MemberEntry) (t : MemberTable) :
    (t.mapGroups (List.map f)).toList = t.toList.map f := by
  simp only [mapGroups, ofGroups, get, toList, List.map_append]

theorem toList_mapGroups_filter (p : MemberEntry → Bool) (t : MemberTable) :
    (t.mapGroups (List.filter p)).toList = t.toList.filter p := by
  simp only [mapGroups, ofGroups, get, toList, List.filter_append]

/-- Members that agree group by group agree altogether. -/
theorem map_toList_congr {β : Type} {f : MemberEntry → β} {t u : MemberTable}
    (h : ∀ g, (t.get g).map f = (u.get g).map f) : t.toList.map f = u.toList.map f := by
  simp only [toList, List.map_append]
  exact congrArg₂ _ (congrArg₂ _ (congrArg₂ _ (congrArg₂ _ (congrArg₂ _
    (h .constructors) (h .fields)) (h .properties)) (h .methods)) (h .operators)) (h .events)

theorem mem_toList {t : MemberTable} {m : MemberEntry} : m ∈ t.toList ↔ ∃ g, m ∈ t.get g := by
  simp only [toList, List.mem_append]
  constructor
  · rintro (((((h | h) | h) | h) | h) | h)
    · exact ⟨.constructors, h⟩
    · exact ⟨.fields, h⟩
    · exact ⟨.properties, h⟩
    · exact ⟨.methods, h⟩
    · exact ⟨.operators, h⟩
    · exact ⟨.events, h⟩
  · rintro ⟨g, h⟩
    cases g <;> simp only [get] at h <;> simp only [h, true_or, or_true]

theorem mem_toList_ofList {entries : List MemberEntry} {m : MemberEntry} :
    m ∈ (ofList entries).toList ↔ m ∈ entries := by
  rw [mem_toList]
  simp only [ofList, get_ofGroups, List.mem_mergeSort, List.mem_filter, beq_iff_eq]
  exact ⟨fun ⟨_, h, _⟩ ↦ h, fun h ↦ ⟨m.decl.group, h, rfl⟩⟩

end MemberTable

namespace TypeEntry

/-- Every member that a type shows was built from a declared member. -/
theorem exists_decl_of_mem_memberEntries {id : TypeId} {fullName : String}
    {decls : List MemberDecl} {entries : List MemberEntry}
    (h : memberEntries inclusion filter comments id fullName decls = .ok entries) {m : MemberEntry}
    (hm : m ∈ entries) : ∃ d ∈ decls, MemberEntry.build comments id fullName d = .ok m := by
  induction decls generalizing entries with
  | nil =>
    rw [memberEntries] at h
    obtain rfl := Except.ok.inj h
    cases hm
  | cons d ds ih =>
    rw [memberEntries] at h
    split_ifs at h with hacc
    · obtain ⟨e, he, hbuild⟩ := ih h hm
      exact ⟨e, List.mem_cons_of_mem d he, hbuild⟩
    · obtain ⟨entry, hentry, h⟩ := bind_eq_ok_iff.mp h
      obtain ⟨kept, -, h⟩ := bind_eq_ok_iff.mp h
      obtain ⟨rest, hrest, h⟩ := bind_eq_ok_iff.mp h
      have hsub : m = entry ∨ m ∈ rest := by
        obtain rfl := Except.ok.inj h
        split_ifs at hm
        · exact List.mem_cons.mp hm
        · exact Or.inr hm
      rcases hsub with rfl | hm
      · exact ⟨d, List.mem_cons_self, hentry⟩
      · obtain ⟨e, he, hbuild⟩ := ih hrest hm
        exact ⟨e, List.mem_cons_of_mem d he, hbuild⟩

/-- The parts of a type's entry. -/
theorem exists_of_build {id : TypeId} {decl : TypeDecl} {t : TypeEntry}
    (h : build inclusion filter comments id decl = .ok t) :
    ∃ entries, memberEntries inclusion filter comments id decl.fullName decl.members = .ok entries ∧
      t = {
        id
        header := decl.toTypeHeader
        comment := comments.get? (TypeName.docId decl.fullName)
        genericParameters := decl.genericParameters.map
          (GenericParameter.bind (comments.get? (TypeName.docId decl.fullName)))
        members := .ofList entries } := by
  obtain ⟨entries, he, h⟩ := bind_eq_ok_iff.mp h
  exact ⟨entries, he, (Except.ok.inj h).symm⟩

theorem exists_decl_of_mem_members {id : TypeId} {decl : TypeDecl} {t : TypeEntry}
    (h : build inclusion filter comments id decl = .ok t) {m : MemberEntry}
    (hm : m ∈ t.members.toList) :
    ∃ d ∈ decl.members, MemberEntry.build comments id decl.fullName d = .ok m := by
  obtain ⟨entries, he, rfl⟩ := exists_of_build h
  exact exists_decl_of_mem_memberEntries he (MemberTable.mem_toList_ofList.mp hm)

end TypeEntry

/-! ### Assemblies -/

namespace AssemblyEntry

variable {id : AssemblyId} {source : AssemblySource} {a : AssemblyEntry}

/-- Types are built one by one, each for its slot. -/
theorem exists_build_of_buildTypes {slot : Nat} {decls : List TypeDecl} {built : List TypeEntry}
    (h : buildTypes inclusion filter comments id slot decls = .ok built) {j : Nat} {t : TypeEntry}
    (ht : built[j]? = some t) :
    ∃ d, decls[j]? = some d ∧
      TypeEntry.build inclusion filter comments (.ofSlot id (slot + j)) d = .ok t := by
  induction decls generalizing slot built j with
  | nil =>
    rw [buildTypes] at h
    obtain rfl := Except.ok.inj h
    cases ht
  | cons d ds ih =>
    obtain ⟨entry, hentry, h⟩ := bind_eq_ok_iff.mp h
    obtain ⟨rest, hrest, h⟩ := bind_eq_ok_iff.mp h
    obtain rfl := Except.ok.inj h
    cases j with
    | zero =>
      obtain rfl := Option.some.inj ht
      exact ⟨d, rfl, hentry⟩
    | succ j =>
      obtain ⟨e, he, hbuild⟩ := ih hrest ht
      refine ⟨e, he, ?_⟩
      rwa [Nat.add_assoc, Nat.add_comm 1 j] at hbuild

/-- The parts of an assembly's entry. -/
theorem exists_of_build (h : build inclusion filter id source comments = .ok a) :
    ∃ declared built known, source.load = .ok declared ∧ TypeDecl.validate declared = .ok () ∧
      buildTypes inclusion filter comments id 0 (select inclusion comments declared) = .ok built ∧
      knownIds declared = .ok known ∧
      a = {
        id
        name := source.name
        types := link built
        namespaces := listNamespaces comments (link built)
        diagnostics := unbound source.name known comments } := by
  obtain ⟨declared, hload, h⟩ := bind_eq_ok_iff.mp h
  obtain ⟨⟨⟩, hvalid, h⟩ := bind_eq_ok_iff.mp h
  obtain ⟨built, hbuilt, h⟩ := bind_eq_ok_iff.mp h
  obtain ⟨known, hknown, h⟩ := bind_eq_ok_iff.mp h
  exact ⟨declared, built, known, hload, mapError_eq_ok_iff.mp hvalid,
    mapError_eq_ok_iff.mp hbuilt, mapError_eq_ok_iff.mp hknown, (Except.ok.inj h).symm⟩

/-- An assembly is built from its parts. -/
theorem build_of_parts {declared : List TypeDecl} {built : List TypeEntry} {known : List String}
    (hload : source.load = .ok declared) (hvalid : TypeDecl.validate declared = .ok ())
    (hbuilt : buildTypes inclusion filter comments id 0 (select inclusion comments declared) =
      .ok built)
    (hknown : knownIds declared = .ok known) :
    build inclusion filter id source comments = .ok {
      id
      name := source.name
      types := link built
      namespaces := listNamespaces comments (link built)
      diagnostics := unbound source.name known comments } := by
  refine bind_eq_ok_iff.mpr ⟨declared, hload, bind_eq_ok_iff.mpr ⟨(), ?_,
    bind_eq_ok_iff.mpr ⟨built, ?_, bind_eq_ok_iff.mpr ⟨known, ?_, rfl⟩⟩⟩⟩
  · exact mapError_eq_ok_iff.mpr hvalid
  · exact mapError_eq_ok_iff.mpr hbuilt
  · exact mapError_eq_ok_iff.mpr hknown

theorem id_of_build (h : build inclusion filter id source comments = .ok a) : a.id = id := by
  obtain ⟨_, _, _, -, -, -, -, rfl⟩ := exists_of_build h
  rfl

/-- Every type of an assembly was built from a declared type for the slot it stands in, and linked
afterwards. -/
theorem exists_decl_build_of_getElem? (h : build inclusion filter id source comments = .ok a)
    {j : Nat} {t : TypeEntry} (ht : a.types[j]? = some t) :
    ∃ declared, source.load = .ok declared ∧ ∃ d ∈ declared, ∃ u,
      TypeEntry.build inclusion filter comments (.ofSlot id j) d = .ok u ∧
      t = { u with declaringType := t.declaringType, nestedTypes := t.nestedTypes } := by
  obtain ⟨declared, built, known, hload, -, hbuilt, -, rfl⟩ := exists_of_build h
  rw [link, List.getElem?_map] at ht
  obtain ⟨u, hu, rfl⟩ := Option.map_eq_some_iff.mp ht
  obtain ⟨d, hd, hbuild⟩ := exists_build_of_buildTypes hbuilt hu
  rw [Nat.zero_add] at hbuild
  exact ⟨declared, hload, d, List.mem_of_mem_filter (List.mem_of_getElem? hd), u, hbuild, rfl⟩

/-- Every type of an assembly was built for the slot it stands in, and linked afterwards. -/
theorem exists_build_of_getElem? (h : build inclusion filter id source comments = .ok a) {j : Nat}
    {t : TypeEntry} (ht : a.types[j]? = some t) :
    ∃ d u, TypeEntry.build inclusion filter comments (.ofSlot id j) d = .ok u ∧
      t = { u with declaringType := t.declaringType, nestedTypes := t.nestedTypes } := by
  obtain ⟨-, -, d, -, u, hbuild, heq⟩ := exists_decl_build_of_getElem? h ht
  exact ⟨d, u, hbuild, heq⟩

theorem id_of_getElem? (h : build inclusion filter id source comments = .ok a) {j : Nat}
    {t : TypeEntry} (ht : a.types[j]? = some t) : t.id = .ofSlot id j := by
  obtain ⟨d, u, hu, ht⟩ := exists_build_of_getElem? h ht
  obtain ⟨entries, -, rfl⟩ := TypeEntry.exists_of_build hu
  rw [ht]

/-- Every member of a type of an assembly was built from a declared member. -/
theorem exists_build_of_mem_members (h : build inclusion filter id source comments = .ok a)
    {t : TypeEntry} (ht : t ∈ a.types) {m : MemberEntry} (hm : m ∈ t.members.toList) :
    ∃ d, MemberEntry.build comments t.id t.fullName d = .ok m := by
  obtain ⟨j, hj⟩ := List.getElem?_of_mem ht
  obtain ⟨decl, u, hu, heq⟩ := exists_build_of_getElem? h hj
  have hid : t.id = .ofSlot id j := id_of_getElem? h hj
  have hname : t.fullName = decl.fullName := by
    obtain ⟨entries, -, rfl⟩ := TypeEntry.exists_of_build hu
    rw [heq]
    rfl
  have hmu : m ∈ u.members.toList := by
    rwa [heq] at hm
  obtain ⟨d, -, hd⟩ := TypeEntry.exists_decl_of_mem_members hu hmu
  exact ⟨d, by rw [hid, hname, hd]⟩

end AssemblyEntry

end ApiDocs
