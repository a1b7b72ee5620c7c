import ApiDocs.Proofs.Entry.Building
import Mathlib.Data.List.Basic

/-!
# Renaming assemblies in entries

Entries point to types by identifiers, in which the number of an assembly occurs. If an assembly is
built under another number, its entry is the same up to the renaming of that number. Nothing else in
an entry depends on it, except that a caller's filter may look at the entries it is given.

## Main definitions

* `TypeId.rename`, `MemberEntry.rename`, `TypeEntry.rename`, `AssemblyEntry.rename`: entries with
  the numbers of assemblies renamed.
* `MemberFilter.renamed`: a filter that sees entries under their new names.

## Main results

* `TypeEntry.build_rename`: a type that is built under a new name.
* `AssemblyEntry.build_rename`: an assembly that is built under a new name.
-/

namespace ApiDocs

variable (ρ : AssemblyId → AssemblyId)

/-! ### Definitions -/

/-- An identifier of a type with its assembly renamed. -/
def TypeId.rename (id : TypeId) : TypeId :=
  { id with assembly := ρ id.assembly }

/-- A reference to a method with the assembly renamed. -/
def MethodRef.rename (ref : MethodRef) : MethodRef :=
  { ref with owner := ref.owner.rename ρ }

/-- An owner with its assembly renamed; a type that is known by name only has none. -/
def MemberOwner.rename : MemberOwner → MemberOwner
  | type id => type (id.rename ρ)
  | synthetic fullName => synthetic fullName

/-- A declared member with its comment, with the owner renamed. -/
def BoundMember.rename (m : BoundMember) : BoundMember :=
  { m with owner := m.owner.rename ρ }

/-- The entry of a member with all owners renamed. -/
def MemberEntry.rename (m : MemberEntry) : MemberEntry :=
  { m with
    toBoundMember := m.toBoundMember.rename ρ
    overrides := m.overrides.map (BoundMember.rename ρ) }

/-- The members of a type with all owners renamed. -/
def MemberTable.rename (t : MemberTable) : MemberTable :=
  t.mapGroups (List.map (MemberEntry.rename ρ))

/-- The entry of a type with all identifiers renamed. -/
def TypeEntry.rename (t : TypeEntry) : TypeEntry :=
  { t with
    id := t.id.rename ρ
    declaringType := t.declaringType.map (TypeId.rename ρ)
    nestedTypes := t.nestedTypes.map (TypeId.rename ρ)
    members := t.members.rename ρ
    extensionMethods := t.extensionMethods.map (MethodRef.rename ρ) }

/-- The entry of a namespace with all identifiers renamed. -/
def NamespaceEntry.rename (n : NamespaceEntry) : NamespaceEntry :=
  { n with types := n.types.map (TypeId.rename ρ) }

/-- The entry of an assembly with all identifiers renamed. -/
def AssemblyEntry.rename (a : AssemblyEntry) : AssemblyEntry :=
  { a with
    id := ρ a.id
    types := a.types.map (TypeEntry.rename ρ)
    namespaces := a.namespaces.map (NamespaceEntry.rename ρ) }

/-- A filter that sees entries under their new names. -/
def MemberFilter.renamed (filter : MemberFilter) : MemberFilter :=
  fun m ↦ filter (m.rename ρ)

variable {ρ}

theorem TypeId.rename_injective (h : Function.Injective ρ) :
    Function.Injective (TypeId.rename ρ) := by
  rintro ⟨a, i⟩ ⟨b, j⟩ heq
  simp only [TypeId.rename, TypeId.mk.injEq] at heq ⊢
  exact ⟨h heq.1, heq.2⟩

/-! ### Members -/

theorem BoundMember.ofDecl_rename (comments : Comments) (owner : MemberOwner)
    (reflectedType : String) (decl : MemberDecl) :
    BoundMember.ofDecl comments (owner.rename ρ) reflectedType decl =
      (BoundMember.ofDecl comments owner reflectedType decl).map (BoundMember.rename ρ) := by
  unfold BoundMember.ofDecl
  cases decl.docId <;> rfl

namespace MemberEntry

/-- Stand-ins for overridden members have no identifiers. -/
theorem map_rename_of_buildOverride {comments : Comments} {buildingType : String}
    {decl : MemberDecl} {o : Option BoundMember}
    (h : buildOverride comments buildingType decl = .ok o) :
    o.map (BoundMember.rename ρ) = o := by
  cases ho : o with
  | none => rfl
  | some base =>
    obtain ⟨baseDecl, -, hb⟩ := exists_of_buildOverride h ho
    obtain ⟨docId, -, rfl⟩ := BoundMember.exists_of_ofDecl hb
    rfl

theorem build_rename (comments : Comments) (owner : TypeId) (buildingType : String)
    (decl : MemberDecl) :
    build comments (owner.rename ρ) buildingType decl =
      (build comments owner buildingType decl).map (MemberEntry.rename ρ) := by
  have hbound : BoundMember.ofDecl comments (.type (owner.rename ρ)) buildingType decl =
      (BoundMember.ofDecl comments (.type owner) buildingType decl).map (BoundMember.rename ρ) :=
    BoundMember.ofDecl_rename comments (.type owner) buildingType decl
  unfold build
  cases ho : buildOverride comments buildingType decl with
  | error c => rfl
  | ok o =>
    rw [hbound]
    cases BoundMember.ofDecl comments (.type owner) buildingType decl with
    | error c => rfl
    | ok b =>
      change Except.ok _ = Except.ok _
      rw [rename, map_rename_of_buildOverride ho]

end MemberEntry

namespace MemberTable

theorem get_rename (t : MemberTable) (g : MemberGroup) :
    (t.rename ρ).get g = (t.get g).map (MemberEntry.rename ρ) :=
  get_ofGroups _ g

theorem toList_rename (t : MemberTable) :
    (t.rename ρ).toList = t.toList.map (MemberEntry.rename ρ) :=
  toList_mapGroups _ t

/-- A change of all groups that commutes with renaming their members. -/
theorem mapGroups_rename {f g : List MemberEntry → List MemberEntry}
    (h : ∀ ms, g (ms.map (MemberEntry.rename ρ)) = (f ms).map (MemberEntry.rename ρ))
    (t : MemberTable) : (t.rename ρ).mapGroups g = (t.mapGroups f).rename ρ := by
  have hgroup (group : MemberGroup) :
      g ((t.rename ρ).get group) = ((t.mapGroups f).get group).map (MemberEntry.rename ρ) := by
    rw [get_rename, h, mapGroups, get_ofGroups]
  exact congrArg ofGroups (funext hgroup)

theorem ofList_rename (entries : List MemberEntry) :
    ofList (entries.map (MemberEntry.rename ρ)) = (ofList entries).rename ρ := by
  have hsignature (a b : MemberEntry) :
      bySignature a b = bySignature (a.rename ρ) (b.rename ρ) := rfl
  have hgroup (g : MemberGroup) :
      ((entries.map (MemberEntry.rename ρ)).filter fun e ↦ e.decl.group == g).mergeSort
          bySignature =
        ((ofList entries).get g).map (MemberEntry.rename ρ) := by
    rw [ofList, get_ofGroups, List.filter_map]
    exact (List.map_mergeSort fun a _ b _ ↦ hsignature a b).symm
  exact congrArg ofGroups (funext hgroup)

end MemberTable

/-! ### Types -/

namespace TypeEntry

theorem admits_rename (inclusion : Inclusion) (m : MemberEntry) :
    admits inclusion (m.rename ρ) = admits inclusion m := by
  unfold admits MemberEntry.rename
  cases m.overrides <;> rfl

theorem keeps_rename (inclusion : Inclusion) (filter : MemberFilter) (m : MemberEntry) :
    keeps inclusion filter (m.rename ρ) = keeps inclusion (filter.renamed ρ) m := by
  unfold keeps
  rw [admits_rename]
  rfl

theorem memberEntries_rename (inclusion : Inclusion) (filter : MemberFilter) (comments : Comments)
    (id : TypeId) (fullName : String) (decls : List MemberDecl) :
    memberEntries inclusion filter comments (id.rename ρ) fullName decls =
      (memberEntries inclusion (filter.renamed ρ) comments id fullName decls).map
        (List.map (MemberEntry.rename ρ)) := by
  induction decls with
  | nil => rfl
  | cons d ds ih =>
    rw [memberEntries, memberEntries]
    split_ifs
    · exact ih
    · rw [MemberEntry.build_rename, ih]
      cases MemberEntry.build comments id fullName d with
      | error c => rfl
      | ok m =>
        change (keeps inclusion filter (m.rename ρ) >>= _) =
          Except.map _ (keeps inclusion (filter.renamed ρ) m >>= _)
        rw [keeps_rename]
        cases keeps inclusion (filter.renamed ρ) m with
        | error c => rfl
        | ok kept =>
          cases memberEntries inclusion (filter.renamed ρ) comments id fullName ds with
          | error c => rfl
          | ok rest => cases kept <;> rfl

/-- A type that is built under a new name has the entry of the type with its identifiers renamed. -/
theorem build_rename (inclusion : Inclusion) (filter : MemberFilter) (comments : Comments)
    (id : TypeId) (decl : TypeDecl) :
    build inclusion filter comments (id.rename ρ) decl =
      (build inclusion (filter.renamed ρ) comments id decl).map (TypeEntry.rename ρ) := by
  unfold build
  rw [memberEntries_rename]
  cases memberEntries inclusion (filter.renamed ρ) comments id decl.fullName decl.members with
  | error c => rfl
  | ok entries =>
    change Except.ok _ = Except.ok _
    rw [MemberTable.ofList_rename]
    rfl

end TypeEntry

/-! ### Assemblies -/

namespace AssemblyEntry

theorem buildTypes_rename (inclusion : Inclusion) (filter : MemberFilter) (comments : Comments)
    (id : AssemblyId) (slot : Nat) (decls : List TypeDecl) :
    buildTypes inclusion filter comments (ρ id) slot decls =
      (buildTypes inclusion (filter.renamed ρ) comments id slot decls).map
        (List.map (TypeEntry.rename ρ)) := by
  induction decls generalizing slot with
  | nil => rfl
  | cons d ds ih =>
    have hhead : TypeEntry.build inclusion filter comments (.ofSlot (ρ id) slot) d =
        (TypeEntry.build inclusion (filter.renamed ρ) comments (.ofSlot id slot) d).map
          (TypeEntry.rename ρ) :=
      TypeEntry.build_rename inclusion filter comments (.ofSlot id slot) d
    rw [buildTypes, buildTypes, hhead, ih]
    cases TypeEntry.build inclusion (filter.renamed ρ) comments (.ofSlot id slot) d with
    | error c => rfl
    | ok t =>
      cases buildTypes inclusion (filter.renamed ρ) comments id (slot + 1) ds <;> rfl

theorem declaringId?_rename (types : List TypeEntry) (t : TypeEntry) :
    declaringId? (types.map (TypeEntry.rename ρ)) (t.rename ρ) =
      (declaringId? types t).map (TypeId.rename ρ) := by
  unfold declaringId?
  rw [Option.map_bind]
  refine congrArg (Option.bind t.header.declaringType) (funext fun outer ↦ ?_)
  rw [List.find?_map, Option.map_map, Function.comp_apply, Option.map_map]
  rfl

/-- Sorting by name and listing identifiers commute with renaming, since names are kept. -/
theorem map_id_mergeSort_rename (types : List TypeEntry) :
    ((types.map (TypeEntry.rename ρ)).mergeSort byName).map TypeEntry.id =
      ((types.mergeSort byName).map TypeEntry.id).map (TypeId.rename ρ) := by
  have hname (a b : TypeEntry) : byName a b = byName (a.rename ρ) (b.rename ρ) := rfl
  rw [← List.map_mergeSort fun a _ b _ ↦ hname a b, List.map_map, List.map_map]
  rfl

theorem nestedIds_rename (types : List TypeEntry) (t : TypeEntry) :
    nestedIds (types.map (TypeEntry.rename ρ)) (t.rename ρ) =
      (nestedIds types t).map (TypeId.rename ρ) := by
  unfold nestedIds
  rw [List.filter_map, map_id_mergeSort_rename]
  rfl

theorem link_rename (types : List TypeEntry) :
    link (types.map (TypeEntry.rename ρ)) = (link types).map (TypeEntry.rename ρ) := by
  unfold link
  rw [List.map_map, List.map_map]
  refine List.map_congr_left fun t _ ↦ ?_
  rw [Function.comp_apply, declaringId?_rename, nestedIds_rename]
  rfl

theorem listNamespaces_rename (comments : Comments) (types : List TypeEntry) :
    listNamespaces comments (types.map (TypeEntry.rename ρ)) =
      (listNamespaces comments types).map (NamespaceEntry.rename ρ) := by
  have hnested : (fun t : TypeEntry ↦ !t.isNested) ∘ TypeEntry.rename ρ = fun t ↦ !t.isNested := by
    funext t
    exact congrArg not Option.isSome_map
  simp only [listNamespaces]
  rw [List.filter_map, hnested, List.map_map, List.map_map]
  refine List.map_congr_left fun name _ ↦ ?_
  rw [List.filter_map, map_id_mergeSort_rename]
  rfl

/-- An assembly that is built under a new number has the entry of the assembly with its identifiers
renamed, if the filter sees the new names. -/
theorem build_rename (inclusion : Inclusion) (filter : MemberFilter) (id : AssemblyId)
    (source : AssemblySource) (comments : Comments) :
    build inclusion filter (ρ id) source comments =
      (build inclusion (filter.renamed ρ) id source comments).map (AssemblyEntry.rename ρ) := by
  simp only [build, buildTypes_rename, bind, Except.bind]
  rcases source.load with e | declared
  · rfl
  rcases hvalid : TypeDecl.validate declared with fault | u
  · simp only [hvalid]
    rfl
  rcases hbuilt : buildTypes inclusion (filter.renamed ρ) comments id 0
      (select inclusion comments declared) with crash | built
  · simp only [hvalid, hbuilt]
    rfl
  rcases hknown : knownIds declared with crash | known
  · simp only [hvalid, hbuilt, hknown]
    rfl
  · simp only [hvalid, hbuilt, hknown, Except.map, mapError_ok, link_rename,
      listNamespaces_rename]
    rfl

end AssemblyEntry

end ApiDocs
