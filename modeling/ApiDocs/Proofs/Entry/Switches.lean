import ApiDocs.Proofs.Entry.Listing
import ApiDocs.Proofs.Entry.Selection

/-!
# Entries under more switches

An assembly is built whatever the switches are, if it is built under some and the members that its
members override have documentation ids. With more switches on, every type that was selected still
is, and so is every member that was chosen. A type may stand in another slot then, so the entries
of its members differ in their owner and in nothing else.

## Main definitions

* `MemberEntry.withOwner`: the entry of the same member on the type in another slot.
* `MemberFilter.IgnoresSlots`: a filter that does not tell slots apart.
* `TypeEntry.Shows`: a type's entry shows the chosen members of a declared type.

## Main results

* `TypeEntry.chosen?_of_extends`: with more switches on, no chosen member is left out.
* `AssemblyEntry.exists_shows_of_mem`, `AssemblyEntry.exists_mem_of_mem_select`: the types of an
  assembly that was built are the selected ones.
* `AssemblyEntry.exists_build_of_build`: whether an assembly is built does not depend on the
  switches and the filter.
-/

namespace ApiDocs

variable {inclusion inclusion' : Inclusion} {filter : MemberFilter} {comments : Comments}

/-! ### Owners -/

/-- The entry of the same member on the type with another identifier. -/
def MemberEntry.withOwner (id : TypeId) (m : MemberEntry) : MemberEntry :=
  { m with owner := .type id }

/-- A filter does not look at the slot of the type that a member belongs to. It may look at the
assembly. -/
def MemberFilter.IgnoresSlots (filter : MemberFilter) : Prop :=
  ∀ (m : MemberEntry) (id id' : TypeId), m.owner = .type id → id'.assembly = id.assembly →
    filter (m.withOwner id') = filter m

/-- Entries of a member on the same type in different slots differ in their owner only. -/
theorem MemberEntry.build_eq_withOwner {id id' : TypeId} {fullName : String} {d : MemberDecl}
    {m : MemberEntry} (h : build comments id fullName d = .ok m) :
    build comments id' fullName d = .ok (m.withOwner id') := by
  obtain ⟨bound, overrides, hbound, hover, rfl⟩ := exists_of_build h
  obtain ⟨docId, hid, rfl⟩ := BoundMember.exists_of_ofDecl hbound
  rw [build, hover]
  simp only [BoundMember.ofDecl, hid]
  rfl

/-! ### Members -/

namespace TypeEntry

theorem keeps_of_extends (h : inclusion'.Extends inclusion) (hblind : filter.IgnoresSlots)
    {m : MemberEntry} {id id' : TypeId} (howner : m.owner = .type id)
    (hid : id'.assembly = id.assembly) (hm : keeps inclusion filter m = .ok true) :
    keeps inclusion' filter (m.withOwner id') = .ok true := by
  unfold keeps at hm ⊢
  split_ifs at hm with hadmits
  · have hadmits' : admits inclusion' (m.withOwner id') = true := by
      simp only [admits, Bool.and_eq_true, Bool.or_eq_true] at hadmits ⊢
      exact ⟨hadmits.1.imp_right h.hiddenMembers, hadmits.2.imp_right h.undocumentedMembers⟩
    rw [if_pos hadmits', hblind m id id' howner hid]
    exact hm
  · cases hm

theorem build_of_chosen? {id : TypeId} {fullName : String} {d : MemberDecl} {m : MemberEntry}
    (h : chosen? inclusion filter comments id fullName d = some m) :
    MemberEntry.build comments id fullName d = .ok m := by
  unfold chosen? at h
  split_ifs at h
  split at h
  · cases h
  · rename_i entry hentry
    split_ifs at h
    rw [hentry, Option.some.inj h]

/-- With more switches on, no chosen member is left out. -/
theorem chosen?_of_extends (h : inclusion'.Extends inclusion) (hblind : filter.IgnoresSlots)
    {id id' : TypeId} (hid : id'.assembly = id.assembly) {fullName : String} {d : MemberDecl}
    {m : MemberEntry}
    (hm : chosen? inclusion filter comments id fullName d = some m) :
    chosen? inclusion' filter comments id' fullName d = some (m.withOwner id') := by
  have hbuild := build_of_chosen? hm
  unfold chosen? at hm ⊢
  split_ifs at hm ⊢
  rw [hbuild] at hm
  simp only at hm
  split_ifs at hm with hkeeps
  simp only [MemberEntry.build_eq_withOwner hbuild,
    if_pos (keeps_of_extends h hblind (MemberEntry.owner_of_build hbuild) hid hkeeps)]

/-- A type's entry shows the chosen members of a declared type. -/
structure Shows (inclusion : Inclusion) (filter : MemberFilter) (comments : Comments)
    (assembly : AssemblyId) (d : TypeDecl) (t : TypeEntry) : Prop where
  assembly_eq : t.id.assembly = assembly
  header_eq : t.header = d.toTypeHeader
  members_eq : t.members =
    .ofList (d.members.filterMap (chosen? inclusion filter comments t.id d.fullName))

/-- The declarations of the chosen members of which a condition holds. -/
theorem map_decl_filter_filterMap_chosen? (keep : MemberEntry → Bool) (id : TypeId)
    (fullName : String) (ds : List MemberDecl) :
    ((ds.filterMap (chosen? inclusion filter comments id fullName)).filter keep).map
        (fun m ↦ m.decl) =
      ds.filter fun d ↦ ((chosen? inclusion filter comments id fullName d).filter keep).isSome := by
  rw [List.filter_filterMap, List.map_filterMap, ← List.filterMap_eq_filter]
  refine List.filterMap_congr fun d _ ↦ ?_
  cases hd : chosen? inclusion filter comments id fullName d with
  | none => simp [Option.guard, hd]
  | some m =>
    have hdecl := MemberEntry.decl_of_build (build_of_chosen? hd)
    by_cases hkeep : keep m = true <;> simp [Option.guard, hd, hkeep, hdecl]

/-- How often a type's entry shows a declared member, of those of which a condition holds. -/
theorem Shows.count_decl {assembly : AssemblyId} {d : TypeDecl} {t : TypeEntry}
    (h : t.Shows inclusion filter comments assembly d) (keep : MemberEntry → Bool)
    (m : MemberDecl) :
    ((t.members.toList.filter keep).map fun m ↦ m.decl).count m =
      (d.members.filter fun n ↦
        ((chosen? inclusion filter comments t.id d.fullName n).filter keep).isSome).count m := by
  have hperm := MemberTable.toList_ofList_perm
    (d.members.filterMap (chosen? inclusion filter comments t.id d.fullName))
  rw [← h.members_eq] at hperm
  rw [((hperm.filter keep).map _).count_eq, map_decl_filter_filterMap_chosen?]

/-- The entry of a member that a type shows is that of a declared member. -/
theorem Shows.chosen?_decl {assembly : AssemblyId} {d : TypeDecl} {t : TypeEntry}
    (h : t.Shows inclusion filter comments assembly d) {m : MemberEntry}
    (hm : m ∈ t.members.toList) :
    m.decl ∈ d.members ∧
      chosen? inclusion filter comments t.id d.fullName m.decl = some m := by
  rw [h.members_eq, MemberTable.mem_toList_ofList] at hm
  obtain ⟨n, hmem, hn⟩ := List.mem_filterMap.mp hm
  rw [MemberEntry.decl_of_build (build_of_chosen? hn)]
  exact ⟨hmem, hn⟩

theorem Shows.mem_of_chosen? {assembly : AssemblyId} {d : TypeDecl} {t : TypeEntry}
    (h : t.Shows inclusion filter comments assembly d) {n : MemberDecl} (hn : n ∈ d.members)
    {m : MemberEntry} (hm : chosen? inclusion filter comments t.id d.fullName n = some m) :
    m ∈ t.members.toList := by
  rw [h.members_eq, MemberTable.mem_toList_ofList]
  exact List.mem_filterMap.mpr ⟨n, hn, hm⟩

end TypeEntry

/-! ### Types of an assembly -/

namespace AssemblyEntry

variable {id : AssemblyId} {source : AssemblySource} {a : AssemblyEntry} {declared : List TypeDecl}

theorem length_of_buildTypes {slot : Nat} {decls : List TypeDecl} {built : List TypeEntry}
    (h : buildTypes inclusion filter comments id slot decls = .ok built) :
    built.length = decls.length := by
  induction decls generalizing slot built with
  | nil =>
    rw [buildTypes] at h
    obtain rfl := Except.ok.inj h
    rfl
  | cons d ds ih =>
    obtain ⟨entry, -, h⟩ := bind_eq_ok_iff.mp h
    obtain ⟨rest, hrest, h⟩ := bind_eq_ok_iff.mp h
    obtain rfl := Except.ok.inj h
    rw [List.length_cons, List.length_cons, ih hrest]

/-- The type in a slot shows the selected type in the same place. -/
theorem shows_of_getElem? (h : build inclusion filter id source comments = .ok a)
    (hload : source.load = .ok declared) {j : Nat} {t : TypeEntry} {d : TypeDecl}
    (ht : a.types[j]? = some t) (hd : (select inclusion comments declared)[j]? = some d) :
    t.Shows inclusion filter comments id d := by
  have hid : t.id = .ofSlot id j := id_of_getElem? h ht
  obtain ⟨declared', built, known, hload', -, hbuilt, -, rfl⟩ := exists_of_build h
  obtain rfl := Except.ok.inj (hload'.symm.trans hload)
  rw [link, List.getElem?_map] at ht
  obtain ⟨u, hu, rfl⟩ := Option.map_eq_some_iff.mp ht
  obtain ⟨d', hd', hbuild⟩ := exists_build_of_buildTypes hbuilt hu
  obtain rfl := Option.some.inj (hd'.symm.trans hd)
  obtain ⟨entries, hentries, rfl⟩ := TypeEntry.exists_of_build hbuild
  refine ⟨congrArg TypeId.assembly hid, rfl, ?_⟩
  rw [Nat.zero_add, ← hid] at hentries
  exact congrArg MemberTable.ofList (TypeEntry.memberEntries_eq_filterMap hentries)

theorem length_types_of_build (h : build inclusion filter id source comments = .ok a)
    (hload : source.load = .ok declared) :
    a.types.length = (select inclusion comments declared).length := by
  obtain ⟨declared', built, known, hload', -, hbuilt, -, rfl⟩ := exists_of_build h
  obtain rfl := Except.ok.inj (hload'.symm.trans hload)
  rw [link, List.length_map]
  exact length_of_buildTypes hbuilt

/-- Every type of an assembly shows a selected type. -/
theorem exists_shows_of_mem (h : build inclusion filter id source comments = .ok a)
    (hload : source.load = .ok declared) {t : TypeEntry} (ht : t ∈ a.types) :
    ∃ d ∈ select inclusion comments declared, t.Shows inclusion filter comments id d := by
  obtain ⟨j, hj⟩ := List.getElem?_of_mem ht
  have hlt := (List.getElem?_eq_some_iff.mp hj).1
  rw [length_types_of_build h hload] at hlt
  have hd := List.getElem?_eq_getElem hlt
  exact ⟨_, List.mem_of_getElem? hd, shows_of_getElem? h hload hj hd⟩

/-- Every selected type is shown. -/
theorem exists_mem_of_mem_select (h : build inclusion filter id source comments = .ok a)
    (hload : source.load = .ok declared) {d : TypeDecl}
    (hd : d ∈ select inclusion comments declared) :
    ∃ t ∈ a.types, t.Shows inclusion filter comments id d := by
  obtain ⟨j, hj⟩ := List.getElem?_of_mem hd
  have hlt := (List.getElem?_eq_some_iff.mp hj).1
  rw [← length_types_of_build h hload] at hlt
  have ht := List.getElem?_eq_getElem hlt
  exact ⟨_, List.mem_of_getElem? ht, shows_of_getElem? h hload ht hj⟩

/-! ### Building without a crash -/

theorem exists_docId_of_memberIds {ms : List MemberDecl} {ids : List String}
    (h : memberIds ms = .ok ids) {m : MemberDecl} (hm : m ∈ ms) : ∃ id, m.docId = .ok id := by
  induction ms generalizing ids with
  | nil => cases hm
  | cons n ns ih =>
    obtain ⟨id, hid, h⟩ := bind_eq_ok_iff.mp h
    obtain ⟨rest, hrest, -⟩ := bind_eq_ok_iff.mp h
    rcases List.mem_cons.mp hm with rfl | hm
    · exact ⟨id, hid⟩
    · exact ih hrest hm

/-- The members of an assembly that is built have documentation ids, whether they are shown or
not. -/
theorem exists_docId_of_knownIds {ts : List TypeDecl} {ids : List String}
    (h : knownIds ts = .ok ids) {t : TypeDecl} (ht : t ∈ ts) {m : MemberDecl}
    (hm : m ∈ t.members) : ∃ id, m.docId = .ok id := by
  induction ts generalizing ids with
  | nil => cases ht
  | cons u us ih =>
    obtain ⟨own, hown, h⟩ := bind_eq_ok_iff.mp h
    obtain ⟨rest, hrest, -⟩ := bind_eq_ok_iff.mp h
    rcases List.mem_cons.mp ht with rfl | ht
    · exact exists_docId_of_memberIds hown hm
    · exact ih hrest ht

theorem exists_member_build {owner : TypeId} {fullName : String} {d : MemberDecl}
    (hid : ∃ id, d.docId = .ok id)
    (hbase : ∀ base ∈ d.overridden? fullName, ∃ id, base.docId = .ok id) :
    ∃ m, MemberEntry.build comments owner fullName d = .ok m := by
  obtain ⟨id, hid⟩ := hid
  have hover : ∃ overrides, MemberEntry.buildOverride comments fullName d = .ok overrides := by
    unfold MemberEntry.buildOverride
    cases ho : d.overridden? fullName with
    | none => exact ⟨none, rfl⟩
    | some base =>
      obtain ⟨baseId, hbaseId⟩ := hbase base ho
      simp only [BoundMember.ofDecl, hbaseId]
      exact ⟨_, rfl⟩
  obtain ⟨overrides, hover⟩ := hover
  rw [MemberEntry.build, hover]
  simp only [BoundMember.ofDecl, hid]
  exact ⟨_, rfl⟩

theorem exists_memberEntries (inclusion : Inclusion) {owner : TypeId} {fullName : String}
    {ds : List MemberDecl} (htotal : ∀ m, ∃ b, filter m = .ok b)
    (h : ∀ d ∈ ds, d.isAccessor = false →
      ∃ m, MemberEntry.build comments owner fullName d = .ok m) :
    ∃ entries, TypeEntry.memberEntries inclusion filter comments owner fullName ds =
      .ok entries := by
  induction ds with
  | nil => exact ⟨[], rfl⟩
  | cons d ds ih =>
    obtain ⟨rest, hrest⟩ := ih fun e he ↦ h e (List.mem_cons_of_mem d he)
    rw [TypeEntry.memberEntries]
    split_ifs with hacc
    · exact ⟨rest, hrest⟩
    · obtain ⟨m, hm⟩ := h d List.mem_cons_self (Bool.eq_false_iff.mpr hacc)
      have hkeeps : ∃ b, TypeEntry.keeps inclusion filter m = .ok b := by
        unfold TypeEntry.keeps
        split_ifs
        · exact htotal m
        · exact ⟨false, rfl⟩
      obtain ⟨b, hb⟩ := hkeeps
      rw [hm, hrest]
      simp only [hb, bind, Except.bind]
      exact ⟨_, rfl⟩

theorem exists_buildTypes (inclusion : Inclusion) (id : AssemblyId) (slot : Nat)
    {ds : List TypeDecl} (htotal : ∀ m, ∃ b, filter m = .ok b)
    (h : ∀ d ∈ ds, ∀ m ∈ d.members, ∀ owner,
      ∃ e, MemberEntry.build comments owner d.fullName m = .ok e) :
    ∃ built, buildTypes inclusion filter comments id slot ds = .ok built := by
  induction ds generalizing slot with
  | nil => exact ⟨[], rfl⟩
  | cons d ds ih =>
    obtain ⟨rest, hrest⟩ := ih (slot + 1) fun e he ↦ h e (List.mem_cons_of_mem d he)
    obtain ⟨entries, hentries⟩ := exists_memberEntries inclusion htotal
      fun m hm _ ↦ h d List.mem_cons_self m hm (.ofSlot id slot)
    rw [buildTypes, hrest, TypeEntry.build, hentries]
    exact ⟨_, rfl⟩

/-- An assembly that is built under some switches is built under all and with any filter that does
not crash, if the members that its members override have documentation ids. -/
theorem exists_build_of_build (h : build inclusion filter id source comments = .ok a)
    (hload : source.load = .ok declared)
    (hlinks : ∀ d ∈ declared, ∀ m ∈ d.members, ∀ base ∈ m.overridden? d.fullName,
      ∃ id, base.docId = .ok id) (inclusion' : Inclusion) {filter' : MemberFilter}
    (htotal : ∀ m, ∃ b, filter' m = .ok b) (id' : AssemblyId) :
    ∃ a', build inclusion' filter' id' source comments = .ok a' := by
  obtain ⟨declared', built, known, hload', hvalid, -, hknown, -⟩ := exists_of_build h
  obtain rfl := Except.ok.inj (hload'.symm.trans hload)
  have hmembers : ∀ d ∈ select inclusion' comments declared', ∀ m ∈ d.members, ∀ owner,
      ∃ e, MemberEntry.build comments owner d.fullName m = .ok e := by
    intro d hd m hm owner
    have hd := List.mem_of_mem_filter hd
    exact exists_member_build (exists_docId_of_knownIds hknown hd hm) (hlinks d hd m hm)
  obtain ⟨built', hbuilt'⟩ := exists_buildTypes inclusion' id' 0 htotal hmembers
  exact ⟨_, build_of_parts hload hvalid hbuilt' hknown⟩

end AssemblyEntry

end ApiDocs
