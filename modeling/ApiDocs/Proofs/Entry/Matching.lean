import ApiDocs.Proofs.Comment.Collection
import ApiDocs.Proofs.Entry.Unbound

/-!
# Comments that match the declarations

A documentation file matches the declarations of an assembly if its comments on types and members
are filed under exactly the ids that are declared. Then no comment is left over, and with all
switches on every declared type and member is shown with its comment.

Binding looks comments up under the ids it writes for what it shows, and the report on comments left
over is made from the ids of all that is declared. These two agree because both ask a declaration
for its id.

## Main definitions

* `Comments.Matches`: the comments on types and members are those on the declarations.
* `TypeEntry.Presents`, `AssemblyEntry.Presents`: an entry shows a declared type and its members, or
  all declared types, each with a comment.

## Main results

* `AssemblyEntry.unbound_of_matches`: no comment is left over.
* `AssemblyEntry.select_all`: with all switches on, every type is selected.
* `AssemblyEntry.exists_build_of_matches`: an assembly that its comments match is built completely.
-/

namespace ApiDocs

/-- The comments on types and members are filed under exactly the ids of the declarations. -/
structure Comments.Matches (comments : Comments) (declared : List TypeDecl) : Prop where
  /-- All members have ids. -/
  named : ∀ d ∈ declared, ∀ m ∈ d.members, ∃ id, m.docId = .ok id
  /-- The ids are those of the comments on types and members. -/
  isDocId_iff : ∀ key, TypeDecl.IsDocId declared key ↔
    key ∈ comments.keys ∧ DocKind.OnDeclaration key

namespace AssemblyEntry

theorem exists_memberIds {ms : List MemberDecl} (h : ∀ m ∈ ms, ∃ id, m.docId = .ok id) :
    ∃ ids, memberIds ms = .ok ids := by
  induction ms with
  | nil => exact ⟨[], rfl⟩
  | cons m ms ih =>
    obtain ⟨id, hid⟩ := h m List.mem_cons_self
    obtain ⟨rest, hrest⟩ := ih fun n hn ↦ h n (List.mem_cons_of_mem m hn)
    exact ⟨id :: rest, by rw [memberIds, hid, hrest]; rfl⟩

theorem exists_knownIds {ts : List TypeDecl}
    (h : ∀ d ∈ ts, ∀ m ∈ d.members, ∃ id, m.docId = .ok id) : ∃ ids, knownIds ts = .ok ids := by
  induction ts with
  | nil => exact ⟨[], rfl⟩
  | cons t ts ih =>
    obtain ⟨own, hown⟩ := exists_memberIds (h t List.mem_cons_self)
    obtain ⟨rest, hrest⟩ := ih fun u hu ↦ h u (List.mem_cons_of_mem t hu)
    exact ⟨TypeName.docId t.fullName :: own ++ rest, by rw [knownIds, hown, hrest]; rfl⟩

/-- Whether comments match the declarations can be told from the known ids. -/
theorem matches_of_knownIds {comments : Comments} {declared : List TypeDecl} {known : List String}
    (hknown : knownIds declared = .ok known)
    (hfiled : ∀ key ∈ known, key ∈ comments.keys ∧ DocKind.OnDeclaration key)
    (hdeclared : ∀ key ∈ comments.keys, DocKind.OnDeclaration key → key ∈ known) :
    comments.Matches declared := by
  refine ⟨fun d hd m hm ↦ exists_docId_of_knownIds hknown hd hm, fun key ↦ ?_⟩
  rw [← mem_knownIds_iff hknown]
  exact ⟨hfiled key, fun h ↦ hdeclared key h.1 h.2⟩

/-- No comment is left over. -/
theorem unbound_of_matches {comments : Comments} {declared : List TypeDecl}
    (h : comments.Matches declared) {known : List String} (hknown : knownIds declared = .ok known)
    (assembly : String) : unbound assembly known comments = [] := by
  refine unbound_eq_nil_iff.mpr fun c hc htag ↦ (mem_knownIds_iff hknown).mpr ?_
  exact (h.isDocId_iff c.key).mpr ⟨List.mem_map_of_mem hc, htag⟩

/-! ### Everything is shown -/

/-- A condition that holds of all types holds of the types around a type, which end. -/
theorem allAround_of_walkOut {types : List TypeDecl} {p : TypeDecl → Bool}
    (hp : ∀ t, p t = true) {start : String} {n : Nat} {t : TypeDecl}
    (h : TypeDecl.walkOut types start n t = .ok ()) : allAround types p n t = true := by
  induction n generalizing t with
  | zero =>
    refine allAround_zero.mpr ⟨hp t, ?_⟩
    cases houter : t.declaringType with
    | none => rw [TypeDecl.outer?, houter, Option.bind_none]
    | some outer =>
      obtain ⟨-, m, -, hzero, -⟩ := TypeDecl.exists_of_walkOut h houter
      cases hzero
  | succ n ih =>
    refine allAround_succ.mpr ⟨hp t, fun u hu ↦ ?_⟩
    obtain ⟨v, m, hv, hsucc, hwalk⟩ :=
      TypeDecl.exists_of_walkOut h (TypeDecl.declaringType_of_outer? hu)
    obtain rfl := Option.some.inj (hv.symm.trans hu)
    obtain rfl := Nat.succ.inj hsucc
    exact ih hwalk

/-- With all switches on, every type is selected. -/
theorem select_all {declared : List TypeDecl} (h : TypeDecl.validate declared = .ok ())
    (comments : Comments) : select .all comments declared = declared := by
  refine List.filter_eq_self.mpr fun t ht ↦ ?_
  refine allAround_of_walkOut (fun u ↦ ?_) (TypeDecl.walkOut_of_validate h ht)
  rw [passes, Inclusion.all, Bool.or_true, Bool.true_or, Bool.and_self]

end AssemblyEntry

/-! ### Types -/

namespace TypeEntry

variable {comments : Comments} {id : TypeId}

/-- An entry shows a declared type with the comment under its id, and all members found on it but
the methods behind properties and events, each with a comment. -/
structure Presents (comments : Comments) (d : TypeDecl) (t : TypeEntry) : Prop where
  header_eq : t.header = d.toTypeHeader
  comment_eq : t.comment = comments.get? (TypeName.docId d.fullName)
  documented : t.comment.isSome = true
  members_perm : (t.members.toList.map fun m ↦ m.decl).Perm (d.members.filter fun m ↦ !m.isAccessor)
  members_documented : ∀ m ∈ t.members.toList, m.comment.isSome = true

/-- With all switches on, every member is shown but the methods behind properties and events. -/
theorem map_decl_memberEntries_all {fullName : String} {ds : List MemberDecl}
    {entries : List MemberEntry}
    (h : memberEntries .all .all comments id fullName ds = .ok entries) :
    (entries.map fun m ↦ m.decl) = ds.filter fun m ↦ !m.isAccessor := by
  induction ds generalizing entries with
  | nil =>
    obtain rfl := Except.ok.inj h
    rfl
  | cons d ds ih =>
    rw [memberEntries] at h
    split_ifs at h with hacc
    · rw [List.filter_cons, hacc, ih h]
      rfl
    · obtain ⟨entry, hentry, h⟩ := bind_eq_ok_iff.mp h
      obtain ⟨kept, hkept, h⟩ := bind_eq_ok_iff.mp h
      obtain ⟨rest, hrest, h⟩ := bind_eq_ok_iff.mp h
      have hkeeps : keeps .all .all entry = .ok true := by
        rw [keeps, admits, Inclusion.all, Bool.or_true, Bool.or_true]
        rfl
      obtain rfl := Except.ok.inj (hkept.symm.trans hkeeps)
      obtain rfl := Except.ok.inj h
      rw [List.filter_cons, Bool.eq_false_iff.mpr hacc, Bool.not_false, if_pos rfl, if_pos rfl,
        List.map_cons, ih hrest, MemberEntry.decl_of_build hentry]

/-- The entry of a type with all switches on, if the comments match the declarations. -/
theorem presents_of_build {declared : List TypeDecl} (hmatch : comments.Matches declared)
    {d : TypeDecl} (hd : d ∈ declared) {t : TypeEntry}
    (h : build .all .all comments id d = .ok t) : t.Presents comments d := by
  obtain ⟨entries, hentries, rfl⟩ := exists_of_build h
  have hfiled {key : String} (hkey : TypeDecl.IsDocId declared key) :
      (comments.get? key).isSome = true :=
    Comments.isSome_get? ((hmatch.isDocId_iff key).mp hkey).1
  constructor
  · rfl
  · rfl
  · exact hfiled ⟨d, hd, Or.inl rfl⟩
  · rw [← map_decl_memberEntries_all hentries]
    exact (MemberTable.toList_ofList_perm entries).map _
  · intro m hm
    obtain ⟨n, hn, hbuild⟩ :=
      exists_decl_of_mem_memberEntries hentries (MemberTable.mem_toList_ofList.mp hm)
    obtain ⟨bound, overrides, hbound, -, rfl⟩ := MemberEntry.exists_of_build hbuild
    obtain ⟨docId, hid, rfl⟩ := BoundMember.exists_of_ofDecl hbound
    exact hfiled ⟨d, hd, Or.inr ⟨n, hn, hid⟩⟩

end TypeEntry

/-! ### The whole assembly -/

namespace AssemblyEntry

/-- An entry shows all types of an assembly, each in its slot. -/
structure Presents (comments : Comments) (declared : List TypeDecl) (a : AssemblyEntry) : Prop where
  length_eq : a.types.length = declared.length
  presents : ∀ (j : Nat) (d : TypeDecl), declared[j]? = some d →
    ∃ t : TypeEntry, a.types[j]? = some t ∧ t.Presents comments d

/-- An assembly that its comments match is built completely, if the members that its members
override have documentation ids. -/
theorem exists_build_of_matches {source : AssemblySource} {comments : Comments}
    {declared : List TypeDecl} (hload : source.load = .ok declared)
    (hvalid : TypeDecl.validate declared = .ok ()) (hmatch : comments.Matches declared)
    (hlinks : ∀ d ∈ declared, ∀ m ∈ d.members, ∀ base ∈ m.overridden? d.fullName,
      ∃ id, base.docId = .ok id) (id : AssemblyId) :
    ∃ a, build .all .all id source comments = .ok a ∧ a.diagnostics = [] ∧
      a.Presents comments declared := by
  obtain ⟨known, hknown⟩ := exists_knownIds hmatch.named
  have htotal (m : MemberEntry) : ∃ b, MemberFilter.all m = .ok b := ⟨true, rfl⟩
  have hmembers (d : TypeDecl) (hd : d ∈ declared) (m : MemberDecl) (hm : m ∈ d.members)
      (owner : TypeId) : ∃ e, MemberEntry.build comments owner d.fullName m = .ok e :=
    exists_member_build (hmatch.named d hd m hm) (hlinks d hd m hm)
  obtain ⟨built, hbuilt⟩ := exists_buildTypes .all id 0 htotal hmembers
  have hlength := length_of_buildTypes hbuilt
  refine ⟨_, build_of_parts hload hvalid (by rwa [select_all hvalid]) hknown,
    unbound_of_matches hmatch hknown source.name, ?_, fun j d hd ↦ ?_⟩
  · rw [link, List.length_map, hlength]
  · have hlt : j < built.length := by
      rw [hlength]
      exact (List.getElem?_eq_some_iff.mp hd).1
    have ht := List.getElem?_eq_getElem hlt
    obtain ⟨e, he, hbuild⟩ := exists_build_of_buildTypes hbuilt ht
    obtain rfl := Option.some.inj (he.symm.trans hd)
    have hpresents := TypeEntry.presents_of_build hmatch (List.mem_of_getElem? hd) hbuild
    refine ⟨_, by rw [link, List.getElem?_map, ht]; rfl, ?_⟩
    exact ⟨hpresents.header_eq, hpresents.comment_eq, hpresents.documented,
      hpresents.members_perm, hpresents.members_documented⟩

end AssemblyEntry

end ApiDocs
