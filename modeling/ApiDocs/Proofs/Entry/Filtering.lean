import ApiDocs.Proofs.Entry.Listing

/-!
# Entries under a filter

A filter that does not crash is asked once for every member that the switches let pass, when the
member's entry is first built. It decides about members and nothing else: an assembly built under a
filter is the assembly built without one, with the members left out that the filter rejects. In
particular the same assemblies can be bound, for the same reasons, and members stay in order because
sorting is stable.

## Main definitions

* `MemberFilter.ofBool`: the filter that accepts members by a condition.
* `TypeEntry.keepMembers`, `AssemblyEntry.keepMembers`: an entry without the members that a
  condition rejects.

## Main results

* `MemberTable.ofList_filter`: the order of the members that are left.
* `TypeEntry.build_ofBool`: a type built under a filter.
* `AssemblyEntry.build_ofBool`: an assembly built under a filter.
-/

namespace ApiDocs

/-- The filter that accepts the members of which a condition holds. -/
def MemberFilter.ofBool (accepts : MemberEntry → Bool) : MemberFilter :=
  fun m ↦ .ok (accepts m)

/-- A type's entry without the members that a condition rejects. -/
def TypeEntry.keepMembers (accepts : MemberEntry → Bool) (t : TypeEntry) : TypeEntry :=
  { t with members := t.members.mapGroups (List.filter accepts) }

/-- An assembly's entry without the members that a condition rejects. -/
def AssemblyEntry.keepMembers (accepts : MemberEntry → Bool) (a : AssemblyEntry) : AssemblyEntry :=
  { a with types := a.types.map (TypeEntry.keepMembers accepts) }

variable (accepts : MemberEntry → Bool) (inclusion : Inclusion) (comments : Comments)

/-! ### Sorting -/

namespace MemberTable

theorem ofList_filter (entries : List MemberEntry) :
    ofList (entries.filter accepts) = (ofList entries).mapGroups (List.filter accepts) := by
  have hgroup (g : MemberGroup) :
      ((entries.filter accepts).filter fun e ↦ e.decl.group == g).mergeSort bySignature =
        ((ofList entries).get g).filter accepts := by
    rw [ofList, get_ofGroups, List.filter_comm,
      mergeSort_filter bySignature_trans bySignature_total]
  exact congrArg ofGroups (funext hgroup)

end MemberTable

/-! ### Members and types -/

namespace TypeEntry

theorem keeps_ofBool (m : MemberEntry) :
    keeps inclusion (.ofBool accepts) m = .ok (admits inclusion m && accepts m) := by
  unfold keeps
  cases admits inclusion m <;> rfl

theorem keeps_all (m : MemberEntry) : keeps inclusion .all m = .ok (admits inclusion m) := by
  unfold keeps
  cases admits inclusion m <;> rfl

/-- The members that a type shows under a filter. -/
theorem memberEntries_ofBool (id : TypeId) (fullName : String) (decls : List MemberDecl) :
    memberEntries inclusion (.ofBool accepts) comments id fullName decls =
      (memberEntries inclusion .all comments id fullName decls).map (List.filter accepts) := by
  induction decls with
  | nil => rfl
  | cons d ds ih =>
    rw [memberEntries, memberEntries]
    split_ifs
    · exact ih
    · rw [ih]
      cases MemberEntry.build comments id fullName d with
      | error c => rfl
      | ok m =>
        change (keeps inclusion (.ofBool accepts) m >>= _) =
          Except.map _ (keeps inclusion .all m >>= _)
        rw [keeps_ofBool, keeps_all]
        cases memberEntries inclusion .all comments id fullName ds with
        | error c => rfl
        | ok rest =>
          change Except.ok _ = Except.ok _
          cases hadmits : admits inclusion m with
          | false => rfl
          | true =>
            rw [Bool.true_and, if_pos rfl, List.filter_cons]

/-- A type built under a filter. -/
theorem build_ofBool (id : TypeId) (decl : TypeDecl) :
    build inclusion (.ofBool accepts) comments id decl =
      (build inclusion .all comments id decl).map (keepMembers accepts) := by
  unfold build
  rw [memberEntries_ofBool]
  cases memberEntries inclusion .all comments id decl.fullName decl.members with
  | error c => rfl
  | ok entries =>
    change Except.ok _ = Except.ok _
    rw [MemberTable.ofList_filter]
    rfl

end TypeEntry

/-! ### Assemblies -/

namespace AssemblyEntry

theorem buildTypes_ofBool (id : AssemblyId) (slot : Nat) (decls : List TypeDecl) :
    buildTypes inclusion (.ofBool accepts) comments id slot decls =
      (buildTypes inclusion .all comments id slot decls).map
        (List.map (TypeEntry.keepMembers accepts)) := by
  induction decls generalizing slot with
  | nil => rfl
  | cons d ds ih =>
    rw [buildTypes, buildTypes, TypeEntry.build_ofBool, ih]
    cases TypeEntry.build inclusion .all comments (.ofSlot id slot) d with
    | error c => rfl
    | ok t => cases buildTypes inclusion .all comments id (slot + 1) ds <;> rfl

/-- Sorting by name and listing identifiers do not look at members. -/
theorem map_id_mergeSort_keepMembers (types : List TypeEntry) :
    ((types.map (TypeEntry.keepMembers accepts)).mergeSort byName).map TypeEntry.id =
      (types.mergeSort byName).map TypeEntry.id := by
  have hname (a b : TypeEntry) :
      byName a b = byName (a.keepMembers accepts) (b.keepMembers accepts) := rfl
  rw [← List.map_mergeSort fun a _ b _ ↦ hname a b, List.map_map]
  rfl

theorem link_keepMembers (types : List TypeEntry) :
    link (types.map (TypeEntry.keepMembers accepts)) =
      (link types).map (TypeEntry.keepMembers accepts) := by
  unfold link
  rw [List.map_map, List.map_map]
  refine List.map_congr_left fun t _ ↦ ?_
  have hdeclaring : declaringId? (types.map (TypeEntry.keepMembers accepts))
      (t.keepMembers accepts) = declaringId? types t := by
    refine congrArg (Option.bind t.header.declaringType) (funext fun outer ↦ ?_)
    rw [List.find?_map, Option.map_map]
    rfl
  have hnested : nestedIds (types.map (TypeEntry.keepMembers accepts)) (t.keepMembers accepts) =
      nestedIds types t := by
    rw [nestedIds, List.filter_map, map_id_mergeSort_keepMembers]
    rfl
  rw [Function.comp_apply, hdeclaring, hnested]
  rfl

theorem listNamespaces_keepMembers (types : List TypeEntry) :
    listNamespaces comments (types.map (TypeEntry.keepMembers accepts)) =
      listNamespaces comments types := by
  simp only [listNamespaces]
  rw [List.filter_map, List.map_map]
  refine List.map_congr_left fun name _ ↦ ?_
  rw [List.filter_map, map_id_mergeSort_keepMembers]
  rfl

/-- An assembly built under a filter. -/
theorem build_ofBool (id : AssemblyId) (source : AssemblySource) :
    build inclusion (.ofBool accepts) id source comments =
      (build inclusion .all id source comments).map (keepMembers accepts) := by
  simp only [build, buildTypes_ofBool, bind, Except.bind]
  rcases source.load with e | declared
  · rfl
  rcases hvalid : TypeDecl.validate declared with fault | u
  · simp only [hvalid]
    rfl
  rcases hbuilt : buildTypes inclusion .all comments id 0 (select inclusion comments declared) with
    crash | built
  · simp only [hvalid, hbuilt]
    rfl
  rcases hknown : knownIds declared with crash | known
  · simp only [hvalid, hbuilt, hknown]
    rfl
  · simp only [hvalid, hbuilt, hknown, Except.map, mapError_ok, link_keepMembers,
      listNamespaces_keepMembers]
    rfl

end AssemblyEntry

end ApiDocs
