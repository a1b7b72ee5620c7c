import ApiDocs.Proofs.Entry.Building
import ApiDocs.Proofs.Lists
import ApiDocs.Proofs.Text.ByteOrder

/-!
# What a type's entry lists

The members that a type shows are chosen one by one, in the order in which they were found, and
sorted into groups. The groups hold every chosen member once, each in the group of its kind, and
members with equal signatures keep the order in which they were found.

## Main definitions

* `MemberGroup.Holds`: the kind of members that a group holds.
* `MemberEntry.unnumbered`: an entry without its number among overloads.
* `MemberTable.Lists`: a table holds the entries of a list, sorted into groups.
* `TypeEntry.chosen?`: the entry of a declared member, if it is chosen.

## Main results

* `TypeEntry.memberEntries_eq_filterMap`: the members that a type shows are the chosen ones.
* `MemberTable.filter_get_ofList`: members with equal signatures keep their order.
* `MemberTable.lists_of_get_eq`: entries that are changed and left out after sorting are still
  listed.
-/

namespace ApiDocs

/-! ### Groups -/

/-- The members that a group holds. An operator is a method with a special name that starts with the
mark of operators. -/
def MemberGroup.Holds : MemberGroup → MemberDecl → Prop
  | .constructors, m => ∃ c, m.shape = .constructor c
  | .fields, m => ∃ f, m.shape = .field f
  | .properties, m => ∃ p, m.shape = .property p
  | .methods, m => ∃ f, m.shape = .method f ∧
      ¬ (f.isSpecialName = true ∧ "op_".toList <+: m.name.toList)
  | .operators, m => ∃ f, m.shape = .method f ∧
      f.isSpecialName = true ∧ "op_".toList <+: m.name.toList
  | .events, m => ∃ e, m.shape = .event e

theorem MemberDecl.hasOperatorName_iff (m : MemberDecl) :
    m.hasOperatorName = true ↔ "op_".toList <+: m.name.toList :=
  List.isPrefixOf_iff_prefix

/-- Every member belongs to the group that holds members of its kind. -/
theorem MemberGroup.holds_group (m : MemberDecl) : m.group.Holds m := by
  unfold MemberDecl.group
  cases hshape : m.shape with
  | constructor c => exact ⟨c, hshape⟩
  | property p => exact ⟨p, hshape⟩
  | field f => exact ⟨f, hshape⟩
  | event e => exact ⟨e, hshape⟩
  | method f =>
    have hiff : m.isOperator = true ↔
        f.isSpecialName = true ∧ "op_".toList <+: m.name.toList := by
      rw [MemberDecl.isOperator, Bool.and_eq_true, m.hasOperatorName_iff,
        MemberDecl.isSpecialMethod, hshape]
    simp only
    split_ifs with hop
    · exact ⟨f, hshape, hiff.mp hop⟩
    · exact ⟨f, hshape, fun h ↦ hop (hiff.mpr h)⟩

/-- The entry without its number among overloads. -/
def MemberEntry.unnumbered (m : MemberEntry) : MemberEntry :=
  { m with ordinal := none }

namespace MemberTable

/-- A table holds exactly the entries of a list, apart from their numbers among overloads: every
entry in the group of its kind, each group in the order of the signatures' bytes, and entries with
equal signatures in the order of the list. -/
structure Lists (t : MemberTable) (entries : List MemberEntry) : Prop where
  perm : (t.toList.map MemberEntry.unnumbered).Perm entries
  grouped : ∀ g, ∀ m ∈ t.get g, g.Holds m.decl
  ordered : ∀ g, (t.get g).Pairwise fun a b ↦ Text.bytes a.signature ≤ Text.bytes b.signature
  stable : ∀ g signature,
    ((t.get g).filter fun m ↦ m.signature == signature).map MemberEntry.unnumbered =
      entries.filter fun m ↦ m.decl.group == g && m.signature == signature

/-! ### Sorting -/

theorem bySignature_trans (a b c : MemberEntry) (hab : bySignature a b = true)
    (hbc : bySignature b c = true) : bySignature a c = true := by
  rw [bySignature, decide_eq_true_eq] at *
  exact String.le_trans hab hbc

theorem bySignature_total (a b : MemberEntry) : (bySignature a b || bySignature b a) = true := by
  rw [bySignature, bySignature, Bool.or_eq_true, decide_eq_true_eq, decide_eq_true_eq]
  exact String.le_total a.signature b.signature

theorem filter_get_ofList (entries : List MemberEntry) (g : MemberGroup) (signature : String) :
    ((ofList entries).get g).filter (fun m ↦ m.signature == signature) =
      entries.filter fun m ↦ m.decl.group == g && m.signature == signature := by
  have hclass (a b : MemberEntry) (ha : (a.signature == signature) = true)
      (hb : (b.signature == signature) = true) : bySignature a b = true := by
    rw [beq_iff_eq] at ha hb
    rw [bySignature, decide_eq_true_eq, ha, hb]
  rw [ofList, get_ofGroups, filter_mergeSort bySignature_trans bySignature_total hclass,
    List.filter_filter]
  exact List.filter_congr fun m _ ↦ Bool.and_comm _ _

theorem pairwise_get_ofList (entries : List MemberEntry) (g : MemberGroup) :
    ((ofList entries).get g).Pairwise fun a b ↦ a.signature ≤ b.signature := by
  rw [ofList, get_ofGroups]
  refine (List.pairwise_mergeSort bySignature_trans bySignature_total _).imp fun hab ↦ ?_
  exact of_decide_eq_true hab

/-- Entries that are found in the order of their signatures keep it. -/
theorem ofList_of_pairwise {entries : List MemberEntry}
    (h : entries.Pairwise fun a b ↦ a.signature ≤ b.signature) :
    ofList entries = ofGroups fun g ↦ entries.filter fun e ↦ e.decl.group == g := by
  refine congrArg ofGroups (funext fun g ↦ List.mergeSort_of_pairwise ?_)
  exact (h.filter _).imp fun hab ↦ decide_eq_true hab

theorem group_of_mem_get_ofList {entries : List MemberEntry} {g : MemberGroup} {m : MemberEntry}
    (h : m ∈ (ofList entries).get g) : m.decl.group = g := by
  rw [ofList, get_ofGroups, List.mem_mergeSort, List.mem_filter] at h
  exact eq_of_beq h.2

/-- Tables whose groups hold the same entries hold the same entries. -/
theorem toList_perm {t u : MemberTable} (h : ∀ g, (t.get g).Perm (u.get g)) :
    t.toList.Perm u.toList :=
  (((((h .constructors).append (h .fields)).append (h .properties)).append (h .methods)).append
    (h .operators)).append (h .events)

/-- Dividing entries into groups loses none and repeats none. -/
theorem toList_groups_perm (entries : List MemberEntry) :
    (ofGroups fun g ↦ entries.filter fun e ↦ e.decl.group == g).toList.Perm entries := by
  rw [List.perm_iff_count]
  intro m
  have hcount (g : MemberGroup) : (entries.filter fun e ↦ e.decl.group == g).count m =
      if m.decl.group = g then entries.count m else 0 := by
    split_ifs with hg
    · exact List.count_filter (beq_iff_eq.mpr hg)
    · exact List.count_eq_zero.mpr fun hm ↦ hg (eq_of_beq (List.mem_filter.mp hm).2)
  simp only [toList, ofGroups, List.count_append, hcount]
  cases m.decl.group <;> simp

/-- Sorting entries into groups loses none and repeats none. -/
theorem toList_ofList_perm (entries : List MemberEntry) :
    (ofList entries).toList.Perm entries := by
  refine (toList_perm fun g ↦ ?_).trans (toList_groups_perm entries)
  rw [ofList, get_ofGroups, get_ofGroups]
  exact List.mergeSort_perm _ _

/-! ### Changes after sorting -/

/-- A change that a condition does not see may be made after the condition is tested. -/
theorem filter_map_filter {f : MemberEntry → MemberEntry} {p q : MemberEntry → Bool}
    (hq : ∀ m, q (f m) = q m) (entries : List MemberEntry) :
    ((entries.map f).filter p).filter q = ((entries.filter q).map f).filter p := by
  rw [List.filter_comm, List.filter_map (f := f) (p := q)]
  simp only [Function.comp_def, hq]

/-- A table whose groups are those of sorted entries, changed by a function that keeps declarations
and signatures and with some left out, lists the changed entries. -/
theorem lists_of_get_eq {t : MemberTable} {entries : List MemberEntry}
    {f : MemberEntry → MemberEntry} {p : MemberEntry → Bool} (hdecl : ∀ m, (f m).decl = m.decl)
    (hsignature : ∀ m, (f m).signature = m.signature)
    (ht : ∀ g, (t.get g).map MemberEntry.unnumbered =
      (((ofList entries).get g).map f).filter p) :
    t.Lists ((entries.map f).filter p) := by
  have hmem {g : MemberGroup} {m : MemberEntry} (hm : m ∈ t.get g) :
      ∃ m₀ ∈ (ofList entries).get g, f m₀ = m.unnumbered := by
    have hin : m.unnumbered ∈ (((ofList entries).get g).map f).filter p :=
      ht g ▸ List.mem_map_of_mem hm
    exact List.mem_map.mp (List.mem_of_mem_filter hin)
  constructor
  · have hgroups (g : MemberGroup) : ((t.mapGroups (List.map MemberEntry.unnumbered)).get g).Perm
        ((ofGroups fun g ↦ ((entries.map f).filter p).filter fun e ↦ e.decl.group == g).get g) := by
      have hperm : ((((ofList entries).get g).map f).filter p).Perm
          (((entries.filter fun e ↦ e.decl.group == g).map f).filter p) := by
        rw [ofList, get_ofGroups]
        exact ((List.mergeSort_perm _ _).map f).filter p
      rw [mapGroups, get_ofGroups, get_ofGroups, ht]
      refine hperm.trans (List.Perm.of_eq (filter_map_filter (fun m ↦ ?_) entries).symm)
      rw [hdecl]
    rw [← toList_mapGroups]
    exact (toList_perm hgroups).trans (toList_groups_perm _)
  · intro g m hm
    obtain ⟨m₀, hm₀, heq⟩ := hmem hm
    have hgroup : m.decl.group = g := by
      rw [show m.decl = (f m₀).decl from heq ▸ rfl, hdecl]
      exact group_of_mem_get_ofList hm₀
    exact hgroup ▸ MemberGroup.holds_group m.decl
  · intro g
    have hsorted : ((t.get g).map MemberEntry.unnumbered).Pairwise fun a b ↦
        a.signature ≤ b.signature := by
      rw [ht]
      refine List.Pairwise.filter p (List.pairwise_map.mpr ?_)
      simp only [hsignature]
      exact pairwise_get_ofList entries g
    refine (List.pairwise_map.mp hsorted).imp fun hab ↦ ?_
    exact (Text.bytes_le_bytes_iff _ _).mpr hab
  · intro g signature
    have hswap : ((t.get g).filter fun m ↦ m.signature == signature).map MemberEntry.unnumbered =
        ((t.get g).map MemberEntry.unnumbered).filter fun m ↦ m.signature == signature := by
      rw [List.filter_map]
      rfl
    rw [hswap, ht, filter_map_filter (fun m ↦ by rw [hsignature]), filter_get_ofList,
      filter_map_filter fun m ↦ by rw [hsignature, hdecl]]

end MemberTable

/-! ### Choosing -/

namespace TypeEntry

variable {inclusion : Inclusion} {filter : MemberFilter} {comments : Comments} {id : TypeId}
  {fullName : String}

/-- The entry of a declared member as it is first built, if the switches and the filter choose it.
Methods behind properties and events are never chosen. -/
def chosen? (inclusion : Inclusion) (filter : MemberFilter) (comments : Comments) (id : TypeId)
    (fullName : String) (m : MemberDecl) : Option MemberEntry :=
  if m.isAccessor then none
  else
    match MemberEntry.build comments id fullName m with
    | .error _ => none
    | .ok entry => if keeps inclusion filter entry = .ok true then some entry else none

/-- The members that a type shows are the chosen ones, in the order in which they were found. -/
theorem memberEntries_eq_filterMap {decls : List MemberDecl} {entries : List MemberEntry}
    (h : memberEntries inclusion filter comments id fullName decls = .ok entries) :
    entries = decls.filterMap (chosen? inclusion filter comments id fullName) := by
  induction decls generalizing entries with
  | nil =>
    rw [memberEntries] at h
    exact (Except.ok.inj h).symm
  | cons d ds ih =>
    rw [memberEntries] at h
    split_ifs at h with hacc
    · rw [List.filterMap_cons, chosen?, if_pos hacc]
      exact ih h
    · obtain ⟨entry, hentry, h⟩ := bind_eq_ok_iff.mp h
      obtain ⟨kept, hkept, h⟩ := bind_eq_ok_iff.mp h
      obtain ⟨rest, hrest, h⟩ := bind_eq_ok_iff.mp h
      obtain rfl := Except.ok.inj h
      rw [List.filterMap_cons, chosen?, if_neg hacc, hentry, ih hrest]
      cases kept with
      | true => simp only [hkept, if_true]
      | false => simp [hkept]

end TypeEntry

end ApiDocs
