import ApiDocs.Decl.Assemble
import ApiDocs.Proofs.Entry.Nesting
import ApiDocs.Proofs.Reference.Content
import ApiDocs.Proofs.Reference.Inheritance
import ApiDocs.Proofs.Reference.Integrity

/-!
# The namespaces of a finished reference

Types are listed by namespace twice: in every assembly by name and full name, and across assemblies
by name alone. The second sort is stable and starts from the lists of the assemblies one after
another, so types of the same name end up in the order of their assemblies, and in one assembly in
the order of their full names.

## Main definitions

* `TypeEntry.Precedes`: the order of types in a namespace.
* `Comments.onNamespace?`: the comment on a namespace in a file.
* `Assemblies.typesIn`: the types of a namespace, assembly by assembly.
* `Reference.MergesNamespaces`: what the namespaces of a reference are.

## Main results

* `Assemblies.ListsTypes.pairwise_typesIn`: the order of the types before they are merged.
* `Assemblies.ListsTypes.mem_types_iff_of_mem_merge`: the types of a namespace.
* `Assemblies.ListsTypes.pairwise_filterMap_type?_of_mem_merge`: their order.
* `Reference.findSome?_comment_eq`: the comment of the first assembly that has one.
* `Reference.mergesNamespaces_of_build`: the namespaces of every reference that is built.
-/

namespace ApiDocs

/-- A type comes before another one in a namespace by its name, then by its assembly, then by its
full name. Texts are compared byte by byte. -/
def TypeEntry.Precedes (t u : TypeEntry) : Prop :=
  Text.bytes t.name < Text.bytes u.name ∨
    t.name = u.name ∧
      (t.id.assembly.val < u.id.assembly.val ∨
        t.id.assembly = u.id.assembly ∧ Text.bytes t.fullName < Text.bytes u.fullName)

/-- The comment on a namespace in a file: the one under the mark of namespaces, or else the one
under the bare name. -/
def Comments.onNamespace? (cs : Comments) (name : String) : Option Comment :=
  (cs.get? ("N:" ++ name)).or (cs.get? name)

theorem Comments.namespaceComment?_eq (cs : Comments) (name : String) :
    cs.namespaceComment? name = cs.onNamespace? name :=
  Option.orElse_eq_or

/-! ### Lists of assemblies -/

namespace Assemblies

/-- The parts of a namespace that assemblies have. -/
def partsIn (as : List AssemblyEntry) (name : String) : List NamespaceEntry :=
  (as.flatMap AssemblyEntry.namespaces).filter fun n ↦ n.name == name

/-- The types of a namespace that are not nested, assembly by assembly, and by name in each. -/
def typesIn (as : List AssemblyEntry) (name : String) : List TypeEntry :=
  as.flatMap fun a ↦ AssemblyEntry.sortedIn name a.types

/-- Identifiers say where types stand, the types of an assembly have different names, and every
assembly lists its types by namespace. -/
structure ListsTypes (as : List AssemblyEntry) : Prop where
  addressed : Addressed as
  names : ∀ a ∈ as, (a.types.map TypeEntry.fullName).Nodup
  namespaces : ∀ a ∈ as, ∃ comments,
    a.namespaces = AssemblyEntry.listNamespaces comments a.types

theorem isOutermostIn_iff {name : String} {t : TypeEntry} :
    t.isOutermostIn name = true ↔ t.isNested = false ∧ t.namespaceName = name := by
  rw [TypeEntry.isOutermostIn, Bool.and_eq_true, Bool.not_eq_true', beq_iff_eq]

theorem mem_typesIn {as : List AssemblyEntry} {name : String} {t : TypeEntry} :
    t ∈ typesIn as name ↔ t ∈ types as ∧ t.isOutermostIn name = true := by
  simp only [typesIn, types, List.mem_flatMap, AssemblyEntry.mem_sortedIn]
  constructor
  · rintro ⟨a, ha, ht, hname⟩
    exact ⟨⟨a, ha, ht⟩, hname⟩
  · rintro ⟨⟨a, ha, ht⟩, hname⟩
    exact ⟨a, ha, ht, hname⟩

theorem typesIn_perm (as : List AssemblyEntry) (name : String) :
    (typesIn as name).Perm ((types as).filter (TypeEntry.isOutermostIn name)) := by
  rw [types, List.filter_flatMap]
  exact List.Perm.flatMap_left _ fun a _ ↦ List.mergeSort_perm _ _

namespace ListsTypes

variable {as : List AssemblyEntry} (h : ListsTypes as)

include h

theorem nodup_typesIn (name : String) : ((typesIn as name).map TypeEntry.id).Nodup := by
  rw [((typesIn_perm as name).map TypeEntry.id).nodup_iff]
  exact h.addressed.nodup_map_id.sublist (List.filter_sublist.map _)

/-- Before they are merged, the types of a namespace stand in the order of their assemblies, and in
one assembly by name and full name. -/
theorem pairwise_typesIn (name : String) :
    (typesIn as name).Pairwise fun t u ↦
      t.id.assembly.val < u.id.assembly.val ∨
        t.id.assembly = u.id.assembly ∧ t.ComesBefore u := by
  have hassembly {a : AssemblyEntry} (ha : a ∈ as) {t : TypeEntry}
      (ht : t ∈ AssemblyEntry.sortedIn name a.types) : t.id.assembly = a.id := by
    obtain ⟨j, hj⟩ := List.getElem?_of_mem (AssemblyEntry.mem_sortedIn.mp ht).1
    exact (h.addressed.slot a ha j t hj).1
  rw [typesIn, List.pairwise_flatMap]
  constructor
  · intro a ha
    have hnames : ((a.types.filter (TypeEntry.isOutermostIn name)).map TypeEntry.fullName).Nodup :=
      (h.names a ha).sublist (List.filter_sublist.map _)
    refine (AssemblyEntry.pairwise_mergeSort_byName hnames).imp_of_mem fun {t u} ht hu htu ↦ ?_
    exact Or.inr ⟨(hassembly ha ht).trans (hassembly ha hu).symm, htu⟩
  · refine h.addressed.increasing.imp_of_mem fun {a b} ha hb hab t ht u hu ↦ ?_
    rw [hassembly ha ht, hassembly hb hu]
    exact Or.inl hab

/-- The parts of a namespace list its types assembly by assembly. -/
theorem flatMap_types_partsIn (name : String) :
    (partsIn as name).flatMap NamespaceEntry.types = (typesIn as name).map TypeEntry.id := by
  rw [partsIn, List.filter_flatMap, List.flatMap_assoc, typesIn, List.map_flatMap]
  refine List.flatMap_congr fun a ha ↦ ?_
  obtain ⟨comments, hnamespaces⟩ := h.namespaces a ha
  rw [hnamespaces, AssemblyEntry.filter_name_listNamespaces]
  split_ifs with hany
  · rw [List.flatMap_singleton]
  · have hnone : AssemblyEntry.sortedIn name a.types = [] :=
      List.eq_nil_iff_forall_not_mem.mpr fun t ht ↦
        hany (List.any_eq_true.mpr ⟨t, AssemblyEntry.mem_sortedIn.mp ht⟩)
    rw [hnone]
    rfl

/-- The order of types by name. -/
theorem byTypeName_id {t u : TypeEntry} (ht : t ∈ types as) (hu : u ∈ types as) :
    NamespaceEntry.byTypeName as t.id u.id = decide (t.name ≤ u.name) := by
  simp only [NamespaceEntry.byTypeName, h.addressed.type?_id ht, h.addressed.type?_id hu,
    Option.map_some, Option.getD_some]

/-- The types of a namespace are those of the assemblies, sorted once more by name. -/
theorem types_mergeParts (comments : Option Comments) (name : String) :
    (NamespaceEntry.mergeParts as comments name (partsIn as name)).types =
      ((typesIn as name).mergeSort fun t u ↦ decide (t.name ≤ u.name)).map TypeEntry.id := by
  rw [NamespaceEntry.mergeParts]
  simp only
  rw [h.flatMap_types_partsIn, eraseDups_of_nodup (h.nodup_typesIn name)]
  refine (List.map_mergeSort fun t ht u hu ↦ ?_).symm
  exact (h.byTypeName_id (mem_typesIn.mp ht).1 (mem_typesIn.mp hu).1).symm

/-- After they are merged, the types of a namespace stand in order. -/
theorem pairwise_mergeSort_typesIn (name : String) :
    ((typesIn as name).mergeSort fun t u ↦ decide (t.name ≤ u.name)).Pairwise
      TypeEntry.Precedes := by
  have htrans (t u v : TypeEntry) (htu : decide (t.name ≤ u.name) = true)
      (huv : decide (u.name ≤ v.name) = true) : decide (t.name ≤ v.name) = true := by
    rw [decide_eq_true_eq] at *
    exact String.le_trans htu huv
  have htotal (t u : TypeEntry) :
      (decide (t.name ≤ u.name) || decide (u.name ≤ t.name)) = true := by
    rw [Bool.or_eq_true, decide_eq_true_eq, decide_eq_true_eq]
    exact String.le_total _ _
  refine (pairwise_mergeSort_of_pairwise htrans htotal
    (h.pairwise_typesIn name)).imp fun {t u} htu ↦ ?_
  obtain ⟨hle, hties⟩ := htu
  rw [decide_eq_true_eq] at hle hties
  rcases lt_or_eq_of_le hle with hlt | heq
  · exact Or.inl ((Text.bytes_lt_bytes_iff _ _).mpr hlt)
  · -- types of the same name keep the order in which they were listed
    refine Or.inr ⟨heq, (hties heq.ge).imp_right fun ⟨hassembly, hbefore⟩ ↦ ⟨hassembly, ?_⟩⟩
    rcases hbefore with hlt | ⟨-, hlt⟩
    · rw [heq, Text.bytes_lt_bytes_iff] at hlt
      exact absurd hlt (lt_irrefl _)
    · exact hlt

theorem mem_map_name_iff {name : String} :
    name ∈ (as.flatMap AssemblyEntry.namespaces).map NamespaceEntry.name ↔
      ∃ t ∈ types as, t.isOutermostIn name = true := by
  have hpart {a : AssemblyEntry} (ha : a ∈ as) :
      (∃ n ∈ a.namespaces, n.name = name) ↔ ∃ t ∈ a.types, t.isOutermostIn name = true := by
    obtain ⟨comments, hnamespaces⟩ := h.namespaces a ha
    have hfilter := AssemblyEntry.filter_name_listNamespaces comments a.types name
    rw [← hnamespaces] at hfilter
    rw [← List.any_eq_true]
    constructor
    · rintro ⟨n, hn, hname⟩
      have hmem : n ∈ a.namespaces.filter fun n ↦ n.name == name :=
        List.mem_filter.mpr ⟨hn, beq_iff_eq.mpr hname⟩
      rw [hfilter] at hmem
      split_ifs at hmem with hany
      · exact hany
      · cases hmem
    · intro hany
      rw [if_pos hany] at hfilter
      have hmem := List.mem_filter.mp (hfilter ▸ List.mem_singleton_self _)
      exact ⟨_, hmem.1, rfl⟩
  constructor
  · intro hmem
    obtain ⟨n, hn, hname⟩ := List.mem_map.mp hmem
    obtain ⟨a, ha, hna⟩ := List.mem_flatMap.mp hn
    obtain ⟨t, ht, htname⟩ := (hpart ha).mp ⟨n, hna, hname⟩
    exact ⟨t, mem_types.mpr ⟨a, ha, ht⟩, htname⟩
  · rintro ⟨t, ht, htname⟩
    obtain ⟨a, ha, hta⟩ := mem_types.mp ht
    obtain ⟨n, hn, hname⟩ := (hpart ha).mpr ⟨t, hta, htname⟩
    exact List.mem_map.mpr ⟨n, List.mem_flatMap.mpr ⟨a, ha, hn⟩, hname⟩

/-- The namespaces are those in which types lie that are not nested. -/
theorem mem_merge_iff {comments : Option Comments} {n : NamespaceEntry} :
    n ∈ NamespaceEntry.merge as comments ↔
      ∃ name, (∃ t ∈ types as, t.isOutermostIn name = true) ∧
        NamespaceEntry.mergeParts as comments name (partsIn as name) = n := by
  simp only [NamespaceEntry.merge, List.mem_map, AssemblyEntry.mem_sortedNames,
    ← h.mem_map_name_iff]
  rfl

theorem exists_mem_merge_iff (comments : Option Comments) {name : String} :
    (∃ n ∈ NamespaceEntry.merge as comments, n.name = name) ↔
      ∃ t ∈ types as, t.isNested = false ∧ t.namespaceName = name := by
  simp only [← isOutermostIn_iff]
  constructor
  · rintro ⟨n, hn, rfl⟩
    obtain ⟨name, ht, rfl⟩ := h.mem_merge_iff.mp hn
    exact ht
  · intro ht
    exact ⟨_, h.mem_merge_iff.mpr ⟨name, ht, rfl⟩, rfl⟩

variable {comments : Option Comments} {n : NamespaceEntry}

theorem types_of_mem_merge (hn : n ∈ NamespaceEntry.merge as comments) : n.types =
    ((typesIn as n.name).mergeSort fun t u ↦ decide (t.name ≤ u.name)).map TypeEntry.id := by
  obtain ⟨name, -, rfl⟩ := h.mem_merge_iff.mp hn
  exact h.types_mergeParts _ name

/-- A namespace lists the types that are not nested and lie in it. -/
theorem mem_types_iff_of_mem_merge (hn : n ∈ NamespaceEntry.merge as comments) {id : TypeId} :
    id ∈ n.types ↔ ∃ t, type? as id = some t ∧ t.isNested = false ∧ t.namespaceName = n.name := by
  rw [h.types_of_mem_merge hn, List.mem_map]
  constructor
  · rintro ⟨t, ht, rfl⟩
    rw [List.mem_mergeSort, mem_typesIn, isOutermostIn_iff] at ht
    exact ⟨t, h.addressed.type?_id ht.1, ht.2⟩
  · rintro ⟨t, ht, hname⟩
    obtain ⟨htmem, rfl⟩ := h.addressed.type?_eq_some_iff.mp ht
    refine ⟨t, ?_, rfl⟩
    rw [List.mem_mergeSort, mem_typesIn, isOutermostIn_iff]
    exact ⟨htmem, hname⟩

theorem nodup_types_of_mem_merge (hn : n ∈ NamespaceEntry.merge as comments) : n.types.Nodup := by
  rw [h.types_of_mem_merge hn, ((List.mergeSort_perm _ _).map _).nodup_iff]
  exact h.nodup_typesIn n.name

/-- The types that a namespace lists stand in order. -/
theorem pairwise_filterMap_type?_of_mem_merge (hn : n ∈ NamespaceEntry.merge as comments) :
    (n.types.filterMap (type? as)).Pairwise TypeEntry.Precedes := by
  have hfound : n.types.filterMap (type? as) =
      (typesIn as n.name).mergeSort fun t u ↦ decide (t.name ≤ u.name) := by
    rw [h.types_of_mem_merge hn, List.filterMap_map]
    refine (List.filterMap_congr fun t ht ↦ ?_).trans List.filterMap_some
    rw [List.mem_mergeSort, mem_typesIn] at ht
    exact h.addressed.type?_id ht.1
  rw [hfound]
  exact h.pairwise_mergeSort_typesIn n.name

end ListsTypes

end Assemblies

/-! ### What the passes keep -/

/-- Lists by namespace depend on the outlines of types only. -/
theorem AssemblyEntry.listNamespaces_map_outline (comments : Comments) (types : List TypeEntry) :
    listNamespaces comments (types.map TypeEntry.outline) = listNamespaces comments types := by
  have hfilter (p : TypeEntry → Bool) (hp : ∀ t, p t.outline = p t) (ts : List TypeEntry) :
      (ts.map TypeEntry.outline).filter p = (ts.filter p).map TypeEntry.outline := by
    rw [List.filter_map]
    exact congrArg (List.map TypeEntry.outline) (List.filter_congr fun t _ ↦ hp t)
  have hsorted (ts : List TypeEntry) :
      ((ts.map TypeEntry.outline).mergeSort byName).map TypeEntry.id =
        (ts.mergeSort byName).map TypeEntry.id := by
    have hname (t u : TypeEntry) : byName t u = byName t.outline u.outline := rfl
    rw [← List.map_mergeSort fun t _ u _ ↦ hname t u, List.map_map]
    rfl
  simp only [listNamespaces]
  rw [hfilter _ (fun _ ↦ rfl), List.map_map]
  refine List.map_congr_left fun name _ ↦ ?_
  rw [hfilter _ (fun _ ↦ rfl), hsorted]

theorem Assemblies.ListsTypes.of_outline_eq {as bs : List AssemblyEntry} (h : ListsTypes bs)
    (heq : outline as = outline bs) : ListsTypes as := by
  refine ⟨h.addressed.of_outline_eq heq, fun a ha ↦ ?_, fun a ha ↦ ?_⟩
  all_goals
    obtain ⟨b, hb, hab⟩ := exists_outline_eq heq ha
    have htypes : a.types.map TypeEntry.outline = b.types.map TypeEntry.outline :=
      congrArg (fun a ↦ a.types) hab
  · have hnames := congrArg (List.map TypeEntry.fullName) htypes
    rw [List.map_map, List.map_map] at hnames
    exact hnames ▸ h.names b hb
  · obtain ⟨comments, hnamespaces⟩ := h.namespaces b hb
    refine ⟨comments, ?_⟩
    calc a.namespaces = b.namespaces := congrArg (fun a ↦ a.namespaces) hab
      _ = AssemblyEntry.listNamespaces comments b.types := hnamespaces
      _ = AssemblyEntry.listNamespaces comments a.types := by
        rw [← AssemblyEntry.listNamespaces_map_outline, ← htypes,
          AssemblyEntry.listNamespaces_map_outline]

namespace Reference

open Assemblies

theorem IsBound.listsTypes {bound : List (AssemblyEntry × Comments)} (h : IsBound bound) :
    ListsTypes (bound.map Prod.fst) := by
  refine ⟨h.addressed, fun a ha ↦ ?_, fun a ha ↦ ?_⟩
  all_goals
    obtain ⟨p, hp, rfl⟩ := List.mem_map.mp ha
    obtain ⟨inclusion, filter, source, hbuild⟩ := h.built p hp
  · exact (AssemblyEntry.settled_of_build hbuild (h.slots p hp)).names
  · obtain ⟨_, built, _, -, -, -, -, heq⟩ := AssemblyEntry.exists_of_build hbuild
    refine ⟨p.2, ?_⟩
    rw [heq]

variable {inclusion : Inclusion} {filter : MemberFilter} {inputs : List AssemblyInput}

/-- The number of a bound assembly is the place of its input. -/
theorem exists_getElem?_of_mem_boundEntries (hinputs : inputs.length ≤ UInt32.size)
    {p : AssemblyEntry × Comments} (h : p ∈ boundEntries (bindAll inclusion filter inputs)) :
    ∃ input, inputs[p.1.id.toNat]? = some input ∧ p.2 = input.loaded ∧
      AssemblyEntry.build inclusion filter p.1.id input.source p.2 = .ok p.1 := by
  obtain ⟨i, input, hinput, hid, hcomments, hbuild⟩ := exists_place_of_mem_boundEntries h
  have hi := (List.getElem?_eq_some_iff.mp hinput).1
  have htoNat : p.1.id.toNat = i := by
    rw [hid, AssemblyId.toNat, AssemblyId.ofNat, UInt32.toNat_ofNat_of_lt' (by omega)]
  exact ⟨input, htoNat ▸ hinput, hcomments, hbuild⟩

/-! ### Comments on namespaces -/

/-- The comment on a namespace that an assembly brings: the one of its input, if a type of the
assembly that is not nested lies in the namespace. -/
def broughtComment? (inputs : List AssemblyInput) (name : String) (a : AssemblyEntry) :
    Option Comment :=
  if a.types.any (TypeEntry.isOutermostIn name) then
    inputs[a.id.toNat]?.bind fun input ↦ input.loaded.onNamespace? name
  else none

/-- A part of a namespace has the comment that its assembly brings. -/
theorem filterMap_comment_eq (hinputs : inputs.length ≤ UInt32.size) (name : String)
    {a : AssemblyEntry} (ha : a ∈ (boundEntries (bindAll inclusion filter inputs)).map Prod.fst) :
    (a.namespaces.filter fun n ↦ n.name == name).filterMap NamespaceEntry.comment =
      (broughtComment? inputs name a).toList := by
  obtain ⟨p, hp, rfl⟩ := List.mem_map.mp ha
  obtain ⟨input, hinput, hcomments, hbuild⟩ := exists_getElem?_of_mem_boundEntries hinputs hp
  have hnamespaces : p.1.namespaces = AssemblyEntry.listNamespaces input.loaded p.1.types := by
    obtain ⟨_, built, _, -, -, -, -, heq⟩ := AssemblyEntry.exists_of_build hbuild
    rw [heq, hcomments]
  rw [hnamespaces, AssemblyEntry.filter_name_listNamespaces, broughtComment?, hinput]
  split_ifs
  · rw [Option.bind_some, ← Comments.namespaceComment?_eq]
    cases input.loaded.namespaceComment? name <;> rfl
  · rfl

/-- Among the parts of a namespace the first comment is that of the first assembly that brings
one. -/
theorem findSome?_comment_eq (hinputs : inputs.length ≤ UInt32.size) (name : String)
    {as : List AssemblyEntry}
    (has : as = (boundEntries (bindAll inclusion filter inputs)).map Prod.fst) :
    (partsIn as name).findSome? NamespaceEntry.comment =
      as.findSome? (broughtComment? inputs name) := by
  subst has
  rw [partsIn, ← List.head?_filterMap, ← List.head?_filterMap, List.filter_flatMap,
    List.filterMap_flatMap, List.filterMap_eq_flatMap_toList]
  exact congrArg List.head? (List.flatMap_congr fun a ha ↦ filterMap_comment_eq hinputs name ha)

theorem findSome?_eq_of_outline_eq {as bs : List AssemblyEntry}
    (h : outline as = outline bs) (inputs : List AssemblyInput) (name : String) :
    as.findSome? (broughtComment? inputs name) = bs.findSome? (broughtComment? inputs name) := by
  have houtline (cs : List AssemblyEntry) :
      (outline cs).findSome? (broughtComment? inputs name) =
        cs.findSome? (broughtComment? inputs name) := by
    rw [outline, mapTypes, List.findSome?_map]
    refine congrArg (List.findSome? · cs) (funext fun a ↦ ?_)
    simp only [Function.comp_apply, broughtComment?, List.any_map]
    rfl
  rw [← houtline as, h, houtline]

theorem partsIn_eq_of_outline_eq {as bs : List AssemblyEntry} (h : outline as = outline bs)
    (name : String) : partsIn as name = partsIn bs name := by
  have houtline (cs : List AssemblyEntry) : partsIn (outline cs) name = partsIn cs name := by
    rw [partsIn, outline, mapTypes, List.flatMap_map]
    rfl
  rw [← houtline as, h, houtline]

/-- The comment of a namespace is that of the file on namespaces, or else that of the first assembly
that brings one. -/
theorem comment_of_mem_merge (hinputs : inputs.length ≤ UInt32.size)
    {as : List AssemblyEntry} (hlists : ListsTypes as)
    (houtline : outline as =
      outline ((boundEntries (bindAll inclusion filter inputs)).map Prod.fst))
    {comments : Option Comments} {n : NamespaceEntry}
    (hn : n ∈ NamespaceEntry.merge as comments) :
    n.comment = (comments.bind fun cs ↦ cs.onNamespace? n.name).or
      (as.findSome? (broughtComment? inputs n.name)) := by
  obtain ⟨name, -, rfl⟩ := hlists.mem_merge_iff.mp hn
  change NamespaceEntry.mergedComment _ name _ = Option.or (Option.bind _
    (Comments.onNamespace? · name)) (as.findSome? (broughtComment? inputs name))
  rw [findSome?_eq_of_outline_eq houtline, ← findSome?_comment_eq hinputs name rfl,
    ← partsIn_eq_of_outline_eq houtline]
  simp only [← Comments.namespaceComment?_eq]
  exact Option.orElse_eq_or

/-- A finished assembly has the name of the input in the place that its number says. -/
theorem exists_input_of_outline_eq (hinputs : inputs.length ≤ UInt32.size)
    {as : List AssemblyEntry}
    (houtline : outline as =
      outline ((boundEntries (bindAll inclusion filter inputs)).map Prod.fst))
    {a : AssemblyEntry} (ha : a ∈ as) :
    ∃ input, inputs[a.id.toNat]? = some input ∧ input.source.name = a.name := by
  obtain ⟨b, hb, hab⟩ := exists_outline_eq houtline ha
  obtain ⟨p, hp, rfl⟩ := List.mem_map.mp hb
  obtain ⟨input, hinput, -, hbuild⟩ := exists_getElem?_of_mem_boundEntries hinputs hp
  obtain ⟨_, _, _, -, -, -, -, heq⟩ := AssemblyEntry.exists_of_build hbuild
  have hid : a.id = p.1.id := congrArg (fun a ↦ a.id) hab
  have hname : a.name = p.1.name := congrArg (fun a ↦ a.name) hab
  exact ⟨input, hid ▸ hinput, by rw [hname, heq]⟩

/-! ### The whole reference -/

/-- The namespaces of a reference are those of its types. -/
structure MergesNamespaces (inputs : List AssemblyInput) (namespaceComments : Option CommentSource)
    (r : Reference) : Prop where
  /-- Assemblies stand in the order of the inputs, and their numbers are places of inputs. -/
  numbered : (r.assemblies.Pairwise fun a b ↦ a.id.val < b.id.val) ∧
    ∀ a ∈ r.assemblies, ∃ input, inputs[a.id.toNat]? = some input ∧ input.source.name = a.name
  /-- Namespaces stand in the order of their names, each once. -/
  names : r.namespaces.Pairwise fun m n ↦ Text.bytes m.name < Text.bytes n.name
  /-- There is a namespace for every type that is not nested, and no other. -/
  occurs : ∀ name, (∃ n ∈ r.namespaces, n.name = name) ↔
    ∃ t ∈ Assemblies.types r.assemblies, t.isNested = false ∧ t.namespaceName = name
  /-- A namespace lists the types that are not nested and lie in it. -/
  listed : ∀ n ∈ r.namespaces, ∀ id, id ∈ n.types ↔
    ∃ t, r.type? id = some t ∧ t.isNested = false ∧ t.namespaceName = n.name
  /-- No type is listed twice. -/
  once : ∀ n ∈ r.namespaces, n.types.Nodup
  /-- The types of a namespace stand by name, then by assembly, then by full name. -/
  ordered : ∀ n ∈ r.namespaces, (r.namespaceTypes n).Pairwise TypeEntry.Precedes
  /-- The comment is that of the file on namespaces, or else that of the first assembly that brings
  one. -/
  comment : ∀ n ∈ r.namespaces, n.comment =
    ((CommentSource.loadAny none namespaceComments).1.bind fun cs ↦ cs.onNamespace? n.name).or
      (r.assemblies.findSome? (broughtComment? inputs n.name))

/-- **The namespaces of a finished reference.** There must be words enough to number the assemblies
and the types of each assembly. -/
theorem mergesNamespaces_of_build {inclusion : Inclusion} {filter : MemberFilter}
    {inputs : List AssemblyInput} {namespaceComments : Option CommentSource} {r : Reference}
    (h : build inclusion filter inputs namespaceComments = .ok r)
    (hinputs : inputs.length ≤ UInt32.size)
    (htypes : ∀ a ∈ r.assemblies, a.types.length ≤ UInt32.size) :
    r.MergesNamespaces inputs namespaceComments := by
  obtain ⟨-, hr⟩ := build_eq_ok_iff.mp h
  have hbound : IsBound (boundEntries (bindAll inclusion filter inputs)) :=
    isBound_boundEntries hinputs fun p hp ↦ length_types_of_mem_boundEntries (hr ▸ htypes) hp
  have houtline : outline r.assemblies =
      outline ((boundEntries (bindAll inclusion filter inputs)).map Prod.fst) :=
    hr ▸ outline_ofBindings inclusion _ namespaceComments
  have hlists : ListsTypes r.assemblies := hbound.listsTypes.of_outline_eq houtline
  have hnamespaces : r.namespaces =
      NamespaceEntry.merge r.assemblies (CommentSource.loadAny none namespaceComments).1 := by
    rw [hr]
    rfl
  have hmerged {n : NamespaceEntry} (hn : n ∈ r.namespaces) : n ∈
      NamespaceEntry.merge r.assemblies (CommentSource.loadAny none namespaceComments).1 :=
    hnamespaces ▸ hn
  exact {
    numbered := ⟨hlists.addressed.increasing, fun a ha ↦
      exists_input_of_outline_eq hinputs houtline ha⟩
    names := by
      rw [hnamespaces]
      exact List.pairwise_map.mpr (AssemblyEntry.pairwise_sortedNames _)
    occurs := fun name ↦ by
      rw [hnamespaces]
      exact hlists.exists_mem_merge_iff _
    listed := fun n hn id ↦ hlists.mem_types_iff_of_mem_merge (hmerged hn)
    once := fun n hn ↦ hlists.nodup_types_of_mem_merge (hmerged hn)
    ordered := fun n hn ↦ hlists.pairwise_filterMap_type?_of_mem_merge (hmerged hn)
    comment := fun n hn ↦ comment_of_mem_merge hinputs hlists houtline (hmerged hn) }

/-! ### A namespace in two assemblies -/

/-- Two assemblies with a type of the same name. Only the second one has a comment on the
namespace, under its bare name. -/
def crateInputs : List AssemblyInput :=
  [⟨⟨"Crates", .ok [.classNamed "Goods.Crate"]⟩, none⟩,
    ⟨⟨"Boxes", .ok [.classNamed "Goods.Box", .classNamed "Goods.Crate"]⟩,
      some (.memory (.ofList none
        [{ key := "Goods" }, { key := "T:Goods.Box" }, { key := "T:Goods.Crate" }]))⟩]

/-- The assemblies of crates and boxes as they are bound. -/
def crates : List (AssemblyEntry × Comments) :=
  boundEntries (bindAll .publicSurface .all crateInputs)

theorem mergesNamespaces_of_build_crateInputs :
    ∃ r, build .publicSurface .all crateInputs none = .ok r ∧
      r.namespaces.map (fun n ↦ (n.name, n.comment.map Comment.key)) =
        [("Goods", some "Goods")] ∧
      r.MergesNamespaces crateInputs none := by
  set r := ofBindings .publicSurface (bindAll .publicSurface .all crateInputs) none with hr
  have hbuild : build .publicSurface .all crateInputs none = .ok r :=
    build_eq_ok_iff.mpr ⟨by decide +kernel, hr⟩
  have hassemblies : r.assemblies = Inheritance.completeAlong _ .publicSurface crates :=
    Inheritance.assemblies_ofBindings _ _ (Inheritance.order_eq_of_pairwise (by decide +kernel))
  have hnamespaces : r.namespaces = NamespaceEntry.merge r.assemblies none := rfl
  refine ⟨r, hbuild, ?_, mergesNamespaces_of_build hbuild (by decide) ?_⟩
  · rw [hnamespaces, hassemblies]
    decide +kernel
  · rw [hassemblies]
    decide +kernel

end Reference

end ApiDocs
