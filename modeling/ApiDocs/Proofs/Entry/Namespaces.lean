import ApiDocs.Entry.Assembly
import ApiDocs.Proofs.Lists
import ApiDocs.Proofs.Text.ByteOrder

/-!
# The namespaces of an assembly

The types of an assembly that are not nested are divided by namespace. The names of the namespaces
are those that occur, each once and in order, and the lists of types together hold every type that
is not nested once.

## Main definitions

* `TypeEntry.ComesBefore`: the order of types by name and full name.
* `AssemblyEntry.sortedIn`: the types of one namespace in order.

## Main results

* `AssemblyEntry.pairwise_sortedNames`: names without repetition, in the order of their bytes.
* `AssemblyEntry.pairwise_mergeSort_byName`: types that are sorted by name.
* `AssemblyEntry.flatMap_types_listNamespaces_perm`: every type that is not nested is listed once.
* `AssemblyEntry.filter_name_listNamespaces`: the entry of one namespace.
-/

namespace ApiDocs

/-- A type comes before another one by its name, or by its full name if the names are equal. Texts
are compared byte by byte. -/
def TypeEntry.ComesBefore (t u : TypeEntry) : Prop :=
  Text.bytes t.name < Text.bytes u.name ∨
    t.name = u.name ∧ Text.bytes t.fullName < Text.bytes u.fullName

/-- Whether a type is not nested and lies in a namespace. -/
def TypeEntry.isOutermostIn (name : String) (t : TypeEntry) : Bool :=
  !t.isNested && t.namespaceName == name

namespace AssemblyEntry

/-! ### Names in order -/

theorem mem_sortedNames {names : List String} {name : String} :
    name ∈ sortedNames names ↔ name ∈ names := by
  rw [sortedNames, List.mem_mergeSort, List.mem_eraseDups]

theorem nodup_sortedNames (names : List String) : (sortedNames names).Nodup :=
  (List.mergeSort_perm _ _).nodup_iff.mpr (nodup_eraseDups names)

/-- Names without repetition stand in the order of their bytes. -/
theorem pairwise_sortedNames (names : List String) :
    (sortedNames names).Pairwise fun a b ↦ Text.bytes a < Text.bytes b := by
  have hle : (sortedNames names).Pairwise fun a b ↦ decide (a ≤ b) = true := by
    refine List.pairwise_mergeSort (fun a b c hab hbc ↦ ?_) (fun a b ↦ ?_) _
    · rw [decide_eq_true_eq] at hab hbc ⊢
      exact String.le_trans hab hbc
    · rw [Bool.or_eq_true, decide_eq_true_eq, decide_eq_true_eq]
      exact String.le_total a b
  refine (hle.and (nodup_sortedNames names)).imp fun {a b} hab ↦ ?_
  rw [Text.bytes_lt_bytes_iff]
  exact lt_of_le_of_ne (of_decide_eq_true hab.1) hab.2

/-! ### Types in order -/

theorem byName_iff {t u : TypeEntry} :
    byName t u = true ↔ t.name < u.name ∨ t.name = u.name ∧ t.fullName ≤ u.fullName := by
  rw [byName, Bool.or_eq_true, Bool.and_eq_true, decide_eq_true_eq, decide_eq_true_eq, beq_iff_eq]

theorem byName_trans (t u v : TypeEntry) (htu : byName t u = true) (huv : byName u v = true) :
    byName t v = true := by
  rw [byName_iff] at *
  rcases htu with htu | ⟨htu, htu'⟩ <;> rcases huv with huv | ⟨huv, huv'⟩
  · exact Or.inl (lt_trans htu huv)
  · exact Or.inl (htu.trans_eq huv)
  · exact Or.inl (htu.trans_lt huv)
  · exact Or.inr ⟨htu.trans huv, le_trans htu' huv'⟩

theorem byName_total (t u : TypeEntry) : (byName t u || byName u t) = true := by
  rw [Bool.or_eq_true, byName_iff, byName_iff]
  rcases lt_trichotomy t.name u.name with hlt | heq | hgt
  · exact Or.inl (Or.inl hlt)
  · exact (le_total t.fullName u.fullName).imp (fun h ↦ Or.inr ⟨heq, h⟩)
      fun h ↦ Or.inr ⟨heq.symm, h⟩
  · exact Or.inr (Or.inl hgt)

/-- Types with different full names that are sorted by name. -/
theorem pairwise_mergeSort_byName {types : List TypeEntry}
    (h : (types.map TypeEntry.fullName).Nodup) :
    (types.mergeSort byName).Pairwise TypeEntry.ComesBefore := by
  have hnames : (types.mergeSort byName).Pairwise fun t u ↦ t.fullName ≠ u.fullName :=
    List.pairwise_map.mp (((List.mergeSort_perm types byName).map _).nodup_iff.mpr h)
  have hsorted := List.pairwise_mergeSort byName_trans byName_total types
  refine (hsorted.and hnames).imp fun {t u} htu ↦ ?_
  rw [TypeEntry.ComesBefore, Text.bytes_lt_bytes_iff, Text.bytes_lt_bytes_iff]
  refine (byName_iff.mp htu.1).imp_right fun hle ↦ ?_
  exact ⟨hle.1, lt_of_le_of_ne hle.2 htu.2⟩

/-! ### Division by namespace -/

/-- Every type that is not nested is listed once, in one of the namespaces. -/
theorem flatMap_types_listNamespaces_perm (comments : Comments) (types : List TypeEntry) :
    ((listNamespaces comments types).flatMap NamespaceEntry.types).Perm
      ((types.filter fun t ↦ !t.isNested).map TypeEntry.id) := by
  set outermost := types.filter fun t ↦ !t.isNested with houtermost
  set names := sortedNames (outermost.map TypeEntry.namespaceName) with hnames
  have hsorted : ((listNamespaces comments types).flatMap NamespaceEntry.types).Perm
      (names.flatMap fun name ↦
        (outermost.filter fun t ↦ t.namespaceName == name).map TypeEntry.id) := by
    rw [listNamespaces, List.flatMap_map]
    refine List.Perm.flatMap_left _ fun name _ ↦ ?_
    exact (List.mergeSort_perm _ _).map _
  refine hsorted.trans ?_
  rw [← List.map_flatMap]
  refine (flatMap_filter_perm TypeEntry.namespaceName (nodup_sortedNames _) outermost ?_).map _
  exact fun t ht ↦ mem_sortedNames.mpr (List.mem_map_of_mem ht)

/-! ### One namespace -/

/-- The types of a list that are not nested and lie in a namespace, by name. -/
def sortedIn (name : String) (types : List TypeEntry) : List TypeEntry :=
  (types.filter (TypeEntry.isOutermostIn name)).mergeSort byName

theorem mem_sortedIn {name : String} {types : List TypeEntry} {t : TypeEntry} :
    t ∈ sortedIn name types ↔ t ∈ types ∧ t.isOutermostIn name = true := by
  rw [sortedIn, List.mem_mergeSort, List.mem_filter]

/-- There is an entry for a namespace if one of the types that are not nested lies in it. -/
theorem filter_name_listNamespaces (comments : Comments) (types : List TypeEntry) (name : String) :
    (listNamespaces comments types).filter (fun n ↦ n.name == name) =
      if types.any (TypeEntry.isOutermostIn name) then
        [⟨name, (sortedIn name types).map TypeEntry.id, comments.namespaceComment? name⟩]
      else [] := by
  set names := sortedNames ((types.filter fun t ↦ !t.isNested).map TypeEntry.namespaceName)
    with hnames
  have hmem : name ∈ names ↔ types.any (TypeEntry.isOutermostIn name) = true := by
    rw [hnames, mem_sortedNames, List.any_eq_true]
    simp only [List.mem_map, List.mem_filter, TypeEntry.isOutermostIn, Bool.and_eq_true,
      beq_iff_eq, and_assoc]
  have hcount : names.count name = if types.any (TypeEntry.isOutermostIn name) then 1 else 0 := by
    split_ifs with hany
    · exact List.count_eq_one_of_mem (nodup_sortedNames _) (hmem.mpr hany)
    · exact List.count_eq_zero.mpr (mt hmem.mp hany)
  have hlisted : ((types.filter fun t ↦ !t.isNested).filter fun t ↦ t.namespaceName == name) =
      types.filter (TypeEntry.isOutermostIn name) := by
    rw [List.filter_filter]
    exact List.filter_congr fun t _ ↦ Bool.and_comm _ _
  rw [listNamespaces, List.filter_map]
  change (names.filter fun n ↦ n == name).map _ = _
  rw [List.filter_beq, hcount]
  split_ifs
  · rw [List.replicate_one, List.map_singleton, hlisted]
    rfl
  · rfl

end AssemblyEntry

end ApiDocs
