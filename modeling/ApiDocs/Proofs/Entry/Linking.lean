import ApiDocs.Proofs.Decl.Consistency
import ApiDocs.Proofs.Entry.Building
import ApiDocs.Proofs.Entry.Namespaces
import Mathlib.Data.List.Perm.Subperm
import Mathlib.Data.PFun

/-!
# Linking nested types along their declaring types

Nested types are linked in rounds. From every type in turn, a walk goes to the type that it is
nested in and on, and links each type it comes to with the next one. It stops at a type that is not
nested, whose declaring type is not there, or that was linked before. Types that are declared in any
order are so linked once each, in an order that depends on where the walks begin, and the lists of
nested types are sorted by name in the end.

The types that were linked before are what ends the walks: every round links one type more, and
there are only so many types.

## Main definitions

* `AssemblyEntry.parentPlace?`: the place of the type that a type is nested in.
* `AssemblyEntry.Links`: what was linked so far.
* `AssemblyEntry.linkRound`, `AssemblyEntry.linkFrom`: one round, and the walk from one type.
* `AssemblyEntry.linkInTurn`: the walks from all types one after another.
* `AssemblyEntry.linkedAlong`: the types with those of some places linked.

## Main results

* `AssemblyEntry.attach_linkedAlong`: one round links one more type.
* `AssemblyEntry.exists_linkFrom_eq`: a walk ends, and its first type is linked.
* `AssemblyEntry.linkInTurn_eq_some`: the walks end, and give the types linked by name.
-/

namespace ApiDocs.AssemblyEntry

/-! ### Rounds and walks -/

section

variable (selected : List TypeDecl)

/-- The place of the type with a full name; the last one, if there are several. -/
def place? (fullName : String) : Option Nat :=
  (selected.zipIdx.reverse.find? fun p ↦ p.1.fullName == fullName).map Prod.snd

/-- The place of the type that the type in a place is nested in. -/
def parentPlace? (i : Nat) : Option Nat :=
  (selected[i]?.bind fun d ↦ d.declaringType).bind (place? selected)

/-- The identifier of the type in a place. -/
def idAt? (types : List TypeEntry) (i : Nat) : Option TypeId :=
  types[i]?.map TypeEntry.id

/-- What was linked so far. -/
structure Links where
  /-- The types with the links between them. -/
  types : List TypeEntry
  /-- The places of the types that were linked with the types they are nested in. -/
  linked : List Nat

/-- Links a type and the type that it is nested in with each other. -/
def Links.attach (child parent : Nat) (s : Links) : Links where
  types := (s.types.modify child fun t ↦ { t with declaringType := idAt? s.types parent }).modify
    parent fun t ↦ { t with nestedTypes := t.nestedTypes ++ (idAt? s.types child).toList }
  linked := s.linked ++ [child]

/-- One round of the walk at the type in a place: the links at the end of the walk, or the links to
go on with and the next place. -/
def linkRound (s : Links × Nat) : Links ⊕ Links × Nat :=
  match parentPlace? selected s.2 with
  | none => .inl s.1
  | some parent =>
    if s.2 ∈ s.1.linked then .inl s.1 else .inr (s.1.attach s.2 parent, parent)

/-- The walk from the type in a place outwards, round after round until one of them is the last. -/
noncomputable def linkFrom : Links × Nat →. Links :=
  PFun.fix fun s ↦ Part.some (linkRound selected s)

/-- Whether the name of a type comes before that of another one, both given by their identifiers. -/
def idsByName (types : List TypeEntry) (a b : TypeId) : Bool :=
  types[a.slot.toNat]?.any fun t ↦ types[b.slot.toNat]?.any fun u ↦ byName t u

/-- The types with the lists of nested types sorted by name. -/
def sortNested (types : List TypeEntry) : List TypeEntry :=
  types.map fun t ↦ { t with nestedTypes := t.nestedTypes.mergeSort (idsByName types) }

/-- The walks from the types in all places, one after another. -/
noncomputable def linkInTurn (built : List TypeEntry) : Part (List TypeEntry) :=
  ((List.range selected.length).foldlM (fun s start ↦ linkFrom selected (s, start))
    (Links.mk built [])).map fun s ↦ sortNested s.types

/-- The type in a place, with the types in some places linked. -/
def linkedEntry (built : List TypeEntry) (order : List Nat) (i : Nat) (t : TypeEntry) : TypeEntry :=
  { t with
    declaringType :=
      if i ∈ order then (parentPlace? selected i).bind (idAt? built) else t.declaringType
    nestedTypes :=
      t.nestedTypes ++
        (order.filter fun c ↦ parentPlace? selected c == some i).filterMap (idAt? built) }

/-- The types, with those in some places linked in a given order. -/
def linkedAlong (built : List TypeEntry) (order : List Nat) : List TypeEntry :=
  built.zipIdx.map fun p ↦ linkedEntry selected built order p.2 p.1

end

variable {selected : List TypeDecl} {built : List TypeEntry}

theorem mem_linkFrom_iff {s : Links × Nat} {links : Links} :
    links ∈ linkFrom selected s ↔ linkRound selected s = .inl links ∨
      ∃ s', linkRound selected s = .inr s' ∧ links ∈ linkFrom selected s' := by
  refine PFun.mem_fix_iff.trans ?_
  simp only [Part.mem_some_iff, eq_comm]
  rfl

theorem getElem?_linkedAlong (order : List Nat) (i : Nat) :
    (linkedAlong selected built order)[i]? =
      built[i]?.map (linkedEntry selected built order i) := by
  rw [linkedAlong, List.getElem?_map, List.getElem?_zipIdx, Option.map_map, Nat.zero_add]
  rfl

theorem idAt?_linkedAlong (order : List Nat) (i : Nat) :
    idAt? (linkedAlong selected built order) i = idAt? built i := by
  rw [idAt?, getElem?_linkedAlong, Option.map_map]
  rfl

theorem linkedAlong_nil : linkedAlong selected built [] = built := by
  refine List.ext_getElem? fun i ↦ ?_
  rw [getElem?_linkedAlong]
  cases built[i]? with
  | none => rfl
  | some t => simp [linkedEntry]

theorem linkedEntry_concat {child parent : Nat}
    (hparent : parentPlace? selected child = some parent) (order : List Nat) (i : Nat)
    (t : TypeEntry) :
    linkedEntry selected built (order ++ [child]) i t =
      { linkedEntry selected built order i t with
        declaringType :=
          if child = i then idAt? built parent
          else (linkedEntry selected built order i t).declaringType
        nestedTypes :=
          if parent = i then
            (linkedEntry selected built order i t).nestedTypes ++ (idAt? built child).toList
          else (linkedEntry selected built order i t).nestedTypes } := by
  have hsingle : [child].filterMap (idAt? built) = (idAt? built child).toList := by
    cases h : idAt? built child <;> simp [h]
  have hdeclaring : (linkedEntry selected built (order ++ [child]) i t).declaringType =
      if child = i then idAt? built parent
      else (linkedEntry selected built order i t).declaringType := by
    by_cases hchild : child = i
    · subst hchild
      simp [linkedEntry, hparent]
    · simp [linkedEntry, hchild, Ne.symm hchild]
  have hnested : (linkedEntry selected built (order ++ [child]) i t).nestedTypes =
      if parent = i then
        (linkedEntry selected built order i t).nestedTypes ++ (idAt? built child).toList
      else (linkedEntry selected built order i t).nestedTypes := by
    by_cases hi : parent = i <;> simp [linkedEntry, hparent, hi, List.filter_append, hsingle]
  rw [← hdeclaring, ← hnested]
  rfl

/-- One round links one more type. -/
theorem attach_linkedAlong {order : List Nat} {child parent : Nat}
    (hparent : parentPlace? selected child = some parent) :
    (Links.mk (linkedAlong selected built order) order).attach child parent =
      Links.mk (linkedAlong selected built (order ++ [child])) (order ++ [child]) := by
  refine congrArg (Links.mk · (order ++ [child])) (List.ext_getElem? fun i ↦ ?_)
  simp only [List.getElem?_modify, getElem?_linkedAlong, idAt?_linkedAlong]
  cases built[i]? with
  | none => rfl
  | some t =>
    simp only [Option.map_eq_map, Option.map_some, linkedEntry_concat hparent]
    split_ifs <;> rfl

/-! ### The end of the walks -/

/-- Places of types that can be linked, none of them twice. -/
structure IsOrder (selected : List TypeDecl) (order : List Nat) : Prop where
  nodup : order.Nodup
  parents : ∀ c ∈ order, ∃ p, parentPlace? selected c = some p

theorem lt_of_parentPlace? {i p : Nat} (h : parentPlace? selected i = some p) :
    i < selected.length := by
  obtain ⟨_, hdecl, -⟩ := Option.bind_eq_some_iff.mp h
  obtain ⟨_, hget, -⟩ := Option.bind_eq_some_iff.mp hdecl
  exact (List.getElem?_eq_some_iff.mp hget).1

namespace IsOrder

variable {order : List Nat}

theorem length_le (h : IsOrder selected order) : order.length ≤ selected.length := by
  have hsub : order.Subperm (List.range selected.length) := by
    refine List.subperm_of_subset h.nodup fun c hc ↦ ?_
    obtain ⟨p, hp⟩ := h.parents c hc
    exact List.mem_range.mpr (lt_of_parentPlace? hp)
  simpa using hsub.length_le

theorem concat (h : IsOrder selected order) {child parent : Nat} (hnew : child ∉ order)
    (hparent : parentPlace? selected child = some parent) :
    IsOrder selected (order ++ [child]) where
  nodup := h.nodup.append (List.nodup_singleton child) (List.disjoint_singleton.mpr hnew)
  parents c hc := by
    rcases List.mem_append.mp hc with hc | hc
    · exact h.parents c hc
    · exact ⟨parent, List.mem_singleton.mp hc ▸ hparent⟩

end IsOrder

/-- A walk ends, with its first type linked if that is nested in a type that is there. By induction
on how many places are left. -/
theorem exists_linkFrom_eq (built : List TypeEntry) {order : List Nat}
    (horder : IsOrder selected order) (start : Nat) :
    ∃ order', linkFrom selected (.mk (linkedAlong selected built order) order, start) =
        Part.some (.mk (linkedAlong selected built order') order') ∧
      IsOrder selected order' ∧ order ⊆ order' ∧
      ((parentPlace? selected start).isSome → start ∈ order') := by
  induction hleft : selected.length - order.length using Nat.strong_induction_on
    generalizing order start with
  | _ left ih =>
    simp only [Part.eq_some_iff, mem_linkFrom_iff (s := (_, start)), linkRound]
    cases hparent : parentPlace? selected start with
    | none => exact ⟨order, Or.inl rfl, horder, List.Subset.refl _, nofun⟩
    | some parent =>
      by_cases hlinked : start ∈ order
      · exact ⟨order, Or.inl (if_pos hlinked), horder, List.Subset.refl _, fun _ ↦ hlinked⟩
      · have hnext := horder.concat hlinked hparent
        have hroom := hnext.length_le
        rw [List.length_append, List.length_singleton] at hroom
        obtain ⟨order', hwalk, horder', hsub, -⟩ :=
          ih _ (by rw [List.length_append, List.length_singleton]; omega) hnext parent rfl
        refine ⟨order', Or.inr ⟨_, if_neg hlinked, ?_⟩, horder', fun c hc ↦ ?_, fun _ ↦ ?_⟩
        · rw [attach_linkedAlong hparent, hwalk]
          exact Part.mem_some _
        · exact hsub (List.mem_append_left _ hc)
        · exact hsub (List.mem_append_right _ List.mem_cons_self)

/-- The walks from the types in some places, one after another. -/
theorem exists_foldlM_linkFrom_eq (built : List TypeEntry) {order : List Nat}
    (horder : IsOrder selected order) (starts : List Nat) :
    ∃ order', starts.foldlM (fun s start ↦ linkFrom selected (s, start))
        (Links.mk (linkedAlong selected built order) order) =
        Part.some (.mk (linkedAlong selected built order') order') ∧
      IsOrder selected order' ∧ order ⊆ order' ∧
      ∀ start ∈ starts, (parentPlace? selected start).isSome → start ∈ order' := by
  induction starts generalizing order with
  | nil => exact ⟨order, rfl, horder, List.Subset.refl _, fun c hc ↦ by cases hc⟩
  | cons start starts ih =>
    obtain ⟨order₁, hwalk, horder₁, hsub₁, hstart⟩ := exists_linkFrom_eq built horder start
    obtain ⟨order', hwalks, horder', hsub, hstarts⟩ := ih horder₁
    refine ⟨order', ?_, horder', fun c hc ↦ hsub (hsub₁ hc), fun c hc hsome ↦ ?_⟩
    · rw [List.foldlM_cons, hwalk]
      exact (Part.bind_some _ _).trans hwalks
    · rcases List.mem_cons.mp hc with rfl | hc
      · exact hsub (hstart hsome)
      · exact hstarts c hc hsome

/-! ### Links by name -/

/-- Entries as they are built for selected types: with the headers of the types, identified by their
places, and not linked yet. -/
structure IsUnlinked (id : AssemblyId) (selected : List TypeDecl) (built : List TypeEntry) :
    Prop where
  headers : built.map TypeEntry.header = selected.map TypeDecl.toTypeHeader
  ids : ∀ (i : Nat) (t : TypeEntry), built[i]? = some t → t.id = .ofSlot id i
  declaring : ∀ t ∈ built, t.declaringType = none
  nested : ∀ t ∈ built, t.nestedTypes = []

theorem map_header_buildTypes {inclusion : Inclusion} {filter : MemberFilter} {comments : Comments}
    {id : AssemblyId} {slot : Nat} {decls : List TypeDecl} {built : List TypeEntry}
    (h : buildTypes inclusion filter comments id slot decls = .ok built) :
    built.map TypeEntry.header = decls.map TypeDecl.toTypeHeader := by
  induction decls generalizing slot built with
  | nil =>
    rw [buildTypes] at h
    obtain rfl := Except.ok.inj h
    rfl
  | cons d ds ih =>
    obtain ⟨entry, hentry, h⟩ := bind_eq_ok_iff.mp h
    obtain ⟨rest, hrest, h⟩ := bind_eq_ok_iff.mp h
    obtain rfl := Except.ok.inj h
    obtain ⟨entries, -, rfl⟩ := TypeEntry.exists_of_build hentry
    rw [List.map_cons, List.map_cons, ih hrest]

theorem isUnlinked_of_buildTypes {inclusion : Inclusion} {filter : MemberFilter}
    {comments : Comments} {id : AssemblyId}
    (h : buildTypes inclusion filter comments id 0 selected = .ok built) :
    IsUnlinked id selected built := by
  have hentry (i : Nat) (t : TypeEntry) (ht : built[i]? = some t) :
      t.id = .ofSlot id i ∧ t.declaringType = none ∧ t.nestedTypes = [] := by
    obtain ⟨d, -, hbuild⟩ := exists_build_of_buildTypes h ht
    obtain ⟨entries, -, rfl⟩ := TypeEntry.exists_of_build hbuild
    rw [Nat.zero_add]
    exact ⟨rfl, rfl, rfl⟩
  refine ⟨map_header_buildTypes h, fun i t ht ↦ (hentry i t ht).1, fun t ht ↦ ?_, fun t ht ↦ ?_⟩
  · obtain ⟨i, hi⟩ := List.getElem?_of_mem ht
    exact (hentry i t hi).2.1
  · obtain ⟨i, hi⟩ := List.getElem?_of_mem ht
    exact (hentry i t hi).2.2

theorem place?_eq_some_iff (hnames : (selected.map fun d ↦ d.fullName).Nodup) {fullName : String}
    {i : Nat} :
    place? selected fullName = some i ↔ ∃ d, selected[i]? = some d ∧ d.fullName = fullName := by
  have hkeys : (selected.zipIdx.reverse.map fun p ↦ p.1.fullName).Nodup := by
    rw [List.map_reverse, List.nodup_reverse]
    have hfst := List.zipIdx_map_fst 0 selected
    rwa [← hfst, List.map_map] at hnames
  rw [place?, Option.map_eq_some_iff]
  simp only [find?_key_eq_some_iff hkeys, List.mem_reverse, List.mem_zipIdx_iff_getElem?]
  constructor
  · rintro ⟨⟨d, j⟩, ⟨hd, hname⟩, rfl⟩
    exact ⟨d, hd, hname⟩
  · rintro ⟨d, hd, hname⟩
    exact ⟨(d, i), ⟨hd, hname⟩, rfl⟩

/-- Types with different full names have one order by name. -/
theorem mergeSort_byName_eq_of_perm {xs ys : List TypeEntry} (h : xs.Perm ys)
    (hnames : (xs.map TypeEntry.fullName).Nodup) : xs.mergeSort byName = ys.mergeSort byName := by
  have hperm : (xs.mergeSort byName).Perm (ys.mergeSort byName) :=
    ((List.mergeSort_perm xs byName).trans h).trans (List.mergeSort_perm ys byName).symm
  refine hperm.eq_of_pairwise (fun t u ht hu htu hut ↦ ?_)
    (List.pairwise_mergeSort byName_trans byName_total xs)
    (List.pairwise_mergeSort byName_trans byName_total ys)
  have hname : t.fullName = u.fullName := by
    rcases byName_iff.mp htu with hlt | ⟨heq, hle⟩
    · rcases byName_iff.mp hut with hgt | ⟨heq, -⟩
      · exact absurd (lt_trans hlt hgt) (lt_irrefl _)
      · exact absurd heq hlt.ne'
    · rcases byName_iff.mp hut with hgt | ⟨-, hge⟩
      · exact absurd heq hgt.ne'
      · exact le_antisymm hle hge
  refine List.inj_on_of_nodup_map hnames (List.mem_mergeSort.mp ht) ?_ hname
  exact h.mem_iff.mpr (List.mem_mergeSort.mp hu)

section

variable {id : AssemblyId} (h : IsUnlinked id selected built)
  (hnames : (selected.map fun d ↦ d.fullName).Nodup)

include h

theorem IsUnlinked.map_header (i : Nat) :
    built[i]?.map TypeEntry.header = selected[i]?.map TypeDecl.toTypeHeader := by
  rw [← List.getElem?_map, h.headers, List.getElem?_map]

include hnames

theorem IsUnlinked.nodup_fullName : (built.map TypeEntry.fullName).Nodup := by
  have hmap := congrArg (List.map TypeHeader.fullName) h.headers
  rw [List.map_map, List.map_map] at hmap
  exact hmap ▸ hnames

/-- The place of the type that a type is nested in is that of the type with the name. -/
theorem parentPlace?_eq_some_iff {i p : Nat} {t : TypeEntry} (ht : built[i]? = some t) :
    parentPlace? selected i = some p ↔
      ∃ u, built[p]? = some u ∧ t.header.declaringType = some u.fullName := by
  have hdeclaring : (selected[i]?.bind fun d ↦ d.declaringType) = t.header.declaringType := by
    have hheader := h.map_header i
    rw [ht, Option.map_some] at hheader
    obtain ⟨d, hd, hdt⟩ := Option.map_eq_some_iff.mp hheader.symm
    rw [hd, Option.bind_some, ← hdt]
  have hplace (outer : String) : place? selected outer = some p ↔
      ∃ u, built[p]? = some u ∧ u.fullName = outer := by
    rw [place?_eq_some_iff hnames, ← Option.map_eq_some_iff, ← Option.map_eq_some_iff]
    have hname := congrArg (Option.map TypeHeader.fullName) (h.map_header p)
    rw [Option.map_map, Option.map_map] at hname
    exact Eq.congr_left hname.symm
  rw [parentPlace?, hdeclaring, Option.bind_eq_some_iff]
  constructor
  · rintro ⟨outer, houter, hp⟩
    obtain ⟨u, hu, rfl⟩ := (hplace outer).mp hp
    exact ⟨u, hu, houter⟩
  · rintro ⟨u, hu, houter⟩
    exact ⟨u.fullName, houter, (hplace _).mpr ⟨u, hu, rfl⟩⟩

theorem bind_idAt?_parentPlace? {i : Nat} {t : TypeEntry} (ht : built[i]? = some t) :
    (parentPlace? selected i).bind (idAt? built) = declaringId? built t := by
  refine Option.ext fun tid ↦ ?_
  simp only [Option.bind_eq_some_iff, parentPlace?_eq_some_iff h hnames ht, idAt?, declaringId?,
    Option.map_eq_some_iff, find?_key_eq_some_iff (h.nodup_fullName hnames)]
  constructor
  · rintro ⟨p, ⟨u, hu, houter⟩, v, hv, rfl⟩
    obtain rfl := Option.some.inj (hu.symm.trans hv)
    exact ⟨u.fullName, houter, u, ⟨List.mem_of_getElem? hu, rfl⟩, rfl⟩
  · rintro ⟨outer, houter, u, ⟨hu, rfl⟩, rfl⟩
    obtain ⟨p, hp⟩ := List.getElem?_of_mem hu
    exact ⟨p, ⟨u, hp, houter⟩, u, hp, rfl⟩

variable (hslots : built.length ≤ UInt32.size) {order : List Nat} (horder : IsOrder selected order)
  (hall : ∀ c p, parentPlace? selected c = some p → c ∈ order)

include horder hall

/-- The types that were linked with a type are those that name it as their declaring type. -/
theorem perm_filter_declaringType {i : Nat} {t : TypeEntry} (ht : built[i]? = some t) :
    ((order.filter fun c ↦ parentPlace? selected c == some i).filterMap fun c ↦ built[c]?).Perm
      (built.filter fun c ↦ c.header.declaringType == some t.fullName) := by
  have hbuilt : built.Nodup := List.Nodup.of_map _ (h.nodup_fullName hnames)
  refine (List.perm_ext_iff_of_nodup ?_ (hbuilt.filter _)).mpr fun u ↦ ?_
  · refine (horder.nodup.filter _).filterMap fun c c' u hc hc' ↦ ?_
    exact (List.getElem?_inj (List.getElem?_eq_some_iff.mp hc).1 hbuilt).mp (hc.trans hc'.symm)
  · rw [List.mem_filterMap, List.mem_filter, beq_iff_eq]
    constructor
    · rintro ⟨c, hc, hu⟩
      have hparent := eq_of_beq (List.mem_filter.mp hc).2
      obtain ⟨v, hv, houter⟩ := (parentPlace?_eq_some_iff h hnames hu).mp hparent
      obtain rfl := Option.some.inj (ht.symm.trans hv)
      exact ⟨List.mem_of_getElem? hu, houter⟩
    · rintro ⟨hu, houter⟩
      obtain ⟨c, hc⟩ := List.getElem?_of_mem hu
      have hparent := (parentPlace?_eq_some_iff h hnames hc).mpr ⟨t, ht, houter⟩
      exact ⟨c, List.mem_filter.mpr ⟨hall c i hparent, beq_iff_eq.mpr hparent⟩, hc⟩

omit hnames horder hall

include hslots in
/-- Types are compared by name if they are given by their identifiers. -/
theorem idsByName_linkedAlong (order : List Nat) {t u : TypeEntry} (ht : t ∈ built)
    (hu : u ∈ built) : idsByName (linkedAlong selected built order) t.id u.id = byName t u := by
  have hget (v : TypeEntry) (hv : v ∈ built) : ∃ i,
      (linkedAlong selected built order)[v.id.slot.toNat]? =
        some (linkedEntry selected built order i v) := by
    obtain ⟨i, hi⟩ := List.getElem?_of_mem hv
    have hlt : i < UInt32.size := Nat.lt_of_lt_of_le (List.getElem?_eq_some_iff.mp hi).1 hslots
    have hslot : v.id.slot.toNat = i := by
      rw [h.ids i v hi]
      exact UInt32.toNat_ofNat_of_lt' hlt
    exact ⟨i, by rw [hslot, getElem?_linkedAlong, hi, Option.map_some]⟩
  obtain ⟨i, hi⟩ := hget t ht
  obtain ⟨j, hj⟩ := hget u hu
  rw [idsByName, hi, hj, Option.any_some, Option.any_some]
  rfl

include hnames hslots horder hall

/-- The types that were linked with a type, sorted by name, are its nested types. -/
theorem mergeSort_filterMap_idAt? {i : Nat} {t : TypeEntry} (ht : built[i]? = some t) :
    ((order.filter fun c ↦ parentPlace? selected c == some i).filterMap (idAt? built)).mergeSort
        (idsByName (linkedAlong selected built order)) =
      nestedIds built t := by
  have hperm := perm_filter_declaringType h hnames horder hall ht
  have hnodup := (h.nodup_fullName hnames).sublist
    ((built.filter_sublist (p := fun c ↦ c.header.declaringType == some t.fullName)).map
      TypeEntry.fullName)
  have hmem (u : TypeEntry) (hu : u ∈ (order.filter fun c ↦
      parentPlace? selected c == some i).filterMap fun c ↦ built[c]?) : u ∈ built :=
    List.mem_of_mem_filter (hperm.mem_iff.mp hu)
  rw [nestedIds, ← mergeSort_byName_eq_of_perm hperm ((hperm.map _).nodup_iff.mpr hnodup),
    List.map_mergeSort fun u hu v hv ↦
      (idsByName_linkedAlong h hslots order (hmem u hu) (hmem v hv)).symm,
    List.map_filterMap]
  rfl

theorem sortNested_linkedAlong : sortNested (linkedAlong selected built order) = link built := by
  refine List.ext_getElem? fun i ↦ ?_
  rw [sortNested, link, List.getElem?_map, getElem?_linkedAlong, List.getElem?_map]
  cases ht : built[i]? with
  | none => rfl
  | some t =>
    have hmem := List.mem_of_getElem? ht
    have hdeclaring : (linkedEntry selected built order i t).declaringType =
        declaringId? built t := by
      rw [← bind_idAt?_parentPlace? h hnames ht, linkedEntry, h.declaring t hmem]
      cases hparent : parentPlace? selected i with
      | none => simp
      | some p => rw [if_pos (hall i p hparent)]
    have hnested : (linkedEntry selected built order i t).nestedTypes.mergeSort
        (idsByName (linkedAlong selected built order)) = nestedIds built t := by
      rw [← mergeSort_filterMap_idAt? h hnames hslots horder hall ht, linkedEntry, h.nested t hmem,
        List.nil_append]
    rw [Option.map_some, Option.map_some, Option.map_some, ← hdeclaring, ← hnested]
    rfl

end

/-- **The walks from all types end and link every nested type with the type around it.** What they
give does not depend on the order in which types are declared: it is the link by name, with nested
types in the order of their names. -/
theorem linkInTurn_eq_some {id : AssemblyId} (h : IsUnlinked id selected built)
    (hnames : (selected.map fun d ↦ d.fullName).Nodup) (hslots : built.length ≤ UInt32.size) :
    linkInTurn selected built = Part.some (link built) := by
  have hnil : IsOrder selected [] := ⟨List.nodup_nil, fun c hc ↦ by cases hc⟩
  obtain ⟨order, hwalks, horder, -, hstarts⟩ :=
    exists_foldlM_linkFrom_eq built hnil (List.range selected.length)
  rw [linkedAlong_nil] at hwalks
  have hall (c p : Nat) (hparent : parentPlace? selected c = some p) : c ∈ order :=
    hstarts c (List.mem_range.mpr (lt_of_parentPlace? hparent)) (hparent ▸ rfl)
  rw [linkInTurn, hwalks, Part.map_some, sortNested_linkedAlong h hnames hslots horder hall]

end ApiDocs.AssemblyEntry
