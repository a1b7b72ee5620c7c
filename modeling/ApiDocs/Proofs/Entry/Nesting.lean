import ApiDocs.Decl.Assemble
import ApiDocs.Proofs.Entry.Linking
import ApiDocs.Proofs.Entry.Selection

/-!
# Nested types form a forest

When an assembly is built, its declarations are checked, some of the types are selected, and those
are linked along their declaring types. The check rules out repeated names, unknown declaring types
and cycles, and selection keeps with every type the types around it. So every declaring type that is
named is found, chains of declaring types end, and a walk that starts from the lists of the
namespaces and goes on from every type to the types nested in it comes to every type once.

## Main definitions

* `AssemblyEntry.EndsAfter`: the length of a chain of declaring types.
* `AssemblyEntry.Visits`: the walk from types to the types nested in them.
* `AssemblyEntry.Forest`: the types of an assembly are linked as they were declared.

## Main results

* `AssemblyEntry.settled_of_build`: what linking starts from and does.
* `AssemblyEntry.Settled.count_eq_one`: a walk from the outermost types comes to a type once.
* `AssemblyEntry.Settled.exists_visits`: there is such a walk.
* `AssemblyEntry.forest_of_build`: the types of an assembly that was built form a forest.
-/

namespace ApiDocs.AssemblyEntry

/-! ### Chains and walks -/

/-- The chain of declaring types from a type ends after a number of steps. -/
inductive EndsAfter (a : AssemblyEntry) : Nat → TypeEntry → Prop
  | outermost {t : TypeEntry} (h : t.declaringType = none) : EndsAfter a 0 t
  | nested {t p : TypeEntry} {n : Nat} (hp : p ∈ a.types) (h : t.declaringType = some p.id)
      (hend : EndsAfter a n p) : EndsAfter a (n + 1) t

/-- The walk along a list of types that goes from every type to the types nested in it before it
goes on, with all types it comes to. -/
inductive Visits (a : AssemblyEntry) : List TypeId → List TypeId → Prop
  | nil : Visits a [] []
  | cons {id : TypeId} {t : TypeEntry} {ids inner rest : List TypeId} (ht : a.type? id = some t)
      (hinner : Visits a t.nestedTypes inner) (hrest : Visits a ids rest) :
      Visits a (id :: ids) (id :: (inner ++ rest))

/-- The types of an assembly are linked as they were declared, and form a forest. -/
structure Forest (declared : List TypeDecl) (a : AssemblyEntry) : Prop where
  /-- Every type was declared. -/
  header : ∀ t ∈ a.types, ∃ d ∈ declared, t.header = d.toTypeHeader
  /-- The type around a type is the one that bears the name of its declaring type. -/
  declaring : ∀ t ∈ a.types, ∀ id, t.declaringType = some id ↔
    ∃ p, a.type? id = some p ∧ t.header.declaringType = some p.fullName
  /-- There is no type around a type only if it names no declaring type. -/
  outermost : ∀ t ∈ a.types, t.declaringType = none ↔ t.header.declaringType = none
  /-- The types nested in a type are those that it is around. -/
  nested : ∀ p ∈ a.types, ∀ id, id ∈ p.nestedTypes ↔
    ∃ c, a.type? id = some c ∧ c.declaringType = some p.id
  /-- No nested type is listed twice. -/
  once : ∀ p ∈ a.types, p.nestedTypes.Nodup
  /-- Nested types stand in the order of their names. -/
  ordered : ∀ p ∈ a.types, (p.nestedTypes.filterMap a.type?).Pairwise TypeEntry.ComesBefore
  /-- Chains of declaring types end. -/
  ends : ∀ t ∈ a.types, ∃ n, a.EndsAfter n t
  /-- There is one walk from the lists of the namespaces, and it comes to every type once. -/
  covered : ∃ order, (∀ ids, a.Visits (a.namespaces.flatMap NamespaceEntry.types) ids ↔
      ids = order) ∧
    order.Nodup ∧ order.Perm (a.types.map TypeEntry.id)

theorem Visits.unique {a : AssemblyEntry} {ids order order' : List TypeId} (h : a.Visits ids order)
    (h' : a.Visits ids order') : order = order' := by
  induction h generalizing order' with
  | nil =>
    cases h'
    rfl
  | cons ht _ _ ihinner ihrest =>
    cases h' with
    | cons ht' hinner' hrest' =>
      obtain rfl := Option.some.inj (ht.symm.trans ht')
      rw [ihinner hinner', ihrest hrest']

/-- The types nested in the type with an identifier. -/
def nestedIn (a : AssemblyEntry) (id : TypeId) : List TypeId :=
  ((a.type? id).map TypeEntry.nestedTypes).getD []

/-- A walk comes to a type because the type is on the list, or because it is nested in a type that
the walk comes to. -/
theorem Visits.perm {a : AssemblyEntry} {ids order : List TypeId} (h : a.Visits ids order) :
    order.Perm (ids ++ order.flatMap a.nestedIn) := by
  induction h with
  | nil => exact .refl _
  | @cons id t ids inner rest ht _ _ ihinner ihrest =>
    have hnested : a.nestedIn id = t.nestedTypes := by rw [nestedIn, ht]; rfl
    rw [List.perm_iff_count] at *
    intro x
    have hi := ihinner x
    have hr := ihrest x
    simp only [List.flatMap_cons, List.flatMap_append, List.cons_append, List.count_cons,
      List.count_append, hnested] at hi hr ⊢
    omega

theorem Visits.exists_of_mem {a : AssemblyEntry} {ids order : List TypeId} (h : a.Visits ids order)
    {id : TypeId} (hid : id ∈ order) : ∃ t, a.type? id = some t := by
  induction h with
  | nil => cases hid
  | cons ht _ _ ihinner ihrest =>
    rcases List.mem_cons.mp hid with rfl | hid
    · exact ⟨_, ht⟩
    · exact (List.mem_append.mp hid).elim ihinner ihrest

/-! ### Links by name -/

/-- What linking starts from and does: names are not repeated, identifiers lead to their types,
every declaring type that is named is there, and types are linked by name. -/
structure Settled (a : AssemblyEntry) : Prop where
  names : (a.types.map TypeEntry.fullName).Nodup
  found : ∀ {id t}, a.type? id = some t ↔ t ∈ a.types ∧ t.id = id
  closed : ∀ t ∈ a.types, ∀ outer ∈ t.header.declaringType, ∃ p ∈ a.types, p.fullName = outer
  declaring : ∀ t ∈ a.types, t.declaringType = declaringId? a.types t
  nested : ∀ t ∈ a.types, t.nestedTypes = nestedIds a.types t

namespace Settled

variable {a : AssemblyEntry} (h : a.Settled)

include h

theorem eq_of_id_eq {t u : TypeEntry} (ht : t ∈ a.types) (hu : u ∈ a.types) (hid : t.id = u.id) :
    t = u := by
  have hfound := h.found.mpr ⟨hu, hid.symm⟩
  rw [h.found.mpr ⟨ht, rfl⟩] at hfound
  exact Option.some.inj hfound

/-- The type around a type is the one that bears the name of its declaring type. -/
theorem declaringType_eq_some_iff {t p : TypeEntry} (ht : t ∈ a.types) (hp : p ∈ a.types) :
    t.declaringType = some p.id ↔ t.header.declaringType = some p.fullName := by
  rw [h.declaring t ht, declaringId?]
  constructor
  · intro hid
    obtain ⟨outer, houter, hfind⟩ := Option.bind_eq_some_iff.mp hid
    obtain ⟨q, hq, hqp⟩ := Option.map_eq_some_iff.mp hfind
    obtain ⟨hqmem, hname⟩ := (find?_key_eq_some_iff h.names).mp hq
    rw [houter, ← hname, h.eq_of_id_eq hqmem hp hqp]
  · intro houter
    rw [houter, Option.bind_some, (find?_key_eq_some_iff h.names).mpr ⟨hp, rfl⟩, Option.map_some]

theorem exists_of_declaringType {t : TypeEntry} (ht : t ∈ a.types) {outer : String}
    (houter : t.header.declaringType = some outer) :
    ∃ p ∈ a.types, p.fullName = outer ∧ t.declaringType = some p.id := by
  obtain ⟨p, hp, rfl⟩ := h.closed t ht outer houter
  exact ⟨p, hp, rfl, (h.declaringType_eq_some_iff ht hp).mpr houter⟩

theorem declaringType_eq_none_iff {t : TypeEntry} (ht : t ∈ a.types) :
    t.declaringType = none ↔ t.header.declaringType = none := by
  cases houter : t.header.declaringType with
  | none => simp [h.declaring t ht, declaringId?, houter]
  | some outer =>
    obtain ⟨p, -, -, hp⟩ := h.exists_of_declaringType ht houter
    simp [hp]

/-- The type around a type is a type of the assembly. -/
theorem exists_of_declaringType_eq {t : TypeEntry} (ht : t ∈ a.types) {id : TypeId}
    (hid : t.declaringType = some id) : ∃ p ∈ a.types, p.id = id := by
  rw [h.declaring t ht] at hid
  obtain ⟨outer, -, hfind⟩ := Option.bind_eq_some_iff.mp hid
  obtain ⟨p, hp, hpid⟩ := Option.map_eq_some_iff.mp hfind
  exact ⟨p, List.mem_of_find?_eq_some hp, hpid⟩

/-- The types nested in a type are those that it is around, in the order of their names. -/
theorem nestedTypes_eq {p : TypeEntry} (hp : p ∈ a.types) :
    p.nestedTypes =
      ((a.types.filter fun c ↦ c.declaringType == some p.id).mergeSort byName).map
        TypeEntry.id := by
  rw [h.nested p hp, nestedIds]
  congr 2
  refine List.filter_congr fun c hc ↦ ?_
  rw [Bool.eq_iff_iff, beq_iff_eq, beq_iff_eq, h.declaringType_eq_some_iff hc hp]

theorem mem_nestedTypes_iff {p : TypeEntry} (hp : p ∈ a.types) {id : TypeId} :
    id ∈ p.nestedTypes ↔ ∃ c, a.type? id = some c ∧ c.declaringType = some p.id := by
  rw [h.nestedTypes_eq hp, List.mem_map]
  simp only [List.mem_mergeSort, List.mem_filter, beq_iff_eq, h.found]
  exact ⟨fun ⟨c, ⟨hc, hcp⟩, hid⟩ ↦ ⟨c, ⟨hc, hid⟩, hcp⟩,
    fun ⟨c, ⟨hc, hid⟩, hcp⟩ ↦ ⟨c, ⟨hc, hcp⟩, hid⟩⟩

theorem nodup_map_id : (a.types.map TypeEntry.id).Nodup := by
  refine List.Nodup.map_on (fun t ht u hu hid ↦ h.eq_of_id_eq ht hu hid) ?_
  exact List.Nodup.of_map _ h.names

theorem nodup_nestedTypes {p : TypeEntry} (hp : p ∈ a.types) : p.nestedTypes.Nodup := by
  rw [h.nestedTypes_eq hp, ((List.mergeSort_perm _ _).map _).nodup_iff]
  exact h.nodup_map_id.sublist (List.filter_sublist.map _)

theorem filterMap_type?_map_id {types : List TypeEntry} (htypes : ∀ t ∈ types, t ∈ a.types) :
    (types.map TypeEntry.id).filterMap a.type? = types := by
  have hsome : ∀ t ∈ types, (a.type? ∘ TypeEntry.id) t = some t :=
    fun t ht ↦ h.found.mpr ⟨htypes t ht, rfl⟩
  rw [List.filterMap_map, List.filterMap_congr hsome]
  exact List.filterMap_some

theorem pairwise_nestedTypes {p : TypeEntry} (hp : p ∈ a.types) :
    (p.nestedTypes.filterMap a.type?).Pairwise TypeEntry.ComesBefore := by
  rw [h.nestedTypes_eq hp, h.filterMap_type?_map_id fun t ht ↦
    List.mem_of_mem_filter (List.mem_mergeSort.mp ht)]
  exact pairwise_mergeSort_byName (h.names.sublist (List.filter_sublist.map _))

/-! ### The walk -/

theorem endsAfter_unique {t : TypeEntry} {m n : Nat} (hm : a.EndsAfter m t)
    (hn : a.EndsAfter n t) : m = n := by
  induction hm generalizing n with
  | outermost hnone =>
    cases hn with
    | outermost => rfl
    | nested _ hsome => cases hnone.symm.trans hsome
  | nested hp hsome _ ih =>
    cases hn with
    | outermost hnone => cases hnone.symm.trans hsome
    | nested hq hsome' hend =>
      obtain rfl := h.eq_of_id_eq hp hq (Option.some.inj (hsome.symm.trans hsome'))
      rw [ih hend]

/-- What is nested in the type with an identifier has that type around it. -/
theorem declaringType_of_mem_nestedIn {t : TypeEntry} (ht : t ∈ a.types) {id : TypeId}
    (hmem : t.id ∈ a.nestedIn id) : t.declaringType = some id := by
  unfold nestedIn at hmem
  cases hq : a.type? id with
  | none =>
    rw [hq] at hmem
    cases hmem
  | some q =>
    rw [hq] at hmem
    obtain ⟨hqmem, rfl⟩ := h.found.mp hq
    obtain ⟨c, hc, hcq⟩ := (h.mem_nestedTypes_iff hqmem).mp hmem
    rwa [h.eq_of_id_eq ht (h.found.mp hc).1 (h.found.mp hc).2.symm]

theorem count_nestedIn {t p : TypeEntry} (ht : t ∈ a.types) (hp : p ∈ a.types)
    (htp : t.declaringType = some p.id) (id : TypeId) :
    (a.nestedIn id).count t.id = if id = p.id then 1 else 0 := by
  split_ifs with hid
  · subst hid
    rw [nestedIn, h.found.mpr ⟨hp, rfl⟩]
    refine List.count_eq_one_of_mem (h.nodup_nestedTypes hp) ?_
    exact (h.mem_nestedTypes_iff hp).mpr ⟨t, h.found.mpr ⟨ht, rfl⟩, htp⟩
  · rw [List.count_eq_zero]
    intro hmem
    exact hid (Option.some.inj ((h.declaringType_of_mem_nestedIn ht hmem).symm.trans htp))

theorem count_flatMap_nestedIn {t p : TypeEntry} (ht : t ∈ a.types) (hp : p ∈ a.types)
    (htp : t.declaringType = some p.id) (order : List TypeId) :
    (order.flatMap a.nestedIn).count t.id = order.count p.id := by
  induction order with
  | nil => rfl
  | cons id order ih =>
    rw [List.flatMap_cons, List.count_append, ih, h.count_nestedIn ht hp htp, List.count_cons]
    simp only [beq_iff_eq]
    omega

theorem notMem_flatMap_nestedIn {t : TypeEntry} (ht : t ∈ a.types) (hnone : t.declaringType = none)
    (order : List TypeId) : t.id ∉ order.flatMap a.nestedIn := by
  intro hmem
  obtain ⟨id, -, hid⟩ := List.mem_flatMap.mp hmem
  cases hnone.symm.trans (h.declaringType_of_mem_nestedIn ht hid)

variable {roots : List TypeId}
  (hroots : roots.Perm ((a.types.filter fun t ↦ !t.isNested).map TypeEntry.id))

include hroots

theorem count_roots {t : TypeEntry} (ht : t ∈ a.types) :
    roots.count t.id = if t.declaringType = none then 1 else 0 := by
  have hmem : t.id ∈ roots ↔ t.declaringType = none := by
    rw [hroots.mem_iff, List.mem_map]
    constructor
    · rintro ⟨u, hu, hid⟩
      obtain ⟨humem, hnot⟩ := List.mem_filter.mp hu
      obtain rfl := h.eq_of_id_eq humem ht hid
      simpa [TypeEntry.isNested] using hnot
    · intro hnone
      exact ⟨t, List.mem_filter.mpr ⟨ht, by simp [TypeEntry.isNested, hnone]⟩, rfl⟩
  have hnodup : roots.Nodup :=
    hroots.nodup_iff.mpr (h.nodup_map_id.sublist (List.filter_sublist.map _))
  rw [hnodup.count]
  simp only [hmem]

/-- A walk from the outermost types comes to a type once: it comes as often to a type as to the type
around it. -/
theorem count_eq_one {order : List TypeId} (hvisits : a.Visits roots order) {n : Nat}
    {t : TypeEntry} (ht : t ∈ a.types) (hend : a.EndsAfter n t) : order.count t.id = 1 := by
  have hcount (u : TypeEntry) : order.count u.id =
      roots.count u.id + (order.flatMap a.nestedIn).count u.id := by
    rw [← List.count_append]
    exact hvisits.perm.count_eq u.id
  induction hend with
  | outermost hnone =>
    rw [hcount, h.count_roots hroots ht, if_pos hnone,
      List.count_eq_zero.mpr (h.notMem_flatMap_nestedIn ht hnone order)]
  | @nested t p n hp hsome _ ih =>
    have hnot : ¬ t.declaringType = none := fun hnone ↦ by cases hnone.symm.trans hsome
    rw [hcount, h.count_roots hroots ht, if_neg hnot, h.count_flatMap_nestedIn ht hp hsome, ih hp]

omit hroots

/-- There is a walk along every list of types. By induction on how much longer chains can be than
those of the listed types, as nested types have longer ones. -/
theorem exists_visits {bound : Nat} (hbound : ∀ t ∈ a.types, ∃ n ≤ bound, a.EndsAfter n t)
    (k : Nat) (ids : List TypeId)
    (hids : ∀ id ∈ ids, ∃ t n, a.type? id = some t ∧ a.EndsAfter n t ∧ bound < n + k) :
    ∃ order, a.Visits ids order := by
  induction k generalizing ids with
  | zero =>
    cases ids with
    | nil => exact ⟨[], .nil⟩
    | cons id ids =>
      obtain ⟨t, n, ht, hend, hlt⟩ := hids id List.mem_cons_self
      obtain ⟨m, hm, hend'⟩ := hbound t (h.found.mp ht).1
      have := h.endsAfter_unique hend hend'
      omega
  | succ k ih =>
    induction ids with
    | nil => exact ⟨[], .nil⟩
    | cons id ids ihids =>
      obtain ⟨t, n, ht, hend, hlt⟩ := hids id List.mem_cons_self
      have htmem := (h.found.mp ht).1
      obtain ⟨rest, hrest⟩ := ihids fun id' hid' ↦ hids id' (List.mem_cons_of_mem id hid')
      obtain ⟨inner, hinner⟩ := ih t.nestedTypes fun id' hid' ↦ by
        obtain ⟨c, hc, hct⟩ := (h.mem_nestedTypes_iff htmem).mp hid'
        exact ⟨c, n + 1, hc, .nested htmem hct hend, by omega⟩
      exact ⟨id :: (inner ++ rest), .cons ht hinner hrest⟩

include hroots

/-- There is one walk from the outermost types, and it comes to every type once. -/
theorem exists_order {bound : Nat} (hbound : ∀ t ∈ a.types, ∃ n ≤ bound, a.EndsAfter n t) :
    ∃ order, (∀ ids, a.Visits roots ids ↔ ids = order) ∧ order.Nodup ∧
      order.Perm (a.types.map TypeEntry.id) := by
  have hstart : ∀ id ∈ roots,
      ∃ t n, a.type? id = some t ∧ a.EndsAfter n t ∧ bound < n + (bound + 1) := by
    intro id hid
    obtain ⟨t, ht, rfl⟩ := List.mem_map.mp (hroots.mem_iff.mp hid)
    have htmem := List.mem_of_mem_filter ht
    obtain ⟨n, -, hend⟩ := hbound t htmem
    exact ⟨t, n, h.found.mpr ⟨htmem, rfl⟩, hend, by omega⟩
  obtain ⟨order, horder⟩ := h.exists_visits hbound _ _ hstart
  have hcount : ∀ t ∈ a.types, order.count t.id = 1 := by
    intro t ht
    obtain ⟨n, -, hend⟩ := hbound t ht
    exact h.count_eq_one hroots horder ht hend
  have hmem (id : TypeId) : id ∈ order ↔ id ∈ a.types.map TypeEntry.id := by
    constructor
    · intro hid
      obtain ⟨t, ht⟩ := horder.exists_of_mem hid
      obtain ⟨htmem, rfl⟩ := h.found.mp ht
      exact List.mem_map_of_mem htmem
    · intro hid
      obtain ⟨t, ht, rfl⟩ := List.mem_map.mp hid
      have hpos : 0 < order.count t.id := by rw [hcount t ht]; exact Nat.one_pos
      exact List.count_pos_iff.mp hpos
  have hnodup : order.Nodup := by
    rw [List.nodup_iff_count_eq_one]
    intro id hid
    obtain ⟨t, ht, rfl⟩ := List.mem_map.mp ((hmem id).mp hid)
    exact hcount t ht
  exact ⟨order, fun ids ↦ ⟨fun hids ↦ hids.unique horder, fun hids ↦ hids ▸ horder⟩, hnodup,
    (List.perm_ext_iff_of_nodup hnodup h.nodup_map_id).mpr hmem⟩

end Settled

/-! ### Assemblies that were built -/

theorem declaringId?_link (types : List TypeEntry) (t : TypeEntry) :
    declaringId? (link types) t = declaringId? types t := by
  simp only [declaringId?, link, List.find?_map, Option.map_map]
  rfl

theorem nestedIds_link (types : List TypeEntry) (t : TypeEntry) :
    nestedIds (link types) t = nestedIds types t := by
  set linked : TypeEntry → TypeEntry := fun t ↦
    { t with declaringType := declaringId? types t, nestedTypes := nestedIds types t }
  have hname (t u : TypeEntry) : byName t u = byName (linked t) (linked u) := rfl
  rw [nestedIds, nestedIds, show link types = types.map linked from rfl, List.filter_map,
    ← List.map_mergeSort fun t _ u _ ↦ hname t u, List.map_map]
  rfl

/-- The type around a selected type is among the types of the assembly. -/
theorem exists_mem_of_outer? {inclusion : Inclusion} {comments : Comments}
    {declared : List TypeDecl} {types : List TypeEntry}
    (hheaders : types.map TypeEntry.header =
      (select inclusion comments declared).map TypeDecl.toTypeHeader) {d u : TypeDecl}
    (hd : d ∈ select inclusion comments declared) (hu : d.outer? declared = some u) :
    ∃ p ∈ types, p.header = u.toTypeHeader :=
  List.mem_map.mp (hheaders ▸ List.mem_map_of_mem (mem_select_of_outer? hd hu))

section

variable {inclusion : Inclusion} {filter : MemberFilter} {id : AssemblyId}
  {source : AssemblySource} {comments : Comments} {a : AssemblyEntry}
  (h : build inclusion filter id source comments = .ok a)

include h

/-- The types of an assembly are the selected ones of consistent declarations. -/
theorem exists_map_header_of_build :
    ∃ declared, source.load = .ok declared ∧ TypeDecl.validate declared = .ok () ∧
      a.types.map TypeEntry.header =
        (select inclusion comments declared).map TypeDecl.toTypeHeader := by
  obtain ⟨declared, built, known, hload, hvalid, hbuilt, -, rfl⟩ := exists_of_build h
  refine ⟨declared, hload, hvalid, ?_⟩
  rw [← map_header_buildTypes hbuilt, link, List.map_map]
  rfl

/-- If there is an identifier for every type, it leads to the type. -/
theorem type?_eq_some_iff (hslots : a.types.length ≤ UInt32.size) {tid : TypeId} {t : TypeEntry} :
    a.type? tid = some t ↔ t ∈ a.types ∧ t.id = tid := by
  have hassembly : a.id = id := id_of_build h
  unfold type?
  constructor
  · intro ht
    split_ifs at ht with hid
    refine ⟨List.mem_of_getElem? ht, ?_⟩
    rw [id_of_getElem? h ht, TypeId.ofSlot, UInt32.ofNat_toNat, ← hassembly, ← hid]
  · rintro ⟨hmem, rfl⟩
    obtain ⟨j, hj⟩ := List.getElem?_of_mem hmem
    have hlt : j < UInt32.size := Nat.lt_of_lt_of_le (List.getElem?_eq_some_iff.mp hj).1 hslots
    have hslot : (TypeId.ofSlot id j).slot.toNat = j := UInt32.toNat_ofNat_of_lt' hlt
    have hid : (TypeId.ofSlot id j).assembly = a.id := hassembly.symm
    rw [id_of_getElem? h hj, if_pos hid, hslot, hj]

/-- An assembly that was built is linked by name. -/
theorem settled_of_build (hslots : a.types.length ≤ UInt32.size) : a.Settled := by
  obtain ⟨declared, hload, hvalid, hheaders⟩ := exists_map_header_of_build h
  have hlinked : ∀ t ∈ a.types, t.declaringType = declaringId? a.types t ∧
      t.nestedTypes = nestedIds a.types t := by
    obtain ⟨_, built, _, -, -, -, -, rfl⟩ := exists_of_build h
    intro t ht
    obtain ⟨u, -, rfl⟩ := List.mem_map.mp ht
    rw [declaringId?_link, nestedIds_link]
    exact ⟨rfl, rfl⟩
  refine ⟨?_, type?_eq_some_iff h hslots, fun t ht outer houter ↦ ?_, fun t ht ↦ (hlinked t ht).1,
    fun t ht ↦ (hlinked t ht).2⟩
  · have hnames : a.types.map TypeEntry.fullName =
        (select inclusion comments declared).map fun d ↦ d.fullName := by
      have := congrArg (List.map TypeHeader.fullName) hheaders
      rwa [List.map_map, List.map_map] at this
    rw [hnames]
    exact (TypeDecl.nodup_of_validate hvalid).sublist (List.filter_sublist.map _)
  · -- the declaring type is declared, so it was selected together with the type
    obtain ⟨d, hd, hdt⟩ := List.mem_map.mp (hheaders ▸ List.mem_map_of_mem ht)
    have hwalk := TypeDecl.walkOut_of_validate hvalid (List.mem_of_mem_filter hd)
    rw [Option.mem_def, ← hdt] at houter
    obtain ⟨u, -, hu, -, -⟩ := TypeDecl.exists_of_walkOut hwalk houter
    obtain ⟨p, hp, hpu⟩ := exists_mem_of_outer? hheaders hd hu
    have hname := (TypeDecl.declaringType_of_outer? hu).symm.trans houter
    exact ⟨p, hp, (congrArg TypeHeader.fullName hpu).trans (Option.some.inj hname)⟩

/-- Chains of declaring types are no longer than those that the check follows. -/
theorem exists_endsAfter (hslots : a.types.length ≤ UInt32.size) :
    ∃ bound, ∀ t ∈ a.types, ∃ n ≤ bound, a.EndsAfter n t := by
  have hsettled := settled_of_build h hslots
  obtain ⟨declared, hload, hvalid, hheaders⟩ := exists_map_header_of_build h
  have hsteps (start : String) (n : Nat) (d : TypeDecl)
      (hd : d ∈ select inclusion comments declared)
      (hwalk : TypeDecl.walkOut declared start n d = .ok ()) (t : TypeEntry) (ht : t ∈ a.types)
      (hdt : t.header = d.toTypeHeader) : ∃ m ≤ n, a.EndsAfter m t := by
    induction n generalizing d t with
    | zero =>
      cases houter : d.declaringType with
      | none =>
        rw [← hdt] at houter
        exact ⟨0, le_rfl, .outermost ((hsettled.declaringType_eq_none_iff ht).mpr houter)⟩
      | some outer =>
        obtain ⟨u, m, -, hzero, -⟩ := TypeDecl.exists_of_walkOut hwalk houter
        omega
    | succ n ih =>
      cases houter : d.declaringType with
      | none =>
        rw [← hdt] at houter
        exact ⟨0, by omega, .outermost ((hsettled.declaringType_eq_none_iff ht).mpr houter)⟩
      | some outer =>
        obtain ⟨u, m, hu, hm, hrest⟩ := TypeDecl.exists_of_walkOut hwalk houter
        obtain rfl : n = m := Nat.succ.inj hm
        obtain ⟨p, hp, hpu⟩ := exists_mem_of_outer? hheaders hd hu
        obtain ⟨k, hk, hend⟩ := ih u (mem_select_of_outer? hd hu) hrest p hp hpu
        have htp : t.header.declaringType = some p.fullName := by
          rw [hdt, TypeDecl.declaringType_of_outer? hu, TypeEntry.fullName, hpu]
        exact ⟨k + 1, by omega,
          .nested hp ((hsettled.declaringType_eq_some_iff ht hp).mpr htp) hend⟩
  refine ⟨declared.length, fun t ht ↦ ?_⟩
  obtain ⟨d, hd, hdt⟩ := List.mem_map.mp (hheaders ▸ List.mem_map_of_mem ht)
  have hwalk := TypeDecl.walkOut_of_validate hvalid (List.mem_of_mem_filter hd)
  exact hsteps d.fullName _ d hd hwalk t ht hdt.symm

/-- The types of an assembly are those that linking along declaring types ends with. -/
theorem exists_linkInTurn_eq (hslots : a.types.length ≤ UInt32.size) :
    ∃ declared built, source.load = .ok declared ∧
      buildTypes inclusion filter comments id 0 (select inclusion comments declared) = .ok built ∧
      linkInTurn (select inclusion comments declared) built = Part.some a.types := by
  obtain ⟨declared, built, known, hload, hvalid, hbuilt, -, rfl⟩ := exists_of_build h
  have hnames : ((select inclusion comments declared).map fun d ↦ d.fullName).Nodup :=
    (TypeDecl.nodup_of_validate hvalid).sublist (List.filter_sublist.map _)
  rw [link, List.length_map] at hslots
  exact ⟨declared, built, hload, hbuilt,
    linkInTurn_eq_some (isUnlinked_of_buildTypes hbuilt) hnames hslots⟩

/-- **The types of an assembly form a forest that covers each of them once.** The walks that link
the selected types end, and what they end with is linked as declared. There must be words enough to
number the types. -/
theorem forest_of_build (hslots : a.types.length ≤ UInt32.size) :
    ∃ declared built, source.load = .ok declared ∧
      buildTypes inclusion filter comments id 0 (select inclusion comments declared) = .ok built ∧
      linkInTurn (select inclusion comments declared) built = Part.some a.types ∧
      a.Forest declared := by
  have hsettled := settled_of_build h hslots
  obtain ⟨bound, hends⟩ := exists_endsAfter h hslots
  obtain ⟨declared, hload, hvalid, hheaders⟩ := exists_map_header_of_build h
  obtain ⟨declared', built, hload', hbuilt, hwalks⟩ := exists_linkInTurn_eq h hslots
  obtain rfl := Except.ok.inj (hload.symm.trans hload')
  have hroots : (a.namespaces.flatMap NamespaceEntry.types).Perm
      ((a.types.filter fun t ↦ !t.isNested).map TypeEntry.id) := by
    obtain ⟨_, _, _, -, -, -, -, rfl⟩ := exists_of_build h
    exact flatMap_types_listNamespaces_perm comments _
  refine ⟨declared, built, hload, hbuilt, hwalks, ?_⟩
  exact {
    header := by
      intro t ht
      obtain ⟨d, hd, hdt⟩ := List.mem_map.mp (hheaders ▸ List.mem_map_of_mem ht)
      exact ⟨d, List.mem_of_mem_filter hd, hdt.symm⟩
    declaring := by
      intro t ht id
      constructor
      · intro hid
        obtain ⟨p, hp, rfl⟩ := hsettled.exists_of_declaringType_eq ht hid
        exact ⟨p, hsettled.found.mpr ⟨hp, rfl⟩, (hsettled.declaringType_eq_some_iff ht hp).mp hid⟩
      · rintro ⟨p, hp, hname⟩
        obtain ⟨hpmem, rfl⟩ := hsettled.found.mp hp
        exact (hsettled.declaringType_eq_some_iff ht hpmem).mpr hname
    outermost := fun t ht ↦ hsettled.declaringType_eq_none_iff ht
    nested := fun p hp id ↦ hsettled.mem_nestedTypes_iff hp
    once := fun p hp ↦ hsettled.nodup_nestedTypes hp
    ordered := fun p hp ↦ hsettled.pairwise_nestedTypes hp
    ends := by
      intro t ht
      obtain ⟨n, -, hend⟩ := hends t ht
      exact ⟨n, hend⟩
    covered := hsettled.exists_order hroots hends }

end

/-! ### Types declared in no particular order -/

/-- The innermost type is declared first, and the type around all the others second. -/
def outlineSource : AssemblySource :=
  ⟨"Outlines", .ok
    [(TypeDecl.classNamed "Outer+Inner+Deep").nestedIn "Outer+Inner", TypeDecl.classNamed "Outer",
      (TypeDecl.classNamed "Outer+Inner").nestedIn "Outer",
      (TypeDecl.classNamed "Outer+Alpha").nestedIn "Outer"]⟩

theorem forest_of_build_outlineSource :
    ∃ a, build .publicSurface .all ⟨0⟩ outlineSource .empty = .ok a ∧
      a.types.map TypeEntry.declaringType =
        [some ⟨⟨0⟩, 2⟩, none, some ⟨⟨0⟩, 1⟩, some ⟨⟨0⟩, 1⟩] ∧
      ∃ declared built, outlineSource.load = .ok declared ∧
        buildTypes .publicSurface .all .empty ⟨0⟩ 0 (select .publicSurface .empty declared) =
          .ok built ∧
        linkInTurn (select .publicSurface .empty declared) built = Part.some a.types ∧
        a.Forest declared := by
  have houter : (build .publicSurface .all ⟨0⟩ outlineSource .empty).toOption.map
      (fun a ↦ a.types.map TypeEntry.declaringType) =
        some [some ⟨⟨0⟩, 2⟩, none, some ⟨⟨0⟩, 1⟩, some ⟨⟨0⟩, 1⟩] := by
    decide +kernel
  cases hbuild : build .publicSurface .all ⟨0⟩ outlineSource .empty with
  | error e => simp [hbuild, Except.toOption] at houter
  | ok a =>
    rw [hbuild] at houter
    have hdeclaring := Option.some.inj houter
    have hlength : a.types.length = 4 := by simpa using congrArg List.length hdeclaring
    exact ⟨a, rfl, hdeclaring, forest_of_build hbuild (by rw [hlength]; decide)⟩

end ApiDocs.AssemblyEntry
