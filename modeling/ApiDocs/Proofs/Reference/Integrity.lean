import ApiDocs.Decl.Assemble
import ApiDocs.Proofs.Reference.Binding
import ApiDocs.Proofs.Reference.Inheritance
import ApiDocs.Proofs.Reference.Passes

/-!
# Identifiers in a finished reference

Entries point to each other by identifiers, which are places in lists. Links are set when an
assembly is built and when extensions are attached, and passes that run later drop members, sort
lists and leave gaps between assemblies. In the finished reference every identifier still leads to
the entry it was made for.

## Main definitions

* `AssemblyEntry.Linked`: the links inside an assembly lead to its own types.
* `Reference.Intact`: all identifiers of a reference lead to the entries they name.

## Main results

* `AssemblyEntry.linked_of_build`: the links of an assembly that was built.
* `Reference.exists_of_mem_extensionMethods`: extension methods are methods of the reference.
* `Reference.intact_of_build`: every reference that is built is intact.
-/

namespace ApiDocs

/-! ### Links inside an assembly -/

namespace AssemblyEntry

/-- Namespaces list types of the assembly, and nested types and the types around them are types of
the assembly. -/
structure Linked (a : AssemblyEntry) : Prop where
  listed : ∀ n ∈ a.namespaces, ∀ id ∈ n.types, id ∈ a.types.map TypeEntry.id
  nested : ∀ t ∈ a.types, ∀ id ∈ t.nestedTypes, id ∈ a.types.map TypeEntry.id
  declaring : ∀ t ∈ a.types, ∀ id ∈ t.declaringType, id ∈ a.types.map TypeEntry.id

theorem map_id_link (types : List TypeEntry) :
    (link types).map TypeEntry.id = types.map TypeEntry.id := by
  rw [link, List.map_map]
  rfl

theorem mem_map_id_of_mem_nestedIds {types : List TypeEntry} {t : TypeEntry} {id : TypeId}
    (h : id ∈ nestedIds types t) : id ∈ types.map TypeEntry.id := by
  obtain ⟨u, hu, rfl⟩ := List.mem_map.mp h
  rw [List.mem_mergeSort] at hu
  exact List.mem_map_of_mem (List.mem_of_mem_filter hu)

theorem mem_map_id_of_declaringId? {types : List TypeEntry} {t : TypeEntry} {id : TypeId}
    (h : declaringId? types t = some id) : id ∈ types.map TypeEntry.id := by
  obtain ⟨outer, -, h⟩ := Option.bind_eq_some_iff.mp h
  obtain ⟨u, hu, rfl⟩ := Option.map_eq_some_iff.mp h
  exact List.mem_map_of_mem (List.mem_of_find?_eq_some hu)

theorem mem_map_id_of_mem_listNamespaces {comments : Comments} {types : List TypeEntry}
    {n : NamespaceEntry} (hn : n ∈ listNamespaces comments types) {id : TypeId}
    (h : id ∈ n.types) : id ∈ types.map TypeEntry.id := by
  obtain ⟨name, -, rfl⟩ := List.mem_map.mp hn
  obtain ⟨u, hu, rfl⟩ := List.mem_map.mp h
  rw [List.mem_mergeSort] at hu
  exact List.mem_map_of_mem (List.mem_of_mem_filter (List.mem_of_mem_filter hu))

/-- The links of an assembly that was built lead to its own types. -/
theorem linked_of_build {inclusion : Inclusion} {filter : MemberFilter} {id : AssemblyId}
    {source : AssemblySource} {comments : Comments} {a : AssemblyEntry}
    (h : build inclusion filter id source comments = .ok a) : a.Linked := by
  obtain ⟨declared, built, known, -, -, -, -, rfl⟩ := exists_of_build h
  refine ⟨fun n hn i hi ↦ mem_map_id_of_mem_listNamespaces hn hi, fun t ht i hi ↦ ?_,
    fun t ht i hi ↦ ?_⟩
  · obtain ⟨u, -, rfl⟩ := List.mem_map.mp ht
    rw [map_id_link]
    exact mem_map_id_of_mem_nestedIds hi
  · obtain ⟨u, -, rfl⟩ := List.mem_map.mp ht
    rw [map_id_link]
    exact mem_map_id_of_declaringId? hi

/-- An assembly's entry without the members of types and the methods that extend them. -/
def outline (a : AssemblyEntry) : AssemblyEntry :=
  { a with types := a.types.map TypeEntry.outline }

/-- Whether links lead to types of the assembly depends on the outline only. -/
theorem Linked.of_outline_eq {a b : AssemblyEntry} (h : a.Linked) (heq : b.outline = a.outline) :
    b.Linked := by
  have hnamespaces : b.namespaces = a.namespaces := congrArg (fun a ↦ a.namespaces) heq
  have htypes : b.types.map TypeEntry.outline = a.types.map TypeEntry.outline :=
    congrArg (fun a ↦ a.types) heq
  have hids : b.types.map TypeEntry.id = a.types.map TypeEntry.id := by
    have := congrArg (List.map TypeEntry.id) htypes
    rwa [List.map_map, List.map_map] at this
  have hstem (t : TypeEntry) (ht : t ∈ b.types) : ∃ u ∈ a.types, u.outline = t.outline :=
    List.mem_map.mp (htypes ▸ List.mem_map_of_mem ht)
  refine ⟨?_, fun t ht id hid ↦ ?_, fun t ht id hid ↦ ?_⟩
  · rw [hnamespaces, hids]
    exact h.listed
  · obtain ⟨u, hu, heq⟩ := hstem t ht
    have hnested : u.nestedTypes = t.nestedTypes := congrArg (fun t ↦ t.nestedTypes) heq
    rw [hids]
    exact h.nested u hu id (hnested ▸ hid)
  · obtain ⟨u, hu, heq⟩ := hstem t ht
    have hdeclaring : u.declaringType = t.declaringType := congrArg (fun t ↦ t.declaringType) heq
    rw [hids]
    exact h.declaring u hu id (hdeclaring ▸ hid)

end AssemblyEntry

/-! ### Links across assemblies -/

/-- Lists with the same outline have assemblies with the same outlines. -/
theorem Assemblies.exists_outline_eq {as bs : List AssemblyEntry} (h : outline as = outline bs)
    {a : AssemblyEntry} (ha : a ∈ as) : ∃ b ∈ bs, a.outline = b.outline := by
  have hmem : a.outline ∈ outline bs := h ▸ List.mem_map_of_mem ha
  obtain ⟨b, hb, heq⟩ := List.mem_map.mp hmem
  exact ⟨b, hb, heq.symm⟩

/-- Lists with the same outline have assemblies with the same outlines in the same places. -/
theorem Assemblies.exists_getElem?_outline_eq {as bs : List AssemblyEntry}
    (h : outline as = outline bs) {i : Nat} {b : AssemblyEntry} (hb : bs[i]? = some b) :
    ∃ a, as[i]? = some a ∧ a.outline = b.outline := by
  have hplace := congrArg (fun cs ↦ cs[i]?) h
  simp only [outline, mapTypes, List.getElem?_map, hb, Option.map_some] at hplace
  exact Option.map_eq_some_iff.mp hplace

theorem TypeIndex.exists_of_mem_entries {as : List AssemblyEntry} {e : String × TypeId}
    (h : e ∈ (ofAssemblies as).entries) :
    ∃ t ∈ Assemblies.types as, e = (t.fullName, t.id) := by
  have hfold (ts : List TypeEntry) (index : TypeIndex) (h : e ∈ (ts.foldl add index).entries) :
      e ∈ index.entries ∨ ∃ t ∈ ts, e = (t.fullName, t.id) := by
    induction ts generalizing index with
    | nil => exact Or.inl h
    | cons t ts ih =>
      rcases ih (index.add t) h with hadd | ⟨u, hu, heq⟩
      · unfold add at hadd
        split_ifs at hadd
        · exact Or.inl hadd
        · rcases List.mem_append.mp hadd with hold | hnew
          · exact Or.inl hold
          · exact Or.inr ⟨t, List.mem_cons_self, List.mem_singleton.mp hnew⟩
      · exact Or.inr ⟨u, List.mem_cons_of_mem t hu, heq⟩
  rcases hfold _ _ h with hnil | hmem
  · cases hnil
  · exact hmem

theorem NamespaceEntry.exists_of_mem_merge {as : List AssemblyEntry} {comments : Option Comments}
    {n : NamespaceEntry} (hn : n ∈ merge as comments) {id : TypeId} (hid : id ∈ n.types) :
    ∃ a ∈ as, ∃ part ∈ a.namespaces, id ∈ part.types := by
  obtain ⟨name, -, rfl⟩ := List.mem_map.mp hn
  rw [mergeParts, List.mem_mergeSort, List.mem_eraseDups] at hid
  obtain ⟨part, hpart, hid⟩ := List.mem_flatMap.mp hid
  obtain ⟨a, ha, hpart⟩ := List.mem_flatMap.mp (List.mem_of_mem_filter hpart)
  exact ⟨a, ha, part, hpart, hid⟩

theorem Extension.exists_of_mem_all {index : TypeIndex} {as : List AssemblyEntry}
    {e : TypeId × MethodRef} (h : e ∈ all index as) :
    ∃ t ∈ Assemblies.types as, ∃ i < t.members.methods.length, e.2 = .ofPosition t.id i := by
  obtain ⟨t, ht, he⟩ := List.mem_flatMap.mp h
  obtain ⟨⟨m, i⟩, hm, he⟩ := List.mem_filterMap.mp he
  obtain ⟨target, -, rfl⟩ := Option.map_eq_some_iff.mp he
  have hi := (List.getElem?_eq_some_iff.mp (List.mem_zipIdx_iff_getElem?.mp hm)).1
  exact ⟨t, ht, i, hi, rfl⟩

namespace Reference

/-- Extension methods are methods of the finished assemblies. Extensions are attached after members
were left out, and numbering overloads moves no method. -/
theorem exists_of_mem_extensionMethods {inclusion : Inclusion} {index : TypeIndex}
    {files : List Comments} {as : List AssemblyEntry} {t : TypeEntry}
    (ht : t ∈ Assemblies.types (complete inclusion index files as)) {ref : MethodRef}
    (href : ref ∈ t.extensionMethods) :
    ∃ u ∈ Assemblies.types (complete inclusion index files as),
      ∃ i < u.members.methods.length, ref = .ofPosition u.id i := by
  simp only [complete] at ht ⊢
  generalize (if inclusion.undocumentedMembers then Inheritance.propagate index files as
    else Inheritance.dropUndocumented (Inheritance.propagate index files as)) = bs at ht ⊢
  rw [Extension.attach, Assemblies.mapTypes_mapTypes, Assemblies.types_mapTypes] at ht ⊢
  obtain ⟨t₀, -, rfl⟩ := List.mem_map.mp ht
  obtain ⟨e, he, rfl⟩ := List.mem_map.mp href
  obtain ⟨u, hu, i, hi, heq⟩ := Extension.exists_of_mem_all (List.mem_of_mem_filter he)
  refine ⟨_, List.mem_map_of_mem hu, i, ?_, heq⟩
  rwa [TypeEntry.length_methods_numberOverloads]

/-! ### The whole reference -/

/-- An identifier leads to the type that bears it. -/
def Leads (r : Reference) (id : TypeId) : Prop :=
  ∃ t, r.type? id = some t ∧ t.id = id

/-- All identifiers of a reference lead to the entries they name. A stand-in for an overridden
member has no link of its own, as it is no entry. -/
structure Intact (r : Reference) : Prop where
  increasing : r.assemblies.Pairwise fun a b ↦ a.id.val < b.id.val
  slot : ∀ a ∈ r.assemblies, ∀ (j : Nat) (t : TypeEntry), a.types[j]? = some t →
    t.id.assembly = a.id ∧ t.id.slot.toNat = j
  owner : ∀ t ∈ Assemblies.types r.assemblies, ∀ m ∈ t.members.toList, m.owner = .type t.id
  merged : ∀ n ∈ r.namespaces, ∀ id ∈ n.types, r.Leads id
  listed : ∀ a ∈ r.assemblies, ∀ n ∈ a.namespaces, ∀ id ∈ n.types, r.Leads id
  nested : ∀ t ∈ Assemblies.types r.assemblies, ∀ id ∈ t.nestedTypes, r.Leads id
  declaring : ∀ t ∈ Assemblies.types r.assemblies, ∀ id ∈ t.declaringType, r.Leads id
  flat : ∀ id ∈ r.types, r.Leads id
  indexed : ∀ e ∈ r.index.entries, r.Leads e.2
  extension : ∀ t ∈ Assemblies.types r.assemblies, ∀ ref ∈ t.extensionMethods,
    r.Leads ref.owner ∧ (r.method? ref).isSome
  once : ∀ t ∈ Assemblies.types r.assemblies, r.types.count t.id = 1
  standIn : ∀ t ∈ Assemblies.types r.assemblies, ∀ m ∈ t.members.toList, ∀ base ∈ m.overrides,
    base.owner = .synthetic base.decl.declaringType

/-- An identifier leads to the type that bears it if one of the types does. -/
theorem leads_of_mem {r : Reference} (h : Assemblies.Addressed r.assemblies) {t : TypeEntry}
    (ht : t ∈ Assemblies.types r.assemblies) : r.Leads t.id :=
  ⟨t, h.type?_id ht, rfl⟩

/-- The links of an assembly lead to the types they name. -/
theorem leads_of_mem_map_id {r : Reference} (h : Assemblies.Addressed r.assemblies)
    {a : AssemblyEntry} (ha : a ∈ r.assemblies) {id : TypeId}
    (hid : id ∈ a.types.map TypeEntry.id) : r.Leads id := by
  obtain ⟨t, ht, rfl⟩ := List.mem_map.mp hid
  exact leads_of_mem h (Assemblies.mem_types.mpr ⟨a, ha, ht⟩)

/-- A member of a bound assembly belongs to the type that holds it, and what it overrides to a type
known by name only. -/
theorem IsBound.owner_eq {bound : List (AssemblyEntry × Comments)} (h : IsBound bound)
    {t : TypeEntry} (ht : t ∈ Assemblies.types (bound.map Prod.fst)) {m : MemberEntry}
    (hm : m ∈ t.members.toList) :
    m.owner = .type t.id ∧
      ∀ base ∈ m.overrides, base.owner = .synthetic base.decl.declaringType := by
  obtain ⟨p, -, d, hd⟩ := h.exists_build ht hm
  obtain ⟨b, overrides, hb, ho, rfl⟩ := MemberEntry.exists_of_build hd
  obtain ⟨docId, -, rfl⟩ := BoundMember.exists_of_ofDecl hb
  refine ⟨rfl, fun base hbase ↦ ?_⟩
  obtain ⟨baseDecl, -, hb⟩ := MemberEntry.exists_of_buildOverride ho hbase
  obtain ⟨docId, -, rfl⟩ := BoundMember.exists_of_ofDecl hb
  rfl

section

variable {inclusion : Inclusion} {bindings : List Binding}
  {namespaceComments : Option CommentSource}

theorem outline_ofBindings (inclusion : Inclusion) (bindings : List Binding)
    (namespaceComments : Option CommentSource) :
    Assemblies.outline (ofBindings inclusion bindings namespaceComments).assemblies =
      Assemblies.outline ((boundEntries bindings).map Prod.fst) :=
  outline_complete

/-- The passes leave as many types in every assembly as were built. -/
theorem length_types_of_mem_boundEntries
    (h : ∀ a ∈ (ofBindings inclusion bindings namespaceComments).assemblies,
      a.types.length ≤ UInt32.size) {p : AssemblyEntry × Comments}
    (hp : p ∈ boundEntries bindings) : p.1.types.length ≤ UInt32.size := by
  have houtline := (outline_ofBindings inclusion bindings namespaceComments).symm
  obtain ⟨a, ha, heq⟩ := Assemblies.exists_outline_eq houtline (List.mem_map_of_mem hp)
  have hlen : p.1.types.length = a.types.length := by
    have hmap := congrArg (fun a ↦ a.types.length) heq
    simpa only [AssemblyEntry.outline, List.length_map] using hmap
  rw [hlen]
  exact h a ha

variable (h : IsBound (boundEntries bindings))

include h

theorem addressed_ofBindings :
    Assemblies.Addressed (ofBindings inclusion bindings namespaceComments).assemblies :=
  h.addressed.of_outline_eq (outline_ofBindings inclusion bindings namespaceComments)

theorem linked_ofBindings {a : AssemblyEntry}
    (ha : a ∈ (ofBindings inclusion bindings namespaceComments).assemblies) : a.Linked := by
  have houtline := outline_ofBindings inclusion bindings namespaceComments
  obtain ⟨b, hb, heq⟩ := Assemblies.exists_outline_eq houtline ha
  obtain ⟨p, hp, rfl⟩ := List.mem_map.mp hb
  obtain ⟨_, _, _, hbuild⟩ := h.built p hp
  exact (AssemblyEntry.linked_of_build hbuild).of_outline_eq heq

theorem owner_ofBindings {t : TypeEntry}
    (ht : t ∈ Assemblies.types (ofBindings inclusion bindings namespaceComments).assemblies)
    {m : MemberEntry} (hm : m ∈ t.members.toList) :
    m.owner = .type t.id ∧
      ∀ base ∈ m.overrides, base.owner = .synthetic base.decl.declaringType := by
  obtain ⟨t₀, ht₀, hstem⟩ := exists_stemsFrom_of_mem_complete ht
  obtain ⟨m₀, hm₀, heq⟩ := hstem.2 m hm
  have howner : m.owner = m₀.owner := congrArg (fun m ↦ m.owner) heq
  have hover : m.overrides = m₀.overrides := congrArg (fun m ↦ m.overrides) heq
  rw [howner, hover, hstem.id_eq]
  exact h.owner_eq ht₀ hm₀

/-- The index is made before the passes, which keep all identifiers. -/
theorem leads_of_mem_index {e : String × TypeId}
    (he : e ∈ (ofBindings inclusion bindings namespaceComments).index.entries) :
    (ofBindings inclusion bindings namespaceComments).Leads e.2 := by
  obtain ⟨t, ht, rfl⟩ := TypeIndex.exists_of_mem_entries he
  have hmem : t.id ∈ (Assemblies.types
      (ofBindings inclusion bindings namespaceComments).assemblies).map TypeEntry.id := by
    rw [← Assemblies.map_id_types_outline, outline_ofBindings, Assemblies.map_id_types_outline]
    exact List.mem_map_of_mem ht
  obtain ⟨u, hu, hid⟩ := List.mem_map.mp hmem
  rw [← hid]
  exact leads_of_mem (addressed_ofBindings h) hu

end

/-- A method of the reference is found by its place. -/
theorem isSome_method? {r : Reference} (h : Assemblies.Addressed r.assemblies) {t : TypeEntry}
    (ht : t ∈ Assemblies.types r.assemblies) (hlen : t.members.methods.length ≤ UInt32.size)
    {i : Nat} (hi : i < t.members.methods.length) :
    (r.method? (.ofPosition t.id i)).isSome := by
  have hindex : (UInt32.ofNat i).toNat = i :=
    UInt32.toNat_ofNat_of_lt' (Nat.lt_of_lt_of_le hi hlen)
  have hget : t.members.methods[(UInt32.ofNat i).toNat]? =
      some (t.members.methods.get ⟨i, hi⟩) := by
    rw [hindex]
    exact List.getElem?_eq_getElem hi
  change ((Assemblies.type? r.assemblies t.id).bind fun t ↦
    t.members.methods[(UInt32.ofNat i).toNat]?).isSome
  rw [h.type?_id ht, Option.bind_some, hget]
  rfl

/-- **Every identifier in a finished reference leads to the entry it names.** There must be words
enough to number the assemblies, the types of each assembly and the methods of each type. -/
theorem intact_of_build {inclusion : Inclusion} {filter : MemberFilter}
    {inputs : List AssemblyInput} {namespaceComments : Option CommentSource} {r : Reference}
    (h : build inclusion filter inputs namespaceComments = .ok r)
    (hinputs : inputs.length ≤ UInt32.size)
    (htypes : ∀ a ∈ r.assemblies, a.types.length ≤ UInt32.size)
    (hmethods : ∀ t ∈ Assemblies.types r.assemblies,
      t.members.methods.length ≤ UInt32.size) : r.Intact := by
  obtain ⟨-, rfl⟩ := build_eq_ok_iff.mp h
  have hbound : IsBound (boundEntries (bindAll inclusion filter inputs)) :=
    isBound_boundEntries hinputs fun p hp ↦ length_types_of_mem_boundEntries htypes hp
  have haddr : Assemblies.Addressed
      (ofBindings inclusion (bindAll inclusion filter inputs) namespaceComments).assemblies :=
    addressed_ofBindings hbound
  have hlisted : ∀ a ∈ (ofBindings inclusion (bindAll inclusion filter inputs)
        namespaceComments).assemblies, ∀ n ∈ a.namespaces, ∀ id ∈ n.types,
      (ofBindings inclusion (bindAll inclusion filter inputs) namespaceComments).Leads id :=
    fun a ha n hn id hid ↦
      leads_of_mem_map_id haddr ha ((linked_ofBindings hbound ha).listed n hn id hid)
  exact {
    increasing := haddr.increasing
    slot := haddr.slot
    owner := fun t ht m hm ↦ (owner_ofBindings hbound ht hm).1
    merged := by
      intro n hn id hid
      obtain ⟨a, ha, part, hpart, hid⟩ := NamespaceEntry.exists_of_mem_merge hn hid
      exact hlisted a ha part hpart id hid
    listed := hlisted
    nested := by
      intro t ht id hid
      obtain ⟨a, ha, hta⟩ := Assemblies.mem_types.mp ht
      exact leads_of_mem_map_id haddr ha ((linked_ofBindings hbound ha).nested t hta id hid)
    declaring := by
      intro t ht id hid
      obtain ⟨a, ha, hta⟩ := Assemblies.mem_types.mp ht
      exact leads_of_mem_map_id haddr ha ((linked_ofBindings hbound ha).declaring t hta id hid)
    flat := by
      intro id hid
      obtain ⟨t, ht, rfl⟩ := List.mem_map.mp hid
      exact leads_of_mem haddr ht
    indexed := fun e he ↦ leads_of_mem_index hbound he
    extension := by
      intro t ht ref href
      obtain ⟨u, hu, i, hi, rfl⟩ := exists_of_mem_extensionMethods ht href
      exact ⟨leads_of_mem haddr hu, isSome_method? haddr hu (hmethods u hu) hi⟩
    once := fun t ht ↦
      List.count_eq_one_of_mem haddr.nodup_map_id (List.mem_map_of_mem ht)
    standIn := fun t ht m hm ↦ (owner_ofBindings hbound ht hm).2 }

/-! ### Links across two assemblies -/

/-- After an assembly that cannot be read, boxes with lids, which extend boxes, and crates, which
override a method of boxes. -/
def boxInputs : List AssemblyInput :=
  [⟨⟨"Lost", .error (.unreadable "no such file")⟩, none⟩,
    ⟨⟨"Boxes", .ok
      [(TypeDecl.classNamed "Box").withMember (MemberDecl.methodOf "Box" "Seal" .void).asVirtual,
        ((TypeDecl.classNamed "Box+Lid").nestedIn "Box").withMember
          ((MemberDecl.methodOf "Box+Lid" "Open" .void).withParameter "box"
            (.named "Box" [])).asExtension]⟩, none⟩,
    ⟨⟨"Crates", .ok
      [((TypeDecl.classNamed "Crate").withBase (.named "Box" [])).withMember
        ((MemberDecl.methodOf "Crate" "Seal" .void).withBaseDefinition
          (.methodOf "Box" "Seal" .void))]⟩, none⟩]

theorem intact_of_build_boxInputs :
    ∃ r, build .publicSurface .all boxInputs none = .ok r ∧ r.Intact ∧
      (Assemblies.types r.assemblies).map
          (fun t ↦ (t.id, t.declaringType, t.nestedTypes, t.extensionMethods)) =
        [(⟨⟨1⟩, 0⟩, none, [⟨⟨1⟩, 1⟩], [⟨⟨⟨1⟩, 1⟩, 0⟩]), (⟨⟨1⟩, 1⟩, some ⟨⟨1⟩, 0⟩, [], []),
          (⟨⟨2⟩, 0⟩, none, [], [])] ∧
      (Assemblies.types r.assemblies).flatMap (fun t ↦ t.members.toList.map fun m ↦
          (m.owner, m.overrides.map fun base ↦ base.owner)) =
        [(.type ⟨⟨1⟩, 0⟩, none), (.type ⟨⟨1⟩, 1⟩, none),
          (.type ⟨⟨2⟩, 0⟩, some (.synthetic "Box"))] := by
  set r := ofBindings .publicSurface (bindAll .publicSurface .all boxInputs) none with hr
  have hbuild : build .publicSurface .all boxInputs none = .ok r :=
    build_eq_ok_iff.mpr ⟨by decide +kernel, hr⟩
  have hassemblies : r.assemblies = Inheritance.completeAlong _ .publicSurface
      (boundEntries (bindAll .publicSurface .all boxInputs)) :=
    Inheritance.assemblies_ofBindings _ _ (Inheritance.order_eq_of_pairwise (by decide +kernel))
  have htypes : ∀ a ∈ r.assemblies, a.types.length ≤ UInt32.size := by
    rw [hassemblies]
    decide +kernel
  have hmethods : ∀ t ∈ Assemblies.types r.assemblies,
      t.members.methods.length ≤ UInt32.size := by
    rw [hassemblies]
    decide +kernel
  refine ⟨r, hbuild, intact_of_build hbuild (by decide) htypes hmethods, ?_, ?_⟩
  · rw [hassemblies]
    decide +kernel
  · rw [hassemblies]
    decide +kernel

end Reference

end ApiDocs
