import ApiDocs.Proofs.Entry.Building
import ApiDocs.Proofs.Reference.Lookup
import ApiDocs.Reference.Build

/-!
# Bound assemblies

The passes over several assemblies start from assemblies that were bound one by one, each with its
comments, and numbered by their places among the inputs. Identifiers are 32-bit words, so the inputs
and the types of an assembly must be no more than there are words.

## Main definitions

* `Reference.IsBound`: a list of assemblies as binding leaves it.
* `Reference.ofBindings`: the reference of inputs that were bound one by one.

## Main results

* `Reference.IsBound.addressed`: identifiers say where bound assemblies and their types stand.
* `Reference.IsBound.exists_file_of_overrides`: the comment of a stand-in is in one of the files.
* `Reference.isBound_boundEntries`: what binding the inputs leaves.
* `Reference.build_eq_ok_iff`: a reference is that of the bindings of its inputs.
* `TypeIndex.find?_ofAssemblies`: a full name stands for the first type that has it.
* `TypeIndex.ofAssemblies_congr`: what names stand for depends on the outline only.
-/

namespace ApiDocs

namespace Reference

/-- Assemblies that were bound, each with the comments it was bound to. They stand in the order of
their identifiers, and there is an identifier for every type. -/
structure IsBound (bound : List (AssemblyEntry × Comments)) : Prop where
  built : ∀ p ∈ bound, ∃ inclusion filter source,
    AssemblyEntry.build inclusion filter p.1.id source p.2 = .ok p.1
  increasing : bound.Pairwise fun p q ↦ p.1.id.val < q.1.id.val
  slots : ∀ p ∈ bound, p.1.types.length ≤ UInt32.size

/-- A member of assemblies that were built was built from a declaration, with the comments of its
assembly. -/
theorem exists_build_of_mem_types {bound : List (AssemblyEntry × Comments)}
    (h : ∀ p ∈ bound, ∃ inclusion filter source,
      AssemblyEntry.build inclusion filter p.1.id source p.2 = .ok p.1)
    {t : TypeEntry} (ht : t ∈ Assemblies.types (bound.map Prod.fst)) {m : MemberEntry}
    (hm : m ∈ t.members.toList) :
    ∃ p ∈ bound, ∃ d, MemberEntry.build p.2 t.id t.fullName d = .ok m := by
  obtain ⟨a, ha, hta⟩ := Assemblies.mem_types.mp ht
  obtain ⟨p, hp, rfl⟩ := List.mem_map.mp ha
  obtain ⟨inclusion, filter, source, hbuild⟩ := h p hp
  obtain ⟨d, hd⟩ := AssemblyEntry.exists_build_of_mem_members hbuild hta hm
  exact ⟨p, hp, d, hd⟩

namespace IsBound

variable {bound : List (AssemblyEntry × Comments)} (h : IsBound bound)

include h

/-- Identifiers say where bound assemblies and their types stand. -/
theorem addressed : Assemblies.Addressed (bound.map Prod.fst) := by
  refine ⟨List.pairwise_map.mpr h.increasing, fun a ha j t ht ↦ ?_⟩
  obtain ⟨p, hp, rfl⟩ := List.mem_map.mp ha
  obtain ⟨inclusion, filter, source, hbuild⟩ := h.built p hp
  have hj : j < UInt32.size :=
    Nat.lt_of_lt_of_le (List.getElem?_eq_some_iff.mp ht).1 (h.slots p hp)
  rw [AssemblyEntry.id_of_getElem? hbuild ht]
  exact ⟨rfl, UInt32.toNat_ofNat_of_lt' hj⟩

/-- A member of a bound assembly was built from a declaration, with the assembly's comments. -/
theorem exists_build {t : TypeEntry} (ht : t ∈ Assemblies.types (bound.map Prod.fst))
    {m : MemberEntry} (hm : m ∈ t.members.toList) :
    ∃ p ∈ bound, ∃ d, MemberEntry.build p.2 t.id t.fullName d = .ok m :=
  exists_build_of_mem_types h.built ht hm

/-- The comment of a stand-in for an overridden member is in the file of the assembly. -/
theorem exists_file_of_overrides {t : TypeEntry}
    (ht : t ∈ Assemblies.types (bound.map Prod.fst)) {m : MemberEntry}
    (hm : m ∈ t.members.toList) {base : BoundMember} (hbase : m.overrides = some base) :
    ∃ file ∈ bound.map Prod.snd, base.comment = file.get? base.docId := by
  obtain ⟨p, hp, d, hd⟩ := h.exists_build ht hm
  exact ⟨p.2, List.mem_map_of_mem hp, (MemberEntry.comment_of_build hd).2 base hbase⟩

end IsBound

/-! ### Binding the inputs -/

/-- An assembly is bound if its entry can be built. -/
theorem build_of_bind_entry {inclusion : Inclusion} {filter : MemberFilter} {id : AssemblyId}
    {input : AssemblyInput} {a : AssemblyEntry}
    (h : (input.bind inclusion filter id).entry = some a) :
    AssemblyEntry.build inclusion filter id input.source (input.bind inclusion filter id).comments =
      .ok a := by
  unfold AssemblyInput.bind at h ⊢
  simp only at h ⊢
  split at h
  · rename_i hbuild
    obtain rfl := Option.some.inj h
    rw [hbuild]
  · cases h

theorem mem_boundEntries_bindAll {inclusion : Inclusion} {filter : MemberFilter}
    {inputs : List AssemblyInput} {p : AssemblyEntry × Comments}
    (h : p ∈ boundEntries (bindAll inclusion filter inputs)) :
    ∃ i input, inputs[i]? = some input ∧
      AssemblyEntry.build inclusion filter (.ofNat i) input.source p.2 = .ok p.1 := by
  obtain ⟨b, hb, hp⟩ := List.mem_filterMap.mp h
  obtain ⟨⟨input, i⟩, hi, rfl⟩ := List.mem_map.mp hb
  obtain ⟨a, ha, rfl⟩ := Option.map_eq_some_iff.mp hp
  exact ⟨i, input, List.mem_zipIdx_iff_getElem?.mp hi, build_of_bind_entry ha⟩

/-- Bound assemblies stand in the order of their identifiers. -/
theorem increasing_boundEntries_bindAll {inclusion : Inclusion} {filter : MemberFilter}
    {inputs : List AssemblyInput} (hlen : inputs.length ≤ UInt32.size) :
    (boundEntries (bindAll inclusion filter inputs)).Pairwise fun p q ↦
      p.1.id.val < q.1.id.val := by
  rw [boundEntries, List.pairwise_filterMap, bindAll, List.pairwise_map,
    List.pairwise_iff_getElem]
  intro i j hi hj hij p hp q hq
  simp only [List.getElem_zipIdx, Nat.zero_add] at hp hq
  rw [List.length_zipIdx] at hi hj
  obtain ⟨a, ha, rfl⟩ := Option.map_eq_some_iff.mp hp
  obtain ⟨b, hb, rfl⟩ := Option.map_eq_some_iff.mp hq
  rw [AssemblyEntry.id_of_build (build_of_bind_entry ha),
    AssemblyEntry.id_of_build (build_of_bind_entry hb)]
  exact UInt32.ofNat_lt_iff_lt (by omega) (by omega) |>.mpr hij

/-- Binding leaves bound assemblies, if there are identifiers enough. -/
theorem isBound_boundEntries {inclusion : Inclusion} {filter : MemberFilter}
    {inputs : List AssemblyInput} (hlen : inputs.length ≤ UInt32.size)
    (hslots : ∀ p ∈ boundEntries (bindAll inclusion filter inputs),
      p.1.types.length ≤ UInt32.size) :
    IsBound (boundEntries (bindAll inclusion filter inputs)) := by
  refine ⟨fun p hp ↦ ?_, increasing_boundEntries_bindAll hlen, hslots⟩
  obtain ⟨i, input, -, hbuild⟩ := mem_boundEntries_bindAll hp
  refine ⟨inclusion, filter, input.source, ?_⟩
  rw [AssemblyEntry.id_of_build hbuild]
  exact hbuild

/-! ### From bindings to references -/

/-- The reference of a list of bindings, given the source of comments on namespaces. -/
def ofBindings (inclusion : Inclusion) (bindings : List Binding)
    (namespaceComments : Option CommentSource) : Reference :=
  let bound := boundEntries bindings
  let loaded := CommentSource.loadAny none namespaceComments
  let index := TypeIndex.ofAssemblies (bound.map Prod.fst)
  let assemblies := complete inclusion index (bound.map Prod.snd) (bound.map Prod.fst)
  { assemblies, index
    namespaces := NamespaceEntry.merge assemblies loaded.1
    types := (Assemblies.types assemblies).map TypeEntry.id
    diagnostics := bindings.flatMap Binding.diagnostics ++ loaded.2 }

/-- A reference is built exactly from inputs that pass the check. -/
theorem build_eq_ok_iff {inclusion : Inclusion} {filter : MemberFilter}
    {inputs : List AssemblyInput} {namespaceComments : Option CommentSource} {r : Reference} :
    build inclusion filter inputs namespaceComments = .ok r ↔
      checkInputs inputs = .ok () ∧
        r = ofBindings inclusion (bindAll inclusion filter inputs) namespaceComments := by
  unfold build
  constructor
  · intro h
    obtain ⟨⟨⟩, hvalid, h⟩ := bind_eq_ok_iff.mp h
    exact ⟨hvalid, (Except.ok.inj h).symm⟩
  · rintro ⟨hvalid, rfl⟩
    rw [hvalid]
    rfl

end Reference

/-! ### The index of types -/

namespace TypeIndex

theorem find?_add (index : TypeIndex) (t : TypeEntry) (name : String) :
    (index.add t).find? name =
      (index.find? name).or (if t.fullName = name then some t.id else none) := by
  unfold add
  split_ifs with hsome hname hname
  · -- the name stands for another type already
    subst hname
    obtain ⟨id, hid⟩ := Option.isSome_iff_exists.mp hsome
    rw [hid, Option.some_or]
  · rw [Option.or_none]
  · subst hname
    rw [find?, find?, List.lookup_append, List.lookup_cons_self]
  · rw [find?, find?, List.lookup_append]
    have hne : (name == t.fullName) = false := beq_false_of_ne (Ne.symm hname)
    rw [List.lookup_cons, hne, List.lookup_nil]

/-- A full name stands for the first type that has it. -/
theorem find?_ofAssemblies (as : List AssemblyEntry) (name : String) :
    (ofAssemblies as).find? name =
      ((Assemblies.types as).find? fun t ↦ t.fullName == name).map TypeEntry.id := by
  have hfold (ts : List TypeEntry) (index : TypeIndex) :
      (ts.foldl add index).find? name =
        (index.find? name).or ((ts.find? fun t ↦ t.fullName == name).map TypeEntry.id) := by
    induction ts generalizing index with
    | nil => simp
    | cons t ts ih =>
      rw [List.foldl_cons, ih, find?_add, Option.or_assoc, List.find?_cons]
      by_cases hname : t.fullName = name
      · rw [if_pos hname, beq_iff_eq.mpr hname, Option.some_or, Option.map_some]
      · rw [if_neg hname, beq_false_of_ne hname, Option.none_or]
  exact hfold _ _

/-- The index depends on the outline only. -/
theorem ofAssemblies_congr {as bs : List AssemblyEntry}
    (h : Assemblies.outline as = Assemblies.outline bs) : ofAssemblies as = ofAssemblies bs := by
  have houtline (cs : List AssemblyEntry) :
      ofAssemblies (Assemblies.outline cs) = ofAssemblies cs := by
    rw [ofAssemblies, ofAssemblies, Assemblies.outline, Assemblies.types_mapTypes, List.foldl_map]
    rfl
  rw [← houtline as, h, houtline]

end TypeIndex

end ApiDocs
