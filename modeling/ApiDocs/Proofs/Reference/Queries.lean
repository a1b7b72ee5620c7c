import ApiDocs.Decl.Assemble
import ApiDocs.Proofs.Entry.Namespaces
import ApiDocs.Proofs.Reference.Inheritance
import ApiDocs.Proofs.Reference.Integrity

/-!
# Lookups in a finished reference

Assemblies and namespaces are searched by halving, types by the slot that their identifiers name,
and full names in an index that was made before the passes over several assemblies. Whoever asks
sees none of this: every lookup answers as if the entries were gone through one by one.

## Main definitions

* `Reference.LooksUp`: the lookups of a reference are searches from the front.

## Main results

* `Search.find?_eq_find?`: halving finds what a search from the front finds.
* `Assemblies.Addressed.type?_eq_find?`: the slot of an identifier holds the type that has it.
* `Assemblies.Addressed.type?_eq_find?_fullName`: an index outlives the passes.
* `Reference.looksUp_of_build`: the lookups of every reference that is built.
-/

namespace ApiDocs

/-- In an ordered list, halving finds what a search from the front finds. -/
theorem Search.find?_eq_find? {α κ : Type} [BEq κ] [LawfulBEq κ] (key : α → κ) {k : κ}
    {rank : α → Ordering} (hrank : ∀ x, rank x = .eq ↔ key x = k) {xs : List α}
    (h : Ranked rank xs) : Search.find? rank xs = xs.find? fun x ↦ key x == k := by
  refine eq_find?_of_eq_some_iff fun x ↦ ?_
  rw [find?_eq_some_iff h, hrank, beq_iff_eq]

/-! ### Types -/

namespace Assemblies.Addressed

variable {as : List AssemblyEntry} (h : Addressed as)

include h

/-- The slot that an identifier names holds the type that has the identifier. -/
theorem type?_eq_find? (id : TypeId) : type? as id = (types as).find? fun t ↦ t.id == id := by
  refine eq_find?_of_eq_some_iff fun t ↦ ?_
  rw [h.type?_eq_some_iff, beq_iff_eq]

/-- The index of assemblies finds the first type of a name also in what the passes make of them. -/
theorem type?_eq_find?_fullName {bs : List AssemblyEntry} (heq : outline as = outline bs)
    (name : String) :
    (TypeIndex.ofAssemblies bs).type? as name =
      (types as).find? fun t ↦ t.fullName == name := by
  rw [← TypeIndex.ofAssemblies_congr heq, TypeIndex.type?, TypeIndex.find?_ofAssemblies]
  cases hfind : (types as).find? fun t ↦ t.fullName == name with
  | none => rfl
  | some t => exact h.type?_id (List.mem_of_find?_eq_some hfind)

end Assemblies.Addressed

/-! ### Namespaces -/

/-- Namespaces in the order of their names are ranked by any name. -/
theorem NamespaceEntry.ranked_of_pairwise {ns : List NamespaceEntry}
    (h : ns.Pairwise fun m n ↦ Text.bytes m.name < Text.bytes n.name) (name : String) :
    Search.Ranked (fun n ↦ compareOfLessAndEq n.name name) ns := by
  refine h.imp fun {m n} hmn ↦ ?_
  rw [Text.bytes_lt_bytes_iff] at hmn
  rcases lt_or_ge m.name name with hlt | hle
  · exact Or.inl (if_pos hlt)
  · have hgt : name < n.name := lt_of_le_of_lt hle hmn
    exact Or.inr ((if_neg hgt.not_gt).trans (if_neg hgt.ne'))

theorem NamespaceEntry.pairwise_merge (as : List AssemblyEntry) (comments : Option Comments) :
    (merge as comments).Pairwise fun m n ↦ Text.bytes m.name < Text.bytes n.name :=
  List.pairwise_map.mpr (AssemblyEntry.pairwise_sortedNames _)

/-! ### The whole reference -/

namespace Reference

/-- The lookups of a reference are searches from the front. Identifiers and the names of namespaces
occur once, so that they stand for the one entry that has them. -/
structure LooksUp (r : Reference) : Prop where
  assembly : ∀ id, r.assembly? id = r.assemblies.find? fun a ↦ a.id == id
  assemblyOnce : (r.assemblies.map AssemblyEntry.id).Nodup
  type : ∀ id, r.type? id = (Assemblies.types r.assemblies).find? fun t ↦ t.id == id
  typeOnce : ((Assemblies.types r.assemblies).map TypeEntry.id).Nodup
  namespaceNamed : ∀ name, r.namespace? name = r.namespaces.find? fun n ↦ n.name == name
  namespaceOnce : (r.namespaces.map NamespaceEntry.name).Nodup
  /-- Types of the same full name may occur in several assemblies: the first one is found. -/
  typeNamed : ∀ name,
    r.findType? name = (Assemblies.types r.assemblies).find? fun t ↦ t.fullName == name
  /-- Types are gone through by assembly and slot. -/
  inOrder : (Assemblies.types r.assemblies).Pairwise fun t u ↦ t.id.ComesBefore u.id

/-- **Every lookup in a finished reference answers as a search from the front.** There must be words
enough to number the assemblies and the types of each assembly. -/
theorem looksUp_of_build {inclusion : Inclusion} {filter : MemberFilter}
    {inputs : List AssemblyInput} {namespaceComments : Option CommentSource} {r : Reference}
    (h : build inclusion filter inputs namespaceComments = .ok r)
    (hinputs : inputs.length ≤ UInt32.size)
    (htypes : ∀ a ∈ r.assemblies, a.types.length ≤ UInt32.size) : r.LooksUp := by
  obtain ⟨-, hr⟩ := build_eq_ok_iff.mp h
  have hbound : IsBound (boundEntries (bindAll inclusion filter inputs)) :=
    isBound_boundEntries hinputs fun p hp ↦ length_types_of_mem_boundEntries (hr ▸ htypes) hp
  have houtline : Assemblies.outline r.assemblies =
      Assemblies.outline ((boundEntries (bindAll inclusion filter inputs)).map Prod.fst) :=
    hr ▸ outline_ofBindings inclusion _ namespaceComments
  have haddr : Assemblies.Addressed r.assemblies := hbound.addressed.of_outline_eq houtline
  have hindex : r.index =
      TypeIndex.ofAssemblies ((boundEntries (bindAll inclusion filter inputs)).map Prod.fst) := by
    rw [hr]
    rfl
  have hnames : r.namespaces.Pairwise fun m n ↦ Text.bytes m.name < Text.bytes n.name := by
    rw [hr]
    exact NamespaceEntry.pairwise_merge _ _
  exact {
    assembly := fun id ↦ Search.find?_eq_find? AssemblyEntry.id
      (fun _ ↦ AssemblyId.cmp_eq_eq_iff) (Assemblies.ranked_of_increasing haddr.increasing id)
    assemblyOnce := by
      rw [List.Nodup, List.pairwise_map]
      refine haddr.increasing.imp fun {a b} hab heq ↦ ?_
      rw [heq] at hab
      exact UInt32.lt_irrefl _ hab
    type := haddr.type?_eq_find?
    typeOnce := haddr.nodup_map_id
    namespaceNamed := fun name ↦ Search.find?_eq_find? NamespaceEntry.name
      (fun _ ↦ compareOfLessAndEq_eq_eq String.le_refl String.not_le)
      (NamespaceEntry.ranked_of_pairwise hnames name)
    namespaceOnce := by
      rw [List.Nodup, List.pairwise_map]
      exact hnames.imp fun {m n} hmn ↦ ne_of_lt ((Text.bytes_lt_bytes_iff _ _).mp hmn)
    typeNamed := fun name ↦ by
      rw [findType?, hindex]
      exact haddr.type?_eq_find?_fullName houtline name
    inOrder := haddr.pairwise_types }

/-! ### A name in two assemblies -/

/-- Between two assemblies that declare a type of the same name, one that cannot be read. -/
def lampInputs : List AssemblyInput :=
  [⟨⟨"Lamps", .ok [.classNamed "Light.Lamp"]⟩, none⟩,
    ⟨⟨"Lost", .error (.unreadable "no such file")⟩, none⟩,
    ⟨⟨"Torches", .ok [.classNamed "Light.Torch", .classNamed "Light.Lamp"]⟩, none⟩]

/-- The assemblies of lamps and torches as they are bound. -/
def lamps : List (AssemblyEntry × Comments) :=
  boundEntries (bindAll .publicSurface .all lampInputs)

theorem looksUp_of_build_lampInputs :
    ∃ r, build .publicSurface .all lampInputs none = .ok r ∧ r.LooksUp ∧
      (Assemblies.types r.assemblies).map (fun t ↦ (t.id, t.fullName)) =
        [(⟨⟨0⟩, 0⟩, "Light.Lamp"), (⟨⟨2⟩, 0⟩, "Light.Torch"), (⟨⟨2⟩, 1⟩, "Light.Lamp")] ∧
      (r.findType? "Light.Lamp").map TypeEntry.id = some ⟨⟨0⟩, 0⟩ ∧
      r.assembly? ⟨1⟩ = none ∧ r.type? ⟨⟨2⟩, 2⟩ = none := by
  set r := ofBindings .publicSurface (bindAll .publicSurface .all lampInputs) none with hr
  have hbuild : build .publicSurface .all lampInputs none = .ok r :=
    build_eq_ok_iff.mpr ⟨by decide +kernel, hr⟩
  have hassemblies : r.assemblies = Inheritance.completeAlong _ .publicSurface lamps :=
    Inheritance.assemblies_ofBindings _ _ (Inheritance.order_eq_of_pairwise (by decide +kernel))
  have hlooks : r.LooksUp := by
    refine looksUp_of_build hbuild (by decide) ?_
    rw [hassemblies]
    decide +kernel
  refine ⟨r, hbuild, hlooks, ?_⟩
  rw [hlooks.typeNamed, hlooks.assembly, hlooks.type, hassemblies]
  decide +kernel

end Reference

end ApiDocs
