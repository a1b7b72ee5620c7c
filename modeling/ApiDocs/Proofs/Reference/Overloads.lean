import ApiDocs.Proofs.Reference.Content
import ApiDocs.Proofs.Reference.Inheritance

/-!
# Overloads in a finished reference

Methods are numbered in the last pass, when the members that have no comment in the end are gone.
The types that this pass meets list their methods in the order of the signatures, since inheritance
changes members one by one and keeps their signatures, and none of their members has a number yet.

## Main results

* `Reference.ordinal_eq_none_of_typeAt?`, `Reference.pairwise_signature_of_typeAt?`: members of
  bound assemblies have no numbers and stand in the order of signatures.
* `Reference.numbersOverloads_of_build`: the numbers of methods in a finished reference.
-/

namespace ApiDocs.Reference

open Assemblies

section

variable {inclusion : Inclusion} {filter : MemberFilter} {inputs : List AssemblyInput}

/-- The members of a bound type were chosen from declared ones and sorted. -/
theorem exists_members_eq_ofList_of_typeAt? {i j : Nat} {t : TypeEntry}
    (ht : t ∈ typeAt? ((boundEntries (bindAll inclusion filter inputs)).map Prod.fst) i j) :
    ∃ (d : TypeDecl) (comments : Comments), t.members = .ofList
      (d.members.filterMap (TypeEntry.chosen? inclusion filter comments t.id d.fullName)) := by
  obtain ⟨a, ha, hslot⟩ := Option.bind_eq_some_iff.mp ht
  obtain ⟨p, hp, rfl⟩ := List.mem_map.mp (List.mem_of_getElem? ha)
  obtain ⟨input, -, -, hbuild⟩ := exists_input_of_mem_boundEntries hp
  obtain ⟨-, -, d, -, -, hmembers⟩ := exists_decl_of_getElem? hbuild hslot
  exact ⟨d, p.2, hmembers⟩

theorem ordinal_eq_none_of_typeAt? {i j : Nat} {t : TypeEntry}
    (ht : t ∈ typeAt? ((boundEntries (bindAll inclusion filter inputs)).map Prod.fst) i j)
    {g : MemberGroup} {m : MemberEntry} (hm : m ∈ t.members.get g) : m.ordinal = none := by
  obtain ⟨d, comments, hmembers⟩ := exists_members_eq_ofList_of_typeAt? ht
  rw [hmembers] at hm
  exact ordinal_of_mem_ofList_chosen? hm

theorem pairwise_signature_of_typeAt? {i j : Nat} {t : TypeEntry}
    (ht : t ∈ typeAt? ((boundEntries (bindAll inclusion filter inputs)).map Prod.fst) i j)
    (g : MemberGroup) : (t.members.get g).Pairwise fun a b ↦ a.signature ≤ b.signature := by
  obtain ⟨d, comments, hmembers⟩ := exists_members_eq_ofList_of_typeAt? ht
  rw [hmembers]
  exact MemberTable.pairwise_get_ofList _ g

/-- The passes leave a type with its methods numbered. -/
theorem numbersOverloads_of_typeAt?_complete (index : TypeIndex) (files : List Comments) {i j : Nat}
    {t : TypeEntry}
    (ht : t ∈ typeAt? (complete inclusion index files
      ((boundEntries (bindAll inclusion filter inputs)).map Prod.fst)) i j)
    (hwords : t.members.methods.length < UInt32.size) : t.NumbersOverloads := by
  obtain ⟨f, hf, hprop⟩ := Inheritance.exists_typeAt?_propagate index files
    ((boundEntries (bindAll inclusion filter inputs)).map Prod.fst) i j
  obtain ⟨t₀, ht₀, u, rfl, -, hget⟩ := exists_numberOverloads_of_complete inclusion hprop ht
  refine TypeEntry.numbersOverloads_numberOverloads ?_ ?_ fun g _ m hm ↦ ?_
  · rwa [← u.length_methods_numberOverloads]
  · -- leaving members out and changing their comments keeps the order of signatures
    rw [show u.members.methods = u.members.get .methods from rfl, hget]
    refine List.Pairwise.filter _ (List.Pairwise.map f (fun a b hab ↦ ?_)
      (pairwise_signature_of_typeAt? ht₀ .methods))
    rwa [hf.signature_eq, hf.signature_eq]
  · rw [hget] at hm
    obtain ⟨m₀, hm₀, rfl⟩ := List.mem_map.mp (List.mem_of_mem_filter hm)
    rw [hf.ordinal_eq]
    exact ordinal_eq_none_of_typeAt? ht₀ hm₀

end

/-- **Overloads of a finished reference.** In every type of a reference, methods that share their
simple name with others are numbered from one on, without gaps and in the order of the signatures'
bytes, and no other member has a number. There must be fewer methods of a type than words to number
them. Numbering changes nothing but the numbers of methods, and numbering a second time changes
nothing. -/
theorem numbersOverloads_of_build {inclusion : Inclusion} {filter : MemberFilter}
    {inputs : List AssemblyInput} {namespaceComments : Option CommentSource} {r : Reference}
    (h : build inclusion filter inputs namespaceComments = .ok r)
    (hmethods : ∀ a ∈ r.assemblies, ∀ t ∈ a.types, t.members.methods.length < UInt32.size) :
    (∀ a ∈ r.assemblies, ∀ t ∈ a.types, t.NumbersOverloads) ∧
      ∀ t : TypeEntry, t.AgreesUpToNumbers t.numberOverloads ∧
        t.numberOverloads.numberOverloads = t.numberOverloads := by
  refine ⟨fun a ha t ht ↦ ?_, fun t ↦
    ⟨t.agreesUpToNumbers_numberOverloads, t.numberOverloads_numberOverloads⟩⟩
  have hwords := hmethods a ha t ht
  obtain ⟨-, rfl⟩ := build_eq_ok_iff.mp h
  obtain ⟨i, hi⟩ := List.getElem?_of_mem ha
  obtain ⟨j, hj⟩ := List.getElem?_of_mem ht
  exact numbersOverloads_of_typeAt?_complete _ _ (Option.bind_eq_some_iff.mpr ⟨a, hi, hj⟩) hwords

/-! ### Overloads with another method between them -/

/-- A pen has four methods with the simple name `Draw`, of which one overrides a method that nobody
knows, a method whose signature stands between theirs, and an operator with two signatures. -/
def penDecl : TypeDecl where
  fullName := "Pen"
  members :=
    [.methodOf "Pen" "Draw" .void,
      ((MemberDecl.methodOf "Pen" "Draw" .void).withParameter "ink" (.named "Ink" []))
        |>.withBaseDefinition (.methodOf "Tool" "Draw" .void),
      (MemberDecl.methodOf "Pen" "Draw" .void).withParameter "line" (.named "Line" []),
      .methodOf "Pen" "Draw1" .void,
      (MemberDecl.methodOf "Pen" "Draw`1" .void).withGenericParameter "T",
      .operatorOf "Pen" "op_Equality" .void,
      (MemberDecl.operatorOf "Pen" "op_Equality" .void).withParameter "pen" (.named "Pen" [])]

/-- All members of pens but the override have comments. -/
def penComments : Comments :=
  .ofList none
    [{ key := "T:Pen" }, { key := "M:Pen.Draw" }, { key := "M:Pen.Draw(Line)" },
      { key := "M:Pen.Draw1" }, { key := "M:Pen.Draw`1``1" }, { key := "M:Pen.op_Equality" },
      { key := "M:Pen.op_Equality(Pen)" }]

/-- The one assembly of pens. -/
def penInputs : List AssemblyInput :=
  [⟨⟨"Pens", .ok [penDecl]⟩, some (.memory penComments)⟩]

/-- The entries of a pen's members as they are first built, in the order of their signatures. -/
def penEntries : List MemberEntry :=
  penDecl.members.filterMap (TypeEntry.chosen? {} .all penComments ⟨⟨0⟩, 0⟩ "Pen")

/-- The assembly of pens as it is bound. -/
def penAssembly : AssemblyEntry where
  id := ⟨0⟩
  name := "Pens"
  types :=
    [{  id := ⟨⟨0⟩, 0⟩
        header := penDecl.toTypeHeader
        comment := some { key := "T:Pen" }
        genericParameters := []
        members := .ofGroups fun g ↦ penEntries.filter fun m ↦ m.decl.group == g }]
  namespaces := [⟨"", [⟨⟨0⟩, 0⟩], none⟩]
  diagnostics := []

theorem boundEntries_penInputs :
    boundEntries (bindAll {} .all penInputs) = [(penAssembly, penComments)] := by
  rw [penAssembly, ← MemberTable.ofList_of_pairwise (by decide +kernel)]
  with_unfolding_all rfl

theorem numbersOverloads_of_build_penInputs :
    ∃ r, build {} .all penInputs none = .ok r ∧
      (Assemblies.types r.assemblies).map
          (fun t ↦ t.members.toList.map fun m ↦ (m.signature, m.overloadIndex)) =
        [[("Draw()", some 1), ("Draw(Line)", some 2), ("Draw1()", none), ("Draw<T>()", some 3),
          ("Equality()", none), ("Equality(Pen)", none)]] ∧
      (∀ a ∈ r.assemblies, ∀ t ∈ a.types, t.NumbersOverloads) ∧
      ∀ t : TypeEntry, t.AgreesUpToNumbers t.numberOverloads ∧
        t.numberOverloads.numberOverloads = t.numberOverloads := by
  set r := ofBindings {} (bindAll {} .all penInputs) none with hr
  have hbuild : build {} .all penInputs none = .ok r :=
    build_eq_ok_iff.mpr ⟨by decide +kernel, hr⟩
  have hassemblies : r.assemblies =
      Inheritance.completeAlong [⟨⟨0⟩, 0⟩] {} [(penAssembly, penComments)] := by
    rw [← boundEntries_penInputs]
    refine Inheritance.assemblies_ofBindings _ _ ?_
    rw [boundEntries_penInputs]
    exact Inheritance.order_eq_of_pairwise (by decide +kernel)
  have hmethods : ∀ a ∈ r.assemblies, ∀ t ∈ a.types,
      t.members.methods.length < UInt32.size := by
    rw [hassemblies]
    decide +kernel
  refine ⟨r, hbuild, ?_, numbersOverloads_of_build hbuild hmethods⟩
  rw [hassemblies]
  decide +kernel

end ApiDocs.Reference
