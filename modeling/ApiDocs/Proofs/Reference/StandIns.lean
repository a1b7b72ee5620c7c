import ApiDocs.Proofs.Reference.Chains

/-!
# Comments on stand-ins

An override is linked to a stand-in for the member it overrides, and the stand-in has the comment
that the file of its own assembly has under its id. When comments are inherited, this comment is the
last one to be considered, after that of the overridden member's entry and those in the files of all
assemblies.

It is never taken. The file of an assembly that was bound is among those that are searched before,
under the same id, and inheriting changes the comments of members but no stand-in. So in every state
of the sweep the search without the stand-in gives the same comment.

## Main definitions

* `MemberTable.mapFirst`: a change of the first members of a table.
* `Inheritance.Sweeping`: the states of the sweep, also those within the turn of a type.
* `Inheritance.inheritedElsewhere?`: the comment that an override takes over, stand-ins apart.

## Main results

* `Inheritance.Sweeping.exists_stemsFrom`: in every state of the sweep, members have the stand-ins
  that they were built with.
* `Inheritance.inherited?_eq_inheritedElsewhere?`: comments on stand-ins are never taken over.
-/

namespace ApiDocs

/-! ### The first members of a table -/

namespace MemberTable

/-- The number of members that are listed before those of a group. -/
def offset (t : MemberTable) : MemberGroup → Nat
  | .constructors => 0
  | .fields => t.constructors.length
  | .properties => t.constructors.length + t.fields.length
  | .methods => t.constructors.length + t.fields.length + t.properties.length
  | .operators => t.constructors.length + t.fields.length + t.properties.length + t.methods.length
  | .events => t.constructors.length + t.fields.length + t.properties.length + t.methods.length +
      t.operators.length

/-- Changes the first members of a list. -/
def mapTake (n : Nat) (change : MemberEntry → MemberEntry) (ms : List MemberEntry) :
    List MemberEntry :=
  (ms.take n).map change ++ ms.drop n

/-- Changes the first members of a table, in the order in which all of them are listed. -/
def mapFirst (n : Nat) (change : MemberEntry → MemberEntry) (t : MemberTable) : MemberTable :=
  ofGroups fun g ↦ mapTake (n - t.offset g) change (t.get g)

theorem mapTake_append (n : Nat) (change : MemberEntry → MemberEntry) (ms ms' : List MemberEntry) :
    mapTake n change (ms ++ ms') = mapTake n change ms ++ mapTake (n - ms.length) change ms' := by
  induction ms generalizing n with
  | nil => simp [mapTake]
  | cons m ms ih =>
    cases n with
    | zero => simp [mapTake]
    | succ n =>
      have hstep (rest : List MemberEntry) :
          mapTake (n + 1) change (m :: rest) = change m :: mapTake n change rest := rfl
      rw [List.cons_append, hstep, hstep, ih, List.length_cons, Nat.add_sub_add_right,
        List.cons_append]

/-- The members that are changed are the first ones of the list of all members. -/
theorem toList_mapFirst (n : Nat) (change : MemberEntry → MemberEntry) (t : MemberTable) :
    (t.mapFirst n change).toList = (t.toList.take n).map change ++ t.toList.drop n := by
  change _ = mapTake n change t.toList
  simp only [toList, mapTake_append, List.length_append]
  rfl

end MemberTable

namespace Inheritance

open Assemblies

section

variable (index : TypeIndex) (files : List Comments) (as : List AssemblyEntry)

/-- A type of which the first members have taken over their comments from the reference as it
stood at the beginning of the turn. -/
def inheritFirst (n : Nat) (t : TypeEntry) : TypeEntry :=
  { t with members := t.members.mapFirst n (inheritMember index files as) }

/-- The states of the sweep: some types have had their turns, and in the turn of the next one some
members have taken over their comments. -/
inductive Sweeping : List AssemblyEntry → Prop
  | between {ids rest : List TypeId} (h : order index as = ids ++ rest) :
      Sweeping (propagateAlong index files ids as)
  | within {ids rest : List TypeId} {id : TypeId} (h : order index as = ids ++ id :: rest)
      (n : Nat) :
      Sweeping (modifyType id (inheritFirst index files (propagateAlong index files ids as) n)
        (propagateAlong index files ids as))

/-- The comment that an override takes over if the one on its stand-in does not count: that of the
overridden member's entry, or one from a documentation file. -/
def inheritedElsewhere? (base : BoundMember) : Option Comment :=
  (builtComment? index as base).filter isUsable <|> filedComment? files base.docId

end

variable {index : TypeIndex} {files : List Comments} {as : List AssemblyEntry}

theorem stemsFrom_inheritFirst (n : Nat) (t : TypeEntry) :
    (inheritFirst index files as n t).StemsFrom t := by
  refine ⟨rfl, fun m hm ↦ ?_⟩
  rw [inheritFirst, MemberTable.toList_mapFirst, List.mem_append] at hm
  rcases hm with hm | hm
  · obtain ⟨m₀, hm₀, rfl⟩ := List.mem_map.mp hm
    exact ⟨m₀, List.mem_of_mem_take hm₀, outline_inheritMember m₀⟩
  · exact ⟨m, List.mem_of_mem_drop hm, rfl⟩

/-- In every state of the sweep, types stem from those there were at its beginning. -/
theorem Sweeping.exists_stemsFrom {state : List AssemblyEntry} (h : Sweeping index files as state)
    {t : TypeEntry} (ht : t ∈ types state) : ∃ t₀ ∈ types as, t.StemsFrom t₀ := by
  cases h with
  | between => exact exists_stemsFrom_of_mem_propagateAlong ht
  | within _ n =>
    obtain ⟨t₁, ht₁, h₁⟩ := exists_stemsFrom_of_mem_modifyType (stemsFrom_inheritFirst n) ht
    obtain ⟨t₀, ht₀, h₀⟩ := exists_stemsFrom_of_mem_propagateAlong ht₁
    exact ⟨t₀, ht₀, h₁.trans h₀⟩

/-- In every state of the sweep, the comments of stand-ins are in the files. -/
theorem CommentsFiled.exists_file_of_sweeping (hfiled : CommentsFiled files as)
    {state : List AssemblyEntry} (h : Sweeping index files as state) {t : TypeEntry}
    (ht : t ∈ types state) {m : MemberEntry} (hm : m ∈ t.members.toList) {base : BoundMember}
    (hbase : m.overrides = some base) : ∃ file ∈ files, base.comment = file.get? base.docId := by
  obtain ⟨t₀, ht₀, hstems⟩ := h.exists_stemsFrom ht
  obtain ⟨m₀, hm₀, houtline⟩ := hstems.2 m hm
  have hover : m.overrides = m₀.overrides := congrArg (fun m ↦ m.overrides) houtline
  exact hfiled.standIn t₀ ht₀ m₀ hm₀ base (hover ▸ hbase)

/-- **Comments on stand-ins are never taken over.** Take the assemblies that binding any inputs
leaves, their comments and any index of types. In every state of the sweep in which comments are
inherited, and for every member that overrides another one, the search gives the comment that it
would give without the stand-in; where that search finds none, the stand-in has none that is
usable. -/
theorem inherited?_eq_inheritedElsewhere? (inclusion : Inclusion) (filter : MemberFilter)
    (inputs : List AssemblyInput) {bound : List (AssemblyEntry × Comments)}
    (hbound : bound = Reference.boundEntries (Reference.bindAll inclusion filter inputs))
    {as : List AssemblyEntry} (has : as = bound.map Prod.fst) {files : List Comments}
    (hfiles : files = bound.map Prod.snd) {index : TypeIndex} {state : List AssemblyEntry}
    (hstate : Sweeping index files as state) {t : TypeEntry} (ht : t ∈ types state)
    {m : MemberEntry} (hm : m ∈ t.members.toList) {base : BoundMember}
    (hbase : m.overrides = some base) :
    inherited? index files state base = inheritedElsewhere? index files state base ∧
      (inheritedElsewhere? index files state base = none →
        base.comment.filter isUsable = none) := by
  have hfile : ∃ file ∈ files, base.comment = file.get? base.docId := by
    subst hbound has hfiles
    exact commentsFiled_boundEntries.exists_file_of_sweeping hstate ht hm hbase
  have heq : inherited? index files state base = inheritedElsewhere? index files state base := by
    rw [inherited?_eq_of_file hfile, inheritedElsewhere?, Option.orElse_eq_orElse,
      Option.orElse_eq_or]
  refine ⟨heq, fun hnone ↦ ?_⟩
  rw [← heq, inherited?, Option.orElse_eq_orElse, Option.orElse_eq_or, Option.orElse_eq_or,
    Option.or_eq_none_iff, Option.or_eq_none_iff] at hnone
  exact hnone.2.2

/-- A comment on the area of circles. -/
def circleArea : Comment :=
  { key := "M:Circle.Area", summary := some "The area." }

/-- Discs are circles, of which nothing is known but the comment in the file about discs. -/
def looseDiscs : List AssemblyInput :=
  [⟨⟨"Discs", .ok [shapeDecl "Disc" (some "Circle")]⟩, some (.memory (.ofList none [circleArea]))⟩]

/-- The discs as they are bound. -/
def boundDiscs : List (AssemblyEntry × Comments) :=
  Reference.boundEntries (Reference.bindAll .publicSurface .all looseDiscs)

/-- The discs after the only member has had its turn. -/
def sweptDiscs : List AssemblyEntry :=
  modifyType ⟨⟨0⟩, 0⟩ (inheritFirst (TypeIndex.ofAssemblies (boundDiscs.map Prod.fst))
    (boundDiscs.map Prod.snd) (boundDiscs.map Prod.fst) 1) (boundDiscs.map Prod.fst)

theorem sweeping_sweptDiscs : Sweeping (TypeIndex.ofAssemblies (boundDiscs.map Prod.fst))
    (boundDiscs.map Prod.snd) (boundDiscs.map Prod.fst) sweptDiscs := by
  have hdepths : ((types (boundDiscs.map Prod.fst)).map fun t ↦
      (baseDepth (TypeIndex.ofAssemblies (boundDiscs.map Prod.fst)) (boundDiscs.map Prod.fst) t,
        t.id)) = [(0, ⟨⟨0⟩, 0⟩)] := by
    decide +kernel
  have horder : order (TypeIndex.ofAssemblies (boundDiscs.map Prod.fst))
      (boundDiscs.map Prod.fst) = [] ++ ⟨⟨0⟩, 0⟩ :: [] := by
    rw [order, hdepths, List.mergeSort_singleton]
    rfl
  exact .within horder 1

theorem inherited?_eq_inheritedElsewhere?_sweptDiscs :
    Sweeping (TypeIndex.ofAssemblies (boundDiscs.map Prod.fst)) (boundDiscs.map Prod.snd)
      (boundDiscs.map Prod.fst) sweptDiscs ∧
    ∃ t ∈ types sweptDiscs, ∃ m ∈ t.members.toList, ∃ base ∈ m.overrides,
      base.comment = some circleArea ∧
      inheritedElsewhere? (TypeIndex.ofAssemblies (boundDiscs.map Prod.fst))
        (boundDiscs.map Prod.snd) sweptDiscs base = some circleArea ∧
      inherited? (TypeIndex.ofAssemblies (boundDiscs.map Prod.fst)) (boundDiscs.map Prod.snd)
        sweptDiscs base =
          inheritedElsewhere? (TypeIndex.ofAssemblies (boundDiscs.map Prod.fst))
            (boundDiscs.map Prod.snd) sweptDiscs base := by
  have hdisc : ∃ t ∈ types sweptDiscs, ∃ m ∈ t.members.toList, ∃ base ∈ m.overrides,
      base.comment = some circleArea ∧
      inheritedElsewhere? (TypeIndex.ofAssemblies (boundDiscs.map Prod.fst))
        (boundDiscs.map Prod.snd) sweptDiscs base = some circleArea := by
    decide +kernel
  obtain ⟨t, ht, m, hm, base, hbase, hcomment, helsewhere⟩ := hdisc
  exact ⟨sweeping_sweptDiscs, t, ht, m, hm, base, hbase, hcomment, helsewhere,
    (inherited?_eq_inheritedElsewhere? .publicSurface .all looseDiscs rfl rfl rfl
      sweeping_sweptDiscs ht hm hbase).1⟩

end Inheritance

end ApiDocs
