import ApiDocs.Proofs.Entry.Filtering
import ApiDocs.Proofs.Reference.Sweep

/-!
# References under a filter

The filter of the caller is asked when the entries of the members are built, before comments are
inherited. So a filter that always answers leaves all but the members of types as they are: the
types, the namespaces, the index and the diagnostics. Of the members it takes away those that it
rejects, but it may take more, because an override looks for a comment at the entries of another
type. If the filter has taken the entry away, the override looks in the files only.

The sweep that hands comments on is followed without the filter and with it, side by side. Turn
after turn, the two agree about every member from which a chain of overrides leads only to entries
that the filter accepts, to entries that are not there in either case, or to rejected ones with a
comment that the files have first as well. A chain may be endless, so these members are the largest
set that is closed under the links of its members.

## Main definitions

* `Inheritance.LinkKept`, `Inheritance.LeftAlone`: a filter leaves alone what an override leads to,
  and what a member may inherit from.
* `Inheritance.Agrees`: two states of the sweep agree.
* `Reference.FiltersAt`: what a filter does to the members of a type.
* `Reference.Disturbs`: a filter takes away or changes a member that it accepts.

## Main results

* `Reference.bindAll_ofBool`: inputs that are bound under a filter.
* `Inheritance.Agrees.modifyType`, `Inheritance.exists_agrees_propagateAlong`: a turn of the sweep,
  and all turns, keep the agreement.
* `Reference.filters_of_build`: a reference under a filter.
* `Reference.disturbs_public`: filters that take away more than they reject.
-/

namespace ApiDocs

open Assemblies

/-! ### What depends on the outline only -/

theorem TypeIndex.type?_mapTypes (index : TypeIndex) (f : TypeEntry → TypeEntry)
    (as : List AssemblyEntry) (name : String) :
    index.type? (mapTypes f as) name = (index.type? as name).map f := by
  rw [TypeIndex.type?, TypeIndex.type?, Option.map_bind]
  exact congrArg (Option.bind _) (funext fun id ↦ Assemblies.type?_mapTypes f as id)

namespace Inheritance

theorem climb_outline (index : TypeIndex) (as : List AssemblyEntry) (steps : Nat)
    (name : Option String) : climb index (outline as) steps name = climb index as steps name := by
  induction steps generalizing name with
  | zero =>
    cases name with
    | none => rfl
    | some name =>
      rw [climb, climb, outline, TypeIndex.type?_mapTypes]
      cases index.type? as name <;> rfl
  | succ steps ih =>
    cases name with
    | none => rfl
    | some name =>
      rw [climb, climb, outline, TypeIndex.type?_mapTypes]
      cases index.type? as name with
      | none => rfl
      | some t => exact congrArg (· + 1) (ih t.header.baseName?)

/-- The order of the sweep depends on the outline only. -/
theorem order_outline (index : TypeIndex) (as : List AssemblyEntry) :
    order index (outline as) = order index as := by
  have hdepths : ((types (outline as)).map fun t ↦ (baseDepth index (outline as) t, t.id)) =
      (types as).map fun t ↦ (baseDepth index as t, t.id) := by
    simp only [baseDepth, climb_outline]
    rw [outline, types_mapTypes, List.map_map]
    rfl
  rw [order, order, hdepths]

end Inheritance

/-- The namespaces depend on the outline only. -/
theorem NamespaceEntry.merge_outline (as : List AssemblyEntry) (comments : Option Comments) :
    merge (outline as) comments = merge as comments := by
  have hparts : (outline as).flatMap AssemblyEntry.namespaces =
      as.flatMap AssemblyEntry.namespaces := by
    rw [outline, mapTypes, List.flatMap_map]
  have hnames : byTypeName (outline as) = byTypeName as := by
    funext a b
    simp only [byTypeName, outline, type?_mapTypes, Option.map_map]
    rfl
  simp only [merge, mergeParts, hparts, hnames]

/-- A filter keeps the outline. -/
theorem Assemblies.outline_keepMembers (accepts : MemberEntry → Bool) (as : List AssemblyEntry) :
    outline (mapTypes (TypeEntry.keepMembers accepts) as) = outline as := by
  have hkeep (t : TypeEntry) : (t.keepMembers accepts).outline = t.outline := rfl
  exact outline_mapTypes hkeep as

theorem Assemblies.exists_typeAt?_of_outline_eq {as bs : List AssemblyEntry}
    (h : outline bs = outline as) {i j : Nat} {t : TypeEntry} (ht : typeAt? as i j = some t) :
    ∃ t', typeAt? bs i j = some t' := by
  have htypes := congrArg (typeAt? · i j) h
  simp only [outline, typeAt?_mapTypes, ht, Option.map_some] at htypes
  obtain ⟨t', ht', -⟩ := Option.map_eq_some_iff.mp htypes
  exact ⟨t', ht'⟩

/-! ### Binding -/

/-- What comes of an input, without the members that a condition rejects. -/
def Binding.keepMembers (accepts : MemberEntry → Bool) (b : Binding) : Binding :=
  { b with entry := b.entry.map (AssemblyEntry.keepMembers accepts) }

/-- An input that is bound under a filter. -/
theorem AssemblyInput.bind_ofBool (accepts : MemberEntry → Bool) (inclusion : Inclusion)
    (id : AssemblyId) (input : AssemblyInput) :
    input.bind inclusion (.ofBool accepts) id =
      (input.bind inclusion .all id).keepMembers accepts := by
  simp only [AssemblyInput.bind, AssemblyEntry.build_ofBool]
  cases AssemblyEntry.build inclusion .all id input.source
    ((CommentSource.loadAny (some input.source.name) input.comments).1.getD .empty) <;> rfl

namespace Reference

variable (accepts : MemberEntry → Bool) (inclusion : Inclusion) (inputs : List AssemblyInput)

theorem bindAll_ofBool :
    bindAll inclusion (.ofBool accepts) inputs =
      (bindAll inclusion .all inputs).map (Binding.keepMembers accepts) := by
  rw [bindAll, bindAll, List.map_map]
  exact List.map_congr_left fun p _ ↦ AssemblyInput.bind_ofBool accepts inclusion _ p.1

/-- The same assemblies are bound, with the same comments. -/
theorem boundEntries_ofBool :
    boundEntries (bindAll inclusion (.ofBool accepts) inputs) =
      (boundEntries (bindAll inclusion .all inputs)).map
        (Prod.map (AssemblyEntry.keepMembers accepts) id) := by
  rw [bindAll_ofBool, boundEntries, boundEntries, List.filterMap_map, List.map_filterMap]
  refine congrArg (List.filterMap · _) (funext fun b ↦ ?_)
  simp only [Function.comp_apply, Binding.keepMembers, Option.map_map]
  rfl

theorem map_fst_boundEntries_ofBool :
    (boundEntries (bindAll inclusion (.ofBool accepts) inputs)).map Prod.fst =
      mapTypes (TypeEntry.keepMembers accepts)
        ((boundEntries (bindAll inclusion .all inputs)).map Prod.fst) := by
  rw [boundEntries_ofBool, mapTypes, List.map_map, List.map_map]
  rfl

theorem map_snd_boundEntries_ofBool :
    (boundEntries (bindAll inclusion (.ofBool accepts) inputs)).map Prod.snd =
      (boundEntries (bindAll inclusion .all inputs)).map Prod.snd := by
  rw [boundEntries_ofBool, List.map_map]
  rfl

end Reference

/-! ### What members look at -/

namespace Inheritance

variable (index : TypeIndex) (files : List Comments) (as : List AssemblyEntry)

/-- A member that has a comment of its own or overrides nothing. -/
def Settled (m : MemberEntry) : Prop :=
  isWanting m.comment = true → m.overrides = none

/-- A filter leaves what an override leads to as it is, given which members it leaves alone. Either
there is no such entry; or the entry is accepted and left alone; or all entries with its id are
rejected, but the entry is settled and its comment, if usable, is found in the files as well. -/
inductive LinkKept (accepts : MemberEntry → Bool) (alone : Nat × Nat → MemberEntry → Prop)
    (base : BoundMember) : Prop
  | absent (h : overriddenAt? index as base = none)
  | accepted {q : Nat × Nat} {b : MemberEntry} (h : overriddenAt? index as base = some (q, b))
      (hb : accepts b = true) (halone : alone q b)
  | rejected {q : Nat × Nat} {b : MemberEntry} (h : overriddenAt? index as base = some (q, b))
      (hb : Settled b) (hnone : ∀ m ∈ membersAt as q, m.docId = base.docId → accepts m = false)
      (hfiled : (b.comment.filter isUsable).or (filedComment? files base.docId) =
        filedComment? files base.docId)

/-- The members of a set look only at entries that a filter leaves as they are. -/
def Closed (accepts : MemberEntry → Bool) (alone : Nat × Nat → MemberEntry → Prop) : Prop :=
  ∀ q m, alone q m → isWanting m.comment = true → ∀ base, m.overrides = some base →
    LinkKept index files as accepts alone base

/-- A filter leaves a member alone, and all that a chain of overrides leads to from it. The chain
ends at a settled member or in a file, or it is endless; so this is the largest closed set. -/
def LeftAlone (accepts : MemberEntry → Bool) (q : Nat × Nat) (m : MemberEntry) : Prop :=
  ∃ alone, Closed index files as accepts alone ∧ alone q m

variable {index files as} {accepts : MemberEntry → Bool}

theorem closed_leftAlone : Closed index files as accepts (LeftAlone index files as accepts) := by
  rintro q m ⟨alone, hclosed, hm⟩ hwanting base hbase
  cases hclosed q m hm hwanting base hbase with
  | absent h => exact .absent h
  | accepted h hb halone => exact .accepted h hb ⟨alone, hclosed, halone⟩
  | rejected h hb hnone hfiled => exact .rejected h hb hnone hfiled

/-! ### Two sweeps side by side -/

theorem inheritMember_of_settled {bs : List AssemblyEntry} {m : MemberEntry} (h : Settled m) :
    inheritMember index files bs m = m := by
  unfold inheritMember
  split_ifs with hwanting
  · rw [h hwanting]
    rfl
  · rfl

/-- What a member takes over depends only on what it finds. -/
theorem inheritMember_eq_of_inherited?_eq {bs bs' : List AssemblyEntry} {m : MemberEntry}
    (h : ∀ base, m.overrides = some base →
      inherited? index files bs' base = inherited? index files bs base) :
    inheritMember index files bs' m = inheritMember index files bs m := by
  unfold inheritMember
  cases hbase : m.overrides with
  | none => rfl
  | some base => rw [Option.bind_some, Option.bind_some, h base hbase]

/-- Two states of the sweep agree about the members that a filter leaves alone, and the first has
not changed settled members. -/
structure Agrees (alone : Nat × Nat → MemberEntry → Prop)
    (g g' : Nat × Nat → MemberEntry → MemberEntry) : Prop where
  eq : ∀ q m, alone q m → g' q m = g q m
  settled : ∀ q m, Settled m → g q m = m

section

variable {alone : Nat × Nat → MemberEntry → Prop} {bs bs' : List AssemblyEntry}
  {g g' : Nat × Nat → MemberEntry → MemberEntry}

theorem membersAt_keepMembers (accepts : MemberEntry → Bool) (as : List AssemblyEntry)
    (q : Nat × Nat) :
    membersAt (mapTypes (TypeEntry.keepMembers accepts) as) q =
      (membersAt as q).filter accepts := by
  rw [membersAt, membersAt, typeAt?_mapTypes]
  cases typeAt? as q.1 q.2 with
  | none => rfl
  | some t => exact MemberTable.toList_mapGroups_filter accepts t.members

theorem overriddenAt?_keepMembers (accepts : MemberEntry → Bool) (index : TypeIndex)
    (as : List AssemblyEntry) (base : BoundMember) :
    overriddenAt? index (mapTypes (TypeEntry.keepMembers accepts) as) base =
      (place? index as base.decl.declaringType).bind fun q ↦
        ((membersAt as q).find? fun m ↦ accepts m && m.docId == base.docId).map (Prod.mk q) := by
  rw [overriddenAt?, place?_congr (map_id_eq_of_outline_eq (outline_keepMembers accepts as))]
  simp only [membersAt_keepMembers, List.find?_filter, Bool.decide_and, Bool.decide_eq_true]

theorem exists_of_overriddenAt? {base : BoundMember} {q : Nat × Nat} {b : MemberEntry}
    (h : overriddenAt? index as base = some (q, b)) :
    place? index as base.decl.declaringType = some q ∧
      ((membersAt as q).find? fun m ↦ m.docId == base.docId) = some b := by
  obtain ⟨q', hplace, hmap⟩ := Option.bind_eq_some_iff.mp h
  obtain ⟨b', hfind, heq⟩ := Option.map_eq_some_iff.mp hmap
  obtain ⟨rfl, rfl⟩ := Prod.mk.inj heq
  exact ⟨hplace, hfind⟩

theorem overriddenAt?_keepMembers_of_none {base : BoundMember}
    (h : overriddenAt? index as base = none) :
    overriddenAt? index (mapTypes (TypeEntry.keepMembers accepts) as) base = none := by
  rw [overriddenAt?_keepMembers]
  refine Option.bind_eq_none_iff.mpr fun q hq ↦ ?_
  have hfind := Option.bind_eq_none_iff.mp h q hq
  rw [Option.map_eq_none_iff, List.find?_eq_none] at hfind ⊢
  exact fun m hm hboth ↦ hfind m hm (Bool.and_eq_true_iff.mp hboth).2

/-- An accepted entry to which an override leads is still the first of its id. -/
theorem overriddenAt?_keepMembers_of_accepts {base : BoundMember} {q : Nat × Nat} {b : MemberEntry}
    (h : overriddenAt? index as base = some (q, b)) (hb : accepts b = true) :
    overriddenAt? index (mapTypes (TypeEntry.keepMembers accepts) as) base = some (q, b) := by
  obtain ⟨hplace, hfind⟩ := exists_of_overriddenAt? h
  obtain ⟨hid, before, after, hsplit, hbefore⟩ := List.find?_eq_some_iff_append.mp hfind
  have hfind' : ((membersAt as q).find? fun m ↦ accepts m && m.docId == base.docId) = some b := by
    refine List.find?_eq_some_iff_append.mpr ⟨?_, before, after, hsplit, fun m hm ↦ ?_⟩
    · rw [hb, hid, Bool.and_self]
    · rw [Bool.not_and, hbefore m hm, Bool.or_true]
  rw [overriddenAt?_keepMembers, hplace, Option.bind_some, hfind', Option.map_some]

theorem overriddenAt?_keepMembers_of_rejects {base : BoundMember} {q : Nat × Nat} {b : MemberEntry}
    (h : overriddenAt? index as base = some (q, b))
    (hnone : ∀ m ∈ membersAt as q, m.docId = base.docId → accepts m = false) :
    overriddenAt? index (mapTypes (TypeEntry.keepMembers accepts) as) base = none := by
  have hfind : ((membersAt as q).find? fun m ↦ accepts m && m.docId == base.docId) = none := by
    refine List.find?_eq_none.mpr fun m hm hboth ↦ ?_
    obtain ⟨haccepts, hid⟩ := Bool.and_eq_true_iff.mp hboth
    exact Bool.false_ne_true ((hnone m hm (eq_of_beq hid)).symm.trans haccepts)
  rw [overriddenAt?_keepMembers, (exists_of_overriddenAt? h).1, Option.bind_some, hfind,
    Option.map_none]

/-- An override finds the same comment in both states, if the filter leaves alone what it leads
to. -/
theorem inherited?_eq_of_linkKept {base : BoundMember}
    (h : LinkKept index files as accepts alone base) (hbs : Sweeps as bs g)
    (hbs' : Sweeps (mapTypes (TypeEntry.keepMembers accepts) as) bs' g')
    (hagree : Agrees alone g g') :
    inherited? index files bs' base = inherited? index files bs base := by
  simp only [inherited?, builtComment?_eq, hbs.overridden?_eq, hbs'.overridden?_eq]
  cases h with
  | absent h => rw [h, overriddenAt?_keepMembers_of_none h, Option.map_none, Option.map_none]
  | accepted h hb halone =>
    rw [h, overriddenAt?_keepMembers_of_accepts h hb, Option.map_some, Option.map_some,
      hagree.eq _ _ halone]
  | rejected h hb hnone hfiled =>
    rw [h, overriddenAt?_keepMembers_of_rejects h hnone, Option.map_none, Option.map_some,
      hagree.settled _ _ hb]
    simp only [Option.bind_none, Option.bind_some, Option.filter_none, Option.orElse_eq_orElse,
      Option.orElse_eq_or, Option.none_or]
    rw [← Option.or_assoc, hfiled]

/-- A turn of the sweep in both states. -/
theorem Agrees.modifyType (hagree : Agrees alone g g')
    (hclosed : Closed index files as accepts alone)
    (hbs : Sweeps as bs g) (hbs' : Sweeps (mapTypes (TypeEntry.keepMembers accepts) as) bs' g')
    (turn : Nat × Nat → Prop) [DecidablePred turn] :
    Agrees alone (fun q ↦ if turn q then inheritMember index files bs ∘ g q else g q)
      fun q ↦ if turn q then inheritMember index files bs' ∘ g' q else g' q := by
  constructor
  · intro q m hm
    -- A settled member never changes. Any other one looks at the entry that it looked at when it
    -- was built, whatever its comment is by now, because the sweep keeps overrides.
    have hmember : inheritMember index files bs' (g q m) =
        inheritMember index files bs (g q m) := by
      by_cases hsettled : Settled m
      · rw [hagree.settled q m hsettled, inheritMember_of_settled hsettled,
          inheritMember_of_settled hsettled]
      · obtain ⟨hwanting, -⟩ := Classical.not_imp.mp hsettled
        refine inheritMember_eq_of_inherited?_eq fun base hbase ↦ ?_
        have hoverrides : (g q m).overrides = m.overrides :=
          congrArg (fun m ↦ m.overrides) ((hbs.changes q).outline_eq m)
        exact inherited?_eq_of_linkKept (hclosed q m hm hwanting base (hoverrides ▸ hbase)) hbs hbs'
          hagree
    split_ifs
    · rw [Function.comp_apply, Function.comp_apply, hagree.eq q m hm, hmember]
    · exact hagree.eq q m hm
  · intro q m hm
    split_ifs
    · rw [Function.comp_apply, hagree.settled q m hm, inheritMember_of_settled hm]
    · exact hagree.settled q m hm

/-- The sweep in both states. -/
theorem exists_agrees_propagateAlong (hclosed : Closed index files as accepts alone)
    (ids : List TypeId) (hbs : Sweeps as bs g)
    (hbs' : Sweeps (mapTypes (TypeEntry.keepMembers accepts) as) bs' g')
    (hagree : Agrees alone g g') :
    ∃ f f', Sweeps as (propagateAlong index files ids bs) f ∧
      Sweeps (mapTypes (TypeEntry.keepMembers accepts) as) (propagateAlong index files ids bs') f' ∧
      Agrees alone f f' := by
  induction ids generalizing bs bs' g g' with
  | nil => exact ⟨g, g', hbs, hbs', hagree⟩
  | cons id ids ih =>
    have hturn' := hbs'.modifyType index files id
    rw [position?_congr (map_id_eq_of_outline_eq (outline_keepMembers accepts as))] at hturn'
    exact ih (hbs.modifyType index files id) hturn' (hagree.modifyType hclosed hbs hbs' _)

end

theorem order_keepMembers (index : TypeIndex) (as : List AssemblyEntry)
    (accepts : MemberEntry → Bool) :
    order index (mapTypes (TypeEntry.keepMembers accepts) as) = order index as := by
  rw [← order_outline, outline_keepMembers, order_outline]

/-- The sweep without a filter and with one make the same of all members that the filter leaves
alone. -/
theorem exists_agrees_propagate (index : TypeIndex) (files : List Comments)
    (as : List AssemblyEntry) (accepts : MemberEntry → Bool) :
    ∃ f f', Sweeps as (propagate index files as) f ∧
      Sweeps (mapTypes (TypeEntry.keepMembers accepts) as)
        (propagate index files (mapTypes (TypeEntry.keepMembers accepts) as)) f' ∧
      Agrees (LeftAlone index files as accepts) f f' := by
  rw [propagate, propagate, order_keepMembers]
  exact exists_agrees_propagateAlong closed_leftAlone (order index as) (sweeps_self as)
    (sweeps_self _) ⟨fun _ _ _ ↦ rfl, fun _ _ _ ↦ rfl⟩

end Inheritance

namespace Reference

open Inheritance

/-- What a filter does to the members of the type in a place, given the assemblies as they are bound
without the filter and with it. The type is built as `t₀` without the filter, and finished as `t`
without the filter and as `t'` with it. Without the filter it shows all members that have a comment
in the end, or all if undocumented members are asked for; with the filter it shows those of the
accepted ones. The final entry of an accepted member is the same if the filter leaves it alone. -/
structure FiltersAt (accepts : MemberEntry → Bool) (inclusion : Inclusion)
    (bound bound' : List (AssemblyEntry × Comments)) (i j : Nat) (t₀ t t' : TypeEntry)
    (final final' : MemberEntry → MemberEntry) : Prop where
  typeAt?_eq : typeAt? (bound.map Prod.fst) i j = some t₀
  inherits : Inherits bound i j final
  inherits' : Inherits bound' i j final'
  members_eq : ∀ g, (t.members.get g).map MemberEntry.unnumbered =
    (((t₀.members.get g).map final).filter fun m ↦
      m.comment.isSome || inclusion.undocumentedMembers).map MemberEntry.unnumbered
  members_eq' : ∀ g, (t'.members.get g).map MemberEntry.unnumbered =
    ((((t₀.members.get g).filter accepts).map final').filter fun m ↦
      m.comment.isSome || inclusion.undocumentedMembers).map MemberEntry.unnumbered
  final_eq : ∀ m ∈ t₀.members.toList, accepts m = true →
    LeftAlone (TypeIndex.ofAssemblies (bound.map Prod.fst)) (bound.map Prod.snd)
      (bound.map Prod.fst) accepts (i, j) m →
    final' m = final m

/-- What inheritance makes of the members of a type, in terms of the sweep. -/
theorem inherits_of_sweeps {bound : List (AssemblyEntry × Comments)}
    {g : Nat × Nat → MemberEntry → MemberEntry}
    (h : Sweeps (bound.map Prod.fst) (propagate (TypeIndex.ofAssemblies (bound.map Prod.fst))
      (bound.map Prod.snd) (bound.map Prod.fst)) g)
    {i j : Nat} {t : TypeEntry} (ht : typeAt? (bound.map Prod.fst) i j = some t) :
    Inherits bound i j (g (i, j)) := by
  refine ⟨h.changes (i, j), t, ht, ?_⟩
  rw [h.typeAt?_eq (i, j), ht, Option.map_some]

section

variable {accepts : MemberEntry → Bool} {bound bound' : List (AssemblyEntry × Comments)}
  (hfst : bound'.map Prod.fst = mapTypes (TypeEntry.keepMembers accepts) (bound.map Prod.fst))
  (hsnd : bound'.map Prod.snd = bound.map Prod.snd)

include hfst

theorem outline_complete_eq (inclusion : Inclusion) (index index' : TypeIndex)
    (files files' : List Comments) :
    outline (complete inclusion index' files' (bound'.map Prod.fst)) =
      outline (complete inclusion index files (bound.map Prod.fst)) := by
  rw [outline_complete, outline_complete, hfst, outline_keepMembers]

theorem ofAssemblies_eq :
    TypeIndex.ofAssemblies (bound'.map Prod.fst) = TypeIndex.ofAssemblies (bound.map Prod.fst) := by
  refine TypeIndex.ofAssemblies_congr ?_
  rw [hfst, outline_keepMembers]

include hsnd

/-- What the passes make of the type in a place, without the filter and with it. -/
theorem exists_filtersAt (inclusion : Inclusion) {i j : Nat} {t t' : TypeEntry}
    (ht : typeAt? (complete inclusion (TypeIndex.ofAssemblies (bound.map Prod.fst))
      (bound.map Prod.snd) (bound.map Prod.fst)) i j = some t)
    (ht' : typeAt? (complete inclusion (TypeIndex.ofAssemblies (bound'.map Prod.fst))
      (bound'.map Prod.snd) (bound'.map Prod.fst)) i j = some t') :
    ∃ t₀ final final', FiltersAt accepts inclusion bound bound' i j t₀ t t' final final' := by
  obtain ⟨f, f', hf, hf', hagree⟩ := exists_agrees_propagate
    (TypeIndex.ofAssemblies (bound.map Prod.fst)) (bound.map Prod.snd) (bound.map Prod.fst) accepts
  obtain ⟨t₀, ht₀, -, hmembers⟩ := exists_typeAt?_of_complete inclusion (hf.typeAt?_eq (i, j)) ht
  have hkept : typeAt? (mapTypes (TypeEntry.keepMembers accepts) (bound.map Prod.fst)) i j =
      some (t₀.keepMembers accepts) := by
    rw [typeAt?_mapTypes, ht₀, Option.map_some]
  rw [ofAssemblies_eq hfst, hsnd, hfst] at ht'
  obtain ⟨u, hu, -, hmembers'⟩ := exists_typeAt?_of_complete inclusion (hf'.typeAt?_eq (i, j)) ht'
  obtain rfl := Option.some.inj (hkept.symm.trans hu)
  refine ⟨t₀, f (i, j), f' (i, j), ht₀, inherits_of_sweeps hf ht₀, ?_, hmembers, fun g ↦ ?_,
    fun m _ _ hm ↦ hagree.eq (i, j) m hm⟩
  · refine inherits_of_sweeps ?_ (hfst ▸ hkept)
    rw [ofAssemblies_eq hfst, hsnd, hfst]
    exact hf'
  · rw [hmembers', TypeEntry.keepMembers, MemberTable.mapGroups, MemberTable.get_ofGroups]

end

/-- **A filter takes members away and leaves the rest alone.** A filter that always answers keeps
the types, the namespaces, the index and the diagnostics of a reference. Every type shows those of
the accepted members that have a comment in the end, or all of them if undocumented members are
asked for; and the entry of an accepted member is the same as without the filter, if the filter
leaves alone what it may inherit from. -/
theorem filters_of_build (inclusion : Inclusion) (accepts : MemberEntry → Bool)
    {inputs : List AssemblyInput} {namespaceComments : Option CommentSource} {r : Reference}
    (h : build inclusion .all inputs namespaceComments = .ok r) :
    ∃ r', build inclusion (.ofBool accepts) inputs namespaceComments = .ok r' ∧
      outline r'.assemblies = outline r.assemblies ∧ r'.namespaces = r.namespaces ∧
      r'.types = r.types ∧ r'.index = r.index ∧ r'.diagnostics = r.diagnostics ∧
      ∀ (i j : Nat) (t : TypeEntry), typeAt? r.assemblies i j = some t →
        ∃ t₀ t' final final', typeAt? r'.assemblies i j = some t' ∧
          FiltersAt accepts inclusion (boundEntries (bindAll inclusion .all inputs))
            (boundEntries (bindAll inclusion (.ofBool accepts) inputs)) i j t₀ t t' final
            final' := by
  obtain ⟨hvalid, rfl⟩ := build_eq_ok_iff.mp h
  have hfst := map_fst_boundEntries_ofBool accepts inclusion inputs
  have houtline := outline_complete_eq hfst inclusion
  refine ⟨_, build_eq_ok_iff.mpr ⟨hvalid, rfl⟩, houtline _ _ _ _, ?_, ?_, ofAssemblies_eq hfst, ?_,
    fun i j t ht ↦ ?_⟩
  · change NamespaceEntry.merge _ _ = NamespaceEntry.merge _ _
    rw [← NamespaceEntry.merge_outline, houtline, NamespaceEntry.merge_outline]
  · change (Assemblies.types _).map TypeEntry.id = (Assemblies.types _).map TypeEntry.id
    rw [← map_id_types_outline, houtline, map_id_types_outline]
  · change _ ++ _ = _ ++ _
    rw [bindAll_ofBool, List.flatMap_map]
    rfl
  · obtain ⟨t', ht'⟩ := exists_typeAt?_of_outline_eq (houtline _ _ _ _) ht
    obtain ⟨t₀, final, final', hfilters⟩ := exists_filtersAt hfst
      (map_snd_boundEntries_ofBool accepts inclusion inputs) inclusion ht ht'
    exact ⟨t₀, t', final, final', ht', hfilters⟩

/-! ### Filters on a chain of overrides -/

/-- A type all of whose members only its family may use. -/
def narrowed (d : TypeDecl) : TypeDecl :=
  { d with members := d.members.map (MemberDecl.withAccess .family) }

/-- Discs are circles and circles are shapes. Only the method of shapes has a comment, and that of
one type is not public. -/
def chainInputs (narrow : String) : List AssemblyInput :=
  [⟨⟨"Shapes", .ok ([shapeDecl "Shape" none, shapeDecl "Circle" (some "Shape"),
      shapeDecl "Disc" (some "Circle")].map fun d ↦
        if d.fullName = narrow then narrowed d else d)⟩,
    some (.memory (.ofList none [{ key := "M:Shape.Area", summary := some "The area." }]))⟩]

/-- The assembly of the discs as it is bound without a filter, with a method of shapes that is not
public. -/
def chain : List (AssemblyEntry × Comments) :=
  boundEntries (bindAll { undocumentedTypes := true } .all (chainInputs "Shape"))

/-- Discs look at circles, which have a public method. Circles look at shapes, which have not, but
the comment of shapes is in the files as well. -/
theorem closed_chain :
    Closed (TypeIndex.ofAssemblies (chain.map Prod.fst)) (chain.map Prod.snd) (chain.map Prod.fst)
      (fun m ↦ m.decl.isPublic)
      fun q m ↦ (q = (0, 1) ∨ q = (0, 2)) ∧ m ∈ membersAt (chain.map Prod.fst) q := by
  have hcircle : ∀ m ∈ membersAt (chain.map Prod.fst) (0, 1), ∀ base ∈ m.overrides,
      ∃ b ∈ membersAt (chain.map Prod.fst) (0, 0),
        overriddenAt? (TypeIndex.ofAssemblies (chain.map Prod.fst)) (chain.map Prod.fst) base =
          some ((0, 0), b) ∧ b.overrides = none ∧
        (b.comment.filter isUsable).or (filedComment? (chain.map Prod.snd) base.docId) =
          filedComment? (chain.map Prod.snd) base.docId := by
    decide +kernel
  have hshape : ∀ m ∈ membersAt (chain.map Prod.fst) (0, 0), m.decl.isPublic = false := by
    decide +kernel
  have hdisc : ∀ m ∈ membersAt (chain.map Prod.fst) (0, 2), ∀ base ∈ m.overrides,
      ∃ b ∈ membersAt (chain.map Prod.fst) (0, 1),
        overriddenAt? (TypeIndex.ofAssemblies (chain.map Prod.fst)) (chain.map Prod.fst) base =
          some ((0, 1), b) ∧ b.decl.isPublic = true := by
    decide +kernel
  rintro q m ⟨rfl | rfl, hm⟩ - base hbase
  · obtain ⟨b, -, hlead, hend, hfiled⟩ := hcircle m hm base hbase
    exact .rejected hlead (fun _ ↦ hend) (fun n hn _ ↦ hshape n hn) hfiled
  · obtain ⟨b, hb, hlead, haccepts⟩ := hdisc m hm base hbase
    exact .accepted hlead haccepts ⟨Or.inl rfl, hb⟩

/-- The method of discs has no comment of its own and inherits the same one under a filter that
takes the method of shapes away. -/
theorem filters_of_build_chain :
    ∃ r r' t₀ t t' final final',
      build { undocumentedTypes := true } .all (chainInputs "Shape") none = .ok r ∧
        build { undocumentedTypes := true } (.ofBool fun m ↦ m.decl.isPublic)
          (chainInputs "Shape") none = .ok r' ∧
        typeAt? r.assemblies 0 2 = some t ∧ typeAt? r'.assemblies 0 2 = some t' ∧
        FiltersAt (fun m ↦ m.decl.isPublic) { undocumentedTypes := true } chain
          (boundEntries (bindAll { undocumentedTypes := true }
            (.ofBool fun m ↦ m.decl.isPublic) (chainInputs "Shape"))) 0 2 t₀ t t' final final' ∧
        ∃ m ∈ t₀.members.toList, m.comment = none ∧ m.overrides.isSome ∧ final' m = final m := by
  have hbuild : build { undocumentedTypes := true } .all (chainInputs "Shape") none =
      .ok (ofBindings { undocumentedTypes := true }
        (bindAll { undocumentedTypes := true } .all (chainInputs "Shape")) none) :=
    build_eq_ok_iff.mpr ⟨rfl, rfl⟩
  obtain ⟨r', hbuild', -, -, -, -, -, hfilters⟩ :=
    filters_of_build { undocumentedTypes := true } (fun m ↦ m.decl.isPublic) hbuild
  obtain ⟨t₁, ht₁⟩ : ∃ t₁, typeAt? (chain.map Prod.fst) 0 2 = some t₁ :=
    Option.isSome_iff_exists.mp (by decide +kernel)
  obtain ⟨t, ht⟩ := exists_typeAt?_of_outline_eq outline_complete ht₁
  obtain ⟨t₀, t', final, final', ht', hat⟩ := hfilters 0 2 t ht
  have hdisc : ∃ m ∈ membersAt (chain.map Prod.fst) (0, 2),
      m.comment = none ∧ m.overrides.isSome ∧ m.decl.isPublic = true := by
    decide +kernel
  obtain ⟨m, hm, hnone, hsome, haccepts⟩ := hdisc
  have hmem : m ∈ t₀.members.toList := membersAt_of_typeAt? hat.typeAt?_eq ▸ hm
  exact ⟨_, r', t₀, t, t', final, final', hbuild, hbuild', ht, ht', hat, m, hmem, hnone, hsome,
    hat.final_eq m hmem haccepts ⟨_, closed_chain, Or.inr rfl, hm⟩⟩

/-- The method of shapes is not public and has a comment, but a file before has another one under
its id. -/
def noteInputs : List AssemblyInput :=
  [⟨⟨"Notes", .ok []⟩,
      some (.memory (.ofList none [{ key := "M:Shape.Area", summary := some "A note." }]))⟩,
    ⟨⟨"Shapes", .ok [narrowed (shapeDecl "Shape" none), shapeDecl "Disc" (some "Shape")]⟩,
      some (.memory (.ofList none [{ key := "M:Shape.Area", summary := some "The area." }]))⟩]

/-- A type has a member with a documentation id, a comment and a mark of inheritance. -/
def Lists (as : List AssemblyEntry) (type : TypeId) (docId : String) (comment : Option Comment)
    (inherited : Bool) : Prop :=
  ∃ t ∈ Assemblies.types as, t.id = type ∧ ∃ m ∈ t.members.toList,
    m.docId = docId ∧ m.comment = comment ∧ m.isInherited = inherited

instance (as : List AssemblyEntry) (type : TypeId) (docId : String) (comment : Option Comment)
    (inherited : Bool) : Decidable (Lists as type docId comment inherited) :=
  inferInstanceAs (Decidable (∃ t ∈ Assemblies.types as, t.id = type ∧ ∃ m ∈ t.members.toList,
    m.docId = docId ∧ m.comment = comment ∧ m.isInherited = inherited))

/-- A type has a member whose built entry a condition accepts, but not with the same comment among
other assemblies. -/
def Misses (accepts : MemberEntry → Bool) (built as as' : List AssemblyEntry) : Prop :=
  ∃ t₀ ∈ Assemblies.types built, ∃ m₀ ∈ t₀.members.toList, accepts m₀ = true ∧
    ∃ t ∈ Assemblies.types as, t.id = t₀.id ∧ ∃ m ∈ t.members.toList, m.docId = m₀.docId ∧
      ¬ Lists as' t.id m.docId m.comment m.isInherited

instance (accepts : MemberEntry → Bool) (built as as' : List AssemblyEntry) :
    Decidable (Misses accepts built as as') :=
  inferInstanceAs (Decidable (∃ t₀ ∈ Assemblies.types built, ∃ m₀ ∈ t₀.members.toList,
    accepts m₀ = true ∧ ∃ t ∈ Assemblies.types as, t.id = t₀.id ∧ ∃ m ∈ t.members.toList,
      m.docId = m₀.docId ∧ ¬ Lists as' t.id m.docId m.comment m.isInherited))

/-- A reference shows a member that a filter accepts, and under the filter does not show it with the
same comment. -/
def Disturbs (inclusion : Inclusion) (accepts : MemberEntry → Bool)
    (inputs : List AssemblyInput) : Prop :=
  ∃ r r', build inclusion .all inputs none = .ok r ∧
    build inclusion (.ofBool accepts) inputs none = .ok r' ∧
    Misses accepts ((boundEntries (bindAll inclusion .all inputs)).map Prod.fst) r.assemblies
      r'.assemblies

/-- Whether a filter disturbs members is read off the finished assemblies, given the turns of the
types. -/
theorem disturbs_of_order {inclusion : Inclusion} {accepts : MemberEntry → Bool}
    {inputs : List AssemblyInput} {ids : List TypeId} (hcheck : checkInputs inputs = .ok ())
    (hids : order (TypeIndex.ofAssemblies
        ((boundEntries (bindAll inclusion .all inputs)).map Prod.fst))
      ((boundEntries (bindAll inclusion .all inputs)).map Prod.fst) = ids)
    (h : Misses accepts ((boundEntries (bindAll inclusion .all inputs)).map Prod.fst)
      (completeAlong ids inclusion (boundEntries (bindAll inclusion .all inputs)))
      (completeAlong ids inclusion
        (boundEntries (bindAll inclusion (.ofBool accepts) inputs)))) :
    Disturbs inclusion accepts inputs := by
  have hfst := map_fst_boundEntries_ofBool accepts inclusion inputs
  have hids' : order (TypeIndex.ofAssemblies
        ((boundEntries (bindAll inclusion (.ofBool accepts) inputs)).map Prod.fst))
      ((boundEntries (bindAll inclusion (.ofBool accepts) inputs)).map Prod.fst) = ids := by
    rw [ofAssemblies_eq hfst, hfst, order_keepMembers, hids]
  refine ⟨_, _, build_eq_ok_iff.mpr ⟨hcheck, rfl⟩, build_eq_ok_iff.mpr ⟨hcheck, rfl⟩, ?_⟩
  rw [assemblies_ofBindings _ _ hids, assemblies_ofBindings _ _ hids']
  exact h

/-- **A filter can take away more than it rejects.** If it rejects a member in the middle of a chain
of overrides, the members after it do not get the comment at the end of the chain; if it rejects a
member with a comment, an override finds the first comment in the files instead, which may be
another one. -/
theorem disturbs_public :
    Disturbs { undocumentedTypes := true } (fun m ↦ m.decl.isPublic) (chainInputs "Circle") ∧
      Disturbs { undocumentedTypes := true } (fun m ↦ m.decl.isPublic) noteInputs := by
  constructor
  · exact disturbs_of_order rfl (order_eq_of_pairwise (by decide +kernel)) (by decide +kernel)
  · exact disturbs_of_order rfl (order_eq_of_pairwise (by decide +kernel)) (by decide +kernel)

end Reference

end ApiDocs
