import ApiDocs.Decl.Assemble
import ApiDocs.Proofs.Entry.Listing
import ApiDocs.Proofs.Reference.Binding
import ApiDocs.Proofs.Reference.Passes
import Mathlib.Data.Option.Basic
import Mathlib.Logic.Relation

/-!
# Inherited comments by recursion

Comments are inherited in one sweep over the types, in the order of their depth. If every override
leads to a type of smaller depth, then everything that a member looks at has its final comment when
the member's turn comes, and the sweep gives every member the comment that a recursive reading of
the rule gives it: that of the member it overrides, found in the same way.

## Main definitions

* `Inheritance.overridden?`: the entry that an override leads to.
* `Inheritance.Resolves`: the recursive reading of the rule.
* `Inheritance.Descends`: overrides lead to types of smaller depth.
* `Inheritance.Precedes`: the order of the sweep.
* `Inheritance.turns`: the types in this order.

## Main results

* `Inheritance.exists_turn`: the state that a type takes over its comments from.
* `Inheritance.type?_propagate`: the finished assemblies satisfy the rule themselves.
* `Inheritance.forall₂_resolves_propagate`: the sweep agrees with the recursive reading.
-/

namespace ApiDocs.Inheritance

open Assemblies

variable (index : TypeIndex) (files : List Comments) (as : List AssemblyEntry)

/-! ### The recursive reading -/

/-- The entry that an override leads to: the first member with its documentation id on the type that
declares it. -/
def overridden? (base : BoundMember) : Option MemberEntry := do
  let t ← index.type? as base.decl.declaringType
  t.members.toList.find? fun m ↦ m.docId == base.docId

/-- The comment that belongs to a member. A member that has one, or overrides nothing, keeps its
own. Otherwise it has the comment that belongs to the entry it overrides, if that is usable, or else
the first usable one in the files, or else its own. -/
inductive Resolves : MemberEntry → Option Comment → Prop
  | own {m : MemberEntry} (h : isWanting m.comment = true → m.overrides = none) :
      Resolves m m.comment
  | filed {m : MemberEntry} {base : BoundMember} (hm : isWanting m.comment = true)
      (hbase : m.overrides = some base) (hnone : overridden? index as base = none) :
      Resolves m ((filedComment? files base.docId).or m.comment)
  | built {m : MemberEntry} {base : BoundMember} {b : MemberEntry} {c : Option Comment}
      (hm : isWanting m.comment = true) (hbase : m.overrides = some base)
      (hb : overridden? index as base = some b) (hc : Resolves b c) :
      Resolves m ((c.filter isUsable).or ((filedComment? files base.docId).or m.comment))

/-- A member that looks for a comment overrides another entry. -/
def Overrides (m b : MemberEntry) : Prop :=
  isWanting m.comment = true ∧ ∃ base, m.overrides = some base ∧ overridden? index as base = some b

/-- Every override on which a member depends leads to a type of smaller depth, if the reference
knows the type. -/
def Descends : Prop :=
  ∀ t ∈ types as, ∀ m ∈ t.members.toList, isWanting m.comment = true →
    ∀ base ∈ m.overrides, ∀ u ∈ index.type? as base.decl.declaringType,
      baseDepth index as u < baseDepth index as t

/-- A type has its turn before another one by its depth, or by its identifier at the same depth. -/
def Precedes (u t : TypeEntry) : Prop :=
  baseDepth index as u < baseDepth index as t ∨
    baseDepth index as u = baseDepth index as t ∧ u.id.ComesBefore t.id

variable {index files as}

theorem Precedes.asymm {u t : TypeEntry} (h : Precedes index as u t) :
    ¬ Precedes index as t u := by
  rintro (htu | ⟨heq, htu⟩) <;> rcases h with hut | ⟨heq', hut⟩
  · exact Nat.lt_asymm hut htu
  · exact absurd htu (heq' ▸ Nat.lt_irrefl _)
  · exact absurd hut (heq ▸ Nat.lt_irrefl _)
  · exact hut.asymm htu

/-- At most one comment belongs to a member. -/
theorem Resolves.unique {m : MemberEntry} {c d : Option Comment} (hc : Resolves index files as m c)
    (hd : Resolves index files as m d) : c = d := by
  induction hc generalizing d with
  | own h =>
    cases hd with
    | own => rfl
    | filed hm hbase => rw [h hm] at hbase; cases hbase
    | built hm hbase => rw [h hm] at hbase; cases hbase
  | filed hm hbase hnone =>
    cases hd with
    | own h => rw [h hm] at hbase; cases hbase
    | filed _ hbase' =>
      obtain rfl := Option.some.inj (hbase.symm.trans hbase')
      rfl
    | built _ hbase' hb =>
      obtain rfl := Option.some.inj (hbase.symm.trans hbase')
      rw [hnone] at hb
      cases hb
  | built hm hbase hb _ ih =>
    cases hd with
    | own h => rw [h hm] at hbase; cases hbase
    | filed _ hbase' hnone =>
      obtain rfl := Option.some.inj (hbase.symm.trans hbase')
      rw [hnone] at hb
      cases hb
    | built _ hbase' hb' hc' =>
      obtain rfl := Option.some.inj (hbase.symm.trans hbase')
      obtain rfl := Option.some.inj (hb.symm.trans hb')
      rw [ih hc']

/-- A usable comment belongs to every member that a chain of overrides leads from. -/
theorem Resolves.of_chain {m b : MemberEntry} {c : Comment}
    (hchain : Relation.ReflTransGen (Overrides index as) m b) (hb : b.comment = some c)
    (hc : isUsable c = true) : Resolves index files as m (some c) := by
  induction hchain using Relation.ReflTransGen.head_induction_on with
  | refl =>
    have hown : isWanting b.comment = true → b.overrides = none := by
      intro hw
      rw [hb] at hw
      simp only [isUsable, Bool.not_eq_true'] at hc
      exact absurd (hc.symm.trans hw) Bool.false_ne_true
    exact hb ▸ .own hown
  | head hstep _ ih =>
    obtain ⟨hm, base, hbase, hover⟩ := hstep
    have hbuilt := Resolves.built hm hbase hover ih
    rwa [Option.filter_some, if_pos hc, Option.some_or] at hbuilt

/-! ### One member -/

theorem builtComment?_eq (index : TypeIndex) (as : List AssemblyEntry) (base : BoundMember) :
    builtComment? index as base = (overridden? index as base).bind fun m ↦ m.comment :=
  (Option.bind_assoc _ _ _).symm

/-- The comment found when an override was linked is never the one that is taken over: it is in one
of the files, where it would have been found before. -/
theorem inherited?_eq_of_file {base : BoundMember}
    (hfile : ∃ file ∈ files, base.comment = file.get? base.docId) :
    inherited? index files as base =
      ((builtComment? index as base).filter isUsable).or (filedComment? files base.docId) := by
  have hthird : (filedComment? files base.docId).or (base.comment.filter isUsable) =
      filedComment? files base.docId := by
    cases hfiled : filedComment? files base.docId with
    | some c => rfl
    | none =>
      obtain ⟨file, hmem, hcomment⟩ := hfile
      cases hc : base.comment with
      | none => rfl
      | some c =>
        have hin : c ∈ files.filterMap fun file ↦ file.get? base.docId :=
          List.mem_filterMap.mpr ⟨file, hmem, by rw [← hcomment, hc]⟩
        have hnot := List.find?_eq_none.mp hfiled c hin
        rw [Option.none_or, Option.filter_some, if_neg hnot]
  rw [inherited?, Option.orElse_eq_orElse, Option.orElse_eq_or, Option.orElse_eq_or, hthird]

theorem comment_inheritMember (m : MemberEntry) :
    (inheritMember index files as m).comment =
      if isWanting m.comment then (m.overrides.bind (inherited? index files as)).or m.comment
      else m.comment := by
  unfold inheritMember
  split_ifs
  · cases m.overrides.bind (inherited? index files as) <;> rfl
  · rfl

theorem docId_inheritMember (m : MemberEntry) :
    (inheritMember index files as m).docId = m.docId :=
  congrArg (fun m ↦ m.docId) (outline_inheritMember m)

/-- What a member takes over depends only on the entry that it overrides. -/
theorem inheritMember_congr {bs : List AssemblyEntry} {m : MemberEntry}
    (h : isWanting m.comment = true → ∀ base, m.overrides = some base →
      overridden? index as base = overridden? index bs base) :
    inheritMember index files as m = inheritMember index files bs m := by
  unfold inheritMember
  split_ifs with hm
  · cases hbase : m.overrides with
    | none => rfl
    | some base =>
      simp only [Option.bind_some, inherited?, builtComment?_eq, h hm base hbase]
  · rfl

theorem inheritType_congr {bs : List AssemblyEntry} {t : TypeEntry}
    (h : ∀ m ∈ t.members.toList, inheritMember index files as m = inheritMember index files bs m) :
    inheritType index files as t = inheritType index files bs t := by
  have hgroups : t.members.mapGroups (List.map (inheritMember index files as)) =
      t.members.mapGroups (List.map (inheritMember index files bs)) := by
    refine congrArg MemberTable.ofGroups (funext fun g ↦ ?_)
    exact List.map_congr_left fun m hm ↦ h m (MemberTable.mem_toList.mpr ⟨g, hm⟩)
  rw [inheritType, inheritType, hgroups]

/-- Where an override leads depends only on the type for which the name of the declaring type
stands. -/
theorem overridden?_congr {bs : List AssemblyEntry} {base : BoundMember}
    (h : ∀ id ∈ index.find? base.decl.declaringType, type? as id = type? bs id) :
    overridden? index as base = overridden? index bs base := by
  have htype : index.type? as base.decl.declaringType =
      index.type? bs base.decl.declaringType := by
    unfold TypeIndex.type?
    cases hfind : index.find? base.decl.declaringType with
    | none => rfl
    | some id => exact h id hfind
  simp only [overridden?, htype]

/-! ### The sweep -/

theorem propagateAlong_append (ids ids' : List TypeId) :
    propagateAlong index files (ids ++ ids') as =
      propagateAlong index files ids' (propagateAlong index files ids as) :=
  List.foldl_append

/-- A type keeps its members until its turn comes. -/
theorem type?_propagateAlong_of_notMem {ids : List TypeId} {id : TypeId} (h : id ∉ ids) :
    type? (propagateAlong index files ids as) id = type? as id := by
  induction ids generalizing as with
  | nil => rfl
  | cons id' ids ih =>
    rw [List.mem_cons, not_or] at h
    rw [propagateAlong_cons, ih h.2, type?_modifyType_of_ne h.1]

/-- A type takes over its comments from the state at its turn. -/
theorem type?_propagateAlong_append_cons {ids ids' : List TypeId} {id : TypeId} (h : id ∉ ids)
    (h' : id ∉ ids') :
    type? (propagateAlong index files (ids ++ id :: ids') as) id =
      (type? as id).map (inheritType index files (propagateAlong index files ids as)) := by
  rw [propagateAlong_append, propagateAlong_cons, type?_propagateAlong_of_notMem h',
    type?_modifyType_self, type?_propagateAlong_of_notMem h]

/-- The types in the order of their turns. -/
def turns (index : TypeIndex) (as : List AssemblyEntry) : List TypeEntry :=
  (types as).mergeSort fun t u ↦ baseDepth index as t ≤ baseDepth index as u

theorem order_eq_map_turns (index : TypeIndex) (as : List AssemblyEntry) :
    order index as = (turns index as).map TypeEntry.id := by
  let entry (t : TypeEntry) : Nat × TypeId := (baseDepth index as t, t.id)
  have hsort : (turns index as).map entry =
      ((types as).map entry).mergeSort fun a b ↦ decide (a.1 ≤ b.1) :=
    List.map_mergeSort fun _ _ _ _ ↦ rfl
  calc order index as = ((turns index as).map entry).map Prod.snd :=
        congrArg (List.map Prod.snd) hsort.symm
    _ = (turns index as).map TypeEntry.id := List.map_map

/-- Types of the same depth keep the order in which they stand. -/
theorem pairwise_turns (index : TypeIndex) (h : Addressed as) :
    (turns index as).Pairwise (Precedes index as) := by
  refine (pairwise_mergeSort_of_pairwise (fun t u v htu huv ↦ ?_) (fun t u ↦ ?_)
    h.pairwise_types).imp fun {t u} htu ↦ ?_
  · rw [decide_eq_true_eq] at htu huv ⊢
    exact Nat.le_trans htu huv
  · rw [Bool.or_eq_true, decide_eq_true_eq, decide_eq_true_eq]
    exact Nat.le_total _ _
  · simp only [decide_eq_true_eq] at htu
    rcases Nat.lt_or_eq_of_le htu.1 with hlt | heq
    · exact Or.inl hlt
    · exact Or.inr ⟨heq, htu.2 heq.ge⟩

/-- When the turn of a type comes, the types that precede it have had theirs and the others have
not, and no type has its turn twice. -/
theorem exists_order_eq (index : TypeIndex) (h : Addressed as) {t : TypeEntry} (ht : t ∈ types as) :
    ∃ ids ids', order index as = ids ++ t.id :: ids' ∧ (ids ++ t.id :: ids').Nodup ∧
      ∀ u ∈ types as, u.id ∈ ids ↔ Precedes index as u t := by
  have hperm : (turns index as).Perm (types as) := List.mergeSort_perm _ _
  have hpairwise := pairwise_turns index h
  obtain ⟨before, after, hsplit⟩ := List.append_of_mem (hperm.mem_iff.mpr ht)
  have horder : order index as = before.map TypeEntry.id ++ t.id :: after.map TypeEntry.id := by
    rw [order_eq_map_turns, hsplit, List.map_append, List.map_cons]
  have hnodup : (order index as).Nodup := by
    rw [order_eq_map_turns, (hperm.map TypeEntry.id).nodup_iff]
    exact h.nodup_map_id
  refine ⟨before.map TypeEntry.id, after.map TypeEntry.id, horder, horder ▸ hnodup, fun u hu ↦ ?_⟩
  have hu' := hperm.mem_iff.mpr hu
  rw [hsplit, List.pairwise_append, List.pairwise_cons] at hpairwise
  rw [hsplit, List.mem_append, List.mem_cons] at hu'
  constructor
  · intro hid
    obtain ⟨v, hv, heq⟩ := List.mem_map.mp hid
    have hvmem := hperm.mem_iff.mp (hsplit ▸ List.mem_append_left _ hv)
    obtain rfl := h.eq_of_id_eq hvmem hu heq
    exact hpairwise.2.2 v hv t List.mem_cons_self
  · intro hprec
    rcases hu' with hbefore | rfl | hafter
    · exact List.mem_map_of_mem hbefore
    · exact absurd hprec hprec.asymm
    · exact absurd hprec (Precedes.asymm (hpairwise.2.1.1 u hafter))

/-- A type takes over its comments from a state in which the types that precede it are as they will
be in the end, and the others as they were. -/
theorem exists_turn (index : TypeIndex) (files : List Comments) (h : Addressed as) {t : TypeEntry}
    (ht : t ∈ types as) :
    ∃ state, type? (propagate index files as) t.id = some (inheritType index files state t) ∧
      ∀ u ∈ types as,
        (Precedes index as u t → type? state u.id = type? (propagate index files as) u.id) ∧
        (¬ Precedes index as u t → type? state u.id = some u) := by
  obtain ⟨ids, ids', horder, hnodup, hbefore⟩ := exists_order_eq index h ht
  obtain ⟨-, hafter, hdisjoint⟩ := List.nodup_append.mp hnodup
  have hid : t.id ∉ ids := fun hmem ↦ hdisjoint _ hmem _ List.mem_cons_self rfl
  have hid' : t.id ∉ ids' := (List.nodup_cons.mp hafter).1
  refine ⟨propagateAlong index files ids as, ?_, fun u hu ↦ ⟨fun hprec ↦ ?_, fun hnot ↦ ?_⟩⟩
  · rw [propagate, horder, type?_propagateAlong_append_cons hid hid', h.type?_id ht,
      Option.map_some]
  · -- the type had its turn before, so the rest of the sweep leaves it alone
    have hrest : u.id ∉ t.id :: ids' :=
      fun hmem ↦ hdisjoint _ ((hbefore u hu).mpr hprec) _ hmem rfl
    rw [propagate, horder, propagateAlong_append, type?_propagateAlong_of_notMem hrest]
  · rw [type?_propagateAlong_of_notMem (mt (hbefore u hu).mp hnot), h.type?_id hu]

/-- Types that stand in the order of their depth have their turns in this order. -/
theorem order_eq_of_pairwise
    (h : (types as).Pairwise fun t u ↦ baseDepth index as t ≤ baseDepth index as u) :
    order index as = (types as).map TypeEntry.id := by
  rw [order_eq_map_turns, turns,
    List.mergeSort_of_pairwise (h.imp fun htu ↦ decide_eq_true htu)]

/-- The finished assemblies if the types have their turns in a given order. -/
def completeAlong (ids : List TypeId) (inclusion : Inclusion)
    (bound : List (AssemblyEntry × Comments)) : List AssemblyEntry :=
  let index := TypeIndex.ofAssemblies (bound.map Prod.fst)
  let as := propagateAlong index (bound.map Prod.snd) ids (bound.map Prod.fst)
  let as := if inclusion.undocumentedMembers then as else dropUndocumented as
  mapTypes TypeEntry.numberOverloads (Extension.attach index as)

theorem assemblies_ofBindings {bindings : List Binding} {ids : List TypeId} (inclusion : Inclusion)
    (namespaceComments : Option CommentSource)
    (h : order (TypeIndex.ofAssemblies ((Reference.boundEntries bindings).map Prod.fst))
      ((Reference.boundEntries bindings).map Prod.fst) = ids) :
    (Reference.ofBindings inclusion bindings namespaceComments).assemblies =
      completeAlong ids inclusion (Reference.boundEntries bindings) := by
  rw [← h]
  rfl

/-! ### Agreement -/

/-- A name that the index knows stands for a type that is there. -/
theorem exists_type?_of_find? (h : Addressed as) {name : String} {id : TypeId}
    (hid : (TypeIndex.ofAssemblies as).find? name = some id) :
    ∃ u ∈ types as, u.id = id ∧ (TypeIndex.ofAssemblies as).type? as name = some u := by
  have hfind := hid
  rw [TypeIndex.find?_ofAssemblies] at hfind
  obtain ⟨u, hu, rfl⟩ := Option.map_eq_some_iff.mp hfind
  have hmem := List.mem_of_find?_eq_some hu
  refine ⟨u, hmem, rfl, ?_⟩
  rw [TypeIndex.type?, hid, Option.bind_some, h.type?_id hmem]

/-- The finished assemblies satisfy the rule themselves: every type has taken over its comments from
them. -/
theorem type?_propagate (h : Addressed as) (hd : Descends (TypeIndex.ofAssemblies as) as)
    {t : TypeEntry} (ht : t ∈ types as) :
    type? (propagate (TypeIndex.ofAssemblies as) files as) t.id =
      some (inheritType (TypeIndex.ofAssemblies as) files
        (propagate (TypeIndex.ofAssemblies as) files as) t) := by
  obtain ⟨state, hturn, hkeep⟩ := exists_turn (TypeIndex.ofAssemblies as) files h ht
  rw [hturn]
  refine congrArg some (inheritType_congr fun m hm ↦ inheritMember_congr fun hw base hbase ↦ ?_)
  refine overridden?_congr fun id hid ↦ ?_
  obtain ⟨u, hu, rfl, htype⟩ := exists_type?_of_find? h hid
  exact (hkeep u hu).1 (Or.inl (hd t ht m hm hw base hbase u htype))

/-- The entry that an override leads to has taken over its comment as well. -/
theorem overridden?_propagate (h : Addressed as) (hd : Descends (TypeIndex.ofAssemblies as) as)
    (base : BoundMember) :
    overridden? (TypeIndex.ofAssemblies as) (propagate (TypeIndex.ofAssemblies as) files as) base =
      (overridden? (TypeIndex.ofAssemblies as) as base).map
        (inheritMember (TypeIndex.ofAssemblies as) files
          (propagate (TypeIndex.ofAssemblies as) files as)) := by
  unfold overridden? TypeIndex.type?
  cases hfind : (TypeIndex.ofAssemblies as).find? base.decl.declaringType with
  | none => rfl
  | some id =>
    obtain ⟨u, hu, rfl, -⟩ := exists_type?_of_find? h hfind
    simp only [Option.bind_some, Option.bind_eq_bind, type?_propagate h hd hu, h.type?_id hu,
      toList_members_inheritType, List.find?_map, Function.comp_def, docId_inheritMember]

/-- In the finished assemblies, the comment of every member is the one that belongs to it. -/
theorem resolves_comment_inheritMember {bound : List (AssemblyEntry × Comments)}
    (h : Reference.IsBound bound) {as : List AssemblyEntry} (has : as = bound.map Prod.fst)
    {files : List Comments} (hfiles : files = bound.map Prod.snd)
    (hd : Descends (TypeIndex.ofAssemblies as) as) {t : TypeEntry} (ht : t ∈ types as)
    {m : MemberEntry} (hm : m ∈ t.members.toList) :
    Resolves (TypeIndex.ofAssemblies as) files as m
      (inheritMember (TypeIndex.ofAssemblies as) files
        (propagate (TypeIndex.ofAssemblies as) files as) m).comment := by
  have haddr : Addressed as := has ▸ h.addressed
  -- by induction on the depth of the type, as overrides lead to types of smaller depth
  induction hdepth : baseDepth (TypeIndex.ofAssemblies as) as t using Nat.strongRecOn
    generalizing t m with
  | ind n ih =>
    rw [comment_inheritMember]
    split_ifs with hw
    · cases hbase : m.overrides with
      | none => exact .own fun _ ↦ hbase
      | some base =>
        have hfile : ∃ file ∈ files, base.comment = file.get? base.docId := by
          subst has hfiles
          exact h.exists_file_of_overrides ht hm hbase
        rw [Option.bind_some, inherited?_eq_of_file hfile, builtComment?_eq,
          overridden?_propagate haddr hd, Option.or_assoc]
        cases hover : overridden? (TypeIndex.ofAssemblies as) as base with
        | none => exact .filed hw hbase hover
        | some b =>
          obtain ⟨u, hu, hfind⟩ := Option.bind_eq_some_iff.mp hover
          have hlt := hd t ht m hm hw base hbase u hu
          obtain ⟨id, hid, hu⟩ := Option.bind_eq_some_iff.mp hu
          have humem := (haddr.type?_eq_some_iff.mp hu).1
          rw [Option.map_some, Option.bind_some]
          exact .built hw hbase hover
            (ih _ (hdepth ▸ hlt) humem (List.mem_of_find?_eq_some hfind) rfl)
    · exact .own fun hw' ↦ absurd hw' hw

/-- **Inherited comments agree with the recursive reading.** Take bound assemblies, each with its
comments, in which every override on which a member depends leads to a type of smaller depth or to
none that is known. After the sweep the comment of every member is the one that belongs to it, and
no other does; in particular a usable comment is taken over along chains of overrides of any
length. -/
theorem forall₂_resolves_propagate {bound : List (AssemblyEntry × Comments)}
    (h : Reference.IsBound bound) {as : List AssemblyEntry} (has : as = bound.map Prod.fst)
    {files : List Comments} (hfiles : files = bound.map Prod.snd) {index : TypeIndex}
    (hindex : index = TypeIndex.ofAssemblies as) (hd : Descends index as) :
    List.Forall₂
      (fun t t' ↦ List.Forall₂
        (fun m m' ↦
          (∀ c, Resolves index files as m c ↔ c = m'.comment) ∧
          ∀ b c, Relation.ReflTransGen (Overrides index as) m b → b.comment = some c →
            isUsable c = true → m'.comment = some c)
        t.members.toList t'.members.toList)
      (types as) (types (propagate index files as)) := by
  have haddr : Addressed as := has ▸ h.addressed
  subst hindex
  refine haddr.forall₂_types (outline_propagateAlong _) fun t ht t' ht' ↦ ?_
  obtain rfl := Option.some.inj ((type?_propagate haddr hd ht).symm.trans ht')
  rw [toList_members_inheritType, List.forall₂_map_right_iff, List.forall₂_same]
  intro m hm
  have hres := resolves_comment_inheritMember h has hfiles hd ht hm
  refine ⟨fun c ↦ ⟨fun hc ↦ hc.unique hres, fun hc ↦ hc ▸ hres⟩, fun b c hchain hb hc ↦ ?_⟩
  exact hres.unique (.of_chain hchain hb hc)

/-! ### A chain across two assemblies -/

/-- A type with a method that overrides the one of its base type. -/
def shapeDecl (fullName : String) (base : Option String) : TypeDecl where
  fullName := fullName
  baseType := base.map (.named · [])
  members :=
    [{ name := "Area"
       declaringType := fullName
       baseDefinition := base.map fun b ↦ .methodOf b "Area" (.named "Real" [])
       shape := .method { returnType := .named "Real" [] } }]

/-- Discs are circles and circles are shapes, of which only the last have a comment. -/
def shapes : List (AssemblyEntry × Comments) :=
  Reference.boundEntries (Reference.bindAll .publicSurface .all
    [⟨⟨"Discs", .ok [shapeDecl "Disc" (some "Circle")]⟩, none⟩,
      ⟨⟨"Shapes", .ok [shapeDecl "Circle" (some "Shape"), shapeDecl "Shape" none]⟩,
        some (.memory (.ofList none [{ key := "M:Shape.Area", summary := some "The area." }]))⟩])

instance (index : TypeIndex) (as : List AssemblyEntry) : Decidable (Descends index as) :=
  inferInstanceAs (Decidable (∀ t ∈ types as, ∀ m ∈ t.members.toList, isWanting m.comment = true →
    ∀ base ∈ m.overrides, ∀ u ∈ index.type? as base.decl.declaringType,
      baseDepth index as u < baseDepth index as t))

theorem isBound_shapes : Reference.IsBound shapes :=
  Reference.isBound_boundEntries (by decide) (by decide +kernel)

/-- Shapes come first and discs, whose base type has a base type, last. -/
theorem order_shapes :
    order (TypeIndex.ofAssemblies (shapes.map Prod.fst)) (shapes.map Prod.fst) =
      [⟨⟨1⟩, 1⟩, ⟨⟨1⟩, 0⟩, ⟨⟨0⟩, 0⟩] := by
  have hdepths : ((types (shapes.map Prod.fst)).map fun t ↦
      (baseDepth (TypeIndex.ofAssemblies (shapes.map Prod.fst)) (shapes.map Prod.fst) t, t.id)) =
        [(2, ⟨⟨0⟩, 0⟩), (1, ⟨⟨1⟩, 0⟩), (0, ⟨⟨1⟩, 1⟩)] := by
    decide +kernel
  rw [order, hdepths]
  simp [List.mergeSort]

theorem forall₂_resolves_propagate_shapes :
    Reference.IsBound shapes ∧
    Descends (TypeIndex.ofAssemblies (shapes.map Prod.fst)) (shapes.map Prod.fst) ∧
    List.Forall₂
      (fun t t' ↦ List.Forall₂
        (fun m m' ↦
          (∀ c, Resolves (TypeIndex.ofAssemblies (shapes.map Prod.fst)) (shapes.map Prod.snd)
            (shapes.map Prod.fst) m c ↔ c = m'.comment) ∧
          ∀ b c, Relation.ReflTransGen
              (Overrides (TypeIndex.ofAssemblies (shapes.map Prod.fst)) (shapes.map Prod.fst)) m b →
            b.comment = some c → isUsable c = true → m'.comment = some c)
        t.members.toList t'.members.toList)
      (types (shapes.map Prod.fst))
      (types (propagate (TypeIndex.ofAssemblies (shapes.map Prod.fst)) (shapes.map Prod.snd)
        (shapes.map Prod.fst))) ∧
    (types (propagate (TypeIndex.ofAssemblies (shapes.map Prod.fst)) (shapes.map Prod.snd)
      (shapes.map Prod.fst))).map (fun t ↦ t.members.toList.map fun m ↦ m.comment.map Comment.key) =
        [[some "M:Shape.Area"], [some "M:Shape.Area"], [some "M:Shape.Area"]] := by
  have hd : Descends (TypeIndex.ofAssemblies (shapes.map Prod.fst)) (shapes.map Prod.fst) := by
    decide +kernel
  refine ⟨isBound_shapes, hd, forall₂_resolves_propagate isBound_shapes rfl rfl rfl hd, ?_⟩
  rw [propagate, order_shapes]
  decide +kernel

end ApiDocs.Inheritance
