import ApiDocs.Decl.Assemble
import ApiDocs.Proofs.Entry.Switches
import ApiDocs.Proofs.Reference.Chains
import ApiDocs.Proofs.Reference.Namespaces

/-!
# References under more switches

Turning a switch on lets more types and members be shown, and each type is built of more. What is
shown already need not stay, since a member without a comment of its own is shown only if it takes
one over. A hidden type may bear the name of a type on the chain of overrides, it may delay the turn
of a type on the chain, and a hidden member may stand before the one that the chain leads to. So
types stay, and so do members with a comment of their own and members on whose chains every link
leads to the same member as before.

## Main definitions

* `Reference.LinksNamed`: overridden members have documentation ids.
* `Reference.Unmoved`: a chain of overrides whose links lead to the same members.
* `Reference.ownComment?`: the comment on a member in the file of its assembly.
* `Reference.Finishes`: the type of a reference that comes of one that was built.
* `Reference.Loses`: a type or a member is left out when switches are turned on.

## Main results

* `Reference.exists_type?_complete`: which members a type shows in the end.
* `Reference.DrawsIn.of_unmoved`: a chain that is left alone still leads to a comment.
* `Reference.count_decl_le_of_extends`: what stays when switches are turned on.
* `Reference.loses_of_more_switches`: what does not.
-/

namespace ApiDocs

/-! ### What the passes leave of a type -/

theorem TypeEntry.map_outline_numberOverloads (t : TypeEntry) :
    t.numberOverloads.members.toList.map MemberEntry.outline =
      t.members.toList.map MemberEntry.outline := by
  refine MemberTable.map_toList_congr fun g ↦ ?_
  have hunnumbered := congrArg (List.map MemberEntry.outline) (t.get_numberOverloads g)
  rwa [List.map_map, List.map_map] at hunnumbered

namespace Reference

open Assemblies

/-- After comments are inherited, the passes leave out the members without a comment, if the
switches say so, and number the others. -/
theorem exists_type?_complete_of_propagate (inclusion : Inclusion) {index : TypeIndex}
    {files : List Comments} {as : List AssemblyEntry} {id : TypeId} {t₁ : TypeEntry}
    (h : Assemblies.type? (Inheritance.propagate index files as) id = some t₁) :
    ∃ t, Assemblies.type? (complete inclusion index files as) id = some t ∧
      t.outline = t₁.outline ∧
      t.members.toList.map MemberEntry.outline =
        (t₁.members.toList.filter fun m ↦
          m.comment.isSome || inclusion.undocumentedMembers).map MemberEntry.outline := by
  have hdrop : ∃ t₂, Assemblies.type? (if inclusion.undocumentedMembers then
        Inheritance.propagate index files as
      else Inheritance.dropUndocumented (Inheritance.propagate index files as)) id = some t₂ ∧
      t₂.outline = t₁.outline ∧ t₂.members.toList = t₁.members.toList.filter fun m ↦
        m.comment.isSome || inclusion.undocumentedMembers := by
    cases hswitch : inclusion.undocumentedMembers with
    | true =>
      refine ⟨t₁, h, rfl, ?_⟩
      simp only [Bool.or_true, List.filter_true]
    | false =>
      rw [if_neg Bool.false_ne_true, Inheritance.dropUndocumented, type?_mapTypes, h]
      refine ⟨_, rfl, rfl, ?_⟩
      simp only [Bool.or_false]
      exact MemberTable.toList_mapGroups_filter _ _
  obtain ⟨t₂, ht₂, houtline, hmembers⟩ := hdrop
  simp only [complete, Extension.attach]
  rw [type?_mapTypes, type?_mapTypes, ht₂]
  refine ⟨_, rfl, houtline, ?_⟩
  rw [TypeEntry.map_outline_numberOverloads, ← hmembers]

/-- A type shows in the end those of its members that have a comment, or to which a chain of
overrides brings one, or all if undocumented members are asked for. -/
theorem exists_type?_complete (inclusion : Inclusion) {files : List Comments}
    {as : List AssemblyEntry} (haddr : Addressed as)
    (hfiled : Inheritance.CommentsFiled files as) {t₀ : TypeEntry}
    (ht₀ : t₀ ∈ Assemblies.types as) :
    ∃ t keep, Assemblies.type? (complete inclusion (TypeIndex.ofAssemblies as) files as) t₀.id =
        some t ∧
      t.outline = t₀.outline ∧
      t.members.toList.map MemberEntry.outline =
        (t₀.members.toList.filter keep).map MemberEntry.outline ∧
      ∀ m ∈ t₀.members.toList, keep m = true ↔
        m.comment.isSome = true ∨ inclusion.undocumentedMembers = true ∨
          ∃ base, m.overrides = some base ∧
            Inheritance.Draws (TypeIndex.ofAssemblies as) files as t₀ base := by
  obtain ⟨state, hstate, hturn⟩ := Inheritance.exists_isTurn files haddr ht₀
  obtain ⟨t, ht, houtline, hmembers⟩ := exists_type?_complete_of_propagate inclusion hturn
  refine ⟨t, fun m ↦ (Inheritance.inheritMember (TypeIndex.ofAssemblies as) files state
    m).comment.isSome || inclusion.undocumentedMembers, ht, houtline, ?_, fun m hm ↦ ?_⟩
  · rw [hmembers, Inheritance.toList_members_inheritType, List.filter_map, List.map_map]
    exact List.map_congr_left fun m _ ↦ Inheritance.outline_inheritMember m
  · rw [Bool.or_eq_true,
      Inheritance.isSome_comment_inheritMember_iff haddr hfiled ht₀ hstate hm, or_assoc]
    exact or_congr_right or_comm

/-! ### Bound assemblies -/

variable {inclusion inclusion' : Inclusion} {filter : MemberFilter} {inputs : List AssemblyInput}

theorem mem_boundEntries_of_build {i : Nat} {input : AssemblyInput} {a : AssemblyEntry}
    (hinput : inputs[i]? = some input)
    (h : AssemblyEntry.build inclusion filter (.ofNat i) input.source input.loaded = .ok a) :
    (a, input.loaded) ∈ boundEntries (bindAll inclusion filter inputs) := by
  refine List.mem_filterMap.mpr ⟨input.bind inclusion filter (.ofNat i), ?_, ?_⟩
  · exact List.mem_map.mpr ⟨(input, i), List.mem_zipIdx_iff_getElem?.mpr hinput, rfl⟩
  · unfold AssemblyInput.bind
    change AssemblyEntry.build inclusion filter (.ofNat i) input.source
      ((CommentSource.loadAny (some input.source.name) input.comments).1.getD .empty) = .ok a at h
    simp only [h]
    rfl

/-- The members that declared members override have documentation ids. -/
def LinksNamed (inputs : List AssemblyInput) : Prop :=
  ∀ input ∈ inputs, ∀ declared, input.source.load = .ok declared → ∀ d ∈ declared,
    ∀ m ∈ d.members, ∀ base ∈ m.overridden? d.fullName, ∃ id, base.docId = .ok id

/-- An assembly that is bound under some switches is bound under all, and shows under more switches
all types that it showed. -/
theorem exists_matching (h : inclusion'.Extends inclusion) (htotal : ∀ m, ∃ b, filter m = .ok b)
    (hlinks : LinksNamed inputs) {p : AssemblyEntry × Comments}
    (hp : p ∈ boundEntries (bindAll inclusion filter inputs)) :
    ∃ p' ∈ boundEntries (bindAll inclusion' filter inputs), p'.1.id = p.1.id ∧ p'.2 = p.2 ∧
      ∀ t ∈ p.1.types, ∃ d, t.Shows inclusion filter p.2 p.1.id d ∧
        ∃ t' ∈ p'.1.types, t'.Shows inclusion' filter p.2 p.1.id d := by
  obtain ⟨i, input, hinput, hid, hcomments, hbuild⟩ := exists_place_of_mem_boundEntries hp
  obtain ⟨declared, _, _, hload, -⟩ := AssemblyEntry.exists_of_build hbuild
  obtain ⟨a', hbuild'⟩ := AssemblyEntry.exists_build_of_build hbuild hload
    (hlinks input (List.mem_of_getElem? hinput) declared hload) inclusion' htotal p.1.id
  refine ⟨(a', p.2), ?_, AssemblyEntry.id_of_build hbuild', rfl, fun t ht ↦ ?_⟩
  · rw [hid, hcomments] at hbuild'
    rw [hcomments]
    exact mem_boundEntries_of_build hinput hbuild'
  · obtain ⟨d, hd, hshows⟩ := AssemblyEntry.exists_shows_of_mem hbuild hload ht
    exact ⟨d, hshows, AssemblyEntry.exists_mem_of_mem_select hbuild' hload
      (AssemblyEntry.mem_select_of_extends h hd)⟩

/-- There is an identifier for every type if there is one for every declared type. -/
theorem isBound_of_length_declared (hinputs : inputs.length ≤ UInt32.size)
    (hslots : ∀ input ∈ inputs, ∀ declared, input.source.load = .ok declared →
      declared.length ≤ UInt32.size) :
    IsBound (boundEntries (bindAll inclusion filter inputs)) := by
  refine isBound_boundEntries hinputs fun p hp ↦ ?_
  obtain ⟨input, hinput, -, hbuild⟩ := exists_input_of_mem_boundEntries hp
  obtain ⟨declared, _, _, hload, -⟩ := AssemblyEntry.exists_of_build hbuild
  rw [AssemblyEntry.length_types_of_build hbuild hload]
  exact (List.length_filter_le _ _).trans (hslots input hinput declared hload)

/-- A usable comment that is filed under some switches is filed under all. -/
theorem isSome_filedComment?_of_extends (h : inclusion'.Extends inclusion)
    (htotal : ∀ m, ∃ b, filter m = .ok b) (hlinks : LinksNamed inputs) {docId : String}
    (hfiled : (Inheritance.filedComment?
      ((boundEntries (bindAll inclusion filter inputs)).map Prod.snd) docId).isSome = true) :
    (Inheritance.filedComment?
      ((boundEntries (bindAll inclusion' filter inputs)).map Prod.snd) docId).isSome = true := by
  rw [Inheritance.isSome_filedComment?_iff] at hfiled ⊢
  obtain ⟨file, hfile, husable⟩ := hfiled
  obtain ⟨p, hp, rfl⟩ := List.mem_map.mp hfile
  obtain ⟨p', hp', -, hcomments, -⟩ := exists_matching h htotal hlinks hp
  exact ⟨p.2, hcomments ▸ List.mem_map_of_mem hp', husable⟩

/-! ### Chains that more switches leave alone -/

/-- In bound assemblies, an override of a member of a type leads to an entry whose type has its turn
earlier. -/
def LeadsIn (bound : List (AssemblyEntry × Comments)) (t : TypeEntry) (base : BoundMember)
    (u : TypeEntry) (b : MemberEntry) : Prop :=
  Inheritance.Leads (TypeIndex.ofAssemblies (bound.map Prod.fst)) (bound.map Prod.fst) t base u b

/-- In bound assemblies, an override of a member of a type leads to a usable comment. -/
def DrawsIn (bound : List (AssemblyEntry × Comments)) (t : TypeEntry) (base : BoundMember) : Prop :=
  Inheritance.Draws (TypeIndex.ofAssemblies (bound.map Prod.fst)) (bound.map Prod.snd)
    (bound.map Prod.fst) t base

/-- The links of a chain of overrides lead to the same members in other bound assemblies, as far as
they are needed. A usable comment in the files ends the need, and so does an override that leads
nowhere. -/
inductive Unmoved (bound bound' : List (AssemblyEntry × Comments)) :
    TypeEntry → TypeEntry → BoundMember → Prop
  | filed {t t' : TypeEntry} {base : BoundMember}
      (h : (Inheritance.filedComment? (bound.map Prod.snd) base.docId).isSome = true) :
      Unmoved bound bound' t t' base
  | nowhere {t t' : TypeEntry} {base : BoundMember} (h : ∀ u b, ¬ LeadsIn bound t base u b) :
      Unmoved bound bound' t t' base
  | link {t t' u u' : TypeEntry} {base : BoundMember} {b b' : MemberEntry}
      (hlead : LeadsIn bound t base u b) (hlead' : LeadsIn bound' t' base u' b')
      (hassembly : u'.id.assembly = u.id.assembly) (hdecl : b'.decl = b.decl)
      (hnext : ∀ next, b.overrides = some next → Unmoved bound bound' u u' next) :
      Unmoved bound bound' t t' base

/-- An entry was built from its declaration, with the comments of the input in the place of its
assembly. -/
theorem exists_build_decl (hinputs : inputs.length ≤ UInt32.size)
    (hbound : IsBound (boundEntries (bindAll inclusion filter inputs))) {u : TypeEntry}
    (hu : u ∈ Assemblies.types ((boundEntries (bindAll inclusion filter inputs)).map Prod.fst))
    {b : MemberEntry} (hb : b ∈ u.members.toList) :
    ∃ input, inputs[u.id.assembly.toNat]? = some input ∧
      MemberEntry.build input.loaded u.id u.fullName b.decl = .ok b := by
  obtain ⟨a, ha, hua⟩ := Assemblies.mem_types.mp hu
  obtain ⟨j, hj⟩ := List.getElem?_of_mem hua
  have hassembly : u.id.assembly = a.id := (hbound.addressed.slot a ha j u hj).1
  obtain ⟨p, hp, rfl⟩ := List.mem_map.mp ha
  obtain ⟨input, hinput, hcomments, hbuild⟩ := exists_getElem?_of_mem_boundEntries hinputs hp
  obtain ⟨d, hd⟩ := AssemblyEntry.exists_build_of_mem_members hbuild hua hb
  refine ⟨input, hassembly ▸ hinput, ?_⟩
  rw [MemberEntry.decl_of_build hd, ← hcomments]
  exact hd

theorem fullName_of_type? {as : List AssemblyEntry} (haddr : Addressed as) {name : String}
    {u : TypeEntry} (h : (TypeIndex.ofAssemblies as).type? as name = some u) :
    u ∈ Assemblies.types as ∧ u.fullName = name := by
  obtain ⟨id, hid, htype⟩ := Option.bind_eq_some_iff.mp h
  obtain ⟨hu, rfl⟩ := haddr.type?_eq_some_iff.mp htype
  rw [TypeIndex.find?_ofAssemblies] at hid
  obtain ⟨v, hv, hvu⟩ := Option.map_eq_some_iff.mp hid
  obtain rfl := haddr.eq_of_id_eq (List.mem_of_find?_eq_some hv) hu hvu
  have hname := List.find?_some hv
  exact ⟨hu, eq_of_beq hname⟩

/-- The same member overrides the same under all switches. -/
theorem overrides_eq_of_leadsIn (hinputs : inputs.length ≤ UInt32.size)
    (hbound : IsBound (boundEntries (bindAll inclusion filter inputs)))
    (hbound' : IsBound (boundEntries (bindAll inclusion' filter inputs))) {t t' u u' : TypeEntry}
    {base : BoundMember} {b b' : MemberEntry}
    (hlead : LeadsIn (boundEntries (bindAll inclusion filter inputs)) t base u b)
    (hlead' : LeadsIn (boundEntries (bindAll inclusion' filter inputs)) t' base u' b')
    (hassembly : u'.id.assembly = u.id.assembly) (hdecl : b'.decl = b.decl) :
    b'.overrides = b.overrides := by
  obtain ⟨hu, hname⟩ := fullName_of_type? hbound.addressed hlead.named
  obtain ⟨hu', hname'⟩ := fullName_of_type? hbound'.addressed hlead'.named
  obtain ⟨input, hinput, hbuild⟩ :=
    exists_build_decl hinputs hbound hu (List.mem_of_find?_eq_some hlead.first)
  obtain ⟨input', hinput', hbuild'⟩ :=
    exists_build_decl hinputs hbound' hu' (List.mem_of_find?_eq_some hlead'.first)
  rw [hassembly, hinput] at hinput'
  obtain rfl := Option.some.inj hinput'
  rw [hname', ← hname, hdecl, MemberEntry.build_eq_withOwner hbuild] at hbuild'
  rw [← Except.ok.inj hbuild']
  rfl

/-- A chain that more switches leave alone still leads to a usable comment. -/
theorem DrawsIn.of_unmoved (hext : inclusion'.Extends inclusion)
    (htotal : ∀ m, ∃ b, filter m = .ok b) (hlinks : LinksNamed inputs)
    (hinputs : inputs.length ≤ UInt32.size)
    (hbound : IsBound (boundEntries (bindAll inclusion filter inputs)))
    (hbound' : IsBound (boundEntries (bindAll inclusion' filter inputs))) {t t' : TypeEntry}
    {base : BoundMember}
    (h : DrawsIn (boundEntries (bindAll inclusion filter inputs)) t base)
    (hunmoved : Unmoved (boundEntries (bindAll inclusion filter inputs))
      (boundEntries (bindAll inclusion' filter inputs)) t t' base) :
    DrawsIn (boundEntries (bindAll inclusion' filter inputs)) t' base := by
  unfold DrawsIn at h ⊢
  induction h generalizing t' with
  | filed h => exact .filed (isSome_filedComment?_of_extends hext htotal hlinks h)
  | link hlead hnext _ ih =>
    cases hunmoved with
    | filed h => exact .filed (isSome_filedComment?_of_extends hext htotal hlinks h)
    | nowhere h => exact absurd hlead (h _ _)
    | link hlead₀ hlead' hassembly hdecl hrest =>
      obtain ⟨rfl, rfl⟩ := Inheritance.Leads.unique hlead hlead₀
      have hover :=
        overrides_eq_of_leadsIn hinputs hbound hbound' hlead hlead' hassembly hdecl
      exact .link hlead' (hover.trans hnext) (ih (hrest _ hnext))

/-! ### References -/

/-- The comment on a member in the file of its assembly. -/
def ownComment? (inputs : List AssemblyInput) (t : TypeEntry) (m : MemberEntry) : Option Comment :=
  inputs[t.id.assembly.toNat]?.bind fun input ↦ input.loaded.get? m.docId

theorem ownComment?_eq (hinputs : inputs.length ≤ UInt32.size)
    (hbound : IsBound (boundEntries (bindAll inclusion filter inputs))) {t : TypeEntry}
    (ht : t ∈ Assemblies.types ((boundEntries (bindAll inclusion filter inputs)).map Prod.fst))
    {m : MemberEntry} (hm : m ∈ t.members.toList) : ownComment? inputs t m = m.comment := by
  obtain ⟨input, hinput, hbuild⟩ := exists_build_decl hinputs hbound ht hm
  obtain ⟨bound, overrides, hb, -, heq⟩ := MemberEntry.exists_of_build hbuild
  obtain ⟨docId, -, rfl⟩ := BoundMember.exists_of_ofDecl hb
  rw [ownComment?, hinput, heq]
  rfl

/-- A type of a finished reference as it comes of the type that was built: it shows those of its
members that have a comment or to which a chain of overrides brings one, or all if undocumented
members are asked for. -/
structure Finishes (inclusion : Inclusion) (bound : List (AssemblyEntry × Comments))
    (keep : MemberEntry → Bool) (t₀ t : TypeEntry) : Prop where
  outline_eq : t.outline = t₀.outline
  members_eq : t.members.toList.map MemberEntry.outline =
    (t₀.members.toList.filter keep).map MemberEntry.outline
  keep_iff : ∀ m ∈ t₀.members.toList, keep m = true ↔
    m.comment.isSome = true ∨ inclusion.undocumentedMembers = true ∨
      ∃ base, m.overrides = some base ∧ DrawsIn bound t₀ base

namespace Finishes

variable {bound : List (AssemblyEntry × Comments)} {keep : MemberEntry → Bool} {t₀ t : TypeEntry}

theorem exists_of_mem (h : Finishes inclusion bound keep t₀ t) {m : MemberEntry}
    (hm : m ∈ t.members.toList) :
    ∃ m₀ ∈ t₀.members.toList, keep m₀ = true ∧ m₀.outline = m.outline := by
  have hin : m.outline ∈ (t₀.members.toList.filter keep).map MemberEntry.outline :=
    h.members_eq ▸ List.mem_map_of_mem hm
  obtain ⟨m₀, hm₀, heq⟩ := List.mem_map.mp hin
  exact ⟨m₀, (List.mem_filter.mp hm₀).1, (List.mem_filter.mp hm₀).2, heq⟩

theorem map_decl_eq (h : Finishes inclusion bound keep t₀ t) :
    (t.members.toList.map fun m ↦ m.decl) =
      (t₀.members.toList.filter keep).map fun m ↦ m.decl := by
  have hdecl := congrArg (List.map fun m : MemberEntry ↦ m.decl) h.members_eq
  rwa [List.map_map, List.map_map] at hdecl

/-- A member that is kept under other switches is shown as often as it is declared. -/
theorem count_decl_le {bound' : List (AssemblyEntry × Comments)} {keep' : MemberEntry → Bool}
    {t₀' t' : TypeEntry} {comments : Comments} {assembly : AssemblyId} {d : TypeDecl}
    (h : Finishes inclusion bound keep t₀ t) (h' : Finishes inclusion' bound' keep' t₀' t')
    (hshows : t₀.Shows inclusion filter comments assembly d)
    (hshows' : t₀'.Shows inclusion' filter comments assembly d) {n : MemberDecl}
    {m : MemberEntry}
    (hm : TypeEntry.chosen? inclusion' filter comments t₀'.id d.fullName n = some m)
    (hkeep : keep' m = true) :
    (t.members.toList.map fun m ↦ m.decl).count n ≤
      (t'.members.toList.map fun m ↦ m.decl).count n := by
  rw [h.map_decl_eq, h'.map_decl_eq, hshows.count_decl, hshows'.count_decl]
  calc _ ≤ d.members.count n := List.filter_sublist.count_le n
    _ = _ := (List.count_filter (by rw [hm, Option.filter_some, if_pos hkeep]; rfl)).symm

end Finishes

/-- Every type that was built is finished. -/
theorem exists_finishes (namespaceComments : Option CommentSource)
    (hbound : IsBound (boundEntries (bindAll inclusion filter inputs))) {t₀ : TypeEntry}
    (ht₀ : t₀ ∈ Assemblies.types
      ((boundEntries (bindAll inclusion filter inputs)).map Prod.fst)) :
    ∃ t ∈ Assemblies.types
        (ofBindings inclusion (bindAll inclusion filter inputs) namespaceComments).assemblies,
      ∃ keep, Finishes inclusion (boundEntries (bindAll inclusion filter inputs)) keep t₀ t := by
  obtain ⟨t, keep, htype, houtline, hmembers, hkeep⟩ := exists_type?_complete inclusion
    hbound.addressed (Inheritance.commentsFiled_of_isBound hbound) ht₀
  have haddr : Addressed
      (ofBindings inclusion (bindAll inclusion filter inputs) namespaceComments).assemblies :=
    addressed_ofBindings hbound
  exact ⟨t, (haddr.type?_eq_some_iff.mp htype).1, keep, houtline, hmembers, hkeep⟩

/-- Every type of a finished reference was built. -/
theorem exists_finishes_of_mem {namespaceComments : Option CommentSource}
    (hbound : IsBound (boundEntries (bindAll inclusion filter inputs))) {t : TypeEntry}
    (ht : t ∈ Assemblies.types
      (ofBindings inclusion (bindAll inclusion filter inputs) namespaceComments).assemblies) :
    ∃ t₀ ∈ Assemblies.types ((boundEntries (bindAll inclusion filter inputs)).map Prod.fst),
      ∃ keep, Finishes inclusion (boundEntries (bindAll inclusion filter inputs)) keep t₀ t := by
  have hid : t.id ∈ (Assemblies.types
      ((boundEntries (bindAll inclusion filter inputs)).map Prod.fst)).map TypeEntry.id := by
    rw [← Assemblies.map_id_types_outline, ← outline_ofBindings inclusion _ namespaceComments,
      Assemblies.map_id_types_outline]
    exact List.mem_map_of_mem ht
  obtain ⟨t₀, ht₀, hid⟩ := List.mem_map.mp hid
  obtain ⟨t₁, ht₁, keep, hfinishes⟩ := exists_finishes namespaceComments hbound ht₀
  have hid₁ : t₁.id = t₀.id := congrArg (fun t ↦ t.id) hfinishes.outline_eq
  obtain rfl := (addressed_ofBindings hbound).eq_of_id_eq ht₁ ht (hid₁.trans hid)
  exact ⟨t₀, ht₀, keep, hfinishes⟩

/-- A member that is kept stays with more switches on, if it has a comment of its own, or all
members are asked for, or its chain of overrides is left alone. -/
theorem keep_of_extends (hext : inclusion'.Extends inclusion)
    (htotal : ∀ m, ∃ b, filter m = .ok b) (hlinks : LinksNamed inputs)
    (hinputs : inputs.length ≤ UInt32.size)
    (hbound : IsBound (boundEntries (bindAll inclusion filter inputs)))
    (hbound' : IsBound (boundEntries (bindAll inclusion' filter inputs)))
    {keep keep' : MemberEntry → Bool} {t₀ t t₀' t' : TypeEntry}
    (hfin : Finishes inclusion (boundEntries (bindAll inclusion filter inputs)) keep t₀ t)
    (hfin' : Finishes inclusion' (boundEntries (bindAll inclusion' filter inputs)) keep' t₀' t')
    {m m' : MemberEntry} (hm : m ∈ t₀.members.toList) (hm' : m' ∈ t₀'.members.toList)
    (hcomment : m'.comment = m.comment) (hover : m'.overrides = m.overrides)
    (hkept : keep m = true)
    (hcond : m.comment.isSome = true ∨ inclusion'.undocumentedMembers = true ∨
      ∀ base ∈ m.overrides, Unmoved (boundEntries (bindAll inclusion filter inputs))
        (boundEntries (bindAll inclusion' filter inputs)) t t' base) :
    keep' m' = true := by
  rw [hfin'.keep_iff m' hm', hcomment, hover]
  rcases (hfin.keep_iff m hm).mp hkept with hown | hswitch | ⟨base, hbase, hdraws⟩
  · exact Or.inl hown
  · exact Or.inr (Or.inl (hext.undocumentedMembers hswitch))
  · refine hcond.imp_right (Or.imp_right fun hunmoved ↦ ⟨base, hbase, ?_⟩)
    have hdraws : DrawsIn _ t base := Inheritance.Draws.of_outline_eq hdraws hfin.outline_eq
    have hdraws' := hdraws.of_unmoved hext htotal hlinks hinputs hbound hbound'
      (hunmoved base hbase)
    exact Inheritance.Draws.of_outline_eq hdraws' hfin'.outline_eq.symm

/-- **Turning switches on leaves out no type, and no member whose chain of overrides they do not
move.** The filter must not crash, the members that declared members override must have
documentation ids, and there must be words enough to number the assemblies and the types that each
declares. Then a reference that is built is built with more switches on as well. It has all types
that it had. If the filter does not look at the slots of types, a type shows a member as often as
before, provided that the member has a comment of its own, or undocumented members are asked for, or
the links of the chain of overrides from which it takes its comment lead to the same members as
before. -/
theorem count_decl_le_of_extends {namespaceComments : Option CommentSource} {r : Reference}
    (hext : inclusion'.Extends inclusion) (htotal : ∀ m, ∃ b, filter m = .ok b)
    (hlinks : LinksNamed inputs) (hinputs : inputs.length ≤ UInt32.size)
    (hslots : ∀ input ∈ inputs, ∀ declared, input.source.load = .ok declared →
      declared.length ≤ UInt32.size)
    (h : build inclusion filter inputs namespaceComments = .ok r) :
    ∃ r', build inclusion' filter inputs namespaceComments = .ok r' ∧
      ∀ t ∈ Assemblies.types r.assemblies, ∃ t' ∈ Assemblies.types r'.assemblies,
        t'.id.assembly = t.id.assembly ∧ t'.header = t.header ∧
        (filter.IgnoresSlots → ∀ m ∈ t.members.toList,
          ((ownComment? inputs t m).isSome = true ∨ inclusion'.undocumentedMembers = true ∨
            ∀ base ∈ m.overrides, Unmoved (boundEntries (bindAll inclusion filter inputs))
              (boundEntries (bindAll inclusion' filter inputs)) t t' base) →
          (t.members.toList.map fun m ↦ m.decl).count m.decl ≤
            (t'.members.toList.map fun m ↦ m.decl).count m.decl) := by
  obtain ⟨hcheck, rfl⟩ := build_eq_ok_iff.mp h
  have hbound : IsBound (boundEntries (bindAll inclusion filter inputs)) :=
    isBound_of_length_declared hinputs hslots
  have hbound' : IsBound (boundEntries (bindAll inclusion' filter inputs)) :=
    isBound_of_length_declared hinputs hslots
  refine ⟨ofBindings inclusion' (bindAll inclusion' filter inputs) namespaceComments,
    build_eq_ok_iff.mpr ⟨hcheck, rfl⟩, fun t ht ↦ ?_⟩
  obtain ⟨t₀, ht₀, keep, hfin⟩ := exists_finishes_of_mem hbound ht
  obtain ⟨a, ha, hta⟩ := Assemblies.mem_types.mp ht₀
  obtain ⟨p, hp, rfl⟩ := List.mem_map.mp ha
  obtain ⟨p', hp', -, -, hmatch⟩ := exists_matching hext htotal hlinks hp
  obtain ⟨d, hshows, t₀', hta', hshows'⟩ := hmatch t₀ hta
  have ht₀' : t₀' ∈ Assemblies.types
      ((boundEntries (bindAll inclusion' filter inputs)).map Prod.fst) :=
    Assemblies.mem_types.mpr ⟨p'.1, List.mem_map_of_mem hp', hta'⟩
  obtain ⟨t', ht', keep', hfin'⟩ := exists_finishes namespaceComments hbound' ht₀'
  have hid : t.id = t₀.id := congrArg (fun t ↦ t.id) hfin.outline_eq
  have hid' : t'.id = t₀'.id := congrArg (fun t ↦ t.id) hfin'.outline_eq
  have hassembly : t₀'.id.assembly = t₀.id.assembly :=
    hshows'.assembly_eq.trans hshows.assembly_eq.symm
  refine ⟨t', ht', ?_, ?_, fun hblind m hm hcond ↦ ?_⟩
  · rw [hid, hid', hassembly]
  · calc t'.header = t₀'.header := congrArg (fun t ↦ t.header) hfin'.outline_eq
      _ = t₀.header := hshows'.header_eq.trans hshows.header_eq.symm
      _ = t.header := congrArg (fun t ↦ t.header) hfin.outline_eq.symm
  · obtain ⟨m₀, hm₀, hkept, hstem⟩ := hfin.exists_of_mem hm
    obtain ⟨hdeclared, hchosen⟩ := hshows.chosen?_decl hm₀
    have hchosen' := TypeEntry.chosen?_of_extends hext hblind hassembly hchosen
    have hdecl : m₀.decl = m.decl := congrArg (fun m ↦ m.decl) hstem
    have hdocId : m₀.docId = m.docId := congrArg (fun m ↦ m.docId) hstem
    have hover : m₀.overrides = m.overrides := congrArg (fun m ↦ m.overrides) hstem
    rw [← hdecl]
    refine hfin.count_decl_le hfin' hshows hshows' hchosen' ?_
    refine keep_of_extends hext htotal hlinks hinputs hbound hbound' hfin hfin' hm₀
      (hshows'.mem_of_chosen? hdeclared hchosen') rfl rfl hkept ?_
    have hown : ownComment? inputs t m = m₀.comment := by
      rw [← ownComment?_eq hinputs hbound ht₀ hm₀, ownComment?, ownComment?, hid, hdocId]
    rwa [hown, ← hover] at hcond

/-! ### Chains past a hidden type -/

open Inheritance (shapeDecl)

/-- An assembly in which only the area of shapes has a comment. -/
def shapesInput (declared : List TypeDecl) : AssemblyInput :=
  ⟨⟨"Shapes", .ok declared⟩, some (.memory (.ofList none [{ key := "M:Shape.Area" }]))⟩

/-- Types of shapes, after a hidden type. -/
def ringDecls : List TypeDecl :=
  [(TypeDecl.classNamed "Ring").withAccess .assembly, shapeDecl "Shape" none,
    shapeDecl "Circle" (some "Shape"), shapeDecl "Disc" (some "Circle")]

/-- The assembly of rings and shapes as it is bound, with or without hidden types. -/
def rings (hiddenTypes : Bool) : List (AssemblyEntry × Comments) :=
  boundEntries (bindAll { undocumentedTypes := true, hiddenTypes } .all [shapesInput ringDecls])

/-- What discs override leads to what circles have, whether hidden types are shown or not. -/
theorem exists_leadsIn_rings (hiddenTypes : Bool) {t : TypeEntry} {base : BoundMember}
    (ht : t.header = (shapeDecl "Disc" (some "Circle")).toTypeHeader)
    (hid : base.docId = "M:Circle.Area") (hname : base.decl.declaringType = "Circle") :
    ∃ u b, LeadsIn (rings hiddenTypes) t base u b ∧ u.id.assembly = ⟨0⟩ ∧
      (shapeDecl "Circle" (some "Shape")).members = [b.decl] ∧
      ∀ next ∈ b.overrides, next.docId = "M:Shape.Area" := by
  have hcircle : ∀ hidden : Bool, ∃ u ∈ Assemblies.types ((rings hidden).map Prod.fst),
      ∃ b ∈ u.members.toList,
        (TypeIndex.ofAssemblies ((rings hidden).map Prod.fst)).type?
          ((rings hidden).map Prod.fst) "Circle" = some u ∧
        (u.members.toList.find? fun m ↦ m.docId == "M:Circle.Area") = some b ∧
        Inheritance.baseDepth (TypeIndex.ofAssemblies ((rings hidden).map Prod.fst))
          ((rings hidden).map Prod.fst) u = 1 ∧
        u.id.assembly = ⟨0⟩ ∧ (shapeDecl "Circle" (some "Shape")).members = [b.decl] ∧
        ∀ next ∈ b.overrides, next.docId = "M:Shape.Area" := by
    decide +kernel
  obtain ⟨u, -, b, -, hnamed, hfirst, hdepth, hassembly, hdecl, hnext⟩ := hcircle hiddenTypes
  have hdisc : Inheritance.baseDepth (TypeIndex.ofAssemblies ((rings hiddenTypes).map Prod.fst))
      ((rings hiddenTypes).map Prod.fst) t = 2 := by
    rw [Inheritance.baseDepth, ht]
    cases hiddenTypes <;> decide +kernel
  refine ⟨u, b, ⟨hname ▸ hnamed, hid ▸ hfirst, Or.inl ?_⟩, hassembly, hdecl, hnext⟩
  rw [hdepth, hdisc]
  decide

theorem extends_hiddenTypes : Inclusion.Extends
    { undocumentedTypes := true, hiddenTypes := true } { undocumentedTypes := true } := by
  constructor <;> decide

theorem linksNamed_ringDecls : LinksNamed [shapesInput ringDecls] := by
  intro input hinput declared hload d hd m hm base hbase
  obtain rfl := List.mem_singleton.mp hinput
  obtain rfl : ringDecls = declared := Except.ok.inj hload
  have hids : ∀ d ∈ ringDecls, ∀ m ∈ d.members, ∀ base ∈ m.overridden? d.fullName,
      ∃ id ∈ ["M:Shape.Area", "M:Circle.Area"], base.docId = .ok id := by
    decide +kernel
  exact (hids d hd m hm base hbase).imp fun _ hid ↦ hid.2

theorem count_decl_le_of_extends_ringDecls :
    ∃ r r', build { undocumentedTypes := true } .all [shapesInput ringDecls] none = .ok r ∧
      build { undocumentedTypes := true, hiddenTypes := true } .all [shapesInput ringDecls] none =
        .ok r' ∧
      ∃ t ∈ Assemblies.types r.assemblies, ∃ t' ∈ Assemblies.types r'.assemblies,
        t.fullName = "Disc" ∧ t'.header = t.header ∧
        ∃ m ∈ t.members.toList, ownComment? [shapesInput ringDecls] t m = none ∧
          (t.members.toList.map fun m ↦ m.decl).count m.decl ≤
            (t'.members.toList.map fun m ↦ m.decl).count m.decl := by
  set r := ofBindings { undocumentedTypes := true }
    (bindAll { undocumentedTypes := true } .all [shapesInput ringDecls]) none with hr
  have hbuild : build { undocumentedTypes := true } .all [shapesInput ringDecls] none = .ok r :=
    build_eq_ok_iff.mpr ⟨rfl, hr⟩
  have hassemblies : r.assemblies =
      Inheritance.completeAlong _ { undocumentedTypes := true } (rings false) :=
    Inheritance.assemblies_ofBindings _ _ (Inheritance.order_eq_of_pairwise (by decide +kernel))
  have hslots : ∀ input ∈ [shapesInput ringDecls], ∀ declared, input.source.load = .ok declared →
      declared.length ≤ UInt32.size := by
    intro input hinput declared hload
    obtain rfl := List.mem_singleton.mp hinput
    obtain rfl : ringDecls = declared := Except.ok.inj hload
    decide
  obtain ⟨r', hbuild', hshown⟩ := count_decl_le_of_extends extends_hiddenTypes
    (fun _ ↦ ⟨true, rfl⟩) linksNamed_ringDecls (by decide) hslots hbuild
  have hdisc : ∃ t ∈ Assemblies.types r.assemblies,
      t.header = (shapeDecl "Disc" (some "Circle")).toTypeHeader ∧
      ∃ m ∈ t.members.toList, ownComment? [shapesInput ringDecls] t m = none ∧
        ∀ base ∈ m.overrides, base.docId = "M:Circle.Area" ∧
          base.decl.declaringType = "Circle" := by
    rw [hassemblies]
    decide +kernel
  obtain ⟨t, ht, hheader, m, hm, hown, hbase⟩ := hdisc
  obtain ⟨t', ht', -, hheader', hcount⟩ := hshown t ht
  refine ⟨r, r', hbuild, hbuild', t, ht, t', ht', ?_, hheader', m, hm, hown,
    hcount (fun _ _ _ _ _ ↦ rfl) m hm (Or.inr (Or.inr fun base hb ↦ ?_))⟩
  · rw [TypeEntry.fullName, hheader]
    rfl
  · obtain ⟨hid, hname⟩ := hbase base hb
    obtain ⟨u, b, hlead, hassembly, hdecl, hnext⟩ :=
      exists_leadsIn_rings false hheader hid hname
    obtain ⟨u', b', hlead', hassembly', hdecl', -⟩ :=
      exists_leadsIn_rings true (hheader'.trans hheader) hid hname
    refine .link hlead hlead' (hassembly'.trans hassembly.symm) ?_ fun next hnext' ↦ .filed ?_
    · exact List.singleton_inj.mp (hdecl'.symm.trans hdecl)
    · rw [hnext next hnext']
      decide +kernel

/-! ### Members that more switches leave out -/

/-- A type is not there any more, or a member that it showed. -/
def Drops (as as' : List AssemblyEntry) : Prop :=
  ∃ t ∈ Assemblies.types as, ∀ t' ∈ Assemblies.types as',
    t'.id.assembly = t.id.assembly → t'.fullName = t.fullName →
      ∃ m ∈ t.members.toList, ∀ m' ∈ t'.members.toList, m'.decl ≠ m.decl

instance (as as' : List AssemblyEntry) : Decidable (Drops as as') :=
  inferInstanceAs (Decidable (∃ t ∈ Assemblies.types as, ∀ t' ∈ Assemblies.types as',
    t'.id.assembly = t.id.assembly → t'.fullName = t.fullName →
      ∃ m ∈ t.members.toList, ∀ m' ∈ t'.members.toList, m'.decl ≠ m.decl))

/-- A reference that is built with a filter that does not crash has a type or shows a member that it
does not with more switches on. -/
def Loses (inclusion inclusion' : Inclusion) (filter : MemberFilter)
    (inputs : List AssemblyInput) : Prop :=
  inclusion'.Extends inclusion ∧ (∀ m, ∃ b, filter m = .ok b) ∧
    ∃ r r', build inclusion filter inputs none = .ok r ∧
      build inclusion' filter inputs none = .ok r' ∧ Drops r.assemblies r'.assemblies

/-- Whether something is lost is read off the finished assemblies, given the turns of the types. -/
theorem loses_of_order {ids ids' : List TypeId} (hext : inclusion'.Extends inclusion)
    (htotal : ∀ m, ∃ b, filter m = .ok b) (hcheck : checkInputs inputs = .ok ())
    (hids : Inheritance.order
      (TypeIndex.ofAssemblies ((boundEntries (bindAll inclusion filter inputs)).map Prod.fst))
      ((boundEntries (bindAll inclusion filter inputs)).map Prod.fst) = ids)
    (hids' : Inheritance.order
      (TypeIndex.ofAssemblies ((boundEntries (bindAll inclusion' filter inputs)).map Prod.fst))
      ((boundEntries (bindAll inclusion' filter inputs)).map Prod.fst) = ids')
    (h : Drops
      (Inheritance.completeAlong ids inclusion (boundEntries (bindAll inclusion filter inputs)))
      (Inheritance.completeAlong ids' inclusion'
        (boundEntries (bindAll inclusion' filter inputs)))) :
    Loses inclusion inclusion' filter inputs := by
  refine ⟨hext, htotal, _, _, build_eq_ok_iff.mpr ⟨hcheck, rfl⟩,
    build_eq_ok_iff.mpr ⟨hcheck, rfl⟩, ?_⟩
  rw [Inheritance.assemblies_ofBindings _ _ hids, Inheritance.assemblies_ofBindings _ _ hids']
  exact h

/-- Discs are circles and circles are shapes, but an assembly before has a hidden type with the name
of the circles. -/
def circleInputs : List AssemblyInput :=
  [⟨⟨"Core", .ok [(TypeDecl.classNamed "Circle").withAccess .assembly]⟩, none⟩,
    shapesInput [shapeDecl "Shape" none, shapeDecl "Circle" (some "Shape"),
      shapeDecl "Disc" (some "Circle")]]

/-- Circles override what shapes have but are derived from a hidden type, and discs override what
circles have but are derived from no type. -/
def figureInputs : List AssemblyInput :=
  [shapesInput [(TypeDecl.classNamed "Figure").withAccess .assembly, shapeDecl "Shape" none,
    { shapeDecl "Circle" (some "Shape") with baseType := some (.named "Figure" []) },
    { shapeDecl "Disc" (some "Circle") with baseType := none }]]

/-- The assembly of the figures as it is bound with hidden types. -/
def figures : List (AssemblyEntry × Comments) :=
  boundEntries (bindAll { undocumentedTypes := true, hiddenTypes := true } .all figureInputs)

/-- Circles come last, after the discs. -/
theorem order_figures :
    Inheritance.order (TypeIndex.ofAssemblies (figures.map Prod.fst)) (figures.map Prod.fst) =
      [⟨⟨0⟩, 0⟩, ⟨⟨0⟩, 1⟩, ⟨⟨0⟩, 3⟩, ⟨⟨0⟩, 2⟩] := by
  have hdepths : ((Assemblies.types (figures.map Prod.fst)).map fun t ↦
      (Inheritance.baseDepth (TypeIndex.ofAssemblies (figures.map Prod.fst))
        (figures.map Prod.fst) t, t.id)) =
        [(0, ⟨⟨0⟩, 0⟩), (0, ⟨⟨0⟩, 1⟩), (1, ⟨⟨0⟩, 2⟩), (0, ⟨⟨0⟩, 3⟩)] := by
    decide +kernel
  rw [Inheritance.order, hdepths]
  simp [List.mergeSort]

/-- An operator of a type. -/
def additionOf (owner : String) : MemberDecl :=
  .operatorOf owner "op_Addition" (.named "Real" [])

/-- Circles have an operator that overrides the one of shapes, and before it a hidden method with
the same documentation id, which overrides what no known type has. -/
def operatorInputs : List AssemblyInput :=
  [⟨⟨"Shapes", .ok
      [(TypeDecl.classNamed "Shape").withMember (additionOf "Shape"),
        { TypeDecl.classNamed "Circle" with
          baseType := some (.named "Shape" [])
          members :=
            [((MemberDecl.methodOf "Circle" "op_Addition" (.named "Real" [])).withAccess
                .assembly).withBaseDefinition (additionOf "Blob"),
              (additionOf "Circle").withBaseDefinition (additionOf "Shape")] },
        ((TypeDecl.classNamed "Disc").withBase (.named "Circle" [])).withMember
          ((additionOf "Disc").withBaseDefinition (additionOf "Circle"))]⟩,
    some (.memory (.ofList none [{ key := "M:Shape.op_Addition" }]))⟩]

/-- A method of a hidden type overrides one that has no documentation id: the type of its parameter
has more arguments than a word can count. -/
def countlessInputs : List AssemblyInput :=
  [shapesInput [shapeDecl "Shape" none,
    ((TypeDecl.classNamed "Ring").withAccess .assembly).withMember
      ((MemberDecl.methodOf "Ring" "Area" (.named "Real" [])).withBaseDefinition
        ((MemberDecl.methodOf "Band" "Area" (.named "Real" [])).withParameter "within"
          (.named "Box`18446744073709551615+Lid`1" [.named "Band" []])))]]

/-- **More switches can leave members out.** The name of a type on a chain of overrides comes to
stand for a hidden type, a type on the chain has its turn later, or a hidden member stands before
the one that the chain leads to. Besides, a filter may look at the identifiers of types, which
hidden types move, and an assembly is not bound if one of the types it then shows overrides a member
without a documentation id. -/
theorem loses_of_more_switches :
    Loses { undocumentedTypes := true } { undocumentedTypes := true, hiddenTypes := true }
      .all circleInputs ∧
    Loses { undocumentedTypes := true } { undocumentedTypes := true, hiddenTypes := true }
      .all figureInputs ∧
    Loses { undocumentedTypes := true } { undocumentedTypes := true, hiddenMembers := true }
      .all operatorInputs ∧
    Loses { undocumentedTypes := true } { undocumentedTypes := true, hiddenTypes := true }
      (fun m ↦ .ok (m.owner = .type ⟨⟨0⟩, 0⟩)) [shapesInput ringDecls] ∧
    Loses { undocumentedTypes := true } { undocumentedTypes := true, hiddenTypes := true }
      .all countlessInputs := by
  have hmembers : Inclusion.Extends { undocumentedTypes := true, hiddenMembers := true }
      { undocumentedTypes := true } := by
    constructor <;> decide
  have hall (m : MemberEntry) : ∃ b, MemberFilter.all m = .ok b := ⟨true, rfl⟩
  refine ⟨?_, ?_, ?_, ?_, ?_⟩
  · exact loses_of_order extends_hiddenTypes hall rfl
      (Inheritance.order_eq_of_pairwise (by decide +kernel))
      (Inheritance.order_eq_of_pairwise (by decide +kernel)) (by decide +kernel)
  · exact loses_of_order extends_hiddenTypes hall rfl
      (Inheritance.order_eq_of_pairwise (by decide +kernel)) order_figures (by decide +kernel)
  · exact loses_of_order hmembers hall rfl (Inheritance.order_eq_of_pairwise (by decide +kernel))
      (Inheritance.order_eq_of_pairwise (by decide +kernel)) (by decide +kernel)
  · exact loses_of_order extends_hiddenTypes (fun m ↦ ⟨_, rfl⟩) rfl
      (Inheritance.order_eq_of_pairwise (by decide +kernel))
      (Inheritance.order_eq_of_pairwise (by decide +kernel)) (by decide +kernel)
  · exact loses_of_order extends_hiddenTypes hall rfl
      (Inheritance.order_eq_of_pairwise (by decide +kernel))
      (Inheritance.order_eq_of_pairwise (by decide +kernel)) (by decide +kernel)

end Reference

end ApiDocs
