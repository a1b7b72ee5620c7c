import ApiDocs.Proofs.Reference.Chains
import ApiDocs.Proofs.Reference.Integrity
import ApiDocs.Proofs.Reference.Sweep

/-!
# Where the comments of members come from

A member may take over its comment from an entry that has taken over its own comment before, and
overrides may lead anywhere, back to the same type included. Still every comment of a member can be
traced to a file: either it is what the file of the member's assembly has under the member's id, or
the member overrides another one, that file has nothing to say about it, and the comment is a usable
one from the file of some assembly.

The invariant of the sweep says of each member what has become of the entry as it was bound. A
comment that was taken over is usable, so a member that has one is not changed a second time, even
if its type has several turns.

## Main definitions

* `Inheritance.Derives`: what may become of a member.
* `Inheritance.Traces`: a state of the sweep in which all members were derived.
* `MemberEntry.OriginatesIn`, `TypeEntry.OriginatesIn`: what was built from a declaration and then
  went through the passes.
* `MemberEntry.Sourced`: the sources of a member's comment.
* `Reference.BoundFrom`, `Reference.Knows`: the input that an assembly was bound from, and the
  comments of all such inputs.

## Main results

* `Inheritance.Traces.modifyType`, `Inheritance.exists_traces_propagateAlong`: one turn and the
  whole sweep keep the invariant.
* `Reference.exists_origin_of_build`: what the types and members of a reference were built from.
* `Reference.sourced_of_build`: where the comments of a finished reference come from.
-/

namespace ApiDocs

namespace Inheritance

open Assemblies

/-! ### One member -/

/-- A comment stands in one of the files. -/
def IsFiled (files : List Comments) (c : Comment) : Prop :=
  ∃ file ∈ files, c ∈ file.entries

/-- What may become of a member: it stays as it is, or it has no comment to keep, overrides another
member, and adopts a usable comment from one of the files. -/
inductive Derives (files : List Comments) (m : MemberEntry) : MemberEntry → Prop
  | kept : Derives files m m
  | adopted {c : Comment} (hwanting : isWanting m.comment = true)
      (hlinked : m.overrides.isSome = true) (husable : isUsable c = true)
      (hfiled : IsFiled files c) : Derives files m (m.adopt c)

variable {index : TypeIndex} {files : List Comments} {as bs : List AssemblyEntry}

theorem isFiled_of_get? {file : Comments} (hfile : file ∈ files) {docId : String} {c : Comment}
    (h : file.get? docId = some c) : IsFiled files c :=
  ⟨file, hfile, List.mem_of_find?_eq_some h⟩

theorem isFiled_of_filedComment? {docId : String} {c : Comment}
    (h : filedComment? files docId = some c) : IsFiled files c := by
  obtain ⟨file, hfile, hget⟩ := List.mem_filterMap.mp (List.mem_of_find?_eq_some h)
  exact isFiled_of_get? hfile hget

namespace Derives

variable {m n : MemberEntry}

theorem outline_eq (h : Derives files m n) : n.outline = m.outline := by
  cases h with
  | kept => rfl
  | adopted => exact m.outline_adopt _

theorem overrides_eq (h : Derives files m n) : n.overrides = m.overrides :=
  congrArg (fun m ↦ m.overrides) h.outline_eq

/-- A comment that comes from a file and may be replaced by one from a file comes from a file. -/
theorem isFiled_comment (h : Derives files m n)
    (hown : ∃ file ∈ files, m.comment = file.get? m.docId) {c : Comment}
    (hc : n.comment = some c) : IsFiled files c := by
  cases h with
  | kept =>
    obtain ⟨file, hfile, hget⟩ := hown
    exact isFiled_of_get? hfile (hget.symm.trans hc)
  | adopted hwanting hlinked husable hfiled => exact Option.some.inj hc ▸ hfiled

/-- A turn of a member's type, if what the member finds there is usable and comes from a file. -/
theorem inheritMember (h : Derives files m n)
    (hfound : ∀ base, m.overrides = some base → ∀ c, inherited? index files bs base = some c →
      isUsable c = true ∧ IsFiled files c) :
    Derives files m (inheritMember index files bs n) := by
  unfold Inheritance.inheritMember
  cases h with
  | kept =>
    split_ifs with hwanting
    · cases hbind : m.overrides.bind (inherited? index files bs) with
      | none => exact .kept
      | some c =>
        obtain ⟨base, hbase, hc⟩ := Option.bind_eq_some_iff.mp hbind
        obtain ⟨husable, hfiled⟩ := hfound base hbase c hc
        exact .adopted hwanting (Option.isSome_iff_exists.mpr ⟨base, hbase⟩) husable hfiled
    · exact .kept
  | @adopted c hwanting hlinked husable hfiled =>
    -- the adopted comment is usable, so the member does not look for another one
    have hcontent : isWanting (m.adopt c).comment = false :=
      (Bool.not_eq_true' _).mp husable
    rw [if_neg (Bool.eq_false_iff.mp hcontent)]
    exact .adopted hwanting hlinked husable hfiled

end Derives

/-! ### States of the sweep -/

/-- A state of the sweep in which every member was derived from the one that was bound. -/
structure Traces (files : List Comments) (as bs : List AssemblyEntry)
    (g : Nat × Nat → MemberEntry → MemberEntry) : Prop extends Sweeps as bs g where
  derives : ∀ q, ∀ m ∈ membersAt as q, Derives files m (g q m)

theorem exists_type_of_mem_membersAt {q : Nat × Nat} {m : MemberEntry} (h : m ∈ membersAt as q) :
    ∃ t ∈ types as, m ∈ t.members.toList := by
  rw [membersAt] at h
  cases ht : typeAt? as q.1 q.2 with
  | none =>
    rw [ht] at h
    cases h
  | some t =>
    rw [ht] at h
    obtain ⟨a, ha, hslot⟩ := Option.bind_eq_some_iff.mp ht
    exact ⟨t, mem_types.mpr ⟨a, List.mem_of_getElem? ha, List.mem_of_getElem? hslot⟩, h⟩

namespace Traces

variable {g : Nat × Nat → MemberEntry → MemberEntry}

/-- The comment on the entry that an override leads to is in one of the files. -/
theorem isFiled_of_builtComment? (h : Traces files as bs g) (hfiled : CommentsFiled files as)
    {base : BoundMember} {c : Comment} (hc : builtComment? index bs base = some c) :
    IsFiled files c := by
  rw [builtComment?_eq, h.overridden?_eq] at hc
  obtain ⟨b, hb, hcomment⟩ := Option.bind_eq_some_iff.mp hc
  obtain ⟨⟨q, b₀⟩, hlead, rfl⟩ := Option.map_eq_some_iff.mp hb
  obtain ⟨place, -, hfind⟩ := Option.bind_eq_some_iff.mp hlead
  obtain ⟨b₁, hfirst, heq⟩ := Option.map_eq_some_iff.mp hfind
  obtain ⟨rfl, rfl⟩ := Prod.mk.inj heq
  have hmem := List.mem_of_find?_eq_some hfirst
  obtain ⟨t, ht, hm⟩ := exists_type_of_mem_membersAt hmem
  exact (h.derives _ _ hmem).isFiled_comment (hfiled.own t ht _ hm) hcomment

/-- What an override finds is usable and in one of the files. -/
theorem isFiled_of_inherited? (h : Traces files as bs g) (hfiled : CommentsFiled files as)
    {base : BoundMember} (hbase : ∃ file ∈ files, base.comment = file.get? base.docId)
    {c : Comment} (hc : inherited? index files bs base = some c) :
    isUsable c = true ∧ IsFiled files c := by
  rw [inherited?_eq_of_file hbase, Option.or_eq_some_iff] at hc
  rcases hc with hbuilt | ⟨-, hfound⟩
  · rw [Option.filter_eq_some_iff] at hbuilt
    exact ⟨hbuilt.2, h.isFiled_of_builtComment? hfiled hbuilt.1⟩
  · exact ⟨List.find?_some hfound, isFiled_of_filedComment? hfound⟩

/-- The next state: the type with an identifier has its turn. -/
theorem modifyType (h : Traces files as bs g) (hfiled : CommentsFiled files as) (index : TypeIndex)
    (id : TypeId) :
    ∃ g', Traces files as (Assemblies.modifyType id (inheritType index files bs) bs) g' := by
  refine ⟨_, h.toSweeps.modifyType index files id, fun q m hm ↦ ?_⟩
  split_ifs
  · obtain ⟨t, ht, hmem⟩ := exists_type_of_mem_membersAt hm
    refine (h.derives q m hm).inheritMember fun base hbase c hc ↦ ?_
    exact h.isFiled_of_inherited? hfiled (hfiled.standIn t ht m hmem base hbase) hc
  · exact h.derives q m hm

end Traces

/-- However the turns follow each other, all members were derived from those that were bound. -/
theorem exists_traces_propagateAlong (hfiled : CommentsFiled files as) (index : TypeIndex)
    (ids : List TypeId) {g : Nat × Nat → MemberEntry → MemberEntry} (h : Traces files as bs g) :
    ∃ g', Traces files as (propagateAlong index files ids bs) g' := by
  induction ids generalizing bs g with
  | nil => exact ⟨g, h⟩
  | cons id ids ih =>
    obtain ⟨g', hstep⟩ := h.modifyType hfiled index id
    exact ih hstep

theorem exists_traces_propagate (hfiled : CommentsFiled files as) (index : TypeIndex) :
    ∃ g, Traces files as (propagate index files as) g :=
  exists_traces_propagateAlong hfiled index _ ⟨sweeps_self as, fun _ _ _ ↦ .kept⟩

end Inheritance

/-! ### From inputs to members -/

/-- The entry of a member in the finished reference: it was built from a declaration with the
comments of its assembly, may have adopted a comment, and was numbered in the end. -/
def MemberEntry.OriginatesIn (own : Comments) (files : List Comments) (t : TypeEntry)
    (decl : MemberDecl) (m : MemberEntry) : Prop :=
  ∃ built final, MemberEntry.build own t.id t.fullName decl = .ok built ∧
    Inheritance.Derives files built final ∧ m.unnumbered = final.unnumbered

/-- The entry of a type in the finished reference, and the declared type that it was built from. -/
structure TypeEntry.OriginatesIn (own : Comments) (files : List Comments) (d : TypeDecl)
    (t : TypeEntry) : Prop where
  header_eq : t.header = d.toTypeHeader
  comment_eq : t.comment = own.get? (TypeName.docId d.fullName)
  genericParameters_eq : t.genericParameters =
    d.genericParameters.map (GenericParameter.bind t.comment)
  members : ∀ m ∈ t.members.toList, ∃ decl ∈ d.members, m.OriginatesIn own files t decl

theorem Comment.isPlaceholder_iff {c : Comment} :
    c.isPlaceholder = true ↔ c.inheritDoc = true ∧ c.summary = none := by
  rw [isPlaceholder, Bool.and_eq_true, Option.isNone_iff_eq_none]

/-- Where the comment of a member comes from, given the comments of its own assembly, the comments
that are known at all, and the declared type that holds the member. -/
structure MemberEntry.Sourced (own : Comments) (IsKnown : Comment → Prop) (t : TypeEntry)
    (d : TypeDecl) (m : MemberEntry) : Prop where
  /-- Apart from the comment with its texts and from the number among overloads, the entry is what
  was built from a member found on the type. -/
  built : ∃ decl ∈ d.members, ∃ e, MemberEntry.build own t.id t.fullName decl = .ok e ∧
    m.outline = e.outline
  /-- A comment that is not inherited is the one under the member's id. -/
  kept : m.isInherited = false → m.comment = own.get? m.docId
  /-- A member with an inherited comment is linked to a member that it overrides. -/
  linked : m.isInherited = true → m.overrides.isSome = true
  /-- A member with an inherited comment is declared by the type that holds it. -/
  declared : m.isInherited = true → m.decl.declaringType = t.fullName
  /-- Under the id of a member with an inherited comment there is no comment, or only one without a
  summary that asks for the inherited one. -/
  lacking : m.isInherited = true →
    ∀ c, own.get? m.docId = some c → c.inheritDoc = true ∧ c.summary = none
  /-- An inherited comment is known and does not itself ask for another one. -/
  taken : m.isInherited = true →
    ∃ c, m.comment = some c ∧ IsKnown c ∧ ¬ (c.inheritDoc = true ∧ c.summary = none)

/-- The comment of a member that was derived from a declared one. -/
theorem MemberEntry.OriginatesIn.sourced {own : Comments} {files : List Comments} {t : TypeEntry}
    {d : TypeDecl} {decl : MemberDecl} {m : MemberEntry} (h : m.OriginatesIn own files t decl)
    (hdecl : decl ∈ d.members) {IsKnown : Comment → Prop}
    (hknown : ∀ c, Inheritance.IsFiled files c → IsKnown c) : m.Sourced own IsKnown t d := by
  obtain ⟨built, final, hbuilt, hderives, hnumber⟩ := h
  have houtline : m.outline = built.outline :=
    (congrArg MemberEntry.outline hnumber).trans hderives.outline_eq
  have hid : m.docId = built.docId := congrArg (fun m ↦ m.docId) houtline
  have hcomment : m.comment = final.comment := congrArg (fun m ↦ m.comment) hnumber
  have hinherited : m.isInherited = final.isInherited := congrArg (fun m ↦ m.isInherited) hnumber
  have hown : built.comment = own.get? m.docId := hid ▸ (MemberEntry.comment_of_build hbuilt).1
  cases hderives with
  | kept =>
    have hnot : ¬ m.isInherited = true := by
      rw [hinherited, MemberEntry.isInherited_of_build hbuilt]
      exact Bool.false_ne_true
    exact {
      built := ⟨decl, hdecl, built, hbuilt, houtline⟩
      kept := fun _ ↦ hcomment.trans hown
      linked := fun h ↦ absurd h hnot
      declared := fun h ↦ absurd h hnot
      lacking := fun h ↦ absurd h hnot
      taken := fun h ↦ absurd h hnot }
  | @adopted c hwanting hlinked husable hfiled =>
    have hoverrides : m.overrides = built.overrides := congrArg (fun m ↦ m.overrides) houtline
    have hmember : m.decl = built.decl := congrArg (fun m ↦ m.decl) houtline
    exact {
      built := ⟨decl, hdecl, built, hbuilt, houtline⟩
      kept := fun h ↦ absurd (hinherited.symm.trans h) Bool.true_eq_false.mp
      linked := fun _ ↦ hoverrides ▸ hlinked
      declared := fun _ ↦ hmember ▸ MemberEntry.declaringType_of_build hbuilt hlinked
      lacking := fun _ c hc ↦ by
        rw [hown, hc] at hwanting
        exact Comment.isPlaceholder_iff.mp hwanting
      taken := fun _ ↦ by
        refine ⟨c, hcomment, hknown c hfiled, fun hplaceholder ↦ ?_⟩
        rw [Inheritance.isUsable, Comment.isPlaceholder_iff.mpr hplaceholder] at husable
        cases husable }

namespace Reference

open Assemblies

/-- An assembly of a reference was bound from the input in the place that its identifier names. -/
def BoundFrom (inputs : List AssemblyInput) (a : AssemblyEntry) (input : AssemblyInput) : Prop :=
  ∃ i, inputs[i]? = some input ∧ a.id = .ofNat i ∧ a.name = input.source.name

section

variable {inclusion : Inclusion} {filter : MemberFilter} {inputs : List AssemblyInput}

/-- An assembly with the outline of one that was bound was bound from the same input. -/
theorem exists_boundFrom {p : AssemblyEntry × Comments}
    (hp : p ∈ boundEntries (bindAll inclusion filter inputs)) {a : AssemblyEntry}
    (ha : a.outline = p.1.outline) :
    ∃ input, BoundFrom inputs a input ∧ p.2 = input.loaded ∧
      AssemblyEntry.build inclusion filter p.1.id input.source p.2 = .ok p.1 := by
  obtain ⟨i, input, hinput, hid, hcomments, hbuild⟩ := exists_place_of_mem_boundEntries hp
  have hname : p.1.name = input.source.name := by
    obtain ⟨_, _, _, -, -, -, -, heq⟩ := AssemblyEntry.exists_of_build hbuild
    rw [heq]
  refine ⟨input, ⟨i, hinput, ?_, ?_⟩, hcomments, hbuild⟩
  · exact (congrArg (fun a ↦ a.id) ha).trans hid
  · exact (congrArg (fun a ↦ a.name) ha).trans hname

end

/-- A type that the passes leave in a place originates in a declared type of the assembly in that
place. -/
theorem exists_originatesIn_of_complete {files : List Comments} {as : List AssemblyEntry}
    (hfiled : Inheritance.CommentsFiled files as) {inclusion : Inclusion} {filter : MemberFilter}
    {id : AssemblyId} {source : AssemblySource} {own : Comments} {a₀ : AssemblyEntry}
    (hbuild : AssemblyEntry.build inclusion filter id source own = .ok a₀) {i j : Nat}
    (ha₀ : as[i]? = some a₀) {index : TypeIndex} {t : TypeEntry}
    (ht : t ∈ typeAt? (complete inclusion index files as) i j) :
    ∃ declared, source.load = .ok declared ∧ ∃ d ∈ declared, t.OriginatesIn own files d := by
  obtain ⟨g, hg⟩ := Inheritance.exists_traces_propagate hfiled index
  obtain ⟨t₀, ht₀, houtline, hget⟩ :=
    exists_typeAt?_of_complete inclusion (hg.typeAt?_eq (i, j)) ht
  have hslot : a₀.types[j]? = some t₀ := by
    rwa [Option.mem_def, typeAt?, ha₀, Option.bind_some] at ht₀
  obtain ⟨declared, hload, d, hd, u, hu, heq⟩ :=
    AssemblyEntry.exists_decl_build_of_getElem? hbuild hslot
  have hmember (m₀ : MemberEntry) (hm₀ : m₀ ∈ t₀.members.toList) :
      ∃ decl ∈ d.members, MemberEntry.build own (.ofSlot id j) d.fullName decl = .ok m₀ := by
    rw [heq] at hm₀
    exact TypeEntry.exists_decl_of_mem_members hu hm₀
  obtain ⟨entries, -, rfl⟩ := TypeEntry.exists_of_build hu
  have hid : t.id = .ofSlot id j :=
    (congrArg (fun t ↦ t.id) houtline).trans (congrArg (fun t ↦ t.id) heq)
  have hheader : t.header = d.toTypeHeader :=
    (congrArg (fun t ↦ t.header) houtline).trans (congrArg (fun t ↦ t.header) heq)
  have hcomment : t.comment = own.get? (TypeName.docId d.fullName) :=
    (congrArg (fun t ↦ t.comment) houtline).trans (congrArg (fun t ↦ t.comment) heq)
  have hgenerics : t.genericParameters =
      d.genericParameters.map (GenericParameter.bind (own.get? (TypeName.docId d.fullName))) :=
    (congrArg (fun t ↦ t.genericParameters) houtline).trans
      (congrArg (fun t ↦ t.genericParameters) heq)
  refine ⟨declared, hload, d, hd, hheader, hcomment, hcomment ▸ hgenerics, fun m hm ↦ ?_⟩
  obtain ⟨group, hm⟩ := MemberTable.mem_toList.mp hm
  have hmem := List.mem_map_of_mem (f := MemberEntry.unnumbered) hm
  rw [hget] at hmem
  obtain ⟨final, hfinal, hnumber⟩ := List.mem_map.mp hmem
  obtain ⟨m₀, hm₀, rfl⟩ := List.mem_map.mp (List.mem_of_mem_filter hfinal)
  have hlisted : m₀ ∈ t₀.members.toList := MemberTable.mem_toList.mpr ⟨group, hm₀⟩
  obtain ⟨decl, hdecl, hbuilt⟩ := hmember m₀ hlisted
  refine ⟨decl, hdecl, m₀, g (i, j) m₀, ?_, hg.derives (i, j) m₀ ?_, hnumber.symm⟩
  · rw [hid, TypeEntry.fullName, hheader]
    exact hbuilt
  · rwa [Inheritance.membersAt_of_typeAt? ht₀]

/-- Every assembly of a reference was bound from an input, and its types and their members originate
in what the input declares. -/
theorem exists_origin_of_build {inclusion : Inclusion} {filter : MemberFilter}
    {inputs : List AssemblyInput} {namespaceComments : Option CommentSource} {r : Reference}
    (h : build inclusion filter inputs namespaceComments = .ok r) {a : AssemblyEntry}
    (ha : a ∈ r.assemblies) :
    ∃ input, BoundFrom inputs a input ∧ ∃ declared, input.source.load = .ok declared ∧
      ∀ t ∈ a.types, ∃ d ∈ declared, t.OriginatesIn input.loaded
        ((boundEntries (bindAll inclusion filter inputs)).map Prod.snd) d := by
  obtain ⟨-, rfl⟩ := build_eq_ok_iff.mp h
  obtain ⟨i, hi⟩ := List.getElem?_of_mem ha
  obtain ⟨a₀, ha₀, houtline⟩ := exists_getElem?_outline_eq outline_complete.symm hi
  obtain ⟨p, hp, rfl⟩ := List.mem_map.mp (List.mem_of_getElem? ha₀)
  obtain ⟨input, hfrom, hcomments, hbuild⟩ := exists_boundFrom hp houtline.symm
  obtain ⟨declared, -, -, hload, -⟩ := AssemblyEntry.exists_of_build hbuild
  refine ⟨input, hfrom, declared, hload, fun t ht ↦ ?_⟩
  obtain ⟨j, hj⟩ := List.getElem?_of_mem ht
  obtain ⟨declared', hload', d, hd, horigin⟩ := exists_originatesIn_of_complete
    Inheritance.commentsFiled_boundEntries hbuild ha₀ (Option.bind_eq_some_iff.mpr ⟨a, hi, hj⟩)
  obtain rfl := Except.ok.inj (hload.symm.trans hload')
  exact ⟨d, hd, hcomments ▸ horigin⟩

/-- A comment is one of those that an input comes with from which an assembly of the reference was
bound. -/
def Knows (inputs : List AssemblyInput) (r : Reference) (c : Comment) : Prop :=
  ∃ b ∈ r.assemblies, ∃ input, BoundFrom inputs b input ∧ c ∈ input.loaded.entries

theorem knows_of_isFiled {inclusion : Inclusion} {filter : MemberFilter}
    {inputs : List AssemblyInput} {namespaceComments : Option CommentSource} {r : Reference}
    (h : build inclusion filter inputs namespaceComments = .ok r) {c : Comment}
    (hc : Inheritance.IsFiled ((boundEntries (bindAll inclusion filter inputs)).map Prod.snd) c) :
    r.Knows inputs c := by
  obtain ⟨-, rfl⟩ := build_eq_ok_iff.mp h
  obtain ⟨file, hfile, hmem⟩ := hc
  obtain ⟨p, hp, rfl⟩ := List.mem_map.mp hfile
  obtain ⟨i, hi⟩ := List.getElem?_of_mem (List.mem_map_of_mem (f := Prod.fst) hp)
  obtain ⟨b, hb, houtline⟩ := exists_getElem?_outline_eq outline_complete hi
  obtain ⟨input, hfrom, hcomments, -⟩ := exists_boundFrom hp houtline
  exact ⟨b, List.mem_of_getElem? hb, input, hfrom, hcomments ▸ hmem⟩

/-- **Where the comments of a finished reference come from.** Every assembly was bound from an
input. The comment of a member of its types is the one that the input has under the member's id,
unless it is inherited. A comment is inherited only by a member that overrides another one and has
no comment of its own but for a placeholder, and it comes from one of the inputs that were bound.
Nothing else of the member has changed since its entry was built, apart from its number among
overloads. -/
theorem sourced_of_build {inclusion : Inclusion} {filter : MemberFilter}
    {inputs : List AssemblyInput} {namespaceComments : Option CommentSource} {r : Reference}
    (h : build inclusion filter inputs namespaceComments = .ok r) :
    ∀ a ∈ r.assemblies, ∃ input, BoundFrom inputs a input ∧
      ∃ declared, input.source.load = .ok declared ∧
      ∀ t ∈ a.types, ∃ d ∈ declared, t.header = d.toTypeHeader ∧
      ∀ m ∈ t.members.toList, m.Sourced input.loaded (r.Knows inputs) t d := by
  intro a ha
  obtain ⟨input, hfrom, declared, hload, htypes⟩ := exists_origin_of_build h ha
  refine ⟨input, hfrom, declared, hload, fun t ht ↦ ?_⟩
  obtain ⟨d, hd, horigin⟩ := htypes t ht
  refine ⟨d, hd, horigin.header_eq, fun m hm ↦ ?_⟩
  obtain ⟨decl, hdecl, hmember⟩ := horigin.members m hm
  exact hmember.sourced hdecl fun c hc ↦ knows_of_isFiled h hc

/-! ### A comment that is taken over twice -/

/-- A method that scales things of a type by a factor of some kind. -/
def scaleOf (type : String) : MemberDecl :=
  ((MemberDecl.methodOf type "Scale" .void).withGenericParameter "T").withParameter "by"
    (.named "Factor" [])

/-- Discs override a method of shapes and have a placeholder in the place of its comment, with a
text about the parameter. Rings override the method of discs and have no comment on it. -/
def scaleInputs : List AssemblyInput :=
  [⟨⟨"Shapes", .ok [(TypeDecl.classNamed "Shape").withMember (scaleOf "Shape")]⟩,
      some (.memory (.ofList none
        [{ key := "T:Shape" },
          { key := "M:Shape.Scale``1(Factor)"
            summary := some "Scales the shape."
            params := [⟨"by", "The factor."⟩, ⟨"by", "The factor, once more."⟩]
            typeParams := [⟨"T", "The kind of factor."⟩] }]))⟩,
    ⟨⟨"Discs", .ok
        [(((TypeDecl.classNamed "Disc`1").withBase (.named "Shape" [])).withGenericParameter "U")
            |>.withMember ((scaleOf "Disc`1").withBaseDefinition (scaleOf "Shape"))
            |>.withMember (.fieldOf "Disc`1" "edge" .void),
          ((TypeDecl.classNamed "Ring").withBase (.named "Disc`1" [.named "Steel" []])).withMember
            ((scaleOf "Ring").withBaseDefinition (scaleOf "Disc`1"))]⟩,
      some (.memory (.ofList none
        [{ key := "T:Disc`1", typeParams := [⟨"U", "What discs are made of."⟩] },
          { key := "M:Disc`1.Scale``1(Factor)"
            inheritDoc := true
            params := [⟨"by", "The factor for discs."⟩] },
          { key := "F:Disc`1.edge", summary := some "The edge." },
          { key := "T:Ring" }]))⟩]

/-- The reference of shapes, discs and rings. -/
def scales : Reference :=
  ofBindings {} (bindAll {} .all scaleInputs) none

theorem build_scaleInputs : build {} .all scaleInputs none = .ok scales :=
  build_eq_ok_iff.mpr ⟨by decide +kernel, rfl⟩

theorem assemblies_scales :
    scales.assemblies = Inheritance.completeAlong [⟨⟨0⟩, 0⟩, ⟨⟨1⟩, 0⟩, ⟨⟨1⟩, 1⟩] {}
      (boundEntries (bindAll {} .all scaleInputs)) :=
  Inheritance.assemblies_ofBindings _ _
    ((Inheritance.order_eq_of_pairwise (by decide +kernel)).trans (by decide +kernel))

theorem sourced_of_build_scaleInputs :
    build {} .all scaleInputs none = .ok scales ∧
      ((Assemblies.types scales.assemblies).map fun t ↦ t.members.toList.map fun m ↦
          (m.docId, m.isInherited, m.comment.bind fun c ↦ c.summary)) =
        [[("M:Shape.Scale``1(Factor)", false, some "Scales the shape.")],
          [("F:Disc`1.edge", false, some "The edge."),
            ("M:Disc`1.Scale``1(Factor)", true, some "Scales the shape.")],
          [("M:Ring.Scale``1(Factor)", true, some "Scales the shape.")]] ∧
      ∀ a ∈ scales.assemblies, ∃ input, BoundFrom scaleInputs a input ∧
        ∃ declared, input.source.load = .ok declared ∧
        ∀ t ∈ a.types, ∃ d ∈ declared, t.header = d.toTypeHeader ∧
        ∀ m ∈ t.members.toList, m.Sourced input.loaded (scales.Knows scaleInputs) t d := by
  refine ⟨build_scaleInputs, ?_, sourced_of_build build_scaleInputs⟩
  rw [assemblies_scales]
  decide +kernel

end Reference

end ApiDocs
