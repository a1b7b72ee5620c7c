import ApiDocs.Proofs.Reference.Provenance

/-!
# Texts about parameters

Parameters are listed with the texts that a comment has about them, in two places: when the entry of
a member or type is built, and again when a member takes over another comment. The second time all
texts of the first comment go, also those about names that the new comment does not mention. So the
texts always are those of the comment that the entry has.

A comment may have several texts under one name. The first one counts.

## Main definitions

* `Labelled.IsFirst`, `Comment.Notes`: the text of a comment about something.
* `BoundMember.Annotated`, `TypeEntry.Annotated`: the parameters are the declared ones, each with
  the text of the entry's comment about it.

## Main results

* `BoundMember.Binds.adopt`: taking over a comment binds all parameters anew.
* `Reference.annotated_of_build`: the parameters in a finished reference.
-/

namespace ApiDocs

/-! ### What a comment says -/

/-- The first of several texts that has a label. -/
def Labelled.IsFirst (label : String) (texts : List Labelled) (e : Labelled) : Prop :=
  ∃ before after, texts = before ++ e :: after ∧ e.label = label ∧ ∀ x ∈ before, x.label ≠ label

/-- A note is what a comment says under a label: the first of the texts with this label, and nothing
if there is no such text or no comment. -/
def Comment.Notes (texts : Comment → List Labelled) (comment : Option Comment) (label : String)
    (note : Option Labelled) : Prop :=
  ∀ e, note = some e ↔ ∃ c, comment = some c ∧ Labelled.IsFirst label (texts c) e

theorem Labelled.find?_eq_some_iff_isFirst {label : String} {texts : List Labelled}
    {e : Labelled} : (texts.find? fun x ↦ x.label == label) = some e ↔ IsFirst label texts e := by
  rw [List.find?_eq_some_iff_append]
  constructor
  · rintro ⟨hlabel, before, after, heq, hbefore⟩
    refine ⟨before, after, heq, eq_of_beq hlabel, fun x hx hx' ↦ ?_⟩
    have hne := hbefore x hx
    rw [hx', beq_self_eq_true] at hne
    cases hne
  · rintro ⟨before, after, heq, hlabel, hbefore⟩
    refine ⟨beq_of_eq hlabel, before, after, heq, fun x hx ↦ ?_⟩
    rw [beq_false_of_ne (hbefore x hx)]
    rfl

/-- A search for the label finds what the comment says. -/
theorem Comment.notes_find? (texts : Comment → List Labelled) (comment : Option Comment)
    (label : String) :
    Notes texts comment label
      (comment.bind fun c ↦ (texts c).find? fun x ↦ x.label == label) := by
  intro e
  rw [Option.bind_eq_some_iff]
  exact exists_congr fun c ↦ and_congr_right fun _ ↦ Labelled.find?_eq_some_iff_isFirst

theorem Parameter.notes_bind (comment : Option Comment) (p : Parameter) :
    Comment.Notes Comment.params comment p.name (p.bind comment).note :=
  Comment.notes_find? Comment.params comment p.name

theorem GenericParameter.notes_bind (comment : Option Comment) (p : GenericParameter) :
    Comment.Notes Comment.typeParams comment p.name (p.bind comment).note :=
  Comment.notes_find? Comment.typeParams comment p.name

/-! ### Members -/

namespace BoundMember

/-- The parameters of a member are the declared ones, each with the text of the member's comment
about it. -/
structure Annotated (b : BoundMember) : Prop where
  parameters_eq : b.parameters.map BoundParameter.toParameter = b.decl.parameters
  genericParameters_eq :
    b.genericParameters.map BoundGeneric.toGenericParameter = b.decl.genericParameters
  notes : ∀ p ∈ b.parameters, Comment.Notes Comment.params b.comment p.name p.note
  genericNotes : ∀ p ∈ b.genericParameters,
    Comment.Notes Comment.typeParams b.comment p.name p.note

/-- The parameters are the declared ones, bound to the member's comment. -/
def Binds (b : BoundMember) : Prop :=
  b.parameters = b.decl.parameters.map (Parameter.bind b.comment) ∧
    b.genericParameters = b.decl.genericParameters.map (GenericParameter.bind b.comment)

theorem binds_of_ofDecl {comments : Comments} {owner : MemberOwner} {reflectedType : String}
    {decl : MemberDecl} {b : BoundMember} (h : ofDecl comments owner reflectedType decl = .ok b) :
    b.Binds := by
  obtain ⟨docId, -, rfl⟩ := exists_of_ofDecl h
  exact ⟨rfl, rfl⟩

/-- Taking over a comment binds all parameters anew, whatever they were bound to. -/
theorem Binds.adopt {b : BoundMember} (h : b.Binds) (c : Comment) : (b.adopt c).Binds := by
  constructor
  · change b.parameters.map (BoundParameter.rebind (some c)) = _
    rw [h.1, List.map_map]
    rfl
  · change b.genericParameters.map (BoundGeneric.rebind (some c)) = _
    rw [h.2, List.map_map]
    rfl

theorem Binds.annotated {b : BoundMember} (h : b.Binds) : b.Annotated := by
  refine ⟨?_, ?_, fun p hp ↦ ?_, fun p hp ↦ ?_⟩
  · rw [h.1, List.map_map]
    exact List.map_id _
  · rw [h.2, List.map_map]
    exact List.map_id _
  · rw [h.1] at hp
    obtain ⟨q, -, rfl⟩ := List.mem_map.mp hp
    exact q.notes_bind b.comment
  · rw [h.2] at hp
    obtain ⟨q, -, rfl⟩ := List.mem_map.mp hp
    exact q.notes_bind b.comment

end BoundMember

theorem Inheritance.Derives.binds {files : List Comments} {m n : MemberEntry}
    (h : Derives files m n) (hbinds : m.toBoundMember.Binds) : n.toBoundMember.Binds := by
  cases h with
  | kept => exact hbinds
  | adopted => exact hbinds.adopt _

namespace MemberEntry

theorem binds_of_build {comments : Comments} {owner : TypeId} {buildingType : String}
    {decl : MemberDecl} {m : MemberEntry} (h : build comments owner buildingType decl = .ok m) :
    m.toBoundMember.Binds := by
  obtain ⟨bound, overrides, hbound, -, rfl⟩ := exists_of_build h
  exact BoundMember.binds_of_ofDecl hbound

/-- The stand-in for what a member overrides is bound as a member is. -/
theorem binds_of_overrides {comments : Comments} {owner : TypeId} {buildingType : String}
    {decl : MemberDecl} {m : MemberEntry} (h : build comments owner buildingType decl = .ok m)
    {base : BoundMember} (hbase : m.overrides = some base) :
    decl.baseDefinition = some base.decl ∧ base.Binds := by
  obtain ⟨bound, overrides, -, ho, rfl⟩ := exists_of_build h
  obtain ⟨baseDecl, hoverridden, hofDecl⟩ := exists_of_buildOverride ho hbase
  have hdecl : base.decl = baseDecl := by
    obtain ⟨docId, -, rfl⟩ := BoundMember.exists_of_ofDecl hofDecl
    rfl
  refine ⟨?_, BoundMember.binds_of_ofDecl hofDecl⟩
  unfold MemberDecl.overridden? at hoverridden
  split_ifs at hoverridden
  rw [hdecl]
  exact (Option.filter_eq_some_iff.mp hoverridden).1

/-- A member that originates in a declared one is annotated, and so is the stand-in for what it
overrides. -/
theorem OriginatesIn.annotated {own : Comments} {files : List Comments} {t : TypeEntry}
    {decl : MemberDecl} {m : MemberEntry} (h : m.OriginatesIn own files t decl) :
    m.decl = decl ∧ m.toBoundMember.Annotated ∧
      ∀ base ∈ m.overrides, decl.baseDefinition = some base.decl ∧ base.Annotated := by
  obtain ⟨built, final, hbuilt, hderives, hnumber⟩ := h
  have hbound : m.toBoundMember = final.toBoundMember :=
    congrArg (fun m ↦ m.toBoundMember) hnumber
  have hoverrides : m.overrides = built.overrides :=
    (congrArg (fun m ↦ m.overrides) hnumber).trans hderives.overrides_eq
  have hdecl : m.decl = built.decl :=
    (congrArg (fun m ↦ m.decl) hnumber).trans (congrArg (fun m ↦ m.decl) hderives.outline_eq)
  refine ⟨hdecl.trans (decl_of_build hbuilt), ?_, fun base hbase ↦ ?_⟩
  · rw [hbound]
    exact (hderives.binds (binds_of_build hbuilt)).annotated
  · obtain ⟨hbaseDecl, hbinds⟩ := binds_of_overrides hbuilt (hoverrides.symm.trans hbase)
    exact ⟨hbaseDecl, hbinds.annotated⟩

end MemberEntry

/-! ### Types and references -/

/-- The generic parameters of a type are the declared ones, each with the text of the type's comment
about it. -/
structure TypeEntry.Annotated (t : TypeEntry) : Prop where
  genericParameters_eq :
    t.genericParameters.map BoundGeneric.toGenericParameter = t.header.genericParameters
  genericNotes : ∀ p ∈ t.genericParameters,
    Comment.Notes Comment.typeParams t.comment p.name p.note

theorem TypeEntry.OriginatesIn.annotated {own : Comments} {files : List Comments} {d : TypeDecl}
    {t : TypeEntry} (h : t.OriginatesIn own files d) : t.Annotated := by
  refine ⟨?_, fun p hp ↦ ?_⟩
  · rw [h.genericParameters_eq, h.header_eq, List.map_map]
    exact List.map_id _
  · rw [h.genericParameters_eq] at hp
    obtain ⟨q, -, rfl⟩ := List.mem_map.mp hp
    exact q.notes_bind t.comment

namespace Reference

/-- **Parameters of a finished reference.** The parameters and generic parameters of every member,
and of every stand-in for a member that one overrides, are the declared ones in their order. The
text about a parameter is the first one under exactly its name in the comment that the member has in
the end. The same holds of the generic parameters of types. -/
theorem annotated_of_build {inclusion : Inclusion} {filter : MemberFilter}
    {inputs : List AssemblyInput} {namespaceComments : Option CommentSource} {r : Reference}
    (h : build inclusion filter inputs namespaceComments = .ok r) :
    ∀ a ∈ r.assemblies, ∃ input, BoundFrom inputs a input ∧
      ∃ declared, input.source.load = .ok declared ∧
      ∀ t ∈ a.types, ∃ d ∈ declared, t.header = d.toTypeHeader ∧ t.Annotated ∧
      ∀ m ∈ t.members.toList, m.decl ∈ d.members ∧ m.toBoundMember.Annotated ∧
        ∀ base ∈ m.overrides, m.decl.baseDefinition = some base.decl ∧ base.Annotated := by
  intro a ha
  obtain ⟨input, hfrom, declared, hload, htypes⟩ := exists_origin_of_build h ha
  refine ⟨input, hfrom, declared, hload, fun t ht ↦ ?_⟩
  obtain ⟨d, hd, horigin⟩ := htypes t ht
  refine ⟨d, hd, horigin.header_eq, horigin.annotated, fun m hm ↦ ?_⟩
  obtain ⟨decl, hdecl, hmember⟩ := horigin.members m hm
  obtain ⟨rfl, hannotated⟩ := hmember.annotated
  exact ⟨hdecl, hannotated⟩

/-- The texts of a member about its parameters, and then those about its generic parameters. -/
def notesOf (b : BoundMember) : List (Option Labelled) :=
  b.parameters.map BoundParameter.note ++ b.genericParameters.map BoundGeneric.note

/-- Discs and rings have the texts of the comment on shapes, of two texts about the factor the first
one, and no longer the text about the factor for discs. The stand-in for what rings override still
has it. -/
theorem annotated_of_build_scaleInputs :
    build {} .all scaleInputs none = .ok scales ∧
      ((Assemblies.types scales.assemblies).map fun t ↦
          t.members.methods.map fun m ↦ notesOf m.toBoundMember) =
        [[[some ⟨"by", "The factor."⟩, some ⟨"T", "The kind of factor."⟩]],
          [[some ⟨"by", "The factor."⟩, some ⟨"T", "The kind of factor."⟩]],
          [[some ⟨"by", "The factor."⟩, some ⟨"T", "The kind of factor."⟩]]] ∧
      ((Assemblies.types scales.assemblies).map fun t ↦
          t.members.methods.map fun m ↦ m.overrides.map notesOf) =
        [[none], [some [none, none]], [some [some ⟨"by", "The factor for discs."⟩, none]]] ∧
      ((Assemblies.types scales.assemblies).map fun t ↦
          t.genericParameters.map BoundGeneric.note) =
        [[], [some ⟨"U", "What discs are made of."⟩], []] ∧
      ∀ a ∈ scales.assemblies, ∃ input, BoundFrom scaleInputs a input ∧
        ∃ declared, input.source.load = .ok declared ∧
        ∀ t ∈ a.types, ∃ d ∈ declared, t.header = d.toTypeHeader ∧ t.Annotated ∧
        ∀ m ∈ t.members.toList, m.decl ∈ d.members ∧ m.toBoundMember.Annotated ∧
          ∀ base ∈ m.overrides, m.decl.baseDefinition = some base.decl ∧ base.Annotated := by
  refine ⟨build_scaleInputs, ?_, ?_, ?_, annotated_of_build build_scaleInputs⟩ <;>
    rw [assemblies_scales] <;>
    decide +kernel

end Reference

end ApiDocs
