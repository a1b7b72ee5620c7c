import ApiDocs.Comment.Source
import ApiDocs.Proofs.Comment.Reading
import ApiDocs.Proofs.Markup.Escape

/-!
# Documentation files written and read

Comments are written as a documentation file: a header with the name of the assembly, and a member
for each comment with an element for each of its sections. Reading the file gives the comments back,
if what is trimmed and normalised on reading is trimmed and normalised already, and if the texts are
content that can stand in an element.

## Main definitions

* `SectionDraft`: a section to be written.
* `Comment.drafts`: the sections of a comment in the order in which they are written.
* `Comments.render`: the documentation file with given comments.
* `Comments.IsWritable`: comments that a documentation file can hold.

## Main results

* `Section.comment_sections`: the sections of a comment make up the comment.
* `Comments.IsWritable.exists_scan_render`: what a written file is read as.
* `CommentSource.parse_render`: reading a written file gives the comments back.
-/

namespace ApiDocs

open Markup

/-! ### Writing -/

/-- A section to be written. -/
structure SectionDraft where
  /-- The name of the section's element. -/
  name : String
  /-- The key and the value of the attribute that says what the section is about. -/
  about : Option (String × String)
  /-- The text; without one, the section is written as a self-closing tag. -/
  text : Option String

/-- An element without blanks in its closing tag. -/
def Markup.elementText (name : String) (attributes inner : List Char) : List Char :=
  startTag name.toList attributes ++ (inner ++ endTag name.toList [])

namespace SectionDraft

/-- The section's attribute as it is written. -/
def attributes (d : SectionDraft) : List Char :=
  match d.about with
  | some (key, value) => attributeText key.toList value.toList
  | none => []

/-- The section as it is written. -/
def written (d : SectionDraft) : List Char :=
  match d.text with
  | some text => elementText d.name d.attributes text.toList
  | none => singleTag d.name.toList d.attributes

end SectionDraft

namespace Comment

/-- The sections of a comment that have a given tag, among the tags that have a meaning. -/
def known (c : Comment) (tag : String) : List SectionDraft :=
  match tag with
  | "summary" => c.summary.toList.map fun text ↦ ⟨tag, none, some text⟩
  | "remarks" => c.remarks.toList.map fun text ↦ ⟨tag, none, some text⟩
  | "returns" => c.returns.toList.map fun text ↦ ⟨tag, none, some text⟩
  | "value" => c.value.toList.map fun text ↦ ⟨tag, none, some text⟩
  | "example" => c.sample.toList.map fun text ↦ ⟨tag, none, some text⟩
  | "param" => c.params.map fun p ↦ ⟨tag, some ("name", p.label), some p.text⟩
  | "typeparam" => c.typeParams.map fun p ↦ ⟨tag, some ("name", p.label), some p.text⟩
  | "exception" => c.exceptions.map fun e ↦ ⟨tag, some ("cref", e.label), some e.text⟩
  | "seealso" => c.seeAlso.map fun id ↦ ⟨tag, some ("cref", id), none⟩
  | "inheritdoc" => if c.inheritDoc then [⟨tag, none, none⟩] else []
  | _ => []

/-- The sections of a comment in the order in which they are written. -/
def drafts (c : Comment) : List SectionDraft :=
  Section.knownTags.flatMap c.known ++ c.other.map fun p ↦ ⟨p.label, none, some p.text⟩

/-- The member of a comment as it is written. -/
def written (c : Comment) : List Char :=
  elementText "member" (attributeText "name".toList c.key.toList)
    (c.drafts.flatMap SectionDraft.written)

/-- The texts of all sections of a comment. -/
def texts (c : Comment) : List String :=
  [c.summary, c.remarks, c.returns, c.value, c.sample].flatMap Option.toList ++
    (c.params ++ c.typeParams ++ c.exceptions ++ c.other).map Labelled.text

end Comment

namespace Comments

/-- The header of a documentation file. -/
def header (cs : Comments) : List Char :=
  match cs.assemblyName with
  | some name => elementText "assembly" [] (elementText "name" [] name.toList)
  | none => []

/-- The documentation file with given comments. -/
def render (cs : Comments) : String :=
  String.ofList (elementText "doc" [] (cs.header ++ cs.entries.flatMap Comment.written))

end Comments

example : (Comments.ofList (some "Shapes")
      [{ key := "T:Box<T>", summary := some "A box.", seeAlso := ["T:Disc"] }]).render =
    "<doc><assembly><name>Shapes</name></assembly><member name=\"T:Box&lt;T&gt;\">" ++
      "<summary>A box.</summary><seealso cref=\"T:Disc\"/></member></doc>" := by
  decide +kernel

/-! ### What can be written -/

/-- The text is normalised, and markup in it is balanced. -/
structure IsSectionText (text : String) : Prop where
  normalize_eq : Text.normalize text = text
  content : Content text.toList

/-- The comment can be written: what is trimmed on reading is trimmed, the texts can stand in
elements, and the tags of other sections are names without a meaning of their own. -/
structure Comment.IsWritable (c : Comment) : Prop where
  trim_key : Text.trim c.key = c.key
  trim_label : ∀ p ∈ c.params ++ c.typeParams, Text.trim p.label = p.label
  isSectionText : ∀ text ∈ c.texts, IsSectionText text
  isName_label : ∀ p ∈ c.other, isName p.label.toList = true
  label_notMem : ∀ p ∈ c.other, p.label ∉ Section.knownTags

/-- The comments can be written, and so can the name of the assembly. -/
structure Comments.IsWritable (cs : Comments) : Prop where
  header : ∀ name ∈ cs.assemblyName, IsSectionText name
  entries : ∀ c ∈ cs.entries, c.IsWritable

/-! ### Sections -/

/-- The name of a tag is what stands before its attributes. -/
theorem Markup.name_toList {name : String} {attributes : List Char}
    (hname : isName name.toList = true) (hattributes : Attributes attributes) :
    (Tag.mk (name.toList ++ attributes)).name = name := by
  rw [name_mk hname hattributes, String.ofList_toList]

namespace SectionDraft

/-- The tag of the section's element. -/
def tag (d : SectionDraft) : Tag :=
  ⟨d.name.toList ++ d.attributes⟩

/-- The section that is read where the draft was written. -/
def toSection (d : SectionDraft) : Section :=
  ⟨d.tag, d.text.getD ""⟩

/-- The names in the draft are names, and its text can stand in an element. -/
structure IsSound (d : SectionDraft) : Prop where
  isName_name : isName d.name.toList = true
  isName_key : ∀ a ∈ d.about, isName a.1.toList = true
  isSectionText : ∀ text ∈ d.text, IsSectionText text

variable {d : SectionDraft}

theorem IsSound.attributes (h : d.IsSound) : Attributes d.attributes := by
  rw [SectionDraft.attributes]
  split
  · rename_i key value habout
    exact attributes_attributeText (h.isName_key (key, value) habout) value.toList
  · exact .blank nofun

theorem IsSound.name_tag (h : d.IsSound) : d.tag.name = d.name :=
  name_toList h.isName_name h.attributes

theorem IsSound.attribute?_tag (h : d.IsSound) {key value : String}
    (habout : d.about = some (key, value)) : d.tag.attribute? key = .ok (some value) := by
  have hkey := h.isName_key _ habout
  have hread := attribute?_attributeText h.isName_name hkey value.toList
  rw [String.ofList_toList, String.ofList_toList] at hread
  rw [tag, SectionDraft.attributes, habout]
  exact hread

/-- A written section is read as one node, which is the section. -/
theorem IsSound.exists_scans (h : d.IsSound) :
    ∃ node, Scans d.written [node] ∧ node.section? = some d.toSection := by
  rw [written, toSection]
  cases htext : d.text with
  | some text =>
    have htext' := h.isSectionText text htext
    obtain ⟨nodes, hnodes⟩ := htext'.content.exists_scansInside
    refine ⟨_, scans_element h.isName_name h.attributes hnodes nofun, ?_⟩
    rw [Node.section?, hnodes.markup_eq, String.ofList_toList, htext'.normalize_eq]
    rfl
  | none => exact ⟨_, scans_singleTag h.isName_name h.attributes, rfl⟩

end SectionDraft

namespace Comment

variable {c : Comment} {d : SectionDraft} {tag : String}

/-- The key of the attribute that a section with a given tag has. -/
def attributeKey? (tag : String) : Option String :=
  if tag ∈ ["param", "typeparam"] then some "name"
  else if tag ∈ ["exception", "seealso"] then some "cref"
  else none

theorem mem_texts {p : Labelled} (h : p ∈ c.params ++ c.typeParams ++ c.exceptions ++ c.other) :
    p.text ∈ c.texts :=
  List.mem_append_right _ (List.mem_map_of_mem h)

/-- What a section with a tag that has a meaning is like. -/
theorem of_mem_known (h : d ∈ c.known tag) :
    d.name = tag ∧ d.about.map Prod.fst = attributeKey? tag ∧ ∀ text ∈ d.text, text ∈ c.texts := by
  unfold known at h
  split at h
  case h_9 =>
    obtain ⟨id, -, rfl⟩ := List.mem_map.mp h
    exact ⟨rfl, rfl, nofun⟩
  case h_10 =>
    obtain ⟨-, rfl⟩ : c.inheritDoc = true ∧ d = ⟨"inheritdoc", none, none⟩ := by simpa using h
    exact ⟨rfl, rfl, nofun⟩
  case h_11 => exact absurd h List.not_mem_nil
  case h_6 | h_7 | h_8 =>
    obtain ⟨p, hp, rfl⟩ := List.mem_map.mp h
    refine ⟨rfl, rfl, fun text htext ↦ ?_⟩
    exact Option.some.inj htext ▸ mem_texts (by simp [hp])
  all_goals
    obtain ⟨entry, hentry, rfl⟩ := List.mem_map.mp h
    refine ⟨rfl, rfl, fun text htext ↦ ?_⟩
    obtain rfl := Option.some.inj htext
    simp_all [texts]

theorem mem_drafts_iff : d ∈ c.drafts ↔
    (∃ tag ∈ Section.knownTags, d ∈ c.known tag) ∨
      ∃ p ∈ c.other, SectionDraft.mk p.label none (some p.text) = d := by
  rw [drafts, List.mem_append, List.mem_flatMap, List.mem_map]

theorem IsWritable.isSound (h : c.IsWritable) (hd : d ∈ c.drafts) : d.IsSound := by
  have htags : ∀ tag ∈ Section.knownTags, isName tag.toList = true := by decide
  have hkeys : ∀ tag ∈ Section.knownTags, ∀ key ∈ attributeKey? tag, isName key.toList = true := by
    decide
  rcases mem_drafts_iff.mp hd with ⟨tag, htag, hd⟩ | ⟨p, hp, rfl⟩
  · obtain ⟨hname, habout, htext⟩ := of_mem_known hd
    refine ⟨hname ▸ htags tag htag, fun a ha ↦ hkeys tag htag a.1 ?_,
      fun text hmem ↦ h.isSectionText text (htext text hmem)⟩
    exact habout ▸ Option.mem_map_of_mem Prod.fst ha
  · refine ⟨h.isName_label p hp, nofun, fun text htext ↦ ?_⟩
    exact Option.some.inj htext ▸ h.isSectionText _ (mem_texts (List.mem_append_right _ hp))

theorem filter_flatMap_known (tags : List String) :
    (tags.flatMap c.known).filter (fun d ↦ d.name = tag) =
      (tags.filter fun t ↦ t = tag).flatMap c.known := by
  induction tags with
  | nil => rfl
  | cons t tags ih =>
    rw [List.flatMap_cons, List.filter_append, ih]
    by_cases ht : t = tag
    · have hself : (c.known t).filter (fun d ↦ d.name = tag) = c.known t :=
        List.filter_eq_self.mpr fun d hd ↦ decide_eq_true ((of_mem_known hd).1.trans ht)
      rw [hself, List.filter_cons_of_pos (by simp [ht]), List.flatMap_cons]
    · have hnil : (c.known t).filter (fun d ↦ d.name = tag) = [] :=
        List.filter_eq_nil_iff.mpr fun d hd ↦ by simp [(of_mem_known hd).1, ht]
      rw [hnil, List.filter_cons_of_neg (by simp [ht]), List.nil_append]

/-- The sections with a tag that has a meaning. -/
theorem IsWritable.filter_drafts (h : c.IsWritable) (htag : tag ∈ Section.knownTags) :
    c.drafts.filter (fun d ↦ d.name = tag) = c.known tag := by
  -- no tag is listed twice, so that no section is written twice
  have hone : ∀ tag ∈ Section.knownTags, (Section.knownTags.filter fun t ↦ t = tag) = [tag] := by
    decide
  have hother : (c.other.map fun p ↦ SectionDraft.mk p.label none (some p.text)).filter
      (fun d ↦ d.name = tag) = [] := by
    refine List.filter_eq_nil_iff.mpr fun d hd hname ↦ ?_
    obtain ⟨p, hp, rfl⟩ := List.mem_map.mp hd
    obtain rfl : p.label = tag := of_decide_eq_true hname
    exact h.label_notMem p hp htag
  rw [drafts, List.filter_append, hother, List.append_nil, filter_flatMap_known, hone tag htag,
    List.flatMap_singleton]

/-- The sections with a tag that has no meaning. -/
theorem IsWritable.filter_drafts_other (h : c.IsWritable) :
    c.drafts.filter (fun d ↦ d.name ∉ Section.knownTags) =
      c.other.map fun p ↦ ⟨p.label, none, some p.text⟩ := by
  have hknown : (Section.knownTags.flatMap c.known).filter
      (fun d ↦ d.name ∉ Section.knownTags) = [] := by
    refine List.filter_eq_nil_iff.mpr fun d hd hname ↦ ?_
    obtain ⟨tag, htag, hd⟩ := List.mem_flatMap.mp hd
    exact of_decide_eq_true hname ((of_mem_known hd).1 ▸ htag)
  have hother : (c.other.map fun p ↦ SectionDraft.mk p.label none (some p.text)).filter
      (fun d ↦ d.name ∉ Section.knownTags) =
        c.other.map fun p ↦ SectionDraft.mk p.label none (some p.text) := by
    refine List.filter_eq_self.mpr fun d hd ↦ ?_
    obtain ⟨p, hp, rfl⟩ := List.mem_map.mp hd
    exact decide_eq_true (h.label_notMem p hp)
  rw [drafts, List.filter_append, hknown, hother, List.nil_append]

/-! ### Comments from their sections -/

/-- The sections of a comment as they are read. -/
def sections (c : Comment) : List Section :=
  c.drafts.map SectionDraft.toSection

variable (h : c.IsWritable)
include h

theorem IsWritable.filter_sections (p : String → Bool) :
    c.sections.filter (fun s ↦ p s.tag.name) =
      (c.drafts.filter fun d ↦ p d.name).map SectionDraft.toSection := by
  rw [sections, List.filter_map]
  refine congrArg _ (List.filter_congr fun d hd ↦ ?_)
  exact congrArg p (h.isSound hd).name_tag

theorem IsWritable.canRead (hd : d ∈ c.drafts) (htag : d.tag.name ∈ Section.knownTags)
    {key : String} (hkey : attributeKey? d.tag.name = some key) : d.tag.CanRead key := by
  have hsound := h.isSound hd
  have hmem : d ∈ c.known d.tag.name := by
    rw [← h.filter_drafts htag, List.mem_filter]
    exact ⟨hd, decide_eq_true hsound.name_tag.symm⟩
  obtain ⟨-, habout, -⟩ := of_mem_known hmem
  obtain ⟨⟨_, value⟩, hsome, rfl⟩ := Option.map_eq_some_iff.mp (habout.trans hkey)
  exact ⟨some value, hsound.attribute?_tag hsome⟩

/-- The attributes of written sections can be read. -/
theorem IsWritable.isReadable {s : Section} (hs : s ∈ c.sections) : s.IsReadable := by
  obtain ⟨d, hd, rfl⟩ := List.mem_map.mp hs
  have hname : ∀ tag ∈ ["param", "typeparam"],
      tag ∈ Section.knownTags ∧ attributeKey? tag = some "name" := by decide
  have hcref : ∀ tag ∈ ["exception", "seealso"],
      tag ∈ Section.knownTags ∧ attributeKey? tag = some "cref" := by decide
  exact ⟨fun htag ↦ h.canRead hd (hname _ htag).1 (hname _ htag).2,
    fun htag ↦ h.canRead hd (hcref _ htag).1 (hcref _ htag).2⟩

theorem IsWritable.named_sections (htag : tag ∈ Section.knownTags) :
    Section.named tag c.sections = (c.known tag).map SectionDraft.toSection := by
  rw [← h.filter_drafts htag]
  exact h.filter_sections fun name ↦ name = tag

theorem IsWritable.lastText?_sections (htag : tag ∈ Section.knownTags) {text : Option String}
    (hknown : c.known tag = text.toList.map fun text ↦ ⟨tag, none, some text⟩) :
    Section.lastText? tag c.sections = text := by
  rw [Section.lastText?, h.named_sections htag, hknown]
  cases text <;> rfl

theorem IsWritable.value?_tag (htag : tag ∈ Section.knownTags) (hd : d ∈ c.known tag)
    {key value : String} (habout : d.about = some (key, value)) :
    d.toSection.tag.value? key = some value :=
  Tag.value?_of_attribute?
    ((h.isSound (mem_drafts_iff.mpr (.inl ⟨tag, htag, hd⟩))).attribute?_tag habout)

theorem IsWritable.aboutParameter?_sections (htag : tag ∈ Section.knownTags) {ps : List Labelled}
    (hps : ∀ p ∈ ps, Text.trim p.label = p.label)
    (hknown : c.known tag = ps.map fun p ↦ ⟨tag, some ("name", p.label), some p.text⟩) :
    (Section.named tag c.sections).filterMap Section.aboutParameter? = ps := by
  have hall (p : Labelled) (hp : p ∈ ps) : Section.aboutParameter?
      (SectionDraft.mk tag (some ("name", p.label)) (some p.text)).toSection = some p := by
    have hmem := hknown ▸ List.mem_map_of_mem hp
    rw [Section.aboutParameter?, h.value?_tag htag hmem rfl, Option.map_some, hps p hp]
    rfl
  rw [h.named_sections htag, hknown, List.map_map, List.filterMap_map]
  exact (List.filterMap_congr hall).trans List.filterMap_some

theorem IsWritable.exceptions_sections :
    ((Section.named "exception" c.sections).map fun s ↦
      Labelled.mk ((s.tag.value? "cref").getD "") s.text) = c.exceptions := by
  have hknown : c.known "exception" = c.exceptions.map fun e ↦
      ⟨"exception", some ("cref", e.label), some e.text⟩ := rfl
  have htag : "exception" ∈ Section.knownTags := by decide
  rw [h.named_sections htag, hknown, List.map_map, List.map_map]
  refine (List.map_congr_left fun e he ↦ ?_).trans (List.map_id c.exceptions)
  have hvalue := h.value?_tag htag (hknown ▸ List.mem_map_of_mem he) rfl
  simp only [Function.comp_apply, hvalue]
  rfl

theorem IsWritable.seeAlso_sections :
    (Section.named "seealso" c.sections).filterMap (fun s ↦ s.tag.value? "cref") = c.seeAlso := by
  have hknown : c.known "seealso" = c.seeAlso.map fun id ↦
      ⟨"seealso", some ("cref", id), none⟩ := rfl
  have htag : "seealso" ∈ Section.knownTags := by decide
  rw [h.named_sections htag, hknown, List.map_map, List.filterMap_map]
  refine (List.filterMap_congr fun id hid ↦ ?_).trans List.filterMap_some
  exact h.value?_tag htag (hknown ▸ List.mem_map_of_mem hid) rfl

theorem IsWritable.any_sections :
    (c.sections.any fun s ↦ s.tag.name = "inheritdoc") = c.inheritDoc := by
  have hany : (c.sections.any fun s ↦ s.tag.name = "inheritdoc") =
      !(Section.named "inheritdoc" c.sections).isEmpty := by
    rw [Section.named, Bool.eq_iff_iff]
    simp
  have hknown : c.known "inheritdoc" =
      if c.inheritDoc then [⟨"inheritdoc", none, none⟩] else [] := rfl
  rw [hany, h.named_sections (by decide), hknown]
  cases c.inheritDoc <;> rfl

theorem IsWritable.other_sections :
    ((c.sections.filter fun s ↦ s.tag.name ∉ Section.knownTags).map fun s ↦
      Labelled.mk s.tag.name s.text) = c.other := by
  rw [h.filter_sections fun name ↦ name ∉ Section.knownTags, h.filter_drafts_other, List.map_map,
    List.map_map]
  refine (List.map_congr_left fun p hp ↦ ?_).trans (List.map_id c.other)
  have hname := (h.isSound (mem_drafts_iff.mpr (.inr ⟨p, hp, rfl⟩))).name_tag
  simp only [Function.comp_apply, SectionDraft.toSection, hname]
  rfl

end Comment

/-- The sections of a comment make up the comment. -/
theorem Section.comment_sections {c : Comment} (h : c.IsWritable) :
    Section.comment c.key c.sections = c := by
  have hparams (p : Labelled) (hp : p ∈ c.params) := h.trim_label p (List.mem_append_left _ hp)
  have htypeParams (p : Labelled) (hp : p ∈ c.typeParams) :=
    h.trim_label p (List.mem_append_right _ hp)
  rw [comment, h.lastText?_sections (by decide) rfl, h.lastText?_sections (by decide) rfl,
    h.lastText?_sections (by decide) rfl, h.lastText?_sections (by decide) rfl,
    h.lastText?_sections (by decide) rfl, h.aboutParameter?_sections (by decide) hparams rfl,
    h.aboutParameter?_sections (by decide) htypeParams rfl, h.exceptions_sections,
    h.seeAlso_sections, h.any_sections, h.other_sections]

/-! ### Members and files -/

/-- Texts that are each read as a node are read as nodes one after another. -/
theorem Markup.exists_scans_flatMap {α : Type} {write : α → List Char} {P : α → Node → Prop}
    {as : List α} (h : ∀ a ∈ as, ∃ node, Scans (write a) [node] ∧ P a node) :
    ∃ nodes, Scans (as.flatMap write) nodes ∧ List.Forall₂ P as nodes := by
  induction as with
  | nil => exact ⟨[], scans_nil, .nil⟩
  | cons a as ih =>
    obtain ⟨node, hnode, ha⟩ := h a List.mem_cons_self
    obtain ⟨nodes, hnodes, has⟩ := ih fun b hb ↦ h b (List.mem_cons_of_mem a hb)
    exact ⟨node :: nodes, hnode.append hnodes, .cons ha has⟩

theorem Markup.scans_elementText {name : String} {attributes inner : List Char} {nodes : List Node}
    (hname : isName name.toList = true) (hattributes : Attributes attributes)
    (hinner : ScansInside inner nodes) :
    Scans (elementText name attributes inner)
      [.element ⟨name.toList ++ attributes⟩ (startTag name.toList attributes) nodes
        (endTag name.toList [])] :=
  scans_element hname hattributes hinner nofun

namespace Markup.Node

theorem listItems_append (parent : String) (nodes nodes' : List Node) :
    listItems parent (nodes ++ nodes') = listItems parent nodes ++ listItems parent nodes' := by
  induction nodes with
  | nil => rfl
  | cons node nodes ih => rw [List.cons_append, listItems, listItems, ih, List.append_assoc]

theorem sections_of_forall₂ {ds : List SectionDraft} {nodes : List Node}
    (h : List.Forall₂ (fun d node ↦ node.section? = some d.toSection) ds nodes) :
    sections nodes = ds.map SectionDraft.toSection := by
  induction h with
  | nil => rfl
  | cons hnode _ ih => rw [sections, List.filterMap_cons_some hnode, ← sections, ih, List.map_cons]

end Markup.Node

namespace Comment

/-- The tag of the member of a comment. -/
def tag (c : Comment) : Tag :=
  ⟨"member".toList ++ attributeText "name".toList c.key.toList⟩

/-- The member of a comment. -/
def item (c : Comment) : DocItem :=
  .member c.tag c.sections

variable {c : Comment}

theorem attribute?_tag (c : Comment) : c.tag.attribute? "name" = .ok (some c.key) := by
  have hread := attribute?_attributeText (show isName "member".toList = true by decide)
    (show isName "name".toList = true by decide) c.key.toList
  rwa [String.ofList_toList, String.ofList_toList] at hread

theorem IsWritable.isReadable_item (h : c.IsWritable) : c.item.IsReadable :=
  ⟨⟨c.key, attribute?_tag c⟩, fun _ hs ↦ h.isReadable hs⟩

theorem IsWritable.comment?_item (h : c.IsWritable) : c.item.comment? = some c := by
  rw [item, DocItem.comment?, Tag.value?_of_attribute? (attribute?_tag c), Option.getD_some,
    h.trim_key, Section.comment_sections h]

/-- A written comment is read as one node, which is the member of the comment. -/
theorem IsWritable.exists_scans (h : c.IsWritable) (parent : String) :
    ∃ node, Scans c.written [node] ∧ node.items parent = [c.item] := by
  obtain ⟨nodes, hnodes, hsections⟩ := exists_scans_flatMap fun d hd ↦ (h.isSound hd).exists_scans
  have hname : isName "member".toList = true := by decide
  have hattributes := attributes_attributeText (show isName "name".toList = true by decide)
    c.key.toList
  refine ⟨_, scans_elementText hname hattributes hnodes.inside, ?_⟩
  rw [Node.items, if_pos (name_toList hname hattributes), Node.sections_of_forall₂ hsections]
  rfl

end Comment

theorem Markup.Node.listItems_of_forall₂ {parent : String} {cs : List Comment} {nodes : List Node}
    (h : List.Forall₂ (fun c node ↦ node.items parent = [c.item]) cs nodes) :
    listItems parent nodes = cs.map Comment.item := by
  induction h with
  | nil => rfl
  | cons hnode _ ih => rw [listItems, hnode, ih, List.map_cons, List.singleton_append]

namespace Comments

variable {cs : Comments}

theorem IsWritable.exists_scans_entries (h : cs.IsWritable) (parent : String) :
    ∃ nodes, Scans (cs.entries.flatMap Comment.written) nodes ∧
      Node.listItems parent nodes = cs.entries.map Comment.item := by
  obtain ⟨nodes, hnodes, hitems⟩ := exists_scans_flatMap fun c hc ↦
    (h.entries c hc).exists_scans parent
  exact ⟨nodes, hnodes, Node.listItems_of_forall₂ hitems⟩

theorem IsWritable.exists_scans_header (h : cs.IsWritable) (parent : String) :
    ∃ nodes, Scans cs.header nodes ∧
      Node.listItems parent nodes = cs.assemblyName.toList.map DocItem.header := by
  rw [Comments.header]
  cases hsome : cs.assemblyName with
  | none => exact ⟨[], scans_nil, rfl⟩
  | some name =>
    have hwritable := h.header name hsome
    obtain ⟨nodes, hnodes⟩ := hwritable.content.exists_scansInside
    have hblank : Attributes [] := .blank nofun
    have hname : isName "name".toList = true := by decide
    have hassembly : isName "assembly".toList = true := by decide
    -- the walk goes through the outer element and finds the inner one below an assembly
    have hinner := scans_elementText hname hblank hnodes
    refine ⟨_, scans_elementText hassembly hblank hinner.inside, ?_⟩
    simp only [Node.listItems, Node.items, name_toList hname hblank, name_toList hassembly hblank,
      hnodes.markup_eq, String.ofList_toList, hwritable.normalize_eq]
    rfl

/-- What the documentation file with given comments holds. -/
def items (cs : Comments) : List DocItem :=
  cs.assemblyName.toList.map .header ++ cs.entries.map Comment.item

/-- A written file is read as one node with the name of the assembly and the members below it. -/
theorem IsWritable.exists_scan_render (h : cs.IsWritable) :
    ∃ node, scan cs.render = (Node.listTokens [node], .complete) ∧ node.IsQuiet ∧
      (∃ tag, node.tag? = some tag ∧ tag.name = "doc") ∧ node.innerItems = cs.items := by
  have hblank : Attributes [] := .blank nofun
  have hdoc : isName "doc".toList = true := by decide
  obtain ⟨headers, hheaders, hheaderItems⟩ := h.exists_scans_header "doc"
  obtain ⟨members, hmembers, hmemberItems⟩ := h.exists_scans_entries "doc"
  refine ⟨_, scan_of_scans (scans_elementText hdoc hblank (hheaders.append hmembers).inside),
    trivial, ⟨_, rfl, name_toList hdoc hblank⟩, ?_⟩
  rw [Node.innerItems, name_toList hdoc hblank, Node.listItems_append, hheaderItems, hmemberItems,
    items]

theorem IsWritable.isReadable_items (h : cs.IsWritable) : ∀ item ∈ cs.items, item.IsReadable := by
  rw [items, List.forall_mem_append, List.forall_mem_map, List.forall_mem_map]
  exact ⟨fun _ _ ↦ trivial, fun c hc ↦ (h.entries c hc).isReadable_item⟩

theorem getLast?_filterMap_name? (cs : Comments) :
    (cs.items.filterMap DocItem.name?).getLast? = cs.assemblyName := by
  have hmembers : (cs.entries.map Comment.item).filterMap DocItem.name? = [] := by
    rw [List.filterMap_map]
    exact List.filterMap_eq_nil_iff.mpr fun _ _ ↦ rfl
  rw [items, List.filterMap_append, hmembers]
  cases cs.assemblyName <;> rfl

theorem IsWritable.filterMap_comment? (h : cs.IsWritable) :
    cs.items.filterMap DocItem.comment? = cs.entries := by
  have hheaders : (cs.assemblyName.toList.map DocItem.header).filterMap DocItem.comment? = [] := by
    rw [List.filterMap_map]
    exact List.filterMap_eq_nil_iff.mpr fun _ _ ↦ rfl
  rw [items, List.filterMap_append, hheaders, List.nil_append, List.filterMap_map]
  exact (List.filterMap_congr fun c hc ↦ (h.entries c hc).comment?_item).trans List.filterMap_some

end Comments

/-- Reading the documentation file with given comments gives the comments back. -/
theorem CommentSource.parse_render (label : String) {cs : Comments} (h : cs.IsWritable) :
    CommentSource.parse label cs.render = .ok cs := by
  obtain ⟨node, hscan, hquiet, ⟨tag, htag, hdoc⟩, hitems⟩ := h.exists_scan_render
  have hdocItems : Node.docItems [node] = cs.items := by
    rw [Node.docItems, List.flatMap_singleton, hitems]
  have hroot : [node].filterMap Node.tag? = [tag] := by
    rw [List.filterMap_cons_some htag, List.filterMap_nil]
  have hdocument : Node.IsDocument [node] :=
    ⟨⟨tag, hroot, hdoc⟩, List.forall_mem_singleton.mpr hquiet, hdocItems ▸ h.isReadable_items⟩
  rw [parse, mapError_eq_ok_iff, Comments.read, hscan, Reader.ofTokens_listTokens_eq_ok_iff,
    hdocItems, Comments.getLast?_filterMap_name?, h.filterMap_comment?,
    Comments.latest_of_nodup cs.nodup_keys]
  exact ⟨hdocument, rfl, rfl⟩

/-- Comments with markup in texts, an element in a section of the same tag among it, and with all
characters in attributes that have a meaning in markup. -/
def discComments : Comments where
  assemblyName := some "Shapes"
  entries :=
    [{ key := "M:Disc.\"<'&'>\""
       summary := some "A <summary a='>'>round</summary>\nbox"
       remarks := some ""
       params := [⟨"r", "2 &lt; 3"⟩]
       exceptions := [⟨"", "<!-- > --><b />"⟩]
       seeAlso := ["T:Box"]
       inheritDoc := true
       other := [⟨"para", "<![CDATA[</para>]]>"⟩] },
      { key := "T:Box" }]
  nodup_keys := by decide

theorem content_discComments :
    Content "A <summary a='>'>round</summary>\nbox".toList ∧ Content "<!-- > --><b />".toList ∧
      Content "<![CDATA[</para>]]>".toList := by
  have hblank : ∀ c ∈ [' '], isSpace c = true := List.forall_mem_singleton.mpr rfl
  have hattributes := @Attributes.cons [' '] ['a'] [] [] ['>'] [] '\'' (by decide) hblank
    (by decide) nofun nofun (.inr rfl) (by decide) (.blank nofun)
  have helement := @Piece.element "summary".toList _ "round".toList [] (by decide) hattributes
    (.text (by decide)) nofun
  have hcomment := @Piece.comment " > ".toList (by decide)
  have hsingle := @Piece.single ['b'] [' '] (by decide) (.blank hblank)
  have hcdata := @Piece.cdata "</para>".toList fun hfound ↦
    absurd (hfound.subset List.mem_cons_self) (by decide)
  have hempty : Content [] := .text nofun
  exact ⟨@Content.piece "A ".toList _ "\nbox".toList (by decide) helement (.text (by decide)),
    @Content.piece [] _ _ nofun hcomment (@Content.piece [] _ [] nofun hsingle hempty),
    @Content.piece [] _ [] nofun hcdata hempty⟩

theorem isWritable_discComments : discComments.IsWritable := by
  obtain ⟨hsummary, hexception, hother⟩ := content_discComments
  constructor
  · intro name hname
    obtain rfl := Option.some.inj hname
    exact ⟨by decide +kernel, .text (by decide)⟩
  · refine List.forall_mem_cons.mpr
      ⟨⟨by decide +kernel, by decide +kernel, ?_, by decide, by decide⟩,
        List.forall_mem_singleton.mpr ⟨by decide +kernel, nofun, nofun, nofun, nofun⟩⟩
    have htexts : ∀ text ∈ ["A <summary a='>'>round</summary>\nbox", "", "2 &lt; 3",
        "<!-- > --><b />", "<![CDATA[</para>]]>"], IsSectionText text := by
      simp only [List.forall_mem_cons]
      exact ⟨⟨by decide +kernel, hsummary⟩, ⟨by decide +kernel, .text nofun⟩,
        ⟨by decide +kernel, .text (by decide)⟩, ⟨by decide +kernel, hexception⟩,
        ⟨by decide +kernel, hother⟩, nofun⟩
    exact htexts

theorem CommentSource.parse_render_discComments :
    discComments.IsWritable ∧
      CommentSource.parse "shapes" discComments.render = .ok discComments :=
  ⟨isWritable_discComments, CommentSource.parse_render "shapes" isWritable_discComments⟩

end ApiDocs
