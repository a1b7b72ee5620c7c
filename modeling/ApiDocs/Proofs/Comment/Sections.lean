import ApiDocs.Comment.Reader
import ApiDocs.Crash
import Mathlib.Data.List.Induction

/-!
# Comments from their sections

The sections of a comment are taken up one after another. The comment that results can be told from
the list of sections: texts that a comment has once come from the last section with their tag, and
texts that it has several times from all sections with their tag, in order.

## Main definitions

* `Section`: a section of a comment as it is written.
* `Section.IsReadable`: the attribute that the section's tag asks for can be read.
* `Section.comment`: the comment with given sections.

## Main results

* `Section.foldlM_absorb_eq_ok_iff`: taking up sections one after another gives their comment.
-/

namespace ApiDocs

namespace Markup.Tag

/-- The attribute with a key can be read, which includes that the tag has none. -/
def CanRead (t : Tag) (key : String) : Prop :=
  ∃ value, t.attribute? key = .ok value

/-- The value of the attribute with a key, if it is there and can be read. -/
def value? (t : Tag) (key : String) : Option String :=
  match t.attribute? key with
  | .ok value => value
  | .error _ => none

theorem value?_of_attribute? {t : Tag} {key : String} {value : Option String}
    (h : t.attribute? key = .ok value) : t.value? key = value := by
  rw [value?, h]

end Markup.Tag

/-- A section of a comment: the tag of its element, and its text. -/
structure Section where
  /-- The tag. -/
  tag : Markup.Tag
  /-- The normalised text. -/
  text : String

namespace Section

/-- The tags of sections that have a meaning. -/
def knownTags : List String :=
  ["summary", "remarks", "returns", "value", "example", "param", "typeparam", "exception",
    "seealso", "inheritdoc"]

/-- The attribute that the section's tag asks for, if it asks for one, can be read. -/
def IsReadable (s : Section) : Prop :=
  (s.tag.name ∈ ["param", "typeparam"] → s.tag.CanRead "name") ∧
    (s.tag.name ∈ ["exception", "seealso"] → s.tag.CanRead "cref")

/-- The sections with a tag. -/
def named (name : String) (ss : List Section) : List Section :=
  ss.filter fun s ↦ s.tag.name = name

/-- The text of the last section with a tag. -/
def lastText? (name : String) (ss : List Section) : Option String :=
  (named name ss).getLast?.map text

/-- A text about a parameter, if the section says which. -/
def aboutParameter? (s : Section) : Option Labelled :=
  (s.tag.value? "name").map fun name ↦ ⟨Text.trim name, s.text⟩

/-- The comment under an id that has the given sections. -/
def comment (key : String) (ss : List Section) : Comment where
  key := key
  summary := lastText? "summary" ss
  remarks := lastText? "remarks" ss
  returns := lastText? "returns" ss
  value := lastText? "value" ss
  sample := lastText? "example" ss
  params := (named "param" ss).filterMap aboutParameter?
  typeParams := (named "typeparam" ss).filterMap aboutParameter?
  exceptions := (named "exception" ss).map fun s ↦ ⟨(s.tag.value? "cref").getD "", s.text⟩
  seeAlso := (named "seealso" ss).filterMap fun s ↦ s.tag.value? "cref"
  inheritDoc := ss.any fun s ↦ s.tag.name = "inheritdoc"
  other := (ss.filter fun s ↦ s.tag.name ∉ knownTags).map fun s ↦ ⟨s.tag.name, s.text⟩

theorem named_concat (name : String) (ss : List Section) (s : Section) :
    named name (ss ++ [s]) = named name ss ++ if s.tag.name = name then [s] else [] := by
  rw [named, List.filter_append, List.filter_cons, List.filter_nil]
  simp only [decide_eq_true_eq]
  rfl

theorem lastText?_concat (name : String) (ss : List Section) (s : Section) :
    lastText? name (ss ++ [s]) = if s.tag.name = name then some s.text else lastText? name ss := by
  rw [lastText?, named_concat]
  split
  · rw [List.getLast?_concat, Option.map_some]
  · rw [List.append_nil, lastText?]

/-- One more section adds its part to a comment. -/
theorem absorb_comment (key : String) (ss : List Section) {s : Section} (h : s.IsReadable) :
    (comment key ss).absorb s.tag s.text = .ok (comment key (ss ++ [s])) := by
  unfold Comment.absorb
  split
  case h_6 hname | h_7 hname =>
    obtain ⟨value, hvalue⟩ := h.1 (by simp [hname])
    have hvalue? := Markup.Tag.value?_of_attribute? hvalue
    cases value <;>
      simp [comment, lastText?_concat, named_concat, hname, knownTags, hvalue, hvalue?,
        aboutParameter?, bind, Except.bind, pure, Except.pure]
  case h_8 hname | h_9 hname =>
    obtain ⟨value, hvalue⟩ := h.2 (by simp [hname])
    have hvalue? := Markup.Tag.value?_of_attribute? hvalue
    cases value <;>
      simp [comment, lastText?_concat, named_concat, hname, knownTags, hvalue, hvalue?, bind,
        Except.bind, pure, Except.pure]
  case h_11 =>
    -- a tag without a meaning differs from all those that have one
    simp_all [comment, lastText?_concat, named_concat, knownTags]
  all_goals
    rename_i hname
    simp [comment, lastText?_concat, named_concat, hname, knownTags]

theorem isReadable_of_absorb {c c' : Comment} {s : Section}
    (h : c.absorb s.tag s.text = .ok c') : s.IsReadable := by
  unfold Comment.absorb at h
  split at h
  case h_6 hname | h_7 hname =>
    obtain ⟨value, hvalue, -⟩ := bind_eq_ok_iff.mp h
    exact ⟨fun _ ↦ ⟨value, hvalue⟩, fun hcref ↦ by simp [hname] at hcref⟩
  case h_8 hname | h_9 hname =>
    obtain ⟨value, hvalue, -⟩ := bind_eq_ok_iff.mp h
    exact ⟨fun hparam ↦ by simp [hname] at hparam, fun _ ↦ ⟨value, hvalue⟩⟩
  case h_11 => constructor <;> simp_all
  all_goals
    rename_i hname
    constructor <;> simp [hname]

/-- Taking up sections one after another gives the comment that has them all, as long as their
attributes can be read. -/
theorem foldlM_absorb_eq_ok_iff (key : String) (ss : List Section) (c : Comment) :
    ss.foldlM (fun (c : Comment) s ↦ c.absorb s.tag s.text) (comment key []) = .ok c ↔
      (∀ s ∈ ss, s.IsReadable) ∧ c = comment key ss := by
  induction ss using List.reverseRecOn generalizing c with
  | nil => simp [pure, Except.pure, eq_comm]
  | append_singleton ss s ih =>
    rw [List.foldlM_append, bind_eq_ok_iff, List.forall_mem_append, List.forall_mem_singleton]
    constructor
    · rintro ⟨before, hbefore, hlast⟩
      obtain ⟨hreadable, rfl⟩ := (ih before).mp hbefore
      rw [List.foldlM_cons, bind_eq_ok_iff] at hlast
      obtain ⟨after, hafter, hend⟩ := hlast
      have hs := isReadable_of_absorb hafter
      rw [absorb_comment key ss hs] at hafter
      cases hafter
      cases hend
      exact ⟨⟨hreadable, hs⟩, rfl⟩
    · rintro ⟨⟨hreadable, hs⟩, rfl⟩
      refine ⟨comment key ss, (ih _).mpr ⟨hreadable, rfl⟩, ?_⟩
      rw [List.foldlM_cons, absorb_comment key ss hs]
      rfl

end Section

end ApiDocs
