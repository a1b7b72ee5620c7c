import ApiDocs.DocId

/-!
# Documentation comments

A comment documents one symbol, under the symbol's documentation id. Its sections are those of the
documentation format; sections with other tags are kept with their tag.

## Main definitions

* `Comment`: the sections of a comment.
* `Comment.isPlaceholder`: a comment that only asks for the comment of an overridden member.
* `Comment.param?`, `Comment.typeParam?`: the text about a parameter.
-/

namespace ApiDocs

/-- A text about something that is known by a label: a parameter's name, the id of an exception, the
tag of a section. -/
structure Labelled where
  /-- What the text is about. -/
  label : String
  /-- The text. -/
  text : String
deriving DecidableEq, Repr

/-- The documentation of one symbol. -/
structure Comment where
  /-- The documentation id of the symbol. -/
  key : String
  /-- What the symbol is. -/
  summary : Option String := none
  /-- Further remarks. -/
  remarks : Option String := none
  /-- What a method returns. -/
  returns : Option String := none
  /-- What a property holds. -/
  value : Option String := none
  /-- A sample of its use. -/
  sample : Option String := none
  /-- Texts about parameters, by name. -/
  params : List Labelled := []
  /-- Texts about generic parameters, by name. -/
  typeParams : List Labelled := []
  /-- Texts about exceptions, by the exception's id. -/
  exceptions : List Labelled := []
  /-- The ids of related symbols. -/
  seeAlso : List String := []
  /-- Whether the comment of an overridden member is to be used. -/
  inheritDoc : Bool := false
  /-- Sections with tags that have no meaning here, by tag. -/
  other : List Labelled := []
deriving DecidableEq, Repr

namespace Comment

/-- What the comment's id stands for. -/
def kind? (c : Comment) : Option DocKind :=
  DocKind.ofKey? c.key

/-- Whether the comment only asks for the comment of an overridden member: it wants that comment and
has no summary of its own. -/
def isPlaceholder (c : Comment) : Bool :=
  c.inheritDoc && c.summary.isNone

/-- The first text about a parameter. -/
def param? (c : Comment) (name : String) : Option Labelled :=
  c.params.find? fun p ↦ p.label == name

/-- The first text about a generic parameter. -/
def typeParam? (c : Comment) (name : String) : Option Labelled :=
  c.typeParams.find? fun p ↦ p.label == name

/-- Sets the summary. -/
def withSummary (text : String) (c : Comment) : Comment :=
  { c with summary := some text }

/-- Appends a text about a parameter. -/
def withParam (name text : String) (c : Comment) : Comment :=
  { c with params := c.params ++ [⟨name, text⟩] }

/-- Appends a text about a generic parameter. -/
def withTypeParam (name text : String) (c : Comment) : Comment :=
  { c with typeParams := c.typeParams ++ [⟨name, text⟩] }

end Comment

end ApiDocs
