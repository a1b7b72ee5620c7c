import ApiDocs.Comment.Basic

/-!
# Parameters with their documentation

A parameter is documented by the first text under exactly its name in the comment of its member or
type.

## Main definitions

* `BoundParameter`, `Parameter.bind`: parameters with their texts.
* `BoundGeneric`, `GenericParameter.bind`: generic parameters with their texts.
-/

namespace ApiDocs

/-- A parameter with the text about it. -/
structure BoundParameter extends Parameter where
  /-- The text about the parameter. -/
  note : Option Labelled
deriving DecidableEq

/-- A generic parameter with the text about it. -/
structure BoundGeneric extends GenericParameter where
  /-- The text about the parameter. -/
  note : Option Labelled
deriving DecidableEq, Repr

/-- A parameter with the text that a comment has about it. -/
def Parameter.bind (comment : Option Comment) (p : Parameter) : BoundParameter :=
  { p with note := comment.bind fun c ↦ c.param? p.name }

/-- A generic parameter with the text that a comment has about it. -/
def GenericParameter.bind (comment : Option Comment) (p : GenericParameter) : BoundGeneric :=
  { p with note := comment.bind fun c ↦ c.typeParam? p.name }

/-- The same parameter with the text of another comment. -/
def BoundParameter.rebind (comment : Option Comment) (p : BoundParameter) : BoundParameter :=
  p.toParameter.bind comment

/-- The same generic parameter with the text of another comment. -/
def BoundGeneric.rebind (comment : Option Comment) (p : BoundGeneric) : BoundGeneric :=
  p.toGenericParameter.bind comment

end ApiDocs
