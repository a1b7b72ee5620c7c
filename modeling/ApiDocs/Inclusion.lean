/-!
# What goes into a reference

Four switches say which types and members a reference shows besides those that are documented and
can be used from outside their assembly.

## Main definitions

* `Inclusion`: the switches.
* `Inclusion.all`, `Inclusion.publicSurface`: settings in frequent use.
-/

namespace ApiDocs

/-- The switches; all are off by default. -/
structure Inclusion where
  /-- Show types without a comment. -/
  undocumentedTypes : Bool := false
  /-- Show types that cannot be used from outside their assembly. -/
  hiddenTypes : Bool := false
  /-- Show members without a comment. -/
  undocumentedMembers : Bool := false
  /-- Show members that cannot be used from outside their assembly. -/
  hiddenMembers : Bool := false
deriving DecidableEq, Repr

namespace Inclusion

/-- Everything is shown. -/
def all : Inclusion where
  undocumentedTypes := true
  hiddenTypes := true
  undocumentedMembers := true
  hiddenMembers := true

/-- What can be used from outside is shown, documented or not. -/
def publicSurface : Inclusion where
  undocumentedTypes := true
  undocumentedMembers := true

end Inclusion

end ApiDocs
