import ApiDocs.Text.Lines

/-!
# Full names of types

A type is known by its full name: its namespace with `.` between the parts, the names of the types
it is nested in with `+` after each, and its own name. A generic type's name ends in a backtick and
its number of parameters.

## Main definitions

* `TypeName.stripArity`: a name without its arity marker.
* `TypeName.simple`, `TypeName.display`: the last name of a full name, with and without marker.
* `TypeName.dotted`: the form used in documentation ids, where nesting is written with dots.
* `TypeName.namespaceOf`, `TypeName.withoutNamespace`: the two halves of a full name.
* `TypeName.arity`: the number of parameters that a name's marker states.
* `TypeName.docId`, `TypeName.namespaceDocId`: documentation ids of types and namespaces.
-/

namespace ApiDocs.TypeName

/-- The backtick that starts an arity marker. -/
def arityMark : Char := '\x60'

/-- The name up to its first backtick, if only digits follow the backticks there, and otherwise
the whole name. -/
def stripArityChars (cs : List Char) : List Char :=
  let marker := cs.dropWhile (· != arityMark)
  if (marker.dropWhile (· == arityMark)).all Char.isDigit then
    cs.takeWhile (· != arityMark)
  else
    cs

/-- A name without its arity marker. -/
def stripArity (name : String) : String :=
  String.ofList (stripArityChars name.toList)

/-- The part of a full name after its last dot or plus sign. -/
def simple (fullName : String) : String :=
  String.ofList (fullName.toList.reverse.takeWhile fun c ↦ c != '.' && c != '+').reverse

/-- The name that a reader sees: no namespace, no enclosing types, no arity marker. -/
def display (fullName : String) : String :=
  stripArity (simple fullName)

/-- A full name as documentation ids write it, with dots for the plus signs of nesting. -/
def dotted (fullName : String) : String :=
  String.ofList (fullName.toList.map fun c ↦ if c = '+' then '.' else c)

/-- The length of the namespace in a full name, if it has one: all before the last dot that
precedes the first plus sign. -/
def namespaceLength? (cs : List Char) : Option Nat :=
  match (cs.takeWhile (· != '+')).reverse.dropWhile (· != '.') with
  | [] => none
  | _ :: before => some before.length

/-- The namespace of a full name; empty for the global namespace. -/
def namespaceOf (fullName : String) : String :=
  match namespaceLength? fullName.toList with
  | none => ""
  | some n => String.ofList (fullName.toList.take n)

/-- A full name without its namespace. -/
def withoutNamespace (fullName : String) : String :=
  match namespaceLength? fullName.toList with
  | none => fullName
  | some n => String.ofList (fullName.toList.drop (n + 1))

/-- The value of a numeral, if it has digits only, at least one. -/
def numeral? (cs : List Char) : Option Nat :=
  if cs.isEmpty || !cs.all Char.isDigit then
    none
  else
    some (cs.foldl (fun n c ↦ 10 * n + (c.toNat - '0'.toNat)) 0)

/-- The number of parameters stated after the last backtick of a name, as a 64-bit word. It is
zero if there is no backtick, if something else than a numeral follows, or if the numeral does not
fit the word. -/
def arity (cs : List Char) : UInt64 :=
  if cs.contains arityMark then
    match numeral? (cs.reverse.takeWhile (· != arityMark)).reverse with
    | some n => if n < UInt64.size then UInt64.ofNat n else 0
    | none => 0
  else
    0

/-- The names along the nesting path of a full name, outermost first. -/
def segments (fullName : String) : List (List Char) :=
  Text.divide '+' fullName.toList

/-- The documentation id of a type. -/
def docId (fullName : String) : String :=
  "T:" ++ dotted fullName

/-- The documentation id of a namespace. -/
def namespaceDocId (name : String) : String :=
  "N:" ++ name

end ApiDocs.TypeName
