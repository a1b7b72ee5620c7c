import ApiDocs.FileContent
import ApiDocs.Json.Parser
import ApiDocs.Json.Printer
import ApiDocs.Snapshot.Decode
import ApiDocs.Snapshot.Encode
import ApiDocs.Text.Bytes

/-!
# Snapshots of assemblies

A snapshot keeps the declarations of an assembly as a JSON text. Arrays and objects may nest to a
limited depth, strings need a text and numbers have to be within the range of floats; the values of
fields that belong to no declaration are passed over and fall under none of these rules, except
inside type expressions and members.

## Main definitions

* `Snapshot.encode`: the text of a snapshot.
* `Snapshot.decode?`, `Snapshot.decodeBytes?`: the assembly that a text or bytes are a snapshot of.
* `Snapshot.read`: the assembly kept in a file.
-/

namespace ApiDocs.Snapshot

/-- How deeply arrays and objects may nest in a snapshot. -/
def depthLimit : Nat := 127

/-- A record as an object without the fields that have other names. -/
def relevantFields (names : List String) (value : Json) : Json :=
  (value.asRecord names).keep names

/-- A type without the fields that belong to no declaration. -/
def relevantType (value : Json) : Json :=
  let value := relevantFields TypeDecl.fieldNames value
  let value := value.mapField "flags" (relevantFields TypeTraits.fieldNames)
  value.mapField "genericParameters" (Json.mapItems (relevantFields GenericParameter.fieldNames))

/-- An assembly without the fields that belong to no declaration, inside its types too. -/
def relevant (value : Json) : Json :=
  (relevantFields AssemblyDecl.fieldNames value).mapField "types" (Json.mapItems relevantType)

/-- The text of a snapshot. -/
def encode (a : AssemblyDecl) : String :=
  a.toJson.pretty

/-- The assembly that a JSON value is a snapshot of. -/
def ofJson? (value : Json) : Option AssemblyDecl :=
  let value := relevant value
  if value.depth ≤ depthLimit && value.isSound then AssemblyDecl.ofJson? value else none

/-- The assembly that a text is a snapshot of. -/
def decode? (text : String) : Option AssemblyDecl :=
  (Json.parse? text).bind ofJson?

/-- The assembly that bytes are a snapshot of. They are the UTF-8 form of a text, except that a
string in a value that is passed over may hold any bytes. -/
def decodeBytes? (data : ByteArray) : Option AssemblyDecl :=
  (Json.ofUnits? (Text.units data)).bind ofJson?

/-- The bytes of a text are a snapshot of the same assembly as the text. -/
theorem decodeBytes?_toUTF8 (text : String) : decodeBytes? text.toUTF8 = decode? text := by
  rw [decodeBytes?, Text.units_toUTF8, decode?, Json.parse?]

/-- Why a snapshot cannot be read. -/
inductive Error where
  /-- There is no such file. -/
  | missing
  /-- The content is no snapshot. -/
  | undecodable
deriving DecidableEq, Repr

/-- The text of an error. -/
def Error.message : Error → String
  | missing => "IO error: " ++ FileFault.missing.message
  | undecodable => "not a snapshot of an assembly"

/-- The assembly kept in a file. -/
def read : FileContent → Except Error AssemblyDecl
  | .missing => .error .missing
  | .bytes data =>
    match decodeBytes? data with
    | some a => .ok a
    | none => .error .undecodable

end ApiDocs.Snapshot
