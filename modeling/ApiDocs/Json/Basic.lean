import ApiDocs.Json.Number

/-!
# JSON values

Values of a JSON text as they are written: an object keeps its fields in order and may repeat a
name, and a number keeps its parts. A string may hold an escape that names one half of a surrogate
pair alone, or a byte that belongs to no character; such a string is well formed, but no text
corresponds to it.

## Main definitions

* `Json`: JSON values.
* `Json.depth`: how deeply arrays and objects nest.
* `Json.isSound`: all strings have a text and all numbers are within the range of floats.
* `Json.asRecord`: an array of values as the object that has them under given names.
* `Json.keep`: an object reduced to the fields of given names.
-/

namespace ApiDocs

/-- The text of a string, or `none` if the string holds a lone half of a surrogate pair or a byte
that belongs to no character. -/
abbrev JsonText := Option String

/-- A JSON value. -/
inductive Json where
  /-- The word `null`. -/
  | null
  /-- A truth value. -/
  | bool (value : Bool)
  /-- A number. -/
  | num (value : JsonNumber)
  /-- A string. -/
  | str (text : JsonText)
  /-- An array. -/
  | arr (items : List Json)
  /-- An object with its fields in order. -/
  | obj (fields : List (JsonText × Json))

namespace Json

/-- A string with a text. -/
def text (s : String) : Json :=
  str (some s)

/-- A number without sign, point and exponent. -/
def nat (n : Nat) : Json :=
  num { whole := n }

/-- An object from its fields. -/
def object (fields : List (String × Json)) : Json :=
  obj (fields.map fun (name, value) ↦ (some name, value))

mutual

/-- How deeply arrays and objects nest in a value; a value that is neither has depth zero. -/
def depth : Json → Nat
  | arr items => depthItems items + 1
  | obj fields => depthFields fields + 1
  | null | bool _ | num _ | str _ => 0

/-- The greatest depth among the items of an array. -/
def depthItems : List Json → Nat
  | [] => 0
  | item :: items => max item.depth (depthItems items)

/-- The greatest depth among the fields of an object. -/
def depthFields : List (JsonText × Json) → Nat
  | [] => 0
  | (_, value) :: fields => max value.depth (depthFields fields)

end

mutual

/-- Whether all strings in a value, names of fields included, have a text and all numbers are
finite. -/
def isSound : Json → Bool
  | num n => n.isFinite
  | str s => s.isSome
  | arr items => itemsSound items
  | obj fields => fieldsSound fields
  | null | bool _ => true

/-- Whether all items of an array are sound. -/
def itemsSound : List Json → Bool
  | [] => true
  | item :: items => item.isSound && itemsSound items

/-- Whether all fields of an object are sound. -/
def fieldsSound : List (JsonText × Json) → Bool
  | [] => true
  | (name, value) :: fields => name.isSome && value.isSound && fieldsSound fields

end

/-- A record as an object. An array with at most as many items as there are names stands for the
object that has the items under the first names; other values stay as they are. -/
def asRecord (names : List String) : Json → Json
  | arr items =>
    if items.length ≤ names.length then object (names.zip items) else arr items
  | value => value

/-- An object without the fields whose names are texts outside `names`; other values stay as they
are. -/
def keep (names : List String) : Json → Json
  | obj fields => obj (fields.filter fun field ↦
      match field.1 with
      | some name => names.contains name
      | none => true)
  | value => value

/-- Changes the items of an array. -/
def mapItems (change : Json → Json) : Json → Json
  | arr items => arr (items.map change)
  | value => value

/-- Changes the values that an object has under a name. -/
def mapField (name : String) (change : Json → Json) : Json → Json
  | obj fields => obj (fields.map fun (key, value) ↦
      if key = some name then (key, change value) else (key, value))
  | value => value

/-! ### Reading parts of a value -/

/-- The truth value, if the value is one. -/
def bool? : Json → Option Bool
  | bool b => some b
  | _ => none

/-- The text, if the value is a string that has one. -/
def text? : Json → Option String
  | str s => s
  | _ => none

/-- The number, if the value is one that counts something. -/
def nat? : Json → Option Nat
  | num n => n.toNat?
  | _ => none

/-- The items, if the value is an array. -/
def items? : Json → Option (List Json)
  | arr items => some items
  | _ => none

/-- The fields, if the value is an object. -/
def fields? : Json → Option (List (JsonText × Json))
  | obj fields => some fields
  | _ => none

/-- The fields of a record, which is an object or an array of the values under the first names. -/
def record? (names : List String) (value : Json) : Option (List (JsonText × Json)) :=
  (value.asRecord names).fields?

end Json

/-! ### Reading fields of an object -/

namespace JsonFields

/-- The value under a name, `some none` if there is none and `none` if there are several. -/
def unique? (fields : List (JsonText × Json)) (name : String) : Option (Option Json) :=
  match fields.filter fun field ↦ field.1 == some name with
  | [] => some none
  | [(_, value)] => some (some value)
  | _ => none

/-- Reads the value under a name, which has to be there once. -/
def required {α : Type} (fields : List (JsonText × Json)) (name : String)
    (read : Json → Option α) : Option α := do
  match ← unique? fields name with
  | some value => read value
  | none => none

/-- Reads the value under a name, which may be there once; without it the result is `default`. -/
def optional {α : Type} (fields : List (JsonText × Json)) (name : String) (default : α)
    (read : Json → Option α) : Option α := do
  match ← unique? fields name with
  | some value => read value
  | none => some default

end JsonFields

/-- Reads a value that may be `null`. -/
def Json.nullable {α : Type} (read : Json → Option α) : Json → Option (Option α)
  | .null => some none
  | value => (read value).map some

end ApiDocs
