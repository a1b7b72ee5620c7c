import ApiDocs.Json.Token

/-!
# Reading JSON texts

A JSON text is read token by token. The state between two tokens says what may come next and which
arrays and objects are still open, so that reading a text is a fold over its tokens.

## Main definitions

* `JsonState`, `JsonState.step`: the states of the reader and its step at a token.
* `Json.ofTokens?`: the value that a sequence of tokens forms.
* `Json.ofUnits?`, `Json.parse?`: the value of a text, given by its units or as a string.
-/

namespace ApiDocs

/-- An array or object that is still open, with what it holds so far, last first. -/
inductive JsonFrame where
  /-- An open array. -/
  | array (items : List Json)
  /-- An open object that waits for the value under a name. -/
  | object (fields : List (JsonText × Json)) (name : JsonText)

/-- What may come next in a text, given the open arrays and objects, innermost first. -/
inductive JsonState where
  /-- A value. -/
  | value (frames : List JsonFrame)
  /-- The first item of an array, or its end. -/
  | firstItem (frames : List JsonFrame)
  /-- The first name in an object, or its end. -/
  | firstName (frames : List JsonFrame)
  /-- A name in an object. -/
  | name (fields : List (JsonText × Json)) (frames : List JsonFrame)
  /-- The colon after a name. -/
  | colon (fields : List (JsonText × Json)) (name : JsonText) (frames : List JsonFrame)
  /-- What follows a complete value. -/
  | after (value : Json) (frames : List JsonFrame)

namespace JsonState

/-- The state after the first token of a value. -/
def beginValue (frames : List JsonFrame) : JsonToken → Option JsonState
  | .null => some (after .null frames)
  | .bool b => some (after (.bool b) frames)
  | .num n => some (after (.num n) frames)
  | .str s => some (after (.str s) frames)
  | .openArray => some (firstItem frames)
  | .openObject => some (firstName frames)
  | .closeArray | .closeObject | .comma | .colon => none

/-- The state after one more token; `none` if the token may not come. -/
def step : JsonState → JsonToken → Option JsonState
  | value frames, t => beginValue frames t
  | firstItem frames, .closeArray => some (after (.arr []) frames)
  | firstItem frames, t => beginValue (.array [] :: frames) t
  | firstName frames, .closeObject => some (after (.obj []) frames)
  | firstName frames, .str s => some (colon [] s frames)
  | name fields frames, .str s => some (colon fields s frames)
  | colon fields s frames, .colon => some (value (.object fields s :: frames))
  | after v (.array items :: frames), .comma => some (value (.array (v :: items) :: frames))
  | after v (.array items :: frames), .closeArray =>
    some (after (.arr (v :: items).reverse) frames)
  | after v (.object fields s :: frames), .comma => some (name ((s, v) :: fields) frames)
  | after v (.object fields s :: frames), .closeObject =>
    some (after (.obj ((s, v) :: fields).reverse) frames)
  | _, _ => none

end JsonState

namespace Json

/-- The value that a sequence of tokens forms, if it forms exactly one. -/
def ofTokens? (tokens : List JsonToken) : Option Json :=
  match tokens.foldlM JsonState.step (.value []) with
  | some (.after v []) => some v
  | _ => none

/-- The value that the units of a text form, if they form one value with blanks around it. -/
def ofUnits? (units : List (Option Char)) : Option Json :=
  (JsonToken.scan units).bind ofTokens?

/-- The value of a text, if the text is one value with blanks around it. -/
def parse? (text : String) : Option Json :=
  ofUnits? (text.toList.map some)

end Json

end ApiDocs
