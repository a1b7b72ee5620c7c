import ApiDocs.Markup.Entity
import ApiDocs.Markup.Token

/-!
# Attributes of tags

After the element's name a tag holds attributes: a key, an equals sign and a value in quotes. A tag
is read up to the attribute that is asked for; what stands after it is not looked at.

## Main definitions

* `Markup.AttributeFault`: what can be wrong with an attribute.
* `Markup.Tag.attributes`: the attributes of a tag up to its end or first fault.
* `Markup.Tag.attribute?`: the value of the attribute with a key.
-/

namespace ApiDocs.Markup

/-- Why attributes cannot be read. Places are counted in bytes of the tag's content. -/
inductive AttributeFault where
  /-- No equals sign follows a key. -/
  | noEquals (place : Nat)
  /-- A key was given before. -/
  | repeated (place before : Nat)
  /-- The tag ends after an equals sign. -/
  | noValue (place : Nat)
  /-- A value does not start with a quote. -/
  | unquoted (place : Nat)
  /-- A value does not end. -/
  | noQuote (place : Nat) (quote : Char)
deriving DecidableEq, Repr

/-- The text of a fault. -/
def AttributeFault.message : AttributeFault → String
  | noEquals place =>
    "position " ++ Nat.repr place ++
      ": attribute key must be directly followed by `=` or space"
  | repeated place before =>
    "position " ++ Nat.repr place ++ ": duplicated attribute, previous declaration at position " ++
      Nat.repr before
  | noValue place =>
    "position " ++ Nat.repr place ++ ": `=` must be followed by an attribute value"
  | unquoted place =>
    "position " ++ Nat.repr place ++ ": attribute value must be enclosed in `\"` or `'`"
  | noQuote place quote =>
    "position " ++ Nat.repr place ++ ": missing closing quote `" ++ String.ofList [quote] ++
      "` in attribute value"

/-- An attribute as it is written. -/
structure Attribute where
  /-- The key. -/
  key : List Char
  /-- Where the key starts. -/
  place : Nat
  /-- The value between the quotes, its references not resolved. -/
  value : List Char
deriving DecidableEq

/-- Blanks at the beginning of a text do not count: where the rest starts, and the rest. -/
def skipSpaces (place : Nat) (cs : List Char) : Nat × List Char :=
  (place + Text.byteCount (cs.takeWhile isSpace), cs.dropWhile isSpace)

/-- Whether a character belongs to a key; the first character of a key always does. -/
def isKeyChar (c : Char) : Bool :=
  c != '=' && !isSpace c

/-- The value at the beginning of a text, where it ends, and what follows. -/
def attributeValue (place : Nat) (cs : List Char) :
    Except AttributeFault (List Char × Nat × List Char) :=
  match cs with
  | [] => .error (.noValue place)
  | quote :: cs =>
    if quote = '"' ∨ quote = '\'' then
      let value := cs.takeWhile (· != quote)
      let stop := place + 1 + Text.byteCount value
      match cs.dropWhile (· != quote) with
      | [] => .error (.noQuote stop quote)
      | _ :: rest => .ok (value, stop + 1, rest)
    else
      .error (.unquoted place)

/-- The attribute at the beginning of a text that is not empty and starts with no blank, where it
ends, and what follows. -/
def attributeAt (seen : List Attribute) (place : Nat) (c : Char) (cs : List Char) :
    Except AttributeFault (Attribute × Nat × List Char) :=
  let key := c :: cs.takeWhile isKeyChar
  let (equals, rest) := skipSpaces (place + Text.byteCount key) (cs.dropWhile isKeyChar)
  match rest with
  | '=' :: rest =>
    match seen.find? fun a ↦ a.key == key with
    | some a => .error (.repeated place a.place)
    | none => do
      let (start, rest) := skipSpaces (equals + 1) rest
      let (value, stop, rest) ← attributeValue start rest
      return ({ key, place, value }, stop, rest)
  | _ => .error (.noEquals equals)

theorem length_attributeValue {place stop : Nat} {cs value rest : List Char}
    (h : attributeValue place cs = .ok (value, stop, rest)) : rest.length < cs.length := by
  unfold attributeValue at h
  split at h
  · simp at h
  · rename_i quote tail
    split at h
    · simp only at h
      split at h
      · simp at h
      · rename_i c rest' hdrop
        have := Text.length_dropWhile_le (· != quote) tail
        rw [hdrop, List.length_cons] at this
        simp only [Except.ok.injEq, Prod.mk.injEq] at h
        simp only [← h.2.2, List.length_cons]
        omega
    · simp at h

/-- What follows an attribute is shorter than the text. -/
theorem length_attributeAt {seen : List Attribute} {place stop : Nat} {c : Char}
    {cs rest : List Char} {a : Attribute}
    (h : attributeAt seen place c cs = .ok (a, stop, rest)) : rest.length < (c :: cs).length := by
  unfold attributeAt at h
  simp only [skipSpaces] at h
  have h₁ := Text.length_dropWhile_le isKeyChar cs
  have h₂ := Text.length_dropWhile_le isSpace (cs.dropWhile isKeyChar)
  split at h
  · rename_i tail htail
    rw [htail, List.length_cons] at h₂
    have h₃ := Text.length_dropWhile_le isSpace tail
    split at h
    · simp at h
    · cases hv : attributeValue _ (tail.dropWhile isSpace) with
      | error e => rw [hv] at h; simp [bind, Except.bind] at h
      | ok v =>
        obtain ⟨value, stop', rest'⟩ := v
        have h₄ := length_attributeValue hv
        rw [hv] at h
        simp only [bind, Except.bind, pure, Except.pure, Except.ok.injEq, Prod.mk.injEq] at h
        simp only [← h.2.2, List.length_cons]
        omega
  · simp at h

/-- The attributes in a text up to its end or first fault, given those before it and where it
starts. -/
def attributesFrom (seen : List Attribute) (place : Nat) (cs : List Char) :
    List Attribute × Option AttributeFault :=
  match h : cs.dropWhile isSpace with
  | [] => ([], none)
  | c :: tail =>
    match h' : attributeAt seen (skipSpaces place cs).1 c tail with
    | .error fault => ([], some fault)
    | .ok (a, stop, rest) =>
      have : rest.length < cs.length :=
        Nat.lt_of_lt_of_le (length_attributeAt h') (h ▸ Text.length_dropWhile_le isSpace cs)
      let (more, fault) := attributesFrom (a :: seen) stop rest
      (a :: more, fault)
termination_by cs.length

/-- The attributes of a tag up to its end or first fault. -/
def Tag.attributes (t : Tag) : List Attribute × Option AttributeFault :=
  attributesFrom [] (Text.byteCount t.nameChars) (t.content.dropWhile fun c ↦ !isSpace c)

/-- Why the value of an attribute cannot be had. -/
inductive LookupFault where
  /-- The attributes before it, or itself, cannot be read. -/
  | malformed (fault : AttributeFault)
  /-- References in its value cannot be resolved. -/
  | value (fault : EntityFault)
deriving DecidableEq, Repr

/-- The text of a fault. -/
def LookupFault.message : LookupFault → String
  | malformed fault => "attribute error: " ++ fault.message
  | value fault => "attribute value error: " ++ fault.message

/-- The value of the first attribute with a key; `none` if the tag has no such attribute. -/
def Tag.attribute? (t : Tag) (key : String) : Except LookupFault (Option String) :=
  let (attributes, fault) := t.attributes
  match attributes.find? fun a ↦ a.key == key.toList with
  | some a => ((unescape a.value).mapError .value).map fun value ↦ some (String.ofList value)
  | none =>
    match fault with
    | some fault => .error (.malformed fault)
    | none => .ok none

end ApiDocs.Markup
