import ApiDocs.Json.Basic
import ApiDocs.Text.Basic

/-!
# Tokens of a JSON text

A JSON text is a sequence of brackets, separators, words, numbers and strings with blanks between
them. It is given by its units, the characters of the text; a unit `none` is a byte that belongs to
no character, which may stand inside a string only.

## Main definitions

* `JsonToken`: the tokens.
* `JsonToken.next?`: the first token of a text and what follows it.
* `JsonToken.scan`: all tokens of a text, if it consists of tokens and blanks.

## Main results

* `JsonToken.length_next?`: a token takes at least one unit.
-/

namespace ApiDocs

/-- A token of a JSON text. -/
inductive JsonToken where
  /-- The opening bracket of an array. -/
  | openArray
  /-- The closing bracket of an array. -/
  | closeArray
  /-- The opening brace of an object. -/
  | openObject
  /-- The closing brace of an object. -/
  | closeObject
  /-- The separator of items and fields. -/
  | comma
  /-- The separator of a name and its value. -/
  | colon
  /-- The word `null`. -/
  | null
  /-- One of the words `true` and `false`. -/
  | bool (value : Bool)
  /-- A number. -/
  | num (value : JsonNumber)
  /-- A string. -/
  | str (text : JsonText)
deriving DecidableEq

namespace JsonToken

/-- The blanks that may stand between tokens. -/
def isSpace (unit : Option Char) : Bool :=
  unit == some ' ' || unit == some '\t' || unit == some '\n' || unit == some '\r'

/-! ### Strings -/

/-- A piece of a string: a character that stands for itself or is escaped by a letter, a 16-bit
number that is escaped, or a byte that belongs to no character. -/
inductive Piece where
  /-- A character. -/
  | char (c : Char)
  /-- A number of a text's 16-bit form. -/
  | code (n : Nat)
  /-- A byte that belongs to no character. -/
  | stray
deriving DecidableEq

/-- The character that an escape by a letter stands for. -/
def escaped? : Char → Option Char
  | '"' => some '"'
  | '\\' => some '\\'
  | '/' => some '/'
  | 'b' => some '\x08'
  | 'f' => some '\x0c'
  | 'n' => some '\n'
  | 'r' => some '\r'
  | 't' => some '\t'
  | _ => none

/-- The value of four hexadecimal digits. -/
def hexCode? (a b c d : Char) : Option Nat := do
  let a ← Text.hexDigit? a
  let b ← Text.hexDigit? b
  let c ← Text.hexDigit? c
  let d ← Text.hexDigit? d
  return ((a * 16 + b) * 16 + c) * 16 + d

/-- The pieces of a string after its opening quote, and what follows its closing quote. A control
character has to be escaped. -/
def pieces? : List (Option Char) → Option (List Piece × List (Option Char))
  | [] => none
  | some '"' :: rest => some ([], rest)
  | some '\\' :: some 'u' :: some a :: some b :: some c :: some d :: rest => do
    let code ← hexCode? a b c d
    let (more, rest) ← pieces? rest
    return (.code code :: more, rest)
  | some '\\' :: some c :: rest => do
    let c ← escaped? c
    let (more, rest) ← pieces? rest
    return (.char c :: more, rest)
  | some '\\' :: _ => none
  | some c :: rest =>
    if c.toNat < 0x20 then
      none
    else do
      let (more, rest) ← pieces? rest
      return (.char c :: more, rest)
  | none :: rest => do
    let (more, rest) ← pieces? rest
    return (.stray :: more, rest)

/-- Whether a 16-bit number is the first half of a surrogate pair. -/
def isLead (n : Nat) : Bool :=
  0xD800 ≤ n && n ≤ 0xDBFF

/-- Whether a 16-bit number is the second half of a surrogate pair. -/
def isTrail (n : Nat) : Bool :=
  0xDC00 ≤ n && n ≤ 0xDFFF

/-- The characters of a string. Two escaped numbers side by side may form a surrogate pair; a half
of a pair alone is no character, nor is a stray byte. -/
def characters? : List Piece → Option (List Char)
  | [] => some []
  | .char c :: rest => (characters? rest).map (c :: ·)
  | .code n :: .code m :: rest =>
    if isLead n && isTrail m then
      (characters? rest).map (Char.ofNat (0x10000 + (n - 0xD800) * 0x400 + (m - 0xDC00)) :: ·)
    else if isLead n || isTrail n then
      none
    else
      (characters? (.code m :: rest)).map (Char.ofNat n :: ·)
  | .code n :: rest =>
    if isLead n || isTrail n then none else (characters? rest).map (Char.ofNat n :: ·)
  | .stray :: _ => none

/-- The text that the pieces of a string form. -/
def textOf (pieces : List Piece) : JsonText :=
  (characters? pieces).map String.ofList

/-! ### Numbers -/

/-- The digits at the beginning, and what follows them. -/
def digits : List (Option Char) → List Char × List (Option Char)
  | some c :: rest =>
    if c.isDigit then
      let (more, rest) := digits rest
      (c :: more, rest)
    else
      ([], some c :: rest)
  | rest => ([], rest)

/-- The digits before the point: a single zero, or digits that do not start with one. -/
def wholePart? : List (Option Char) → Option (Nat × List (Option Char))
  | some c :: rest =>
    if c = '0' then
      some (0, rest)
    else if c.isDigit then
      let (more, rest) := digits rest
      some (Nat.ofDigitChars 10 (c :: more) 0, rest)
    else
      none
  | _ => none

/-- The digits after a point, at least one, if a point comes first. -/
def fractionPart? : List (Option Char) → Option (List Char × List (Option Char))
  | some '.' :: rest =>
    match digits rest with
    | ([], _) => none
    | (c :: more, rest) => some (c :: more, rest)
  | rest => some ([], rest)

/-- Whether a minus sign comes first, and what follows the sign if there is one. -/
def sign : List (Option Char) → Bool × List (Option Char)
  | some '-' :: rest => (true, rest)
  | some '+' :: rest => (false, rest)
  | rest => (false, rest)

/-- The exponent of ten after the letter for it. -/
def exponent? (units : List (Option Char)) : Option (Int × List (Option Char)) :=
  let (isNegative, rest) := sign units
  match digits rest with
  | ([], _) => none
  | (c :: more, rest) =>
    let size := Nat.ofDigitChars 10 (c :: more) 0
    some (if isNegative then -(size : Int) else size, rest)

/-- The exponent of ten, if the letter for it comes first. -/
def exponentPart? : List (Option Char) → Option (Option Int × List (Option Char))
  | some 'e' :: rest | some 'E' :: rest => (exponent? rest).map fun (e, rest) ↦ (some e, rest)
  | rest => some (none, rest)

/-- A number without its sign. -/
def unsigned? (isNegative : Bool) (units : List (Option Char)) :
    Option (JsonNumber × List (Option Char)) := do
  let (whole, rest) ← wholePart? units
  let (fraction, rest) ← fractionPart? rest
  let (exponent, rest) ← exponentPart? rest
  return ({ isNegative, whole, fraction, exponent }, rest)

/-! ### Tokens -/

/-- The first token of a text that starts with no blank, and what follows it. -/
def next? : List (Option Char) → Option (JsonToken × List (Option Char))
  | some '[' :: rest => some (openArray, rest)
  | some ']' :: rest => some (closeArray, rest)
  | some '\x7b' :: rest => some (openObject, rest)
  | some '\x7d' :: rest => some (closeObject, rest)
  | some ',' :: rest => some (comma, rest)
  | some ':' :: rest => some (colon, rest)
  | some 'n' :: some 'u' :: some 'l' :: some 'l' :: rest => some (null, rest)
  | some 't' :: some 'r' :: some 'u' :: some 'e' :: rest => some (bool true, rest)
  | some 'f' :: some 'a' :: some 'l' :: some 's' :: some 'e' :: rest => some (bool false, rest)
  | some '"' :: rest => (pieces? rest).map fun (pieces, rest) ↦ (str (textOf pieces), rest)
  | some '-' :: rest => (unsigned? true rest).map fun (n, rest) ↦ (num n, rest)
  | units => (unsigned? false units).map fun (n, rest) ↦ (num n, rest)

theorem length_pieces? {us rest : List (Option Char)} {ps : List Piece}
    (h : pieces? us = some (ps, rest)) : rest.length < us.length := by
  fun_induction pieces? us generalizing ps rest with
  | case1 => simp at h
  | case2 rest => simp_all
  | case3 a b c d tail ih =>
    simp only [Option.bind_eq_bind, Option.bind_eq_some_iff, Option.pure_def,
      Option.some.injEq, Prod.mk.injEq] at h
    obtain ⟨_, _, ⟨more, r⟩, hr, _, rfl⟩ := h
    have := ih hr
    simp only [List.length_cons]
    omega
  | case4 c tail _ ih =>
    simp only [Option.bind_eq_bind, Option.bind_eq_some_iff, Option.pure_def,
      Option.some.injEq, Prod.mk.injEq] at h
    obtain ⟨_, _, ⟨more, r⟩, hr, _, rfl⟩ := h
    have := ih hr
    simp only [List.length_cons]
    omega
  | case5 => simp at h
  | case6 => simp at h
  | case7 c tail _ _ _ _ _ ih =>
    simp only [Option.bind_eq_bind, Option.bind_eq_some_iff, Option.pure_def,
      Option.some.injEq, Prod.mk.injEq] at h
    obtain ⟨⟨more, r⟩, hr, _, rfl⟩ := h
    have := ih hr
    simp only [List.length_cons]
    omega
  | case8 tail ih =>
    simp only [Option.bind_eq_bind, Option.bind_eq_some_iff, Option.pure_def,
      Option.some.injEq, Prod.mk.injEq] at h
    obtain ⟨⟨more, r⟩, hr, _, rfl⟩ := h
    have := ih hr
    simp only [List.length_cons]
    omega

theorem length_digits (us : List (Option Char)) : (digits us).2.length ≤ us.length := by
  fun_induction digits us with
  | case1 c tail _ more rest h ih =>
    simp only [h, List.length_cons] at ih ⊢
    omega
  | case2 => simp
  | case3 => simp

theorem length_wholePart? {us rest : List (Option Char)} {n : Nat}
    (h : wholePart? us = some (n, rest)) : rest.length < us.length := by
  fun_cases wholePart? us with
  | case1 tail => simp_all [wholePart?]
  | case2 c tail hc hd more r hr =>
    have := length_digits tail
    simp only [wholePart?, hc, hd, hr, if_true, if_false, Option.some.injEq, Prod.mk.injEq] at h
    simp only [hr] at this
    simp only [← h.2, List.length_cons]
    omega
  | case3 c tail hc hd => simp [wholePart?, hc, hd] at h
  | case4 us hu => simp_all [wholePart?]

theorem length_fractionPart? {us rest : List (Option Char)} {ds : List Char}
    (h : fractionPart? us = some (ds, rest)) : rest.length ≤ us.length := by
  fun_cases fractionPart? us with
  | case1 tail r hr => simp [fractionPart?, hr] at h
  | case2 tail c more r hr =>
    have := length_digits tail
    simp only [fractionPart?, hr, Option.some.injEq, Prod.mk.injEq] at h
    simp only [hr] at this
    simp only [← h.2, List.length_cons]
    omega
  | case3 => simp_all [fractionPart?]

theorem length_sign (us : List (Option Char)) : (sign us).2.length ≤ us.length := by
  fun_cases sign us <;> simp

theorem length_exponent? {us rest : List (Option Char)} {e : Int}
    (h : exponent? us = some (e, rest)) : rest.length ≤ us.length := by
  have h₁ := length_sign us
  have h₂ := length_digits (sign us).2
  simp only [exponent?] at h
  split at h
  · simp at h
  · rename_i hd
    simp only [Option.some.injEq, Prod.mk.injEq] at h
    simp only [hd] at h₂
    simp only [← h.2]
    omega

theorem length_exponentPart? {us rest : List (Option Char)} {e : Option Int}
    (h : exponentPart? us = some (e, rest)) : rest.length ≤ us.length := by
  unfold exponentPart? at h
  split at h
  case h_3 => simp_all
  all_goals
    simp only [Option.map_eq_some_iff, Prod.mk.injEq] at h
    obtain ⟨⟨e, r⟩, hr, _, rfl⟩ := h
    have := length_exponent? hr
    simp only [List.length_cons]
    omega

theorem length_unsigned? {isNegative : Bool} {us rest : List (Option Char)} {n : JsonNumber}
    (h : unsigned? isNegative us = some (n, rest)) : rest.length < us.length := by
  simp only [unsigned?, Option.bind_eq_bind, Option.bind_eq_some_iff, Option.pure_def,
    Option.some.injEq, Prod.mk.injEq] at h
  obtain ⟨⟨_, r₁⟩, h₁, ⟨_, r₂⟩, h₂, ⟨_, r₃⟩, h₃, _, rfl⟩ := h
  have h₁ := length_wholePart? h₁
  have h₂ := length_fractionPart? h₂
  have h₃ := length_exponentPart? h₃
  simp only at h₂ h₃ ⊢
  omega

/-- What follows a token is shorter than the text. -/
theorem length_next? {us rest : List (Option Char)} {t : JsonToken}
    (h : next? us = some (t, rest)) : rest.length < us.length := by
  unfold next? at h
  split at h
  case h_10 =>
    simp only [Option.map_eq_some_iff, Prod.mk.injEq] at h
    obtain ⟨⟨ps, r⟩, hr, _, rfl⟩ := h
    have := length_pieces? hr
    simp only [List.length_cons]
    omega
  case h_11 =>
    simp only [Option.map_eq_some_iff, Prod.mk.injEq] at h
    obtain ⟨⟨n, r⟩, hr, _, rfl⟩ := h
    have := length_unsigned? hr
    simp only [List.length_cons]
    omega
  case h_12 =>
    simp only [Option.map_eq_some_iff, Prod.mk.injEq] at h
    obtain ⟨⟨n, r⟩, hr, _, rfl⟩ := h
    exact length_unsigned? hr
  all_goals
    simp only [Option.some.injEq, Prod.mk.injEq] at h
    simp only [← h.2, List.length_cons]
    omega

/-- All tokens of a text; `none` if something else than tokens and blanks stands in it. -/
def scan (units : List (Option Char)) : Option (List JsonToken) :=
  match h : units.dropWhile isSpace with
  | [] => some []
  | unit :: tail =>
    match h' : next? (unit :: tail) with
    | none => none
    | some (t, rest) =>
      have : rest.length < units.length :=
        Nat.lt_of_lt_of_le (length_next? h') (h ▸ Text.length_dropWhile_le isSpace units)
      (scan rest).map (t :: ·)
termination_by units.length

end JsonToken

end ApiDocs
