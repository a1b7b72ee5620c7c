import ApiDocs.Json.Parser
import ApiDocs.Json.Printer
import Mathlib.Data.Option.Basic
import Mathlib.Tactic.SplitIfs

/-!
# Printed JSON texts read back

The text of a value is a sequence of tokens with blanks between them. Each token is read back from
its own text, whatever follows it; only a number has to be followed by something that does not
continue it. The tokens of a value lead the reader from the state that waits for a value to the
state that has it.

Values are restricted to those that data is written as: every string has a text, and numbers are
32-bit words.

## Main definitions

* `Json.IsPlain`: values whose strings have texts and whose numbers are words.
* `Json.tokens`: the tokens of a value.
* `JsonToken.Breaks`: units that do not continue a number.

## Main results

* `Json.scan_prettyAt`: the text of a value is read as its tokens.
* `Json.foldlM_step_tokens`: the tokens of a value form the value.
* `Json.parse?_pretty`: a printed value is read back.
-/

namespace ApiDocs

namespace JsonToken

/-! ### Tokens one by one -/

/-- Blanks are dropped, and then the first token is read. -/
theorem scan_eq (us : List (Option Char)) :
    scan us = match us.dropWhile isSpace with
      | [] => some []
      | u :: tail => (next? (u :: tail)).bind fun p ↦ (scan p.2).map (p.1 :: ·) := by
  rw [scan]
  split
  · rename_i h
    simp only [h]
  · rename_i u tail h
    simp only [h]
    split
    · rename_i h'
      rw [h', Option.bind_none]
    · rename_i h'
      rw [h', Option.bind_some]

theorem scan_nil : scan [] = some [] :=
  scan_eq []

/-- A blank before a token does not count. -/
theorem scan_cons_of_isSpace {u : Option Char} (hu : isSpace u = true) (us : List (Option Char)) :
    scan (u :: us) = scan us := by
  rw [scan_eq, List.dropWhile_cons_of_pos hu, ← scan_eq]

/-- A text that starts with no blank starts with its first token. -/
theorem scan_cons {u : Option Char} (hu : isSpace u = false) {us rest : List (Option Char)}
    {t : JsonToken} (h : next? (u :: us) = some (t, rest)) :
    scan (u :: us) = (scan rest).map (t :: ·) := by
  rw [scan_eq, List.dropWhile_cons_of_neg (Bool.eq_false_iff.mp hu)]
  simp only [h, Option.bind_some]

theorem scan_newLine (level : Nat) (us : List (Option Char)) :
    scan ((Json.newLine level).toList.map some ++ us) = scan us := by
  have hblanks (n : Nat) : scan ((List.replicate n ' ').map some ++ us) = scan us := by
    induction n with
    | zero => rfl
    | succ n ih =>
      rw [List.replicate_succ, List.map_cons, List.cons_append, scan_cons_of_isSpace rfl, ih]
  rw [Json.newLine, String.toList_ofList, List.map_cons, List.cons_append,
    scan_cons_of_isSpace rfl, hblanks]

/-! ### Strings -/

/-- The piece as which a character is written. -/
def pieceOf (c : Char) : Piece :=
  match c with
  | '\x08' | '\x0c' | '\n' | '\r' | '\t' => .char c
  | c => if c.toNat < 0x20 then .code c.toNat else .char c

theorem hexDigit?_hexDigit {n : Nat} (h : n < 16) : Text.hexDigit? (Json.hexDigit n) = some n := by
  revert n
  decide

theorem hexCode?_hexDigit {n : Nat} (h : n < 0x20) :
    hexCode? '0' '0' (Json.hexDigit (n / 16)) (Json.hexDigit (n % 16)) = some n := by
  have hhigh := hexDigit?_hexDigit (show n / 16 < 16 by omega)
  have hlow := hexDigit?_hexDigit (show n % 16 < 16 by omega)
  have hzero : Text.hexDigit? '0' = some 0 := rfl
  simp only [hexCode?, hzero, hhigh, hlow, Option.bind_eq_bind, Option.bind_some, Option.pure_def,
    Option.some.injEq]
  omega

/-- An escape by a letter is read as the character it stands for. -/
theorem pieces?_letter {letter c : Char} (h : escaped? letter = some c) (hu : letter ≠ 'u')
    (us : List (Option Char)) :
    pieces? (some '\\' :: some letter :: us) = (pieces? us).map fun p ↦ (.char c :: p.1, p.2) := by
  rw [pieces?, h]
  · cases pieces? us <;> rfl
  · exact fun _ _ _ _ _ _ hletter ↦ hu hletter

/-- A character inside a string is read as its piece. -/
theorem pieces?_escapeChar (c : Char) (us : List (Option Char)) :
    pieces? ((Json.escapeChar c).map some ++ us) =
      (pieces? us).map fun p ↦ (pieceOf c :: p.1, p.2) := by
  unfold Json.escapeChar
  split
  · exact pieces?_letter rfl (by decide) us
  · exact pieces?_letter rfl (by decide) us
  · exact pieces?_letter rfl (by decide) us
  · exact pieces?_letter rfl (by decide) us
  · exact pieces?_letter rfl (by decide) us
  · exact pieces?_letter rfl (by decide) us
  · exact pieces?_letter rfl (by decide) us
  · rename_i hquote hback hb hf hn hr ht
    have hpiece : pieceOf c = if c.toNat < 0x20 then .code c.toNat else .char c := by
      unfold pieceOf
      split <;> simp_all
    rw [hpiece]
    split_ifs with hsmall
    · simp only [List.map_cons, List.map_nil, List.cons_append, List.nil_append, pieces?,
        hexCode?_hexDigit hsmall]
      cases pieces? us <;> rfl
    · rw [List.map_singleton, List.singleton_append, pieces?, if_neg hsmall]
      · cases pieces? us <;> rfl
      all_goals simp_all

/-- What is written between quotes is read up to the closing quote. -/
theorem pieces?_quoted (cs : List Char) (us : List (Option Char)) :
    pieces? ((cs.flatMap Json.escapeChar).map some ++ some '"' :: us) =
      some (cs.map pieceOf, us) := by
  induction cs with
  | nil => rfl
  | cons c cs ih =>
    rw [List.flatMap_cons, List.map_append, List.append_assoc, pieces?_escapeChar, ih]
    rfl

/-- A small number is no half of a surrogate pair, whatever follows it. -/
theorem characters?_code {n : Nat} (h : n < 0x20) (ps : List Piece) :
    characters? (.code n :: ps) = (characters? ps).map (Char.ofNat n :: ·) := by
  have hlead : isLead n = false := by
    rw [isLead, decide_eq_false (by omega), Bool.false_and]
  have htrail : isTrail n = false := by
    rw [isTrail, decide_eq_false (by omega), Bool.false_and]
  cases ps with
  | nil => simp [characters?, hlead, htrail]
  | cons p ps => cases p <;> simp [characters?, hlead, htrail]

/-- Pieces that characters were written as give the characters back: none of them is a half of a
surrogate pair. -/
theorem characters?_map_pieceOf (cs : List Char) : characters? (cs.map pieceOf) = some cs := by
  induction cs with
  | nil => rfl
  | cons c cs ih =>
    have hpiece : pieceOf c = .char c ∨ c.toNat < 0x20 ∧ pieceOf c = .code c.toNat := by
      unfold pieceOf
      split <;> simp_all
      omega
    rw [List.map_cons]
    rcases hpiece with hpiece | ⟨hsmall, hpiece⟩
    · rw [hpiece, characters?, ih, Option.map_some]
    · rw [hpiece, characters?_code hsmall, ih, Option.map_some, Char.ofNat_toNat]

theorem next?_quote (s : String) (us : List (Option Char)) :
    next? ((Json.quote s).toList.map some ++ us) = some (.str (some s), us) := by
  have htext : textOf (s.toList.map pieceOf) = some s := by
    rw [textOf, characters?_map_pieceOf, Option.map_some, String.ofList_toList]
  rw [Json.quote, String.toList_ofList, List.map_append, List.map_cons, List.cons_append,
    List.cons_append, List.append_assoc]
  change (pieces? _).map _ = _
  rw [List.map_singleton, List.singleton_append, pieces?_quoted, Option.map_some]
  simp only [htext]

/-! ### Numbers -/

/-- Units that do not continue a number: no digit, point or exponent comes first. -/
def Breaks (us : List (Option Char)) : Prop :=
  ∀ c rest, us = some c :: rest → c.isDigit = false ∧ c ≠ '.' ∧ c ≠ 'e' ∧ c ≠ 'E'

theorem breaks_nil : Breaks [] :=
  fun _ _ h ↦ absurd h (List.cons_ne_nil _ _).symm

theorem breaks_cons {c : Char} (h : c.isDigit = false ∧ c ≠ '.' ∧ c ≠ 'e' ∧ c ≠ 'E')
    (us : List (Option Char)) : Breaks (some c :: us) := by
  rintro d rest heq
  obtain rfl := Option.some.inj (List.cons.inj heq).1
  exact h

theorem digits_append {cs : List Char} (hcs : ∀ c ∈ cs, c.isDigit = true) {us : List (Option Char)}
    (hus : Breaks us) : digits (cs.map some ++ us) = (cs, us) := by
  induction cs with
  | nil =>
    rw [List.map_nil, List.nil_append]
    unfold digits
    split
    · rename_i c rest
      rw [if_neg (Bool.eq_false_iff.mp (hus c rest rfl).1)]
    · rfl
  | cons c cs ih =>
    rw [List.map_cons, List.cons_append, digits, if_pos (hcs c List.mem_cons_self),
      ih fun d hd ↦ hcs d (List.mem_cons_of_mem c hd)]

/-- The digits of a number other than zero do not start with a zero. -/
theorem exists_toDigits_eq_cons {n : Nat} (h : 0 < n) :
    ∃ c cs, Nat.toDigits 10 n = c :: cs ∧ c ≠ '0' := by
  induction n using Nat.strongRecOn with
  | ind n ih =>
    rcases Nat.lt_or_ge n 10 with hlt | hge
    · have hdigit : ∀ m < 10, 0 < m → m.digitChar ≠ '0' := by decide
      exact ⟨n.digitChar, [], Nat.toDigits_of_lt_base hlt, hdigit n hlt h⟩
    · obtain ⟨c, cs, heq, hc⟩ := ih (n / 10) (by omega) (by omega)
      refine ⟨c, cs ++ [(n % 10).digitChar], ?_, hc⟩
      rw [Nat.toDigits_of_base_le (by decide) hge, heq, List.cons_append]

/-- The digits of a number are read as the number. -/
theorem wholePart?_toDigits (n : Nat) {us : List (Option Char)} (hus : Breaks us) :
    wholePart? ((Nat.toDigits 10 n).map some ++ us) = some (n, us) := by
  rcases Nat.eq_zero_or_pos n with rfl | hpos
  · rfl
  · obtain ⟨c, cs, heq, hc⟩ := exists_toDigits_eq_cons hpos
    have hdigit (d : Char) (hd : d ∈ c :: cs) : d.isDigit = true :=
      Nat.isDigit_of_mem_toDigits (by decide) (by decide) (heq ▸ hd)
    rw [heq, List.map_cons, List.cons_append, wholePart?, if_neg hc,
      if_pos (hdigit c List.mem_cons_self),
      digits_append (fun d hd ↦ hdigit d (List.mem_cons_of_mem c hd)) hus]
    simp only [← heq, Nat.ofDigitChars_ten_toDigits]

theorem unsigned?_toDigits (n : Nat) {us : List (Option Char)} (hus : Breaks us) :
    unsigned? false ((Nat.toDigits 10 n).map some ++ us) = some ({ whole := n }, us) := by
  have hfraction : fractionPart? us = some ([], us) := by
    unfold fractionPart?
    split
    · rename_i rest
      exact absurd rfl (hus '.' rest rfl).2.1
    · rfl
  have hexponent : exponentPart? us = some (none, us) := by
    unfold exponentPart?
    split
    · rename_i rest
      exact absurd rfl (hus 'e' rest rfl).2.2.1
    · rename_i rest
      exact absurd rfl (hus 'E' rest rfl).2.2.2
    · rfl
  simp only [unsigned?, wholePart?_toDigits n hus, hfraction, hexponent, Option.bind_eq_bind,
    Option.bind_some, Option.pure_def]

theorem next?_of_isDigit {c : Char} (hc : c.isDigit = true) (us : List (Option Char)) :
    next? (some c :: us) = (unsigned? false (some c :: us)).map fun (n, rest) ↦ (num n, rest) := by
  unfold next?
  split
  case h_12 => rfl
  all_goals
    rename_i heq
    obtain rfl := Option.some.inj (List.cons.inj heq).1
    exact absurd hc (by decide)

/-! ### Words and signs -/

section

variable (us : List (Option Char))

theorem scan_null : scan ("null".toList.map some ++ us) = (scan us).map (.null :: ·) :=
  scan_cons rfl rfl

theorem scan_true : scan ("true".toList.map some ++ us) = (scan us).map (.bool true :: ·) :=
  scan_cons rfl rfl

theorem scan_false : scan ("false".toList.map some ++ us) = (scan us).map (.bool false :: ·) :=
  scan_cons rfl rfl

theorem scan_openArray : scan ("[".toList.map some ++ us) = (scan us).map (.openArray :: ·) :=
  scan_cons rfl rfl

theorem scan_closeArray : scan ("]".toList.map some ++ us) = (scan us).map (.closeArray :: ·) :=
  scan_cons rfl rfl

theorem scan_openObject :
    scan ("\x7b".toList.map some ++ us) = (scan us).map (.openObject :: ·) :=
  scan_cons rfl rfl

theorem scan_closeObject :
    scan ("\x7d".toList.map some ++ us) = (scan us).map (.closeObject :: ·) :=
  scan_cons rfl rfl

theorem scan_comma : scan (",".toList.map some ++ us) = (scan us).map (.comma :: ·) :=
  scan_cons rfl rfl

/-- A colon comes with a blank after it. -/
theorem scan_colon : scan (": ".toList.map some ++ us) = (scan us).map (.colon :: ·) := by
  rw [← scan_cons_of_isSpace (u := some ' ') rfl us]
  exact scan_cons rfl rfl

theorem scan_quote (s : String) :
    scan ((Json.quote s).toList.map some ++ us) = (scan us).map (.str (some s) :: ·) := by
  have hread := next?_quote s us
  rw [Json.quote, String.toList_ofList, List.map_append, List.map_cons, List.cons_append,
    List.cons_append] at hread ⊢
  exact scan_cons rfl hread

end

theorem isSpace_of_isDigit {c : Char} (hc : c.isDigit = true) : isSpace (some c) = false := by
  refine Bool.eq_false_iff.mpr fun hspace ↦ ?_
  simp only [isSpace, Bool.or_eq_true, beq_iff_eq, Option.some.injEq] at hspace
  obtain ((rfl | rfl) | rfl) | rfl := hspace
  all_goals exact absurd hc (by decide)

theorem scan_numberText (n : Nat) {us : List (Option Char)} (hus : Breaks us) :
    scan ((Json.numberText { whole := n }).toList.map some ++ us) =
      (scan us).map (.num { whole := n } :: ·) := by
  have htext : (Json.numberText { whole := n }).toList = Nat.toDigits 10 n := by
    simp [Json.numberText, Nat.repr]
  have hread := unsigned?_toDigits n hus
  obtain ⟨c, cs, heq⟩ := List.exists_cons_of_ne_nil (Nat.toDigits_ne_nil (n := n) (b := 10))
  have hc : c.isDigit = true :=
    Nat.isDigit_of_mem_toDigits (by decide) (by decide) (heq ▸ List.mem_cons_self)
  rw [htext]
  rw [heq, List.map_cons, List.cons_append] at hread ⊢
  refine scan_cons (isSpace_of_isDigit hc) ?_
  rw [next?_of_isDigit hc, hread, Option.map_some]

end JsonToken

namespace Json

open JsonToken

/-! ### Values as tokens -/

mutual

/-- Values whose strings have texts and whose numbers are 32-bit words. -/
def IsPlain : Json → Prop
  | num n => ∃ w < UInt32.size, n = { whole := w }
  | str s => s.isSome
  | arr items => ItemsPlain items
  | obj fields => FieldsPlain fields
  | null | bool _ => True

/-- Items of an array that are all plain. -/
def ItemsPlain : List Json → Prop
  | [] => True
  | item :: items => item.IsPlain ∧ ItemsPlain items

/-- Fields of an object that have texts as names and plain values. -/
def FieldsPlain : List (JsonText × Json) → Prop
  | [] => True
  | (name, value) :: fields => name.isSome ∧ value.IsPlain ∧ FieldsPlain fields

end

mutual

/-- The tokens of a value. -/
def tokens : Json → List JsonToken
  | null => [.null]
  | bool b => [.bool b]
  | num n => [.num n]
  | str s => [.str s]
  | arr [] => [.openArray, .closeArray]
  | arr (item :: items) => .openArray :: (item.tokens ++ (itemTokens items ++ [.closeArray]))
  | obj [] => [.openObject, .closeObject]
  | obj ((name, value) :: fields) =>
    .openObject :: .str name :: .colon ::
      (value.tokens ++ (fieldTokens fields ++ [.closeObject]))

/-- The tokens of the items after the first. -/
def itemTokens : List Json → List JsonToken
  | [] => []
  | item :: items => .comma :: (item.tokens ++ itemTokens items)

/-- The tokens of the fields after the first. -/
def fieldTokens : List (JsonText × Json) → List JsonToken
  | [] => []
  | (name, value) :: fields =>
    .comma :: .str name :: .colon :: (value.tokens ++ fieldTokens fields)

end

theorem breaks_newLine (level : Nat) (us : List (Option Char)) :
    Breaks ((newLine level).toList.map some ++ us) := by
  rw [newLine, String.toList_ofList, List.map_cons, List.cons_append]
  exact breaks_cons (by decide) _

theorem breaks_prettyItems (level : Nat) (items : List Json) {us : List (Option Char)}
    (hus : Breaks us) : Breaks ((prettyItems level items).toList.map some ++ us) := by
  cases items with
  | nil => exact hus
  | cons item items =>
    simp only [prettyItems, String.toList_append, List.map_append, List.append_assoc]
    exact breaks_cons (by decide) _

theorem breaks_prettyFields (level : Nat) (fields : List (JsonText × Json))
    {us : List (Option Char)} (hus : Breaks us) :
    Breaks ((prettyFields level fields).toList.map some ++ us) := by
  cases fields with
  | nil => exact hus
  | cons field fields =>
    simp only [prettyFields, String.toList_append, List.map_append, List.append_assoc]
    exact breaks_cons (by decide) _

mutual

/-- The text of a value is read as its tokens, whatever stands behind it. -/
theorem scan_prettyAt (level : Nat) (v : Json) (h : v.IsPlain) {us : List (Option Char)}
    (hus : Breaks us) :
    scan ((v.prettyAt level).toList.map some ++ us) = (scan us).map (v.tokens ++ ·) := by
  match v, h with
  | null, _ => exact scan_null us
  | bool true, _ => exact scan_true us
  | bool false, _ => exact scan_false us
  | num n, h =>
    obtain ⟨w, -, rfl⟩ := h
    exact scan_numberText w hus
  | str s, h =>
    obtain ⟨s, rfl⟩ := Option.isSome_iff_exists.mp h
    exact scan_quote us s
  | arr [], _ =>
    rw [prettyAt, show "[]" = "[" ++ "]" from rfl, String.toList_append, List.map_append,
      List.append_assoc, scan_openArray, scan_closeArray, Option.map_map]
    rfl
  | arr (item :: items), h =>
    have hclose := breaks_newLine level ("]".toList.map some ++ us)
    simp only [prettyAt, String.toList_append, List.map_append, List.append_assoc, scan_openArray,
      scan_newLine, scan_prettyAt (level + 1) item h.1 (breaks_prettyItems _ items hclose),
      scan_prettyItems (level + 1) items h.2 hclose, scan_closeArray, Option.map_map]
    simp only [tokens, Function.comp_def, List.cons_append, List.append_assoc, List.nil_append]
  | obj [], _ =>
    rw [prettyAt, show "\x7b\x7d" = "\x7b" ++ "\x7d" from rfl, String.toList_append,
      List.map_append, List.append_assoc, scan_openObject, scan_closeObject, Option.map_map]
    rfl
  | obj ((name, value) :: fields), h =>
    obtain ⟨name, rfl⟩ := Option.isSome_iff_exists.mp h.1
    have hclose := breaks_newLine level ("\x7d".toList.map some ++ us)
    simp only [prettyAt, Option.getD_some, String.toList_append, List.map_append,
      List.append_assoc, scan_openObject, scan_newLine, scan_quote, scan_colon,
      scan_prettyAt (level + 1) value h.2.1 (breaks_prettyFields _ fields hclose),
      scan_prettyFields (level + 1) fields h.2.2 hclose, scan_closeObject, Option.map_map]
    simp only [tokens, Function.comp_def, List.cons_append, List.append_assoc, List.nil_append]

theorem scan_prettyItems (level : Nat) (items : List Json) (h : ItemsPlain items)
    {us : List (Option Char)} (hus : Breaks us) :
    scan ((prettyItems level items).toList.map some ++ us) =
      (scan us).map (itemTokens items ++ ·) := by
  match items, h with
  | [], _ => exact Option.map_id'.symm
  | item :: items, h =>
    simp only [prettyItems, String.toList_append, List.map_append, List.append_assoc, scan_comma,
      scan_newLine, scan_prettyAt level item h.1 (breaks_prettyItems _ items hus),
      scan_prettyItems level items h.2 hus, Option.map_map]
    simp only [itemTokens, Function.comp_def, List.cons_append, List.append_assoc]

theorem scan_prettyFields (level : Nat) (fields : List (JsonText × Json)) (h : FieldsPlain fields)
    {us : List (Option Char)} (hus : Breaks us) :
    scan ((prettyFields level fields).toList.map some ++ us) =
      (scan us).map (fieldTokens fields ++ ·) := by
  match fields, h with
  | [], _ => exact Option.map_id'.symm
  | (name, value) :: fields, h =>
    obtain ⟨name, rfl⟩ := Option.isSome_iff_exists.mp h.1
    simp only [prettyFields, Option.getD_some, String.toList_append, List.map_append,
      List.append_assoc, scan_comma, scan_newLine, scan_quote, scan_colon,
      scan_prettyAt level value h.2.1 (breaks_prettyFields _ fields hus),
      scan_prettyFields level fields h.2.2 hus, Option.map_map]
    simp only [fieldTokens, Function.comp_def, List.cons_append, List.append_assoc]

end

/-! ### Tokens as values -/

/-- An array that was just opened takes the tokens of a value as its first item: they do not start
with the end of an array. -/
theorem foldlM_step_firstItem (v : Json) (ts : List JsonToken) (frames : List JsonFrame) :
    (v.tokens ++ ts).foldlM JsonState.step (.firstItem frames) =
      (v.tokens ++ ts).foldlM JsonState.step (.value (.array [] :: frames)) := by
  match v with
  | null | bool _ | num _ | str _ | arr [] | arr (_ :: _) | obj [] | obj (_ :: _) => rfl

mutual

/-- The tokens of a value lead to the state that has the value. -/
theorem foldlM_step_tokens (v : Json) (frames : List JsonFrame) :
    v.tokens.foldlM JsonState.step (.value frames) = some (.after v frames) := by
  match v with
  | null | bool _ | num _ | str _ | arr [] | obj [] => rfl
  | arr (item :: items) =>
    calc (arr (item :: items)).tokens.foldlM JsonState.step (.value frames)
      _ = (item.tokens ++ (itemTokens items ++ [JsonToken.closeArray])).foldlM JsonState.step
            (.value (.array [] :: frames)) := foldlM_step_firstItem item _ frames
      _ = some (.after (arr (item :: items)) frames) := by
        rw [List.foldlM_append, foldlM_step_tokens item]
        exact foldlM_step_itemTokens items item [] frames
  | obj ((name, value) :: fields) =>
    calc (obj ((name, value) :: fields)).tokens.foldlM JsonState.step (.value frames)
      _ = (value.tokens ++ (fieldTokens fields ++ [JsonToken.closeObject])).foldlM JsonState.step
            (.value (.object [] name :: frames)) := rfl
      _ = some (.after (obj ((name, value) :: fields)) frames) := by
        rw [List.foldlM_append, foldlM_step_tokens value]
        exact foldlM_step_fieldTokens fields value name [] frames

/-- The tokens of the items that follow complete an array. -/
theorem foldlM_step_itemTokens (items : List Json) (v : Json) (before : List Json)
    (frames : List JsonFrame) :
    (itemTokens items ++ [JsonToken.closeArray]).foldlM JsonState.step
        (.after v (.array before :: frames)) =
      some (.after (.arr ((v :: before).reverse ++ items)) frames) := by
  match items with
  | [] =>
    rw [List.append_nil]
    rfl
  | item :: items =>
    calc (itemTokens (item :: items) ++ [JsonToken.closeArray]).foldlM JsonState.step
          (.after v (.array before :: frames))
      _ = (item.tokens ++ (itemTokens items ++ [JsonToken.closeArray])).foldlM JsonState.step
            (.value (.array (v :: before) :: frames)) := by
        rw [itemTokens, List.cons_append, List.append_assoc]
        rfl
      _ = some (.after (.arr ((v :: before).reverse ++ item :: items)) frames) := by
        rw [List.foldlM_append, foldlM_step_tokens item]
        have hrest := foldlM_step_itemTokens items item (v :: before) frames
        rw [List.reverse_cons, List.append_assoc] at hrest
        exact hrest

/-- The tokens of the fields that follow complete an object. -/
theorem foldlM_step_fieldTokens (fields : List (JsonText × Json)) (v : Json) (name : JsonText)
    (before : List (JsonText × Json)) (frames : List JsonFrame) :
    (fieldTokens fields ++ [JsonToken.closeObject]).foldlM JsonState.step
        (.after v (.object before name :: frames)) =
      some (.after (.obj (((name, v) :: before).reverse ++ fields)) frames) := by
  match fields with
  | [] =>
    rw [List.append_nil]
    rfl
  | (next, value) :: fields =>
    calc (fieldTokens ((next, value) :: fields) ++ [JsonToken.closeObject]).foldlM JsonState.step
          (.after v (.object before name :: frames))
      _ = (value.tokens ++ (fieldTokens fields ++ [JsonToken.closeObject])).foldlM JsonState.step
            (.value (.object ((name, v) :: before) next :: frames)) := by
        rw [fieldTokens, List.cons_append, List.cons_append, List.cons_append, List.append_assoc]
        rfl
      _ = some (.after (.obj (((name, v) :: before).reverse ++ (next, value) :: fields))
            frames) := by
        rw [List.foldlM_append, foldlM_step_tokens value]
        have hrest := foldlM_step_fieldTokens fields value next ((name, v) :: before) frames
        rw [List.reverse_cons, List.append_assoc] at hrest
        exact hrest

end

/-- A printed value is read back. -/
theorem parse?_pretty {v : Json} (h : v.IsPlain) : parse? v.pretty = some v := by
  have hscan := scan_prettyAt 0 v h breaks_nil
  rw [List.append_nil, scan_nil, Option.map_some, List.append_nil] at hscan
  rw [parse?, ofUnits?, pretty, hscan, Option.bind_some, ofTokens?, foldlM_step_tokens]

end Json

end ApiDocs
