import ApiDocs.Markup.Token
import ApiDocs.Text.Blank

/-!
# Scanning markup

A markup text is divided into tokens from its beginning, up to its end or its first fault. The names
of the open elements are kept, so that closing tags can be held against them.

Every kind of markup ends at the first closing angle bracket that meets a condition on what stands
before it: outside quotes for tags, after two dashes for comments, and so on. These conditions are
small machines (`Closing`) that run over the characters.

## Main definitions

* `Markup.Closing`, `Markup.cut`: where markup ends.
* `Markup.next`: the first token of a text.
* `Markup.scan`: the tokens of a text and how they end.

## Main results

* `Markup.source_append_of_next`: the first token and the rest make up the text.
-/

namespace ApiDocs.Markup

/-! ### Where markup ends -/

/-- A condition under which an angle bracket ends markup, as a machine over the characters before
it. -/
structure Closing (σ : Type) where
  /-- The state at the beginning. -/
  init : σ
  /-- The state after a character that does not end the markup. -/
  step : σ → Char → σ
  /-- Whether a closing angle bracket ends the markup in this state. -/
  ends : σ → Bool

/-- Divides a text at the closing angle bracket that ends the markup it starts with. -/
def cutFrom {σ : Type} (m : Closing σ) : σ → List Char → Option (List Char × List Char)
  | _, [] => none
  | s, c :: cs =>
    if c = '>' ∧ m.ends s then
      some ([], cs)
    else
      (cutFrom m (m.step s c) cs).map fun (content, rest) ↦ (c :: content, rest)

/-- Divides a text where the markup it starts with ends. -/
def cut {σ : Type} (m : Closing σ) (cs : List Char) : Option (List Char × List Char) :=
  cutFrom m m.init cs

theorem append_of_cutFrom {σ : Type} {m : Closing σ} {s : σ} {cs content rest : List Char}
    (h : cutFrom m s cs = some (content, rest)) : content ++ '>' :: rest = cs := by
  induction cs generalizing s content with
  | nil => simp [cutFrom] at h
  | cons c cs ih =>
    rw [cutFrom] at h
    split at h
    · rename_i hc
      simp only [Option.some.injEq, Prod.mk.injEq] at h
      simp [← h.1, ← h.2, hc.1]
    · simp only [Option.map_eq_some_iff, Prod.mk.injEq] at h
      obtain ⟨⟨content', rest'⟩, h', rfl, rfl⟩ := h
      simp [ih h']

theorem append_of_cut {σ : Type} {m : Closing σ} {cs content rest : List Char}
    (h : cut m cs = some (content, rest)) : content ++ '>' :: rest = cs :=
  append_of_cutFrom h

/-- Tags end outside quotes. The state is the quote that is open. -/
def tagClosing : Closing (Option Char) where
  init := none
  step
    | none, c => if c = '"' ∨ c = '\'' then some c else none
    | some quote, c => if c = quote then none else some quote
  ends := Option.isNone

/-- Processing instructions end after a question mark. -/
def instructionClosing : Closing Bool where
  init := false
  step _ c := c == '?'
  ends := id

/-- Character data ends after two closing brackets. The state counts the brackets just read. -/
def cdataClosing : Closing Nat where
  init := 0
  step n c := if c = ']' then n + 1 else 0
  ends n := 2 ≤ n

/-- Comments end after two dashes that do not overlap the two dashes at their beginning. The state
counts all characters and the dashes just read. -/
def commentClosing : Closing (Nat × Nat) where
  init := (0, 0)
  step | (index, dashes), c => (index + 1, if c = '-' then dashes + 1 else 0)
  ends | (index, dashes) => 5 ≤ index && 2 ≤ dashes

/-- Document type declarations end where all inner angle brackets are balanced. The state counts the
open ones. -/
def doctypeClosing : Closing Nat where
  init := 0
  step n c := if c = '<' then n + 1 else if c = '>' then n - 1 else n
  ends n := n == 0

/-! ### The first token -/

/-- What stands at the beginning of a text. -/
inductive Step where
  /-- Nothing: the text is empty. -/
  | finished
  /-- A token, with the elements that are open after it and the rest of the text. -/
  | token (token : Token) (opened : List String) (rest : List Char)
  /-- No token, with the number of bytes read to find that out. -/
  | fault (fault : Fault) (consumed : Nat)

/-- The name in a closing tag. Blanks after it are dropped, unless there is nothing else. -/
def closeName (cs : List Char) : String :=
  String.ofList (if cs.all isSpace then cs else Text.dropEndWhile isSpace cs)

/-- The step at a tag. -/
def tagStep (opened : List String) (content rest : List Char) : Step :=
  let source := '<' :: (content ++ ['>'])
  match content with
  | '/' :: cs =>
    let name := closeName cs
    match opened with
    | [] => .fault (.strayClose name) (Text.byteCount source)
    | top :: opened =>
      if top = name then
        .token ⟨.close, source⟩ opened rest
      else
        .fault (.wrongClose top name) (Text.byteCount source)
  | _ =>
    if content.getLast? = some '/' then
      .token ⟨.empty ⟨content.dropLast⟩, source⟩ opened rest
    else
      .token ⟨.start ⟨content⟩, source⟩ ((Tag.mk content).name :: opened) rest

/-- The step at markup that is no tag: it has to end, and its content has to pass a check. -/
def markupStep {σ : Type} (m : Closing σ) (event : Event) (unclosed : Fault)
    (check : List Char → Except Fault Unit) (opened : List String) (cs : List Char) : Step :=
  match cut m cs with
  | none => .fault unclosed (1 + Text.byteCount cs)
  | some (content, rest) =>
    let source := '<' :: (content ++ ['>'])
    match check content with
    | .ok _ => .token ⟨event, source⟩ opened rest
    | .error fault => .fault fault (Text.byteCount source)

/-- Checks that the content of markup begins with the given characters. -/
def checkBegins (opening : List Char) (fault : Fault) (content : List Char) : Except Fault Unit :=
  if opening.isPrefixOf content then .ok () else .error fault

/-- Checks that the content of a processing instruction is more than its question mark. -/
def checkInstruction (content : List Char) : Except Fault Unit :=
  if content = ['?'] then .error .instructionNotClosed else .ok ()

/-- Checks that a document type declaration begins with its keyword, in letters of either case, and
that something follows. -/
def checkDoctype (content : List Char) : Except Fault Unit :=
  if (content.take 8).map Char.toUpper ≠ "!DOCTYPE".toList then
    .error .doctypeNotClosed
  else if (content.drop 8).all isSpace then
    .error .unnamedDoctype
  else
    .ok ()

/-- The step at an opening angle bracket, given what follows it. -/
def bracketStep (opened : List String) (cs : List Char) : Step :=
  match cs with
  | [] => .fault .tagNotClosed 1
  | '!' :: '[' :: _ =>
    markupStep cdataClosing .cdata .cdataNotClosed
      (checkBegins "![CDATA[".toList .cdataNotClosed) opened cs
  | '!' :: '-' :: _ =>
    markupStep commentClosing .aside .commentNotClosed
      (checkBegins "!--".toList .commentNotClosed) opened cs
  | '!' :: 'D' :: _ | '!' :: 'd' :: _ =>
    markupStep doctypeClosing .aside .doctypeNotClosed checkDoctype opened cs
  | '!' :: _ => .fault .unknownMarkup 1
  | '?' :: _ =>
    markupStep instructionClosing .aside .instructionNotClosed checkInstruction opened cs
  | _ =>
    match cut tagClosing cs with
    | none => .fault .tagNotClosed (1 + Text.byteCount cs)
    | some (content, rest) => tagStep opened content rest

/-- The step at the beginning of a text, given the names of the open elements, innermost first. -/
def next (opened : List String) : List Char → Step
  | [] => .finished
  | c :: cs =>
    if c = '<' then
      bracketStep opened cs
    else
      .token ⟨.text, c :: cs.takeWhile (· != '<')⟩ opened (cs.dropWhile (· != '<'))

theorem source_of_tagStep {opened opened' : List String} {content rest rest' : List Char}
    {t : Token} (h : tagStep opened content rest = .token t opened' rest') :
    t.source = '<' :: (content ++ ['>']) ∧ rest' = rest := by
  unfold tagStep at h
  simp only at h
  split at h
  · split at h
    · simp at h
    · split at h
      · simp only [Step.token.injEq] at h
        simp [← h.1, ← h.2.2]
      · simp at h
  · split at h
    all_goals
      simp only [Step.token.injEq] at h
      simp [← h.1, ← h.2.2]

theorem source_of_markupStep {σ : Type} {m : Closing σ} {event : Event} {unclosed : Fault}
    {check : List Char → Except Fault Unit} {opened opened' : List String} {cs rest : List Char}
    {t : Token} (h : markupStep m event unclosed check opened cs = .token t opened' rest) :
    ∃ content, t.source = '<' :: (content ++ ['>']) ∧ content ++ '>' :: rest = cs := by
  unfold markupStep at h
  split at h
  · simp at h
  · rename_i content rest' hcut
    have := append_of_cut hcut
    exact ⟨content, by grind⟩

theorem source_of_bracketStep {opened opened' : List String} {cs rest : List Char}
    {t : Token} (h : bracketStep opened cs = .token t opened' rest) :
    ∃ content, t.source = '<' :: (content ++ ['>']) ∧ content ++ '>' :: rest = cs := by
  unfold bracketStep at h
  split at h
  case h_1 | h_6 => simp at h
  case h_2 | h_3 | h_4 | h_5 | h_7 => exact source_of_markupStep h
  case h_8 =>
    split at h
    · simp at h
    · rename_i content rest' hcut
      obtain ⟨hsource, rfl⟩ := source_of_tagStep h
      exact ⟨content, hsource, append_of_cut hcut⟩

/-- The characters of the first token and the rest make up the text. -/
theorem source_append_of_next {opened opened' : List String} {cs rest : List Char} {t : Token}
    (h : next opened cs = .token t opened' rest) : t.source ++ rest = cs := by
  unfold next at h
  split at h
  · simp at h
  · split at h
    · rename_i hc
      obtain ⟨content, hsource, hcs⟩ := source_of_bracketStep h
      simp [hsource, ← hcs, hc]
    · simp only [Step.token.injEq] at h
      simp [← h.1, ← h.2.2]

/-- A token takes at least one character. -/
theorem length_of_next {opened opened' : List String} {cs rest : List Char} {t : Token}
    (h : next opened cs = .token t opened' rest) : rest.length < cs.length := by
  have hsource : 0 < t.source.length := by
    unfold next at h
    split at h
    · simp at h
    · split at h
      · obtain ⟨content, hsource, -⟩ := source_of_bracketStep h
        simp [hsource]
      · simp only [Step.token.injEq] at h
        simp [← h.1]
  rw [← source_append_of_next h, List.length_append]
  omega

/-! ### All tokens -/

/-- How the tokens of a text end. -/
inductive Ending where
  /-- With the text. -/
  | complete
  /-- At a fault, with the number of bytes read after the last token. -/
  | fault (fault : Fault) (consumed : Nat)
deriving DecidableEq, Repr

/-- The tokens of a text up to its end or first fault, given the names of the open elements. -/
def scanFrom (opened : List String) (cs : List Char) : List Token × Ending :=
  match h : next opened cs with
  | .finished => ([], .complete)
  | .fault fault consumed => ([], .fault fault consumed)
  | .token t opened' rest =>
    have : rest.length < cs.length := length_of_next h
    let (tokens, ending) := scanFrom opened' rest
    (t :: tokens, ending)
termination_by cs.length

/-- The tokens of a text up to its end or first fault. A mark of the byte order at the very
beginning belongs to no token. -/
def scan (text : String) : List Token × Ending :=
  match text.toList with
  | '\ufeff' :: cs => scanFrom [] cs
  | cs => scanFrom [] cs

end ApiDocs.Markup
