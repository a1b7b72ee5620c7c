import ApiDocs.Proofs.Markup.Tree

/-!
# Content of elements

What may stand between the tags of an element: text, elements with their two tags, self-closing
tags, comments, character data sections and processing instructions, nested to any depth. Wherever
such content stands, the scanner reads it as the tokens of trees and goes on behind it.

## Main definitions

* `Markup.isName`: the names of elements and attributes.
* `Markup.Attributes`: what may stand after the name in a tag.
* `Markup.startTag`, `Markup.endTag`, `Markup.singleTag`: tags as they are written.
* `Markup.Content`, `Markup.Piece`: the content of elements.
* `Markup.Scans`, `Markup.ScansInside`: texts that are read as nodes wherever they stand.

## Main results

* `Markup.scans_element`: an element is read as a node with what stands between its tags.
* `Markup.Content.exists_scansInside`: content is read as nodes.
-/

namespace ApiDocs.Markup

/-! ### Names and attributes -/

/-- The characters that a name may start with, as ranges of their numbers. -/
def nameStartRanges : List (Nat × Nat) :=
  [(0x3A, 0x3A), (0x41, 0x5A), (0x5F, 0x5F), (0x61, 0x7A), (0xC0, 0xD6), (0xD8, 0xF6),
    (0xF8, 0x2FF), (0x370, 0x37D), (0x37F, 0x1FFF), (0x200C, 0x200D), (0x2070, 0x218F),
    (0x2C00, 0x2FEF), (0x3001, 0xD7FF), (0xF900, 0xFDCF), (0xFDF0, 0xFFFD), (0x10000, 0xEFFFF)]

/-- The characters that a name may hold but not start with, as ranges of their numbers. -/
def nameInnerRanges : List (Nat × Nat) :=
  [(0x2D, 0x2E), (0x30, 0x39), (0xB7, 0xB7), (0x300, 0x36F), (0x203F, 0x2040)]

/-- Whether the number of a character lies in one of some ranges. -/
def inRanges (ranges : List (Nat × Nat)) (c : Char) : Bool :=
  ranges.any fun range ↦ range.1 ≤ c.toNat && c.toNat ≤ range.2

/-- Whether a name may start with a character. -/
def isNameStart (c : Char) : Bool :=
  inRanges nameStartRanges c

/-- Whether a name may hold a character. -/
def isNameChar (c : Char) : Bool :=
  isNameStart c || inRanges nameInnerRanges c

/-- Whether a text is a name of an element or attribute. -/
def isName : List Char → Bool
  | [] => false
  | c :: cs => isNameStart c && cs.all isNameChar

/-- What may stand after the name in a tag: attributes with a blank before each, and blanks. -/
inductive Attributes : List Char → Prop where
  /-- Blanks, or nothing. -/
  | blank {cs : List Char} (h : ∀ c ∈ cs, isSpace c) : Attributes cs
  /-- An attribute, with a value in quotes of either kind, and what follows it. -/
  | cons {before key beforeEquals afterEquals value rest : List Char} {quote : Char}
      (hne : before ≠ []) (hbefore : ∀ c ∈ before, isSpace c) (hkey : isName key)
      (hbeforeEquals : ∀ c ∈ beforeEquals, isSpace c) (hafterEquals : ∀ c ∈ afterEquals, isSpace c)
      (hquote : quote = '"' ∨ quote = '\'') (hvalue : quote ∉ value) (hrest : Attributes rest) :
      Attributes (before ++ (key ++ (beforeEquals ++ '=' :: (afterEquals ++
        quote :: (value ++ quote :: rest)))))

/-- The opening tag of an element. -/
def startTag (name attributes : List Char) : List Char :=
  '<' :: (name ++ attributes ++ ['>'])

/-- The closing tag of an element, with blanks after the name. -/
def endTag (name blanks : List Char) : List Char :=
  '<' :: ('/' :: (name ++ blanks) ++ ['>'])

/-- A self-closing tag. -/
def singleTag (name attributes : List Char) : List Char :=
  '<' :: (name ++ attributes ++ ['/', '>'])

mutual

/-- The content of an element: text, with markup between its parts. -/
inductive Content : List Char → Prop where
  /-- Text, or nothing. -/
  | text {cs : List Char} (h : '<' ∉ cs) : Content cs
  /-- Text, a piece of markup, and what follows it. -/
  | piece {before cs rest : List Char} (hbefore : '<' ∉ before) (hpiece : Piece cs)
      (hrest : Content rest) : Content (before ++ (cs ++ rest))

/-- Markup that may stand in an element. -/
inductive Piece : List Char → Prop where
  /-- An element with its content; both of its tags have the same name. -/
  | element {name attributes inner blanks : List Char} (hname : isName name)
      (hattributes : Attributes attributes) (hinner : Content inner)
      (hblanks : ∀ c ∈ blanks, isSpace c) :
      Piece (startTag name attributes ++ (inner ++ endTag name blanks))
  /-- A self-closing tag. -/
  | single {name attributes : List Char} (hname : isName name)
      (hattributes : Attributes attributes) : Piece (singleTag name attributes)
  /-- A comment, in which there are no two dashes. -/
  | comment {body : List Char} (h : ¬"--".toList <:+: body) :
      Piece ("<!--".toList ++ (body ++ "-->".toList))
  /-- A character data section, up to the first two brackets with an angle bracket behind them. -/
  | cdata {body : List Char} (h : ¬"]]>".toList <:+: body) :
      Piece ("<![CDATA[".toList ++ (body ++ "]]>".toList))
  /-- A processing instruction, up to the first question mark with an angle bracket behind it. -/
  | instruction {body : List Char} (h : ¬"?>".toList <:+: '?' :: body) :
      Piece ("<?".toList ++ (body ++ "?>".toList))

end

/-- The characters that have a meaning in tags. -/
def tagSigns : List Char :=
  [' ', '\t', '\r', '\n', '<', '>', '"', '\'', '/', '=', '!', '?']

theorem notMem_tagSigns {c : Char} (h : isNameChar c = true) : c ∉ tagSigns := by
  have hsigns : tagSigns.all (fun d ↦ !isNameChar d) = true := by decide
  intro hc
  have hno := List.all_eq_true.mp hsigns c hc
  rw [h] at hno
  exact absurd hno (by decide)

theorem exists_cons_of_isName {name : List Char} (h : isName name = true) :
    ∃ c cs, name = c :: cs ∧ isNameChar c = true := by
  match name, h with
  | c :: cs, h =>
    rw [isName, Bool.and_eq_true] at h
    exact ⟨c, cs, rfl, by rw [isNameChar, h.1, Bool.true_or]⟩

theorem isNameChar_of_mem {name : List Char} (h : isName name = true) {c : Char} (hc : c ∈ name) :
    isNameChar c = true := by
  match name, h with
  | d :: ds, h =>
    rw [isName, Bool.and_eq_true, List.all_eq_true] at h
    rcases List.mem_cons.mp hc with rfl | hc
    · rw [isNameChar, h.1, Bool.true_or]
    · exact h.2 c hc

theorem isSpace_of_isNameChar {c : Char} (h : isNameChar c = true) : isSpace c = false := by
  have hsigns := notMem_tagSigns h
  simp only [tagSigns, List.mem_cons, not_or] at hsigns
  simp [isSpace, hsigns]

/-! ### Where markup ends -/

section

variable {σ : Type} {m : Closing σ}

/-- No angle bracket in a text ends the markup, and the text leads from one state to another. -/
def Passes (m : Closing σ) : σ → List Char → σ → Prop
  | s, [], s' => s = s'
  | s, c :: cs, s' => ¬(c = '>' ∧ m.ends s) ∧ Passes m (m.step s c) cs s'

theorem Passes.append {s s₁ s₂ : σ} {cs ds : List Char} (h : Passes m s cs s₁)
    (h' : Passes m s₁ ds s₂) : Passes m s (cs ++ ds) s₂ := by
  induction cs generalizing s with
  | nil => exact h ▸ h'
  | cons c cs ih => exact ⟨h.1, ih h.2⟩

/-- Markup is cut at the angle bracket behind a text that passes. -/
theorem cutFrom_of_passes {s s' : σ} {cs : List Char} (h : Passes m s cs s')
    (hends : m.ends s' = true) (rest : List Char) :
    cutFrom m s (cs ++ '>' :: rest) = some (cs, rest) := by
  induction cs generalizing s with
  | nil =>
    obtain rfl : s = s' := h
    exact if_pos ⟨rfl, hends⟩
  | cons c cs ih => rw [List.cons_append, cutFrom, if_neg h.1, ih h.2, Option.map_some]

end

theorem passes_plain {cs : List Char} (h : ∀ c ∈ cs, c ≠ '"' ∧ c ≠ '\'' ∧ c ≠ '>') :
    Passes tagClosing none cs none := by
  induction cs with
  | nil => rfl
  | cons c cs ih =>
    obtain ⟨⟨hdouble, hsingle, hend⟩, hcs⟩ := List.forall_mem_cons.mp h
    refine ⟨fun hc ↦ hend hc.1, ?_⟩
    have hstep : tagClosing.step none c = none := if_neg (not_or.mpr ⟨hdouble, hsingle⟩)
    rw [hstep]
    exact ih hcs

theorem passes_isSpace {cs : List Char} (h : ∀ c ∈ cs, isSpace c = true) :
    Passes tagClosing none cs none := by
  refine passes_plain fun c hc ↦ ⟨?_, ?_, ?_⟩
  all_goals
    rintro rfl
    exact absurd (h _ hc) (by decide)

theorem passes_isName {name : List Char} (h : isName name = true) :
    Passes tagClosing none name none := by
  refine passes_plain fun c hc ↦ ⟨?_, ?_, ?_⟩
  all_goals
    rintro rfl
    exact notMem_tagSigns (isNameChar_of_mem h hc) (by decide)

/-- A value in quotes passes, also if it holds angle brackets. -/
theorem passes_quoted {quote : Char} {value : List Char} (hquote : quote = '"' ∨ quote = '\'')
    (hvalue : quote ∉ value) : Passes tagClosing none (quote :: (value ++ [quote])) none := by
  have hinner (cs : List Char) (hcs : quote ∉ cs) :
      Passes tagClosing (some quote) (cs ++ [quote]) none := by
    induction cs with
    | nil => exact ⟨fun h ↦ absurd h.2 nofun, if_pos rfl⟩
    | cons c cs ih =>
      rw [List.mem_cons, not_or] at hcs
      refine ⟨fun h ↦ absurd h.2 nofun, ?_⟩
      have hstep : tagClosing.step (some quote) c = some quote := if_neg (Ne.symm hcs.1)
      rw [hstep]
      exact ih hcs.2
  refine ⟨fun h ↦ ?_, ?_⟩
  · rcases hquote with rfl | rfl <;> exact absurd h.1 (by decide)
  · have hstep : tagClosing.step none quote = some quote := if_pos hquote
    rw [hstep]
    exact hinner value hvalue

namespace Attributes

variable {cs : List Char}

theorem passes (h : Attributes cs) : Passes tagClosing none cs none := by
  induction h with
  | blank h => exact passes_isSpace h
  | cons hne hbefore hkey hbeforeEquals hafterEquals hquote hvalue _ ih =>
    refine (passes_isSpace hbefore).append ((passes_isName hkey).append
      ((passes_isSpace hbeforeEquals).append ?_))
    have hequals : Passes tagClosing none ['='] none :=
      passes_plain (List.forall_mem_singleton.mpr (by decide))
    have hvalued := ((passes_isSpace hafterEquals).append (passes_quoted hquote hvalue)).append ih
    simpa using hequals.append hvalued

theorem eq_nil_or_exists_cons (h : Attributes cs) :
    cs = [] ∨ ∃ c ds, cs = c :: ds ∧ isSpace c = true := by
  cases h with
  | blank h =>
    cases cs with
    | nil => exact .inl rfl
    | cons c cs => exact .inr ⟨c, cs, rfl, h c List.mem_cons_self⟩
  | cons hne hbefore =>
    obtain ⟨c, ds, rfl⟩ := List.exists_cons_of_ne_nil hne
    exact .inr ⟨c, _, rfl, hbefore c List.mem_cons_self⟩

/-- What stands after the name in a tag ends with a blank or a quote. -/
theorem getLast?_eq (h : Attributes cs) {c : Char} (hc : cs.getLast? = some c) :
    isSpace c = true ∨ c = '"' ∨ c = '\'' := by
  induction h with
  | blank h => exact .inl (h c (List.mem_of_getLast? hc))
  | @cons before key beforeEquals afterEquals value rest quote _ _ _ _ _ hquote _ _ ih =>
    have hfront : before ++ (key ++ (beforeEquals ++ '=' :: (afterEquals ++
        quote :: (value ++ quote :: rest)))) =
      (before ++ (key ++ (beforeEquals ++ '=' :: (afterEquals ++ quote :: value)))) ++
        quote :: rest := by simp
    rw [hfront, List.getLast?_append, List.getLast?_cons, Option.some_or, Option.some.injEq] at hc
    cases hrest : rest.getLast? with
    | none =>
      rw [hrest, Option.getD_none] at hc
      exact .inr (hc ▸ hquote)
    | some d =>
      rw [hrest, Option.getD_some] at hc
      exact ih (hrest.trans (congrArg some hc))

end Attributes

/-! ### Tags -/

section

variable {name attributes : List Char}

theorem takeWhile_content (hname : isName name = true) (hattributes : Attributes attributes) :
    (name ++ attributes).takeWhile (fun c ↦ !isSpace c) = name := by
  have hchars (c : Char) (hc : c ∈ name) : (!isSpace c) = true := by
    rw [isSpace_of_isNameChar (isNameChar_of_mem hname hc), Bool.not_false]
  rw [List.takeWhile_append_of_pos hchars]
  rcases hattributes.eq_nil_or_exists_cons with rfl | ⟨c, ds, rfl, hc⟩
  · exact List.append_nil name
  · rw [List.takeWhile_cons_of_neg (by simp [hc]), List.append_nil]

/-- The name of a tag is what stands before its attributes. -/
theorem name_mk (hname : isName name = true) (hattributes : Attributes attributes) :
    (Tag.mk (name ++ attributes)).name = String.ofList name :=
  congrArg String.ofList (takeWhile_content hname hattributes)

theorem getLast?_content_ne (hname : isName name = true) (hattributes : Attributes attributes) :
    (name ++ attributes).getLast? ≠ some '/' := by
  intro h
  rw [List.getLast?_append] at h
  cases hlast : attributes.getLast? with
  | none =>
    rw [hlast, Option.none_or] at h
    exact notMem_tagSigns (isNameChar_of_mem hname (List.mem_of_getLast? h)) (by decide)
  | some c =>
    rw [hlast, Option.some_or, Option.some.injEq] at h
    subst h
    exact absurd (hattributes.getLast?_eq hlast) (by decide)

/-- What markup begins with stands in front of the angle bracket that ends it, unless it holds one
itself. -/
theorem exists_append_of_append_eq {content rest opening cs : List Char} (hend : '>' ∉ opening)
    (h : content ++ '>' :: rest = opening ++ cs) : ∃ ds, content = opening ++ ds := by
  rcases List.append_eq_append_iff.mp h with ⟨ds, hopening, hrest⟩ | ⟨ds, hcontent, -⟩
  · cases ds with
    | nil => exact ⟨[], by simp [hopening]⟩
    | cons d ds =>
      obtain rfl := (List.cons.inj hrest).1
      exact absurd (hopening ▸ List.mem_append_right content List.mem_cons_self) hend
  · exact ⟨ds, hcontent⟩

/-- A tag that is no other markup is cut at its end. -/
theorem bracketStep_tag (opened : List String) {content : List Char}
    (hmark : content.head? ≠ some '!') (hquestion : content.head? ≠ some '?')
    (hpasses : Passes tagClosing none content none) (rest : List Char) :
    bracketStep opened (content ++ '>' :: rest) = tagStep opened content rest := by
  have hcut : cut tagClosing (content ++ '>' :: rest) = some (content, rest) :=
    cutFrom_of_passes hpasses rfl rest
  have hhead {sign : Char} {cs : List Char} (hsign : '>' ∉ [sign])
      (heq : content ++ '>' :: rest = sign :: cs) : content.head? = some sign := by
    obtain ⟨ds, rfl⟩ := exists_append_of_append_eq hsign heq
    rfl
  unfold bracketStep
  split
  case h_1 heq => exact absurd heq (by simp)
  case h_2 heq | h_3 heq | h_4 heq | h_5 heq | h_6 heq =>
    exact absurd (hhead (by decide) heq) hmark
  case h_7 heq => exact absurd (hhead (by decide) heq) hquestion
  case h_8 => rw [hcut]

/-- A tag that does not begin with a slash opens an element, or is one if it ends with a slash. -/
theorem tagStep_of_head? (opened : List String) {content : List Char}
    (hslash : content.head? ≠ some '/') (rest : List Char) :
    tagStep opened content rest =
      if content.getLast? = some '/' then
        .token ⟨.empty ⟨content.dropLast⟩, '<' :: (content ++ ['>'])⟩ opened rest
      else
        .token ⟨.start ⟨content⟩, '<' :: (content ++ ['>'])⟩ ((Tag.mk content).name :: opened)
          rest := by
  unfold tagStep
  split
  · exact absurd rfl hslash
  · rfl

theorem head?_append_ne (hname : isName name = true) {sign : Char} (hsign : sign ∈ tagSigns)
    (cs : List Char) : (name ++ cs).head? ≠ some sign := by
  obtain ⟨c, ds, rfl, hc⟩ := exists_cons_of_isName hname
  exact fun h ↦ notMem_tagSigns hc (Option.some.inj h ▸ hsign)

variable (opened : List String) (rest : List Char)

theorem next_bracket (cs : List Char) : next opened ('<' :: cs) = bracketStep opened cs := by
  rw [next, if_pos rfl]

theorem ne_nil_of_isName (hname : isName name = true) : name ≠ [] := by
  obtain ⟨c, ds, rfl, -⟩ := exists_cons_of_isName hname
  exact List.cons_ne_nil c ds

/-- The step at an opening tag. -/
theorem next_startTag (hname : isName name = true) (hattributes : Attributes attributes) :
    next opened (startTag name attributes ++ rest) =
      .token ⟨.start ⟨name ++ attributes⟩, startTag name attributes⟩ (String.ofList name :: opened)
        rest := by
  have hpasses := (passes_isName hname).append hattributes.passes
  calc next opened (startTag name attributes ++ rest)
    _ = next opened ('<' :: (name ++ attributes ++ '>' :: rest)) := by simp [startTag]
    _ = tagStep opened (name ++ attributes) rest := by
      rw [next_bracket, bracketStep_tag opened (head?_append_ne hname (by decide) _)
        (head?_append_ne hname (by decide) _) hpasses]
    _ = _ := by
      rw [tagStep_of_head? opened (head?_append_ne hname (by decide) _),
        if_neg (getLast?_content_ne hname hattributes), name_mk hname hattributes, startTag]

/-- The step at a self-closing tag. -/
theorem next_singleTag (hname : isName name = true) (hattributes : Attributes attributes) :
    next opened (singleTag name attributes ++ rest) =
      .token ⟨.empty ⟨name ++ attributes⟩, singleTag name attributes⟩ opened rest := by
  have hslash : Passes tagClosing none ['/'] none :=
    passes_plain (List.forall_mem_singleton.mpr (by decide))
  have hpasses := (passes_isName hname).append (hattributes.passes.append hslash)
  have hcontent : name ++ (attributes ++ ['/']) = name ++ attributes ++ ['/'] :=
    (List.append_assoc ..).symm
  calc next opened (singleTag name attributes ++ rest)
    _ = next opened ('<' :: (name ++ (attributes ++ ['/']) ++ '>' :: rest)) := by simp [singleTag]
    _ = tagStep opened (name ++ (attributes ++ ['/'])) rest := by
      rw [next_bracket, bracketStep_tag opened (head?_append_ne hname (by decide) _)
        (head?_append_ne hname (by decide) _) hpasses]
    _ = _ := by
      rw [tagStep_of_head? opened (head?_append_ne hname (by decide) _), hcontent,
        if_pos (List.getLast?_concat ..), List.dropLast_concat]
      simp [singleTag]

/-- Blanks behind a name do not belong to the name that is closed. -/
theorem closeName_append (hchars : ∀ c ∈ name, isSpace c = false) {blanks : List Char}
    (hblanks : ∀ c ∈ blanks, isSpace c = true) (hne : name = [] → blanks = []) :
    closeName (name ++ blanks) = String.ofList name := by
  by_cases hempty : name = []
  · rw [hempty, hne hempty]
    rfl
  have hall : ¬(name ++ blanks).all isSpace = true := by
    obtain ⟨c, cs, rfl⟩ := List.exists_cons_of_ne_nil hempty
    simp [hchars c List.mem_cons_self]
  have hreverse : name.reverse.dropWhile isSpace = name.reverse := by
    obtain ⟨c, cs, hcs⟩ := List.exists_cons_of_ne_nil (List.reverse_ne_nil_iff.mpr hempty)
    have hc := hchars c (List.mem_reverse.mp (hcs ▸ List.mem_cons_self))
    rw [hcs, List.dropWhile_cons_of_neg (by simp [hc])]
  have hblanks' (c : Char) (hc : c ∈ blanks.reverse) : isSpace c = true :=
    hblanks c (List.mem_reverse.mp hc)
  rw [closeName, if_neg hall, Text.dropEndWhile, List.reverse_append,
    List.dropWhile_append_of_pos hblanks', hreverse, List.reverse_reverse]

/-- The step at the closing tag of the innermost element. -/
theorem next_endTag (hname : isName name = true) {blanks : List Char}
    (hblanks : ∀ c ∈ blanks, isSpace c = true) :
    next (String.ofList name :: opened) (endTag name blanks ++ rest) =
      .token ⟨.close, endTag name blanks⟩ opened rest := by
  have hslash : Passes tagClosing none ['/'] none :=
    passes_plain (List.forall_mem_singleton.mpr (by decide))
  have hpasses : Passes tagClosing none ('/' :: (name ++ blanks)) none :=
    hslash.append ((passes_isName hname).append (passes_isSpace hblanks))
  have hclose : closeName (name ++ blanks) = String.ofList name :=
    closeName_append (fun c hc ↦ isSpace_of_isNameChar (isNameChar_of_mem hname hc)) hblanks
      fun hempty ↦ absurd hempty (ne_nil_of_isName hname)
  calc next (String.ofList name :: opened) (endTag name blanks ++ rest)
    _ = next (String.ofList name :: opened) ('<' :: ('/' :: (name ++ blanks) ++ '>' :: rest)) := by
      simp [endTag]
    _ = tagStep (String.ofList name :: opened) ('/' :: (name ++ blanks)) rest := by
      rw [next_bracket, bracketStep_tag _ (by simp) (by simp) hpasses]
    _ = _ := by
      rw [tagStep, hclose]
      exact if_pos rfl

end

/-! ### Other markup -/

/-- A text passes if no angle bracket in it stands behind a question mark, the one before the text
included. -/
theorem exists_passes_instruction {cs : List Char} (marked : Bool)
    (h : ¬['?', '>'] <:+: (if marked then '?' :: cs else cs)) :
    ∃ after, Passes instructionClosing marked cs after := by
  induction cs generalizing marked with
  | nil => exact ⟨marked, rfl⟩
  | cons c cs ih =>
    have htail : c :: cs <:+: if marked then '?' :: c :: cs else c :: cs := by
      cases marked with
      | false => exact List.infix_refl _
      | true => exact (List.suffix_cons '?' _).isInfix
    have hnext : ¬['?', '>'] <:+: (if c == '?' then '?' :: cs else cs) := by
      intro hfound
      refine h (hfound.trans (List.IsInfix.trans ?_ htail))
      by_cases hc : c = '?'
      · subst hc
        exact List.infix_refl _
      · rw [if_neg (mt beq_iff_eq.mp hc)]
        exact (List.suffix_cons c cs).isInfix
    obtain ⟨after, hafter⟩ := ih (c == '?') hnext
    refine ⟨after, ?_, hafter⟩
    rintro ⟨rfl, hends⟩
    obtain rfl : marked = true := hends
    exact h ⟨[], cs, rfl⟩

/-- A text passes if no angle bracket in it stands behind two closing brackets, those before the
text included. -/
theorem exists_passes_cdata {cs : List Char} (brackets : Nat)
    (h : ¬[']', ']', '>'] <:+: List.replicate brackets ']' ++ cs) :
    ∃ after, Passes cdataClosing brackets cs after := by
  induction cs generalizing brackets with
  | nil => exact ⟨brackets, rfl⟩
  | cons c cs ih =>
    have hnext : ¬[']', ']', '>'] <:+: List.replicate (cdataClosing.step brackets c) ']' ++ cs := by
      intro hfound
      by_cases hc : c = ']'
      · have hstep : cdataClosing.step brackets c = brackets + 1 := if_pos hc
        rw [hstep, List.replicate_succ', List.append_assoc, List.singleton_append] at hfound
        rw [hc] at h
        exact h hfound
      · have hstep : cdataClosing.step brackets c = 0 := if_neg hc
        rw [hstep] at hfound
        exact h (hfound.trans ((List.suffix_cons c cs).trans (List.suffix_append _ _)).isInfix)
    obtain ⟨after, hafter⟩ := ih _ hnext
    refine ⟨after, ?_, hafter⟩
    rintro ⟨rfl, hends⟩
    obtain ⟨k, rfl⟩ := Nat.exists_eq_add_of_le' (of_decide_eq_true hends : 2 ≤ brackets)
    exact h ⟨List.replicate k ']', cs, by simp [List.replicate_succ']⟩

/-- A text behind the beginning of a comment passes if it has no two dashes. The dashes of the
beginning do not count, so that up to four characters of the comment no angle bracket ends it. -/
theorem exists_passes_comment {cs : List Char} {index dashes : Nat} (h : ¬['-', '-'] <:+: cs)
    (hindex : 3 ≤ index) (hends : 2 ≤ dashes → index ≤ 4)
    (hdash : 4 ≤ index → 1 ≤ dashes → cs.head? ≠ some '-') :
    ∃ index' dashes', 3 ≤ index' ∧ Passes commentClosing (index, dashes) cs (index', dashes') := by
  induction cs generalizing index dashes with
  | nil => exact ⟨index, dashes, hindex, rfl⟩
  | cons c cs ih =>
    have htail : ¬['-', '-'] <:+: cs := fun hfound ↦
      h (hfound.trans (List.suffix_cons c cs).isInfix)
    have hstop : ¬(c = '>' ∧ commentClosing.ends (index, dashes) = true) := by
      rintro ⟨-, hboth⟩
      have hboth' : 5 ≤ index ∧ 2 ≤ dashes := by simpa [commentClosing] using hboth
      have := hends hboth'.2
      omega
    by_cases hc : c = '-'
    · subst hc
      have hearly : 1 ≤ dashes → index ≤ 3 := fun hdashes ↦
        Nat.not_lt.mp fun hlate ↦ hdash hlate hdashes rfl
      have hnext : cs.head? ≠ some '-' := by
        intro hhead
        obtain ⟨ds, rfl⟩ := List.head?_eq_some_iff.mp hhead
        exact h ⟨[], ds, rfl⟩
      obtain ⟨index', dashes', hindex', hpasses⟩ :
          ∃ index' dashes', 3 ≤ index' ∧
            Passes commentClosing (index + 1, dashes + 1) cs (index', dashes') :=
        ih htail (by omega) (by omega) fun _ _ ↦ hnext
      exact ⟨index', dashes', hindex', hstop, hpasses⟩
    · obtain ⟨index', dashes', hindex', hpasses⟩ :
          ∃ index' dashes', 3 ≤ index' ∧
            Passes commentClosing (index + 1, 0) cs (index', dashes') :=
        ih htail (by omega) (by omega) fun _ hnone ↦ absurd hnone (by decide)
      have hstep : commentClosing.step (index, dashes) c = (index + 1, 0) :=
        congrArg (index + 1, ·) (if_neg hc)
      exact ⟨index', dashes', hindex', hstop, hstep ▸ hpasses⟩

/-- The step at markup that ends where it is cut and passes its check. -/
theorem markupStep_of_passes {σ : Type} {m : Closing σ} {event : Event} {unclosed : Fault}
    {check : List Char → Except Fault Unit} {s : σ} {content : List Char}
    (hpasses : Passes m m.init content s) (hends : m.ends s = true)
    (hcheck : check content = .ok ()) (opened : List String) (rest : List Char) :
    markupStep m event unclosed check opened (content ++ '>' :: rest) =
      .token ⟨event, '<' :: (content ++ ['>'])⟩ opened rest := by
  have hcut : cut m (content ++ '>' :: rest) = some (content, rest) :=
    cutFrom_of_passes hpasses hends rest
  rw [markupStep, hcut]
  simp only [hcheck]

/-- A text without angle brackets passes. -/
theorem passes_foldl {σ : Type} {m : Closing σ} {cs : List Char} (h : '>' ∉ cs) (s : σ) :
    Passes m s cs (cs.foldl m.step s) := by
  induction cs generalizing s with
  | nil => rfl
  | cons c cs ih =>
    rw [List.mem_cons, not_or] at h
    exact ⟨fun hc ↦ h.1 hc.1.symm, ih h.2 _⟩

section

variable {body : List Char} (opened : List String) (rest : List Char)

/-- The step at a comment. -/
theorem next_comment (h : ¬"--".toList <:+: body) :
    next opened ("<!--".toList ++ (body ++ "-->".toList) ++ rest) =
      .token ⟨.aside, "<!--".toList ++ (body ++ "-->".toList)⟩ opened rest := by
  obtain ⟨index, dashes, hindex, hbody⟩ :
      ∃ index dashes, 3 ≤ index ∧ Passes commentClosing (3, 2) body (index, dashes) :=
    exists_passes_comment h (by decide) (by decide) fun hlate ↦ absurd hlate (by decide)
  have hpasses : Passes commentClosing (0, 0) ("!--".toList ++ (body ++ "--".toList))
      (index + 2, dashes + 2) :=
    (passes_foldl (by decide) (0, 0)).append (hbody.append (passes_foldl (by decide) _))
  have hends : commentClosing.ends (index + 2, dashes + 2) = true := by
    simp only [commentClosing, Bool.and_eq_true, decide_eq_true_eq]
    omega
  have hstep : bracketStep opened ("!--".toList ++ (body ++ "--".toList) ++ '>' :: rest) = _ :=
    markupStep_of_passes hpasses hends rfl opened rest
  simpa [next_bracket] using hstep

/-- The step at a character data section. -/
theorem next_cdata (h : ¬"]]>".toList <:+: body) :
    next opened ("<![CDATA[".toList ++ (body ++ "]]>".toList) ++ rest) =
      .token ⟨.cdata, "<![CDATA[".toList ++ (body ++ "]]>".toList)⟩ opened rest := by
  obtain ⟨brackets, hbody⟩ := exists_passes_cdata 0 h
  have hpasses : Passes cdataClosing 0 ("![CDATA[".toList ++ (body ++ "]]".toList))
      (brackets + 2) :=
    (passes_foldl (by decide) 0).append (hbody.append (passes_foldl (by decide) _))
  have hends : cdataClosing.ends (brackets + 2) = true :=
    decide_eq_true (Nat.le_add_left 2 brackets)
  have hstep : bracketStep opened ("![CDATA[".toList ++ (body ++ "]]".toList) ++ '>' :: rest) = _ :=
    markupStep_of_passes hpasses hends rfl opened rest
  simpa [next_bracket] using hstep

/-- The step at a processing instruction. -/
theorem next_instruction (h : ¬"?>".toList <:+: '?' :: body) :
    next opened ("<?".toList ++ (body ++ "?>".toList) ++ rest) =
      .token ⟨.aside, "<?".toList ++ (body ++ "?>".toList)⟩ opened rest := by
  obtain ⟨marked, hbody⟩ := exists_passes_instruction true h
  have hpasses : Passes instructionClosing false ("?".toList ++ (body ++ "?".toList)) true :=
    (passes_foldl (by decide) false).append (hbody.append (passes_foldl (by decide) _))
  have hcheck : checkInstruction ("?".toList ++ (body ++ "?".toList)) = .ok () := by
    refine if_neg fun hempty ↦ ?_
    simp at hempty
  have hstep : bracketStep opened ("?".toList ++ (body ++ "?".toList) ++ '>' :: rest) = _ :=
    markupStep_of_passes hpasses rfl hcheck opened rest
  simpa [next_bracket] using hstep

end

/-! ### Texts read as nodes -/

theorem scanFrom_of_next {opened opened' : List String} {cs rest : List Char} {t : Token}
    (h : next opened cs = .token t opened' rest) :
    scanFrom opened cs = (t :: (scanFrom opened' rest).1, (scanFrom opened' rest).2) := by
  rw [scanFrom]
  split
  case h_1 heq | h_2 heq => cases h.symm.trans heq
  case h_3 heq =>
    obtain ⟨rfl, rfl, rfl⟩ := Step.token.inj (h.symm.trans heq)
    rfl

/-- A text is read as nodes, whatever elements are open and whatever follows. -/
structure Scans (cs : List Char) (nodes : List Node) : Prop where
  markup_eq : Node.markup nodes = cs
  scanFrom_append : ∀ opened rest, scanFrom opened (cs ++ rest) =
    (Node.listTokens nodes ++ (scanFrom opened rest).1, (scanFrom opened rest).2)

/-- A text is read as nodes, whatever elements are open, if markup follows. -/
structure ScansInside (cs : List Char) (nodes : List Node) : Prop where
  markup_eq : Node.markup nodes = cs
  scanFrom_append : ∀ opened rest, scanFrom opened (cs ++ '<' :: rest) =
    (Node.listTokens nodes ++ (scanFrom opened ('<' :: rest)).1,
      (scanFrom opened ('<' :: rest)).2)

section

variable {cs ds : List Char} {nodes nodes' : List Node}

theorem scans_nil : Scans [] [] :=
  ⟨rfl, fun _ _ ↦ rfl⟩

theorem Scans.append (h : Scans cs nodes) (h' : Scans ds nodes') :
    Scans (cs ++ ds) (nodes ++ nodes') where
  markup_eq := by rw [Node.markup_append, h.markup_eq, h'.markup_eq]
  scanFrom_append opened rest := by
    rw [List.append_assoc, h.scanFrom_append, h'.scanFrom_append, Node.listTokens_append,
      List.append_assoc]

theorem Scans.inside (h : Scans cs nodes) : ScansInside cs nodes :=
  ⟨h.markup_eq, fun opened rest ↦ h.scanFrom_append opened ('<' :: rest)⟩

theorem Scans.append_inside (h : Scans cs nodes) (h' : ScansInside ds nodes') :
    ScansInside (cs ++ ds) (nodes ++ nodes') where
  markup_eq := by rw [Node.markup_append, h.markup_eq, h'.markup_eq]
  scanFrom_append opened rest := by
    rw [List.append_assoc, h.scanFrom_append, h'.scanFrom_append, Node.listTokens_append,
      List.append_assoc]

theorem ScansInside.append_cons (h : ScansInside cs nodes) (h' : ScansInside ('<' :: ds) nodes') :
    ScansInside (cs ++ '<' :: ds) (nodes ++ nodes') where
  markup_eq := by rw [Node.markup_append, h.markup_eq, h'.markup_eq]
  scanFrom_append opened rest := by
    have hafter := h'.scanFrom_append opened rest
    rw [List.cons_append] at hafter
    rw [List.append_assoc, List.cons_append, h.scanFrom_append, hafter, Node.listTokens_append,
      List.append_assoc]

/-- A whole text that begins with markup is read as nodes. -/
theorem scan_of_scans (h : Scans ('<' :: cs) nodes) :
    scan (String.ofList ('<' :: cs)) = (Node.listTokens nodes, .complete) := by
  have hend : scanFrom [] [] = ([], .complete) := by simp [scanFrom, next]
  have hscan := h.scanFrom_append [] []
  rw [List.append_nil, hend, List.append_nil] at hscan
  rw [scan, String.toList_ofList]
  exact hscan

/-- Markup that is one token is read as the node of the token. -/
theorem scans_of_next {node : Node} {event : Event} (hnode : node.tokens = [⟨event, cs⟩])
    (hnext : ∀ opened rest, next opened (cs ++ rest) = .token ⟨event, cs⟩ opened rest) :
    Scans cs [node] where
  markup_eq := by simp [Node.markup, Node.listTokens, hnode]
  scanFrom_append opened rest := by
    rw [scanFrom_of_next (hnext opened rest)]
    simp [Node.listTokens, hnode]

/-- An element is read as a node with what stands between its tags. -/
theorem scans_element {name attributes blanks : List Char} (hname : isName name = true)
    (hattributes : Attributes attributes) (hinner : ScansInside cs nodes)
    (hblanks : ∀ c ∈ blanks, isSpace c = true) :
    Scans (startTag name attributes ++ (cs ++ endTag name blanks))
      [.element ⟨name ++ attributes⟩ (startTag name attributes) nodes (endTag name blanks)] where
  markup_eq := by
    have hmarkup : (Node.listTokens nodes).flatMap Token.source = cs := hinner.markup_eq
    simp [Node.markup, Node.listTokens, Node.tokens, hmarkup]
  scanFrom_append opened rest := by
    have hstart := scanFrom_of_next (next_startTag opened (cs ++ (endTag name blanks ++ rest))
      hname hattributes)
    have hend := scanFrom_of_next (next_endTag opened rest hname hblanks)
    -- the closing tag begins with an angle bracket, so the content is read as it would be alone
    have hscan := hinner.scanFrom_append (String.ofList name :: opened)
      ('/' :: (name ++ blanks) ++ ['>'] ++ rest)
    rw [← List.cons_append, ← endTag, hend] at hscan
    rw [hscan] at hstart
    simpa [Node.listTokens, Node.tokens] using hstart

/-- A self-closing tag is read as a node. -/
theorem scans_singleTag {name attributes : List Char} (hname : isName name = true)
    (hattributes : Attributes attributes) :
    Scans (singleTag name attributes) [.single ⟨name ++ attributes⟩ (singleTag name attributes)] :=
  scans_of_next rfl fun opened rest ↦ next_singleTag opened rest hname hattributes

/-- Text before markup is read as one node, or none if it is empty. -/
theorem exists_scansInside_of_notMem (h : '<' ∉ cs) : ∃ nodes, ScansInside cs nodes := by
  cases cs with
  | nil => exact ⟨[], scans_nil.inside⟩
  | cons c cs =>
    rw [List.mem_cons, not_or] at h
    have hall (d : Char) (hd : d ∈ cs) : (d != '<') = true :=
      bne_iff_ne.mpr fun heq ↦ h.2 (heq ▸ hd)
    have hnext (opened : List String) (rest : List Char) :
        next opened (c :: cs ++ '<' :: rest) = .token ⟨.text, c :: cs⟩ opened ('<' :: rest) := by
      rw [List.cons_append, next, if_neg (Ne.symm h.1), List.takeWhile_append_of_pos hall,
        List.dropWhile_append_of_pos hall]
      simp
    refine ⟨[.text (c :: cs)], by simp [Node.markup, Node.listTokens, Node.tokens], ?_⟩
    intro opened rest
    rw [scanFrom_of_next (hnext opened rest)]
    rfl

end

theorem Piece.exists_cons {cs : List Char} (h : Piece cs) : ∃ ds, cs = '<' :: ds := by
  cases h <;> exact ⟨_, rfl⟩

mutual

/-- Content is read as nodes. -/
theorem Content.exists_scansInside {cs : List Char} (h : Content cs) :
    ∃ nodes, ScansInside cs nodes := by
  match h with
  | .text h => exact exists_scansInside_of_notMem h
  | .piece hbefore hpiece hrest =>
    obtain ⟨nodes, hnodes⟩ := exists_scansInside_of_notMem hbefore
    obtain ⟨node, hnode⟩ := hpiece.exists_scans
    obtain ⟨nodes', hnodes'⟩ := hrest.exists_scansInside
    have hafter := hnode.append_inside hnodes'
    obtain ⟨ds, rfl⟩ := hpiece.exists_cons
    exact ⟨_, hnodes.append_cons hafter⟩

theorem Piece.exists_scans {cs : List Char} (h : Piece cs) : ∃ node, Scans cs [node] := by
  match h with
  | .element hname hattributes hinner hblanks =>
    obtain ⟨nodes, hnodes⟩ := hinner.exists_scansInside
    exact ⟨_, scans_element hname hattributes hnodes hblanks⟩
  | .single hname hattributes => exact ⟨_, scans_singleTag hname hattributes⟩
  | .comment h =>
    exact ⟨.aside _, scans_of_next rfl fun opened rest ↦ next_comment opened rest h⟩
  | .cdata h =>
    exact ⟨.cdata _, scans_of_next rfl fun opened rest ↦ next_cdata opened rest h⟩
  | .instruction h =>
    exact ⟨.aside _, scans_of_next rfl fun opened rest ↦ next_instruction opened rest h⟩

end

end ApiDocs.Markup
