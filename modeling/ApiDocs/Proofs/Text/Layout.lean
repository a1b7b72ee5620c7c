import ApiDocs.Text.Lines
import Mathlib.Data.List.DropRight
import Mathlib.Data.List.Forall2
import Mathlib.Logic.Relation

/-!
# The layout of section text

Normalising a text takes away its layout: the indentation of lines, the blanks at their ends, blank
lines, and the carriage returns of line ends. Texts that differ in nothing else have the same normal
form, and texts with the same normal form differ in nothing else. Each text differs from its own
normal form in layout only, so normalising again changes nothing.

## Main definitions

* `Text.rows`: the lines of a text as they are written, with either form of line ends.
* `Text.Relaid`: a text with one piece of layout more.
* `Text.IsNormalForm`: the normal form of a text.

## Main results

* `Text.keptLines_eq_rows`: either way of dividing a text into lines keeps the same lines.
* `Text.Relaid.keptLines_eq`: layout leaves no trace in the lines that are kept.
* `Text.eqvGen_relaid_normalizeChars`: a text differs from its normal form in layout only.
* `Text.normalizeChars_eq_iff`: texts with the same normal form differ in layout only.
* `Text.isNormalForm_normalize`: normalising gives the normal form.
-/

namespace ApiDocs.Text

/-! ### Trimming -/

/-- A line that neither begins nor ends with a blank. -/
structure IsTrimmed (cs : List Char) : Prop where
  head : ∀ c ∈ cs.head?, isBlank c = false
  last : ∀ c ∈ cs.getLast?, isBlank c = false

theorem trimChars_append_left {blanks : List Char} (h : ∀ c ∈ blanks, isBlank c = true)
    (cs : List Char) : trimChars (blanks ++ cs) = trimChars cs := by
  rw [trimChars, List.dropWhile_append_of_pos h, trimChars]

theorem dropEndWhile_append {p : Char → Bool} {blanks : List Char}
    (h : ∀ c ∈ blanks, p c = true) (cs : List Char) :
    dropEndWhile p (cs ++ blanks) = dropEndWhile p cs := by
  rw [dropEndWhile, List.reverse_append, List.dropWhile_append_of_pos, dropEndWhile]
  exact fun c hc ↦ h c (List.mem_reverse.mp hc)

theorem trimChars_append_right {blanks : List Char} (h : ∀ c ∈ blanks, isBlank c = true)
    (cs : List Char) : trimChars (cs ++ blanks) = trimChars cs := by
  rw [trimChars, List.dropWhile_append]
  split_ifs with hempty
  · rw [List.dropWhile_eq_nil_iff.mpr h, trimChars, List.isEmpty_iff.mp hempty]
  · rw [dropEndWhile_append h, trimChars]

/-- Trimming takes away nothing but blanks at the two ends. -/
theorem exists_eq_append_trimChars (cs : List Char) :
    ∃ before after, cs = before ++ trimChars cs ++ after ∧
      (∀ c ∈ before, isBlank c = true) ∧ (∀ c ∈ after, isBlank c = true) := by
  refine ⟨cs.takeWhile isBlank, (cs.dropWhile isBlank).rtakeWhile isBlank, ?_, fun c hc ↦ ?_,
    fun c hc ↦ ?_⟩
  · have hend : trimChars cs ++ (cs.dropWhile isBlank).rtakeWhile isBlank =
        cs.dropWhile isBlank := List.rdropWhile_append_rtakeWhile
    rw [List.append_assoc, hend, List.takeWhile_append_dropWhile]
  · exact List.mem_takeWhile_imp hc
  · exact List.mem_rtakeWhile_imp hc

theorem isTrimmed_trimChars (cs : List Char) : IsTrimmed (trimChars cs) := by
  constructor
  · intro c hc
    -- the first character is that of the text without the blanks at its beginning
    obtain ⟨rest, hrest⟩ : trimChars cs <+: cs.dropWhile isBlank := List.rdropWhile_prefix _ _
    have hhead := List.head?_dropWhile_not isBlank cs
    rw [← hrest, List.head?_append, hc] at hhead
    exact hhead
  · intro c hc
    have hne : (cs.dropWhile isBlank).rdropWhile isBlank ≠ [] := by
      intro hnil
      rw [show trimChars cs = [] from hnil] at hc
      cases hc
    have hlast := List.rdropWhile_last_not isBlank _ hne
    rw [Bool.not_eq_true] at hlast
    have heq : (trimChars cs).getLast? = some _ := List.getLast?_eq_some_getLast hne
    obtain rfl := Option.some.inj (heq.symm.trans hc)
    exact hlast

/-! ### Lines -/

/-- The lines of a text as they are written. A line ends with a line feed or with a carriage return
and a line feed, and the last one need not. A carriage return alone ends no line. -/
def rows : List Char → List (List Char)
  | [] => []
  | '\n' :: cs => [] :: rows cs
  | '\r' :: '\n' :: cs => [] :: rows cs
  | c :: cs =>
    match rows cs with
    | [] => [[c]]
    | row :: rest => (c :: row) :: rest

/-- The trimmed lines that normalising keeps. -/
def keptLines (cs : List Char) : List (List Char) :=
  ((lines cs).map trimChars).filter fun line ↦ !line.isEmpty

theorem normalizeChars_eq (cs : List Char) :
    normalizeChars cs = List.intercalate ['\n'] (keptLines cs) := rfl

theorem lines_cons_of_ne {c : Char} (hc : c ≠ '\n') {cs first : List Char}
    {rest : List (List Char)} (h : lines cs = first :: rest) :
    lines (c :: cs) = (c :: first) :: rest := by
  unfold lines at h ⊢
  rw [divide, if_neg hc, h]

theorem lines_cons_break (cs : List Char) : lines ('\n' :: cs) = [] :: lines cs := rfl

theorem exists_lines_eq_cons (cs : List Char) : ∃ first rest, lines cs = first :: rest :=
  exists_divide_eq '\n' cs

/-- The last line of a text and the first one of the text after it become one line. -/
theorem exists_lines_append (cs : List Char) :
    ∃ init last, lines cs = init ++ [last] ∧ ∀ ds first rest, lines ds = first :: rest →
      lines (cs ++ ds) = init ++ (last ++ first) :: rest := by
  induction cs with
  | nil => exact ⟨[], [], rfl, fun ds first rest h ↦ h⟩
  | cons c cs ih =>
    obtain ⟨init, last, hcs, happend⟩ := ih
    by_cases hc : c = '\n'
    · subst hc
      refine ⟨[] :: init, last, by rw [lines_cons_break, hcs, List.cons_append],
        fun ds first rest h ↦ ?_⟩
      rw [List.cons_append, lines_cons_break, happend ds first rest h, List.cons_append]
    · cases init with
      | nil =>
        exact ⟨[], c :: last, lines_cons_of_ne hc hcs,
          fun ds first rest h ↦ lines_cons_of_ne hc (happend ds first rest h)⟩
      | cons line init =>
        exact ⟨(c :: line) :: init, last, lines_cons_of_ne hc hcs,
          fun ds first rest h ↦ lines_cons_of_ne hc (happend ds first rest h)⟩

theorem lines_append_break (cs ds : List Char) :
    lines (cs ++ '\n' :: ds) = lines cs ++ lines ds := by
  obtain ⟨init, last, hcs, happend⟩ := exists_lines_append cs
  rw [happend _ _ _ (lines_cons_break ds), hcs, List.append_nil, List.append_assoc,
    List.singleton_append]

theorem lines_append_of_notMem {cs : List Char} (h : '\n' ∉ cs) {ds first : List Char}
    {rest : List (List Char)} (hds : lines ds = first :: rest) :
    lines (cs ++ ds) = (cs ++ first) :: rest := by
  induction cs with
  | nil => exact hds
  | cons c cs ih =>
    rw [List.mem_cons, not_or] at h
    exact lines_cons_of_ne (Ne.symm h.1) (ih h.2)

theorem lines_of_notMem {cs : List Char} (h : '\n' ∉ cs) : lines cs = [cs] := by
  simpa only [List.append_nil] using lines_append_of_notMem h (show lines [] = [[]] from rfl)

theorem notMem_of_mem_lines {cs line : List Char} (h : line ∈ lines cs) : '\n' ∉ line := by
  induction cs generalizing line with
  | nil =>
    obtain rfl := List.mem_singleton.mp h
    exact List.not_mem_nil
  | cons c cs ih =>
    by_cases hc : c = '\n'
    · subst hc
      rw [lines_cons_break, List.mem_cons] at h
      rcases h with rfl | h
      · exact List.not_mem_nil
      · exact ih h
    · obtain ⟨first, rest, hcs⟩ := exists_lines_eq_cons cs
      rw [lines_cons_of_ne hc hcs, List.mem_cons] at h
      rcases h with rfl | h
      · rw [List.mem_cons, not_or]
        exact ⟨Ne.symm hc, ih (hcs ▸ List.mem_cons_self)⟩
      · exact ih (hcs ▸ List.mem_cons_of_mem first h)

/-- Every line of a text is written with a line feed after it, if there is one more at the end. -/
theorem append_break_eq_flatMap (cs : List Char) :
    cs ++ ['\n'] = (lines cs).flatMap fun line ↦ line ++ ['\n'] := by
  induction cs with
  | nil => rfl
  | cons c cs ih =>
    by_cases hc : c = '\n'
    · subst hc
      rw [lines_cons_break, List.flatMap_cons, List.cons_append, ih]
      rfl
    · obtain ⟨first, rest, hcs⟩ := exists_lines_eq_cons cs
      rw [hcs, List.flatMap_cons] at ih
      rw [lines_cons_of_ne hc hcs, List.flatMap_cons, List.cons_append, ih]
      rfl

/-- As they are written, lines have no carriage return before a line feed, and no empty line stands
after the last line feed. -/
theorem exists_forall₂_rows (cs : List Char) :
    ∃ front, List.Forall₂ (fun row line ↦ line = row ∨ line = row ++ ['\r']) (rows cs) front ∧
      (lines cs = front ∨ lines cs = front ++ [[]]) := by
  fun_induction rows cs with
  | case1 => exact ⟨[], .nil, Or.inr rfl⟩
  | case2 cs ih =>
    obtain ⟨front, hrows, hlines⟩ := ih
    refine ⟨[] :: front, .cons (Or.inl rfl) hrows, ?_⟩
    rw [lines_cons_break]
    exact hlines.imp (congrArg (List.cons [])) (congrArg (List.cons []))
  | case3 cs ih =>
    obtain ⟨front, hrows, hlines⟩ := ih
    refine ⟨['\r'] :: front, .cons (Or.inr rfl) hrows, ?_⟩
    rw [lines_cons_of_ne (by decide) (lines_cons_break cs)]
    exact hlines.imp (congrArg (List.cons ['\r'])) (congrArg (List.cons ['\r']))
  | case4 c cs hc _ hnil ih =>
    obtain ⟨front, hrows, hlines⟩ := ih
    rw [hnil, List.forall₂_nil_left_iff] at hrows
    subst hrows
    refine ⟨[[c]], .cons (Or.inl rfl) .nil, Or.inl ?_⟩
    rcases hlines with hlines | hlines
    · obtain ⟨first, rest, hcs⟩ := exists_lines_eq_cons cs
      cases hcs.symm.trans hlines
    · exact lines_cons_of_ne hc hlines
  | case5 c cs hc _ row rest hcons ih =>
    obtain ⟨front, hrows, hlines⟩ := ih
    rw [hcons, List.forall₂_cons_left_iff] at hrows
    obtain ⟨line, front, hline, hrest, rfl⟩ := hrows
    refine ⟨(c :: line) :: front, .cons ?_ hrest, ?_⟩
    · exact hline.imp (congrArg (List.cons c)) (congrArg (List.cons c))
    · exact hlines.imp (lines_cons_of_ne hc) (lines_cons_of_ne hc)

/-- A line as it is written is a line, or one without the carriage return at its end. -/
theorem mem_lines_of_mem_rows {cs row : List Char} (h : row ∈ rows cs) :
    row ∈ lines cs ∨ row ++ ['\r'] ∈ lines cs := by
  obtain ⟨front, hrows, hlines⟩ := exists_forall₂_rows cs
  obtain ⟨⟨i, hi⟩, rfl⟩ := List.get_of_mem h
  have hi' : i < front.length := hrows.length_eq ▸ hi
  have hmem : front.get ⟨i, hi'⟩ ∈ lines cs := by
    have hfront := List.get_mem front ⟨i, hi'⟩
    rcases hlines with hlines | hlines <;> rw [hlines]
    · exact hfront
    · exact List.mem_append_left _ hfront
  rcases hrows.get hi hi' with heq | heq <;> rw [heq] at hmem
  · exact Or.inl hmem
  · exact Or.inr hmem

/-! ### Lines that are kept -/

/-- Blanks within a line. -/
structure IsPadding (blanks : List Char) : Prop where
  blank : ∀ c ∈ blanks, isBlank c = true
  unbroken : '\n' ∉ blanks

theorem isPadding_nil : IsPadding [] :=
  ⟨List.forall_mem_nil _, List.not_mem_nil⟩

theorem isPadding_return : IsPadding ['\r'] :=
  ⟨List.forall_mem_singleton.mpr rfl, by decide⟩

theorem keptLines_append_break (cs ds : List Char) :
    keptLines (cs ++ '\n' :: ds) = keptLines cs ++ keptLines ds := by
  rw [keptLines, lines_append_break, List.map_append, List.filter_append, keptLines, keptLines]

namespace IsPadding

variable {blanks : List Char} (h : IsPadding blanks)

include h

theorem keptLines_eq_nil : keptLines blanks = [] := by
  have htrim : trimChars ([] ++ blanks) = [] := trimChars_append_right h.blank []
  rw [keptLines, lines_of_notMem h.unbroken, List.map_singleton, ← List.nil_append blanks, htrim]
  rfl

theorem keptLines_append_left (cs : List Char) : keptLines (blanks ++ cs) = keptLines cs := by
  obtain ⟨first, rest, hcs⟩ := exists_lines_eq_cons cs
  rw [keptLines, keptLines, lines_append_of_notMem h.unbroken hcs, hcs, List.map_cons,
    List.map_cons, trimChars_append_left h.blank]

theorem keptLines_append_right (cs : List Char) : keptLines (cs ++ blanks) = keptLines cs := by
  obtain ⟨init, last, hcs, happend⟩ := exists_lines_append cs
  rw [keptLines, keptLines, happend _ _ _ (lines_of_notMem h.unbroken), hcs, List.map_append,
    List.map_append, List.map_singleton, List.map_singleton, trimChars_append_right h.blank]

end IsPadding

/-- Either way of dividing a text into lines keeps the same lines. -/
theorem keptLines_eq_rows (cs : List Char) :
    keptLines cs = ((rows cs).map trimChars).filter fun line ↦ !line.isEmpty := by
  obtain ⟨front, hrows, hlines⟩ := exists_forall₂_rows cs
  have htrim : (rows cs).map trimChars = front.map trimChars := by
    rw [← List.forall₂_eq_eq_eq, List.forall₂_map_left_iff, List.forall₂_map_right_iff]
    refine hrows.imp fun row line hline ↦ ?_
    rcases hline with rfl | rfl
    · rfl
    · exact (trimChars_append_right isPadding_return.blank row).symm
  rw [htrim, keptLines]
  rcases hlines with hlines | hlines
  · rw [hlines]
  · rw [hlines, List.map_append, List.filter_append]
    exact List.append_nil _

theorem of_mem_keptLines {cs line : List Char} (h : line ∈ keptLines cs) :
    line ≠ [] ∧ IsTrimmed line ∧ '\n' ∉ line := by
  obtain ⟨hmem, hne⟩ := List.mem_filter.mp h
  obtain ⟨whole, hwhole, rfl⟩ := List.mem_map.mp hmem
  refine ⟨fun hnil ↦ ?_, isTrimmed_trimChars whole, fun hin ↦ ?_⟩
  · rw [hnil] at hne
    cases hne
  · obtain ⟨before, after, heq, -, -⟩ := exists_eq_append_trimChars whole
    refine notMem_of_mem_lines hwhole ?_
    rw [heq]
    exact List.mem_append_left _ (List.mem_append_right _ hin)

/-! ### Layout -/

/-- A line begins after these characters. -/
def BeginsLine (before : List Char) : Prop :=
  before = [] ∨ ∃ cs, before = cs ++ ['\n']

/-- A line ends before these characters. -/
def EndsLine (after : List Char) : Prop :=
  after = [] ∨ ∃ cs, after = '\n' :: cs

/-- A text with one piece of layout more. -/
inductive Relaid : List Char → List Char → Prop
  /-- Blanks at the beginning of a line. -/
  | indent {before blanks after : List Char} (hbefore : BeginsLine before)
      (hblanks : IsPadding blanks) : Relaid (before ++ after) (before ++ (blanks ++ after))
  /-- Blanks at the end of a line. -/
  | trail {before blanks after : List Char} (hafter : EndsLine after)
      (hblanks : IsPadding blanks) : Relaid (before ++ after) (before ++ (blanks ++ after))
  /-- A blank line. -/
  | blankLine {before blanks after : List Char} (hbefore : BeginsLine before)
      (hblanks : IsPadding blanks) : Relaid (before ++ after) (before ++ (blanks ++ '\n' :: after))
  /-- A line feed at the end. -/
  | lastBreak {cs : List Char} : Relaid cs (cs ++ ['\n'])
  /-- A carriage return before a line feed. -/
  | carriage {before after : List Char} :
      Relaid (before ++ '\n' :: after) (before ++ '\r' :: '\n' :: after)

theorem BeginsLine.keptLines_append {before : List Char} (h : BeginsLine before) (cs : List Char) :
    keptLines (before ++ cs) = keptLines before ++ keptLines cs := by
  rcases h with rfl | ⟨ds, rfl⟩
  · rfl
  · rw [List.append_assoc, List.singleton_append, keptLines_append_break, keptLines_append_break]
    exact congrArg (· ++ _) (List.append_nil _).symm

/-- Layout leaves no trace in the lines that are kept. -/
theorem Relaid.keptLines_eq {cs ds : List Char} (h : Relaid cs ds) :
    keptLines cs = keptLines ds := by
  cases h with
  | indent hbefore hblanks =>
    rw [hbefore.keptLines_append, hbefore.keptLines_append, hblanks.keptLines_append_left]
  | trail hafter hblanks =>
    rw [← List.append_assoc]
    rcases hafter with rfl | ⟨cs, rfl⟩
    · rw [List.append_nil, List.append_nil, hblanks.keptLines_append_right]
    · rw [keptLines_append_break, keptLines_append_break, hblanks.keptLines_append_right]
  | blankLine hbefore hblanks =>
    rw [hbefore.keptLines_append, hbefore.keptLines_append, keptLines_append_break,
      hblanks.keptLines_eq_nil, List.nil_append]
  | lastBreak =>
    rw [keptLines_append_break]
    exact (List.append_nil _).symm
  | @carriage before after =>
    rw [List.append_cons before '\r', keptLines_append_break, keptLines_append_break,
      isPadding_return.keptLines_append_right]

/-- Layout consists of blanks. -/
theorem Relaid.filter_eq {cs ds : List Char} (h : Relaid cs ds) :
    (cs.filter fun c ↦ !isBlank c) = ds.filter fun c ↦ !isBlank c := by
  have hnil {blanks : List Char} (hblanks : IsPadding blanks) :
      (blanks.filter fun c ↦ !isBlank c) = [] := by
    refine List.filter_eq_nil_iff.mpr fun c hc ↦ ?_
    rw [hblanks.blank c hc]
    exact Bool.false_ne_true
  have hbreak (after : List Char) :
      (('\n' :: after).filter fun c ↦ !isBlank c) = after.filter fun c ↦ !isBlank c := rfl
  cases h with
  | indent _ hblanks => simp only [List.filter_append, hnil hblanks, List.nil_append]
  | trail _ hblanks => simp only [List.filter_append, hnil hblanks, List.nil_append]
  | blankLine _ hblanks => simp only [List.filter_append, hnil hblanks, List.nil_append, hbreak]
  | lastBreak => simp only [List.filter_append, hbreak, List.filter_nil, List.append_nil]
  | carriage =>
    simp only [List.filter_append]
    rfl

/-! ### Texts and their normal forms -/

open Relation

theorem BeginsLine.append_break (before line : List Char) :
    BeginsLine (before ++ (line ++ ['\n'])) :=
  Or.inr ⟨before ++ line, (List.append_assoc _ _ _).symm⟩

/-- A line differs from the trimmed line in layout only. -/
theorem BeginsLine.eqvGen_trimChars {before : List Char} (h : BeginsLine before) {line : List Char}
    (hline : '\n' ∉ line) (after : List Char) :
    EqvGen Relaid (before ++ (line ++ '\n' :: after))
      (before ++ (trimChars line ++ '\n' :: after)) := by
  obtain ⟨front, back, heq, hfront, hback⟩ := exists_eq_append_trimChars line
  rw [heq, List.mem_append, List.mem_append, not_or, not_or] at hline
  have hindent : Relaid (before ++ (trimChars line ++ (back ++ '\n' :: after)))
      (before ++ (line ++ '\n' :: after)) := by
    conv_rhs => rw [heq, List.append_assoc, List.append_assoc]
    exact .indent h ⟨hfront, hline.1.1⟩
  have htrail : Relaid (before ++ (trimChars line ++ '\n' :: after))
      (before ++ (trimChars line ++ (back ++ '\n' :: after))) := by
    rw [← List.append_assoc, ← List.append_assoc before]
    exact .trail (Or.inr ⟨after, rfl⟩) ⟨hback, hline.2⟩
  exact .trans _ _ _ (.symm _ _ (.rel _ _ hindent)) (.symm _ _ (.rel _ _ htrail))

/-- Lines differ from the trimmed lines that are not empty in layout only. -/
theorem BeginsLine.eqvGen_flatMap {before : List Char} (h : BeginsLine before)
    {parts : List (List Char)} (hparts : ∀ line ∈ parts, '\n' ∉ line) :
    EqvGen Relaid (before ++ parts.flatMap fun line ↦ line ++ ['\n'])
      (before ++ ((parts.map trimChars).filter fun line ↦ !line.isEmpty).flatMap
        fun line ↦ line ++ ['\n']) := by
  induction parts generalizing before with
  | nil => exact .refl _
  | cons line parts ih =>
    have hrest : ∀ line ∈ parts, '\n' ∉ line := fun l hl ↦ hparts l (List.mem_cons_of_mem _ hl)
    have htrim := h.eqvGen_trimChars (hparts line List.mem_cons_self)
      (parts.flatMap fun line ↦ line ++ ['\n'])
    rw [List.flatMap_cons, List.append_assoc, List.singleton_append]
    refine .trans _ _ _ htrim ?_
    rw [List.map_cons, List.filter_cons]
    split_ifs with hempty
    · -- the trimmed line stays, and a line begins after it
      have hnext := ih (.append_break before (trimChars line)) hrest
      simpa only [List.append_assoc, List.singleton_append, List.flatMap_cons] using hnext
    · rw [Bool.not_eq_true', Bool.not_eq_false, List.isEmpty_iff] at hempty
      have hline : Relaid (before ++ parts.flatMap fun line ↦ line ++ ['\n'])
          (before ++ ([] ++ '\n' :: parts.flatMap fun line ↦ line ++ ['\n'])) :=
        .blankLine h isPadding_nil
      rw [hempty]
      exact .trans _ _ _ (.symm _ _ (.rel _ _ hline)) (ih h hrest)

theorem intercalate_append_break {parts : List (List Char)} (h : parts ≠ []) :
    List.intercalate ['\n'] parts ++ ['\n'] = parts.flatMap fun line ↦ line ++ ['\n'] := by
  induction parts with
  | nil => exact absurd rfl h
  | cons line parts ih =>
    by_cases hnil : parts = []
    · subst hnil
      rw [List.intercalate_singleton, List.flatMap_singleton]
    · rw [List.intercalate_cons_of_ne_nil hnil, List.append_assoc, ih hnil, List.flatMap_cons]

/-- A text differs from its normal form in layout only. -/
theorem eqvGen_relaid_normalizeChars (cs : List Char) : EqvGen Relaid cs (normalizeChars cs) := by
  have hlines : EqvGen Relaid (cs ++ ['\n'])
      ((keptLines cs).flatMap fun line ↦ line ++ ['\n']) := by
    rw [append_break_eq_flatMap]
    exact BeginsLine.eqvGen_flatMap (Or.inl rfl) fun line ↦ notMem_of_mem_lines
  refine .trans _ _ _ (.trans _ _ _ (.rel _ _ .lastBreak) hlines) ?_
  rw [normalizeChars_eq]
  by_cases hnil : keptLines cs = []
  · rw [hnil]
    exact .refl _
  · rw [← intercalate_append_break hnil]
    exact .symm _ _ (.rel _ _ .lastBreak)

/-- What one piece of layout leaves alone, any layout does. -/
theorem eq_of_eqvGen {α : Type} {f : List Char → α} (hf : ∀ cs ds, Relaid cs ds → f cs = f ds)
    {cs ds : List Char} (h : EqvGen Relaid cs ds) : f cs = f ds :=
  congrArg (Quot.lift f hf) (Quot.eqvGen_sound h)

/-- Texts have the same normal form exactly if they differ in layout only. -/
theorem normalizeChars_eq_iff {cs ds : List Char} :
    normalizeChars cs = normalizeChars ds ↔ EqvGen Relaid cs ds := by
  constructor
  · intro h
    have hds := (eqvGen_relaid_normalizeChars ds).symm
    rw [← h] at hds
    exact (eqvGen_relaid_normalizeChars cs).trans _ _ _ hds
  · intro h
    rw [normalizeChars_eq, normalizeChars_eq, eq_of_eqvGen (fun _ _ ↦ Relaid.keptLines_eq) h]

theorem lines_intercalate {parts : List (List Char)} (h : parts ≠ [])
    (hparts : ∀ line ∈ parts, '\n' ∉ line) :
    lines (List.intercalate ['\n'] parts) = parts := by
  induction parts with
  | nil => exact absurd rfl h
  | cons line parts ih =>
    have hline := lines_of_notMem (hparts line List.mem_cons_self)
    by_cases hnil : parts = []
    · subst hnil
      rw [List.intercalate_singleton, hline]
    · rw [List.intercalate_cons_of_ne_nil hnil, List.append_assoc, List.singleton_append,
        lines_append_break, hline, ih hnil fun l hl ↦ hparts l (List.mem_cons_of_mem _ hl),
        List.singleton_append]

/-- Trimmed lines that are not empty make a trimmed text. -/
theorem isTrimmed_intercalate {parts : List (List Char)}
    (h : ∀ line ∈ parts, line ≠ [] ∧ IsTrimmed line) :
    IsTrimmed (List.intercalate ['\n'] parts) := by
  induction parts with
  | nil => exact ⟨fun c hc ↦ (by cases hc), fun c hc ↦ (by cases hc)⟩
  | cons line parts ih =>
    obtain ⟨hne, hline⟩ := h line List.mem_cons_self
    constructor
    · rw [intercalate_cons_eq, List.head?_append_of_ne_nil _ hne]
      exact hline.head
    · cases parts with
      | nil =>
        rw [List.intercalate_singleton]
        exact hline.last
      | cons next parts =>
        have hrest : ∀ l ∈ next :: parts, l ≠ [] ∧ IsTrimmed l :=
          fun l hl ↦ h l (List.mem_cons_of_mem _ hl)
        have hnonempty : List.intercalate ['\n'] (next :: parts) ≠ [] := by
          rw [intercalate_cons_eq]
          exact List.append_ne_nil_of_left_ne_nil (hrest next List.mem_cons_self).1 _
        rw [List.intercalate_cons_cons, List.getLast?_append_of_ne_nil _ hnonempty]
        exact (ih hrest).last

/-- The lines of a normal form, as they are written, are trimmed and not empty. -/
theorem of_mem_rows_normalizeChars {cs row : List Char} (h : row ∈ rows (normalizeChars cs)) :
    row ≠ [] ∧ IsTrimmed row := by
  by_cases hnil : keptLines cs = []
  · rw [normalizeChars_eq, hnil] at h
    cases h
  · have hkept : lines (normalizeChars cs) = keptLines cs :=
      lines_intercalate hnil fun line hline ↦ (of_mem_keptLines hline).2.2
    rcases mem_lines_of_mem_rows h with hmem | hmem <;> rw [hkept] at hmem <;>
      obtain ⟨hne, htrimmed, -⟩ := of_mem_keptLines hmem
    · exact ⟨hne, htrimmed⟩
    · -- a trimmed line does not end with a carriage return
      cases htrimmed.last '\r' List.getLast?_concat

/-- A text is the normal form of another one. -/
structure IsNormalForm (s t : String) : Prop where
  /-- It consists of the trimmed lines that are not empty, however their ends are written. -/
  joins : t.toList = List.intercalate ['\n']
    (((rows s.toList).map trimChars).filter fun line ↦ !line.isEmpty)
  /-- Normalising does not change it. -/
  fixed : normalize t = t
  /-- No line of it is blank, or begins or ends with a blank. -/
  rows_trimmed : ∀ row ∈ rows t.toList, row ≠ [] ∧ IsTrimmed row
  /-- It begins and ends with no blank, so with no line break either. -/
  isTrimmed : IsTrimmed t.toList
  /-- It has the same characters but for blanks, in the same order. -/
  keeps : (t.toList.filter fun c ↦ !isBlank c) = s.toList.filter fun c ↦ !isBlank c
  /-- It is the normal form of the texts that differ from this one in layout only. -/
  shared_iff : ∀ s' : String, normalize s' = t ↔ EqvGen Relaid s.toList s'.toList

/-- **Normalising takes away layout.** The result for any text is its normal form. Normalising it
again changes nothing, no line of it is blank or has blanks at its ends, no line break stands at the
beginning or the end, and the characters that are not blank are those of the text. The same result
belongs to the texts that differ only in indentation, blanks at the ends of lines, blank lines, the
last line feed or carriage returns before line feeds, and to no other. -/
theorem isNormalForm_normalize (s : String) : IsNormalForm s (normalize s) := by
  have hchars : (normalize s).toList = normalizeChars s.toList := String.toList_ofList
  have hiff (s' : String) : normalize s' = normalize s ↔ EqvGen Relaid s.toList s'.toList := by
    rw [normalize, normalize, String.ofList_inj, eq_comm, normalizeChars_eq_iff]
  refine ⟨?_, ?_, fun row hrow ↦ ?_, ?_, ?_, hiff⟩
  · rw [hchars, normalizeChars_eq, keptLines_eq_rows]
  · rw [hiff, hchars]
    exact eqvGen_relaid_normalizeChars s.toList
  · rw [hchars] at hrow
    exact of_mem_rows_normalizeChars hrow
  · rw [hchars, normalizeChars_eq]
    exact isTrimmed_intercalate fun line hline ↦
      ⟨(of_mem_keptLines hline).1, (of_mem_keptLines hline).2.1⟩
  · rw [hchars]
    exact (eq_of_eqvGen (fun _ _ ↦ Relaid.filter_eq) (eqvGen_relaid_normalizeChars _)).symm

-- a carriage return within a line stays, and any blank at its ends goes
example :
    normalize "\u00a0An\rorder \r\n\t\n\r\n  with lines.\u2003" = "An\rorder\nwith lines." := by
  decide +kernel

end ApiDocs.Text
