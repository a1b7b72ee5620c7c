import ApiDocs.Proofs.Markup.Content
import Mathlib.Data.List.TakeWhile
import Mathlib.Tactic.SplitIfs

/-!
# Self-closing tags and pairs of tags

An element without content is written as a self-closing tag, or as an opening tag with the closing
tag right behind it. Wherever the first stands in a text, the second can be put in its place without
a change to the tokens around it: a token that the scanner reads does not depend on what follows,
and the same elements are open behind both.

Not every self-closing tag that the scanner takes can be written as a pair. A second slash at the
end would make the opening tag self-closing again, and a quote that the name opens and does not
close would run past the end of the closing tag. Tags as markup has them are free of both.

## Main definitions

* `Markup.Tag.single`, `Markup.Tag.pair`: the two ways to write an element without content.
* `Markup.Tag.IsSeparable`: a tag can be written as a pair.
* `Markup.Leads`: the scanner reads some tokens at the beginning of a text.
* `Markup.HoldsSingle`: where a self-closing tag stands in a text.

## Main results

* `Markup.next_append`: a token is read whatever follows it.
* `Markup.HoldsSingle.exists_scan_pair`: a pair in the place of a self-closing tag gives its two
  tokens between the same others.
-/

namespace ApiDocs.Markup

/-! ### Tags without content -/

namespace Tag

/-- The self-closing tag. -/
def single (t : Tag) : List Char :=
  '<' :: (t.content ++ ['/', '>'])

/-- The opening tag. -/
def opening (t : Tag) : List Char :=
  '<' :: (t.content ++ ['>'])

/-- The closing tag that belongs to the opening tag. -/
def closing (t : Tag) : List Char :=
  '<' :: '/' :: (t.nameChars ++ ['>'])

/-- The opening tag with the closing tag right behind it. -/
def pair (t : Tag) : List Char :=
  t.opening ++ t.closing

/-- The tokens of a pair. -/
def pairTokens (t : Tag) : List Token :=
  [⟨.start t, t.opening⟩, ⟨.close, t.closing⟩]

/-- A tag can be written as a pair: its opening tag does not end with a slash, and no quote is open
behind its name. -/
structure IsSeparable (t : Tag) : Prop where
  getLast?_ne : t.content.getLast? ≠ some '/'
  foldl_nameChars : t.nameChars.foldl tagClosing.step none = none

end Tag

/-! ### Where markup ends -/

section

variable {σ : Type} {m : Closing σ}

theorem Passes.foldl_eq {s s' : σ} {cs : List Char} (h : Passes m s cs s') :
    cs.foldl m.step s = s' := by
  induction cs generalizing s with
  | nil => exact h
  | cons c cs ih => exact ih h.2

theorem Passes.exists_of_append {s s' : σ} {cs ds : List Char} (h : Passes m s (cs ++ ds) s') :
    ∃ s₁, Passes m s cs s₁ ∧ Passes m s₁ ds s' := by
  induction cs generalizing s with
  | nil => exact ⟨s, rfl, h⟩
  | cons c cs ih =>
    obtain ⟨s₁, hcs, hds⟩ := ih h.2
    exact ⟨s₁, ⟨h.1, hcs⟩, hds⟩

/-- What is cut off passes, up to the angle bracket that ends it. -/
theorem exists_passes_of_cutFrom {s : σ} {cs content rest : List Char}
    (h : cutFrom m s cs = some (content, rest)) :
    ∃ s', Passes m s content s' ∧ m.ends s' = true := by
  induction cs generalizing s content with
  | nil => exact absurd h nofun
  | cons c cs ih =>
    rw [cutFrom] at h
    split at h
    · rename_i hc
      obtain ⟨rfl, -⟩ := Prod.mk.inj (Option.some.inj h)
      exact ⟨s, rfl, hc.2⟩
    · rename_i hc
      obtain ⟨⟨content', rest'⟩, hcut, hcontent⟩ := Option.map_eq_some_iff.mp h
      obtain ⟨rfl, rfl⟩ := Prod.mk.inj hcontent
      obtain ⟨s', hpasses, hends⟩ := ih hcut
      exact ⟨s', ⟨hc, hpasses⟩, hends⟩

end

theorem Passes.ne_slash {s s' : Option Char} {cs : List Char} (h : Passes tagClosing s cs s')
    (hs : s ≠ some '/') : s' ≠ some '/' := by
  induction cs generalizing s with
  | nil => exact h ▸ hs
  | cons c cs ih =>
    refine ih h.2 ?_
    cases s with
    | none =>
      simp only [tagClosing]
      split_ifs with hquote
      · rcases hquote with rfl | rfl <;> decide
      · exact Option.some_ne_none _ |>.symm
    | some quote =>
      simp only [tagClosing]
      split_ifs
      · exact Option.some_ne_none _ |>.symm
      · exact hs

/-- The slash of a self-closing tag stands outside quotes. -/
theorem Passes.of_append_slash {cs : List Char} (h : Passes tagClosing none (cs ++ ['/']) none) :
    Passes tagClosing none cs none := by
  obtain ⟨s, hcs, hslash⟩ := h.exists_of_append
  have hne := hcs.ne_slash (Option.some_ne_none '/').symm
  have hstep : tagClosing.step s '/' = none := hslash.2
  cases s with
  | none => exact hcs
  | some quote =>
    refine absurd ((if_neg fun hquote ↦ hne (congrArg some hquote.symm)).symm.trans hstep) ?_
    exact Option.some_ne_none quote

/-! ### A token and what follows it -/

section

variable {opened opened' : List String} {cs rest : List Char} {t : Token}

/-- Markup that is no tag is read whatever follows it. -/
theorem exists_markupStep_eq {σ : Type} {m : Closing σ} {event : Event} {unclosed : Fault}
    {check : List Char → Except Fault Unit}
    (h : markupStep m event unclosed check opened cs = .token t opened' rest) :
    t.event = event ∧ ∃ content, t.source = '<' :: (content ++ ['>']) ∧
      content ++ '>' :: rest = cs ∧ ∀ rest',
        markupStep m event unclosed check opened (content ++ '>' :: rest') =
          .token t opened' rest' := by
  unfold markupStep at h
  split at h
  · exact absurd h nofun
  · rename_i content rest₁ hcut
    simp only at h
    split at h
    · rename_i hcheck
      obtain ⟨rfl, rfl, rfl⟩ := Step.token.inj h
      obtain ⟨s, hpasses, hends⟩ := exists_passes_of_cutFrom hcut
      exact ⟨rfl, content, rfl, append_of_cut hcut,
        markupStep_of_passes hpasses hends hcheck opened⟩
    · exact absurd h nofun

theorem tagStep_eq {content rest₁ : List Char}
    (h : tagStep opened content rest = .token t opened' rest₁) (rest' : List Char) :
    tagStep opened content rest' = .token t opened' rest' := by
  unfold tagStep at h ⊢
  simp only at h ⊢
  split at h
  · split at h
    · exact absurd h nofun
    · split at h
      · rename_i htop
        obtain ⟨rfl, rfl, -⟩ := Step.token.inj h
        exact if_pos htop
      · exact absurd h nofun
  · split at h
    · rename_i hlast
      obtain ⟨rfl, rfl, -⟩ := Step.token.inj h
      exact if_pos hlast
    · rename_i hlast
      obtain ⟨rfl, rfl, -⟩ := Step.token.inj h
      exact if_neg hlast

/-- A tag is read at an angle bracket: no other markup begins there, and what is cut off is the
tag. -/
structure ReadsTag (opened : List String) (content : List Char) (t : Token)
    (opened' : List String) : Prop where
  head?_ne_mark : content.head? ≠ some '!'
  head?_ne_question : content.head? ≠ some '?'
  passes : Passes tagClosing none content none
  tagStep_eq : ∀ rest, tagStep opened content rest = .token t opened' rest

/-- Markup is a tag, or it is an aside or a character data section. It is read whatever follows
it. -/
structure ReadsMarkup (opened : List String) (content : List Char) (t : Token)
    (opened' : List String) : Prop where
  source_eq : t.source = '<' :: (content ++ ['>'])
  bracketStep_eq : ∀ rest, bracketStep opened (content ++ '>' :: rest) = .token t opened' rest
  kind : t.event = .cdata ∨ t.event = .aside ∨ ReadsTag opened content t opened'

theorem exists_readsMarkup_of_markupStep {σ : Type} {m : Closing σ} {event : Event}
    {unclosed : Fault} {check : List Char → Except Fault Unit} {sign ds : List Char}
    (hevent : event = .cdata ∨ event = .aside) (hsign : '>' ∉ sign)
    (hbracket : ∀ ds, bracketStep opened (sign ++ ds) =
      markupStep m event unclosed check opened (sign ++ ds))
    (h : markupStep m event unclosed check opened (sign ++ ds) = .token t opened' rest) :
    ∃ content, ReadsMarkup opened content t opened' := by
  obtain ⟨rfl, content, hsource, hcs, hstep⟩ := exists_markupStep_eq h
  obtain ⟨es, rfl⟩ := exists_append_of_append_eq hsign hcs
  refine ⟨sign ++ es, hsource, fun rest' ↦ ?_, or_assoc.mp (.inl hevent)⟩
  have hrest := hbracket (es ++ '>' :: rest')
  rw [← List.append_assoc, hstep rest'] at hrest
  exact hrest

theorem exists_readsMarkup (h : bracketStep opened cs = .token t opened' rest) :
    ∃ content, ReadsMarkup opened content t opened' := by
  unfold bracketStep at h
  split at h
  case h_1 | h_6 => exact absurd h nofun
  case h_2 =>
    exact exists_readsMarkup_of_markupStep (.inl rfl) (show '>' ∉ ['!', '['] by decide)
      (fun _ ↦ rfl) h
  case h_3 =>
    exact exists_readsMarkup_of_markupStep (.inr rfl) (show '>' ∉ ['!', '-'] by decide)
      (fun _ ↦ rfl) h
  case h_4 =>
    exact exists_readsMarkup_of_markupStep (.inr rfl) (show '>' ∉ ['!', 'D'] by decide)
      (fun _ ↦ rfl) h
  case h_5 =>
    exact exists_readsMarkup_of_markupStep (.inr rfl) (show '>' ∉ ['!', 'd'] by decide)
      (fun _ ↦ rfl) h
  case h_7 =>
    exact exists_readsMarkup_of_markupStep (.inr rfl) (show '>' ∉ ['?'] by decide)
      (fun _ ↦ rfl) h
  case h_8 hmark hquestion =>
    split at h
    · exact absurd h nofun
    · rename_i content rest₁ hcut
      obtain ⟨_ | quote, hpasses, hends⟩ := exists_passes_of_cutFrom hcut
      · have hne {sign : Char} (hsign : ∀ ds, cs = sign :: ds → False) :
            content.head? ≠ some sign := by
          intro hhead
          obtain ⟨ds, rfl⟩ := List.head?_eq_some_iff.mp hhead
          exact hsign _ (append_of_cut hcut).symm
        have htag : ReadsTag opened content t opened' :=
          ⟨hne hmark, hne hquestion, hpasses, tagStep_eq h⟩
        refine ⟨content, (source_of_tagStep h).1, fun rest' ↦ ?_, .inr (.inr htag)⟩
        rw [bracketStep_tag opened htag.head?_ne_mark htag.head?_ne_question hpasses]
        exact htag.tagStep_eq rest'
      · exact absurd hends nofun

/-- A token is read whatever follows it, as long as text is not continued. -/
theorem next_append {rest' : List Char} (h : next opened cs = .token t opened' rest)
    (hhead : rest'.head? = rest.head?) :
    next opened (t.source ++ rest') = .token t opened' rest' := by
  unfold next at h
  split at h
  · exact absurd h nofun
  · rename_i c ds
    split at h
    · obtain ⟨content, hreads⟩ := exists_readsMarkup h
      rw [hreads.source_eq, List.cons_append, next_bracket, List.append_assoc]
      exact hreads.bracketStep_eq rest'
    · rename_i hc
      obtain ⟨rfl, rfl, rfl⟩ := Step.token.inj h
      have htext (d : Char) (hd : d ∈ ds.takeWhile (· != '<')) : (d != '<') = true :=
        List.mem_takeWhile_imp (p := (· != '<')) hd
      rw [List.cons_append, next, if_neg hc, List.takeWhile_append_of_pos htext,
        List.dropWhile_append_of_pos htext]
      cases rest' with
      | nil => simp
      | cons d rest' =>
        have hstop := List.head?_dropWhile_not (· != '<') ds
        rw [← hhead] at hstop
        obtain rfl : d = '<' := by simpa using hstop
        simp

theorem content_of_tagStep_empty {tag : Tag} {content source rest₁ : List Char}
    (h : tagStep opened content rest = .token ⟨.empty tag, source⟩ opened' rest₁) :
    content.head? ≠ some '/' ∧ content = tag.content ++ ['/'] := by
  by_cases hslash : content.head? = some '/'
  · obtain ⟨ds, rfl⟩ := List.head?_eq_some_iff.mp hslash
    cases opened with
    | nil => exact absurd h nofun
    | cons top opened =>
      simp only [tagStep] at h
      split_ifs at h
      simp at h
  · rw [tagStep_of_head? opened hslash] at h
    split_ifs at h with hlast
    · obtain ⟨hevent, -⟩ := Token.mk.inj (Step.token.inj h).1
      obtain rfl := Event.empty.inj hevent
      obtain ⟨ds, rfl⟩ := List.getLast?_eq_some_iff.mp hlast
      exact ⟨hslash, by simp⟩
    · simp at h

/-- What the scanner finds at a self-closing tag. -/
theorem readsTag_of_next_empty {tag : Tag} {source : List Char}
    (h : next opened cs = .token ⟨.empty tag, source⟩ opened' rest) :
    (tag.content ++ ['/']).head? ≠ some '/' ∧
      ReadsTag opened (tag.content ++ ['/']) ⟨.empty tag, source⟩ opened' := by
  unfold next at h
  split at h
  · exact absurd h nofun
  · split at h
    · obtain ⟨content, hreads⟩ := exists_readsMarkup h
      rcases hreads.kind with hevent | hevent | htag
      · exact absurd hevent nofun
      · exact absurd hevent nofun
      · obtain ⟨hslash, rfl⟩ := content_of_tagStep_empty (htag.tagStep_eq [])
        exact ⟨hslash, htag⟩
    · simp at h

end

/-! ### The tokens before and behind markup -/

/-- The scanner reads some tokens at the beginning of a text and comes to the rest of it; the names
of the open elements are given before and after. -/
inductive Leads : List String → List Char → List Token → List String → List Char → Prop where
  | nil {opened : List String} {cs : List Char} : Leads opened cs [] opened cs
  | cons {opened opened₁ opened' : List String} {cs cs₁ rest : List Char} {t : Token}
      {ts : List Token} (hnext : next opened cs = .token t opened₁ cs₁)
      (hrest : Leads opened₁ cs₁ ts opened' rest) : Leads opened cs (t :: ts) opened' rest

section

variable {opened opened' : List String} {cs rest : List Char} {t : Token} {ts us : List Token}

namespace Leads

theorem source_append (h : Leads opened cs ts opened' rest) :
    ts.flatMap Token.source ++ rest = cs := by
  induction h with
  | nil => rfl
  | cons hnext _ ih => rw [List.flatMap_cons, List.append_assoc, ih, source_append_of_next hnext]

theorem scanFrom_eq (h : Leads opened cs ts opened' rest) :
    scanFrom opened cs = (ts ++ (scanFrom opened' rest).1, (scanFrom opened' rest).2) := by
  induction h with
  | nil => rfl
  | cons hnext _ ih => rw [scanFrom_of_next hnext, ih, List.cons_append]

/-- The tokens before markup are read whatever the markup is. -/
theorem replace {ds : List Char} (h : Leads opened cs ts opened' ('<' :: ds)) (es : List Char) :
    Leads opened (ts.flatMap Token.source ++ '<' :: es) ts opened' ('<' :: es) := by
  generalize hrest : '<' :: ds = rest at h
  induction h with
  | nil => exact .nil
  | @cons _ _ _ _ cs₁ _ _ ts hnext htail ih =>
    subst hrest
    have hhead : (ts.flatMap Token.source ++ '<' :: es).head? = cs₁.head? := by
      rw [← htail.source_append, List.head?_append, List.head?_append, List.head?_cons,
        List.head?_cons]
    rw [List.flatMap_cons, List.append_assoc]
    exact .cons (next_append hnext hhead) (ih rfl)

end Leads

theorem exists_next_of_scanFrom (h : (scanFrom opened cs).1 = t :: ts) :
    ∃ opened' rest, next opened cs = .token t opened' rest ∧ (scanFrom opened' rest).1 = ts := by
  rw [scanFrom] at h
  split at h
  · exact absurd h nofun
  · exact absurd h nofun
  · rename_i hnext
    obtain ⟨rfl, rfl⟩ := List.cons.inj h
    exact ⟨_, _, hnext, rfl⟩

/-- The scanner comes to every place between two tokens. -/
theorem exists_leads (h : (scanFrom opened cs).1 = ts ++ us) :
    ∃ opened' rest, Leads opened cs ts opened' rest ∧ (scanFrom opened' rest).1 = us := by
  induction ts generalizing opened cs with
  | nil => exact ⟨opened, cs, .nil, h⟩
  | cons t ts ih =>
    obtain ⟨opened₁, cs₁, hnext, hscan⟩ := exists_next_of_scanFrom h
    obtain ⟨opened', rest, hleads, hrest⟩ := ih hscan
    exact ⟨opened', rest, .cons hnext hleads, hrest⟩

end

/-! ### A pair in the place of a self-closing tag -/

/-- A text without the mark of the byte order at its beginning. -/
def body : List Char → List Char
  | '\ufeff' :: cs => cs
  | cs => cs

theorem scan_eq_scanFrom (text : String) : scan text = scanFrom [] (body text.toList) := by
  rw [scan]
  generalize text.toList = cs
  cases cs with
  | nil => rfl
  | cons c cs => by_cases hc : c = '\ufeff' <;> simp [body, hc]

theorem body_append_cons (cs ds : List Char) : body (cs ++ '<' :: ds) = body cs ++ '<' :: ds := by
  cases cs with
  | nil => rfl
  | cons c cs =>
    by_cases hc : c = '\ufeff'
    · subst hc
      rfl
    · simp [body, hc]

/-- A self-closing tag stands in a text between two parts of it: it is a token of its own, the
tokens before it make up the first part, and in their course the elements of the given names have
been opened, innermost first. -/
structure HoldsSingle (text : String) (before : List Char) (tag : Tag) (after : List Char)
    (path : List String) : Prop where
  toList_eq : text.toList = before ++ (tag.single ++ after)
  exists_scan : ∃ ts us, (scan text).1 = ts ++ ⟨.empty tag, tag.single⟩ :: us ∧
    ts.flatMap Token.source = body before ∧ ts.foldlM Token.turn [] = some path

section

variable {tag : Tag}

/-- Tags with a name and attributes can be written as pairs. -/
theorem isSeparable_mk {name attributes : List Char} (hname : isName name = true)
    (hattributes : Attributes attributes) : (Tag.mk (name ++ attributes)).IsSeparable where
  getLast?_ne := getLast?_content_ne hname hattributes
  foldl_nameChars := by
    rw [Tag.nameChars, takeWhile_content hname hattributes]
    exact (passes_isName hname).foldl_eq

theorem passes_nameChars (htag : tag.IsSeparable)
    (hpasses : Passes tagClosing none tag.content none) :
    Passes tagClosing none tag.nameChars none := by
  rw [← List.takeWhile_append_dropWhile (p := fun c ↦ !isSpace c) (l := tag.content)] at hpasses
  obtain ⟨s, hname, -⟩ := hpasses.exists_of_append
  exact htag.foldl_nameChars.symm.trans hname.foldl_eq ▸ hname

variable (opened : List String) (rest : List Char)

/-- The step at an opening tag that ends where its last quote is closed. -/
theorem next_opening (htag : tag.IsSeparable) (hslash : tag.content.head? ≠ some '/')
    (hmark : tag.content.head? ≠ some '!') (hquestion : tag.content.head? ≠ some '?')
    (hpasses : Passes tagClosing none tag.content none) :
    next opened (tag.opening ++ rest) =
      .token ⟨.start tag, tag.opening⟩ (tag.name :: opened) rest :=
  calc next opened (tag.opening ++ rest)
    _ = next opened ('<' :: (tag.content ++ '>' :: rest)) := by simp [Tag.opening]
    _ = tagStep opened tag.content rest := by
      rw [next_bracket, bracketStep_tag opened hmark hquestion hpasses]
    _ = _ := by rw [tagStep_of_head? opened hslash, if_neg htag.getLast?_ne, Tag.opening]

/-- The step at the closing tag that belongs to it. -/
theorem next_closing (htag : tag.IsSeparable) (hpasses : Passes tagClosing none tag.content none) :
    next (tag.name :: opened) (tag.closing ++ rest) = .token ⟨.close, tag.closing⟩ opened rest := by
  have hslash : Passes tagClosing none ['/'] none :=
    passes_plain (List.forall_mem_singleton.mpr (by decide))
  have hclosing : Passes tagClosing none ('/' :: tag.nameChars) none :=
    hslash.append (passes_nameChars htag hpasses)
  have hchars (c : Char) (hc : c ∈ tag.nameChars) : isSpace c = false := by
    simpa using List.mem_takeWhile_imp (p := fun c ↦ !isSpace c) hc
  have hname : closeName (tag.nameChars ++ []) = tag.name :=
    closeName_append hchars nofun fun _ ↦ rfl
  rw [List.append_nil] at hname
  calc next (tag.name :: opened) (tag.closing ++ rest)
    _ = next (tag.name :: opened) ('<' :: ('/' :: tag.nameChars ++ '>' :: rest)) := by
      simp [Tag.closing]
    _ = tagStep (tag.name :: opened) ('/' :: tag.nameChars) rest := by
      rw [next_bracket, bracketStep_tag _ (by simp) (by simp) hclosing]
    _ = _ := by
      rw [tagStep, hname]
      exact if_pos rfl

/-- The two steps at a pair, where the scanner takes the self-closing tag. -/
theorem leads_pair {cs source rest₁ : List Char} {opened₁ : List String} (htag : tag.IsSeparable)
    (h : next opened cs = .token ⟨.empty tag, source⟩ opened₁ rest₁) :
    Leads opened (tag.pair ++ rest) tag.pairTokens opened rest := by
  obtain ⟨hslash, hreads⟩ := readsTag_of_next_empty h
  have hpasses : Passes tagClosing none tag.content none := hreads.passes.of_append_slash
  have hhead : tag.content.head? = (tag.content ++ ['/']).head? := by
    cases hcontent : tag.content with
    | nil =>
      rw [hcontent] at hslash
      exact absurd rfl hslash
    | cons c cs => rfl
  rw [Tag.pair, List.append_assoc]
  exact .cons (next_opening opened _ htag (hhead ▸ hslash) (hhead ▸ hreads.head?_ne_mark)
    (hhead ▸ hreads.head?_ne_question) hpasses) (.cons (next_closing opened rest htag hpasses) .nil)

end

/-- A pair in the place of a self-closing tag gives its two tokens between the same others. -/
theorem HoldsSingle.exists_scan_pair {text : String} {before after : List Char} {tag : Tag}
    {path : List String} (h : HoldsSingle text before tag after path) (htag : tag.IsSeparable) :
    ∃ ts us ending, ts.foldlM Token.turn [] = some path ∧
      scan text = (ts ++ ⟨.empty tag, tag.single⟩ :: us, ending) ∧
      scan (String.ofList (before ++ (tag.pair ++ after))) =
        (ts ++ (tag.pairTokens ++ us), ending) := by
  obtain ⟨ts, us, hscan, hbefore, hpath⟩ := h.exists_scan
  rw [scan_eq_scanFrom] at hscan
  obtain ⟨opened, rest, hleads, hrest⟩ := exists_leads hscan
  obtain ⟨opened₁, rest₁, hnext, hafter⟩ := exists_next_of_scanFrom hrest
  have hbody : body text.toList = body before ++ (tag.single ++ after) := by
    rw [h.toList_eq, Tag.single, List.cons_append, body_append_cons]
  -- both ways to divide the text have the same characters in front
  have hrest_eq : rest = tag.single ++ after :=
    List.append_cancel_left (hleads.source_append.trans (hbody.trans (hbefore ▸ rfl)))
  have hafter_eq : rest₁ = after :=
    List.append_cancel_left ((source_append_of_next hnext).trans hrest_eq)
  subst hrest_eq hafter_eq
  obtain rfl : opened = opened₁ := Option.some.inj (turn_of_next hnext)
  have hpair : Leads [] (body before ++ (tag.pair ++ rest₁)) ts opened (tag.pair ++ rest₁) :=
    hbefore ▸ hleads.replace _
  have hbody' : body (before ++ (tag.pair ++ rest₁)) = body before ++ (tag.pair ++ rest₁) :=
    body_append_cons before _
  refine ⟨ts, us, (scanFrom opened rest₁).2, hpath, ?_, ?_⟩
  · rw [scan_eq_scanFrom, hleads.scanFrom_eq, scanFrom_of_next hnext, hafter]
  · rw [scan_eq_scanFrom, String.toList_ofList, hbody', hpair.scanFrom_eq,
      (leads_pair opened rest₁ htag hnext).scanFrom_eq, hafter]

end ApiDocs.Markup
