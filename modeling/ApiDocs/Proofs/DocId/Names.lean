import ApiDocs.DocId
import Mathlib.Data.List.Induction

/-!
# Names inside documentation ids

An id is written without separators of its own, so that names have to be told apart by the
characters in them. In a well-formed name no character occurs that ids use for something else. A
name is then cut off where such a character follows, and a name with its arguments in place of the
markers can be read back: what stands between braces are the arguments, and their number is that of
the marker.

## Main definitions

* `Text.Ends`: a text that does not go on with certain characters.
* `TypeName.IsName`: well-formed full names.
* `TypeName.Fills`: a name with arguments in place of its markers.

## Main results

* `TypeName.exists_fills_of_instantiate`: what writing a name with arguments gives.
* `TypeName.Fills.unique`: a name and its arguments determine the text.
* `TypeName.Fills.eq_of_append_eq`: the text determines the name and its arguments.
-/

namespace ApiDocs

/-! ### Cutting off texts -/

namespace Text

/-- The text does not begin with a character of a class. -/
def Ends (p : Char → Bool) (cs : List Char) : Prop :=
  ∀ c ∈ cs.head?, p c = false

theorem ends_nil (p : Char → Bool) : Ends p [] :=
  nofun

theorem ends_cons {p : Char → Bool} {c : Char} {cs : List Char} :
    Ends p (c :: cs) ↔ p c = false := by
  simp [Ends]

/-- A run of characters of a class is cut off where the class ends. -/
theorem span_append {p : Char → Bool} {xs r : List Char} (hx : ∀ c ∈ xs, p c = true)
    (hr : Ends p r) : (xs ++ r).takeWhile p = xs ∧ (xs ++ r).dropWhile p = r := by
  rw [List.takeWhile_append_of_pos hx, List.dropWhile_append_of_pos hx]
  cases r with
  | nil => exact ⟨List.append_nil xs, rfl⟩
  | cons c cs =>
    rw [ends_cons] at hr
    rw [List.takeWhile_cons, List.dropWhile_cons, hr]
    exact ⟨List.append_nil xs, rfl⟩

theorem eq_of_append_eq {p : Char → Bool} {xs ys r s : List Char} (hx : ∀ c ∈ xs, p c = true)
    (hy : ∀ c ∈ ys, p c = true) (hr : Ends p r) (hs : Ends p s) (h : xs ++ r = ys ++ s) :
    xs = ys ∧ r = s := by
  obtain ⟨htake, hdrop⟩ := span_append hx hr
  obtain ⟨htake', hdrop'⟩ := span_append hy hs
  rw [h] at htake hdrop
  exact ⟨htake.symm.trans htake', hdrop.symm.trans hdrop'⟩

/-- Texts with commas between them and a closing character after them are told apart, if each of
them is cut off where a comma or the closing character follows. -/
theorem eq_of_intercalate_append_eq {stop : Char} (hstop : stop ≠ ',') {xs ys : List (List Char)}
    (hxs : xs ≠ []) (hys : ys ≠ []) {r s : List Char}
    (hfree : ∀ x ∈ xs, ∀ y ∈ ys, ∀ c ∈ [',', stop], ∀ d ∈ [',', stop], ∀ r s,
      x ++ c :: r = y ++ d :: s → x = y)
    (h : List.intercalate [','] xs ++ stop :: r = List.intercalate [','] ys ++ stop :: s) :
    xs = ys ∧ r = s := by
  induction xs generalizing ys with
  | nil => exact absurd rfl hxs
  | cons x xs ih =>
    cases ys with
    | nil => exact absurd rfl hys
    | cons y ys =>
      have hhead := hfree x List.mem_cons_self y List.mem_cons_self
      cases xs with
      | nil =>
        cases ys with
        | nil =>
          rw [List.intercalate_singleton, List.intercalate_singleton] at h
          obtain rfl := hhead stop (by simp) stop (by simp) r s h
          exact ⟨rfl, (List.cons.inj (List.append_cancel_left h)).2⟩
        | cons y' ys =>
          rw [List.intercalate_singleton, List.intercalate_cons_cons, List.append_assoc,
            List.append_assoc] at h
          obtain rfl := hhead stop (by simp) ',' (by simp) r _ h
          exact absurd (List.cons.inj (List.append_cancel_left h)).1 hstop
      | cons x' xs =>
        cases ys with
        | nil =>
          rw [List.intercalate_singleton, List.intercalate_cons_cons, List.append_assoc,
            List.append_assoc] at h
          obtain rfl := hhead ',' (by simp) stop (by simp) _ s h
          exact absurd (List.cons.inj (List.append_cancel_left h)).1.symm hstop
        | cons y' ys =>
          rw [List.intercalate_cons_cons, List.intercalate_cons_cons, List.append_assoc,
            List.append_assoc, List.append_assoc, List.append_assoc] at h
          obtain rfl := hhead ',' (by simp) ',' (by simp) _ _ h
          obtain ⟨htail, hrest⟩ := ih (List.cons_ne_nil _ _) (List.cons_ne_nil _ _)
            (fun x hx y hy ↦ hfree x (List.mem_cons_of_mem _ hx) y (List.mem_cons_of_mem _ hy))
            (List.cons.inj (List.append_cancel_left h)).2
          exact ⟨by rw [htail], hrest⟩

end Text

namespace TypeName

/-! ### Numerals -/

/-- A positive numeral without a leading zero. -/
def IsNumeral (cs : List Char) : Prop :=
  cs ≠ [] ∧ (∀ c ∈ cs, c.isDigit = true) ∧ cs.head? ≠ some '0'

/-- The number that a numeral stands for. -/
def value (cs : List Char) : Nat :=
  Nat.ofDigitChars 10 cs 0

theorem digitChar_of_isDigit {c : Char} (h : c.isDigit = true) :
    c.toNat - '0'.toNat < 10 ∧ Nat.digitChar (c.toNat - '0'.toNat) = c := by
  obtain ⟨hlow, hhigh⟩ := Char.isDigit_iff_toNat.mp h
  have hzero : '0'.toNat = 48 := rfl
  have hnine : '9'.toNat = 57 := rfl
  have hchar : ∀ n < 10, (Nat.digitChar n).toNat = 48 + n := by decide
  have hlt : c.toNat - '0'.toNat < 10 := by omega
  refine ⟨hlt, Char.ext (UInt32.toNat_inj.mp ?_)⟩
  change (Nat.digitChar (c.toNat - '0'.toNat)).toNat = c.toNat
  rw [hchar _ hlt]
  omega

theorem value_append_singleton (cs : List Char) (c : Char) :
    value (cs ++ [c]) = 10 * value cs + (c.toNat - '0'.toNat) := by
  rw [value, Nat.ofDigitChars_append, Nat.ofDigitChars_cons, Nat.ofDigitChars_nil]
  rfl

/-- A numeral is the one that is written for its value. -/
theorem IsNumeral.toDigits_value {cs : List Char} (h : IsNumeral cs) :
    0 < value cs ∧ Nat.toDigits 10 (value cs) = cs := by
  -- by induction from the right, since the last digit is the one that the value shows
  induction cs using List.reverseRecOn with
  | nil => exact absurd rfl h.1
  | append_singleton cs c ih =>
    obtain ⟨hlt, hchar⟩ := digitChar_of_isDigit (h.2.1 c (by simp))
    rw [value_append_singleton]
    by_cases hnil : cs = []
    · subst hnil
      have hpos : 0 < c.toNat - '0'.toNat := by
        refine Nat.pos_of_ne_zero fun hzero ↦ h.2.2 ?_
        rw [← hchar, hzero]
        rfl
      have hvalue : value [] = 0 := rfl
      rw [hvalue, Nat.mul_zero, Nat.zero_add, Nat.toDigits_of_lt_base hlt, hchar]
      exact ⟨hpos, rfl⟩
    · have hhead : (cs ++ [c]).head? = cs.head? := by
        obtain ⟨d, ds, rfl⟩ := List.exists_cons_of_ne_nil hnil
        rfl
      obtain ⟨hpos, hdigits⟩ := ih
        ⟨hnil, fun d hd ↦ h.2.1 d (List.mem_append_left _ hd), hhead ▸ h.2.2⟩
      rw [← Nat.toDigits_append_toDigits (by decide) hpos hlt, hdigits,
        Nat.toDigits_of_lt_base hlt, hchar]
      exact ⟨by omega, rfl⟩

theorem IsNumeral.eq_of_value_eq {cs ds : List Char} (hc : IsNumeral cs) (hd : IsNumeral ds)
    (h : value cs = value ds) : cs = ds := by
  rw [← hc.toDigits_value.2, ← hd.toDigits_value.2, h]

/-- Different numbers are written differently. -/
theorem eq_of_toList_repr_eq {n m : Nat} (h : (Nat.repr n).toList = (Nat.repr m).toList) :
    n = m := by
  rw [Nat.toList_repr, Nat.toList_repr] at h
  have hvalue := congrArg value h
  rwa [value, value, Nat.ofDigitChars_toDigits (by decide) (by decide),
    Nat.ofDigitChars_toDigits (by decide) (by decide)] at hvalue

/-! ### Segments -/

/-- Characters that ids use for nothing else, the dot excepted. -/
def isPlain (c : Char) : Bool :=
  !(['\x60', '+', '#', '(', ')', '\x7b', '\x7d', '[', ']', ',', '~', '@', '*', ':'].contains c)

/-- Plain characters and backticks, of which dotted names are made. -/
def isBody (c : Char) : Bool :=
  isPlain c || c == arityMark

/-- Characters with which a name or its arguments go on. -/
def isNamePart (c : Char) : Bool :=
  isBody c || c == '\x7b'

/-- A segment of a name: plain characters, possibly followed by a marker. -/
inductive IsSegment : List Char → Prop
  | bare {text : List Char} (hne : text ≠ []) (hplain : ∀ c ∈ text, isPlain c = true) :
      IsSegment text
  | marked {text digits : List Char} (hne : text ≠ []) (hplain : ∀ c ∈ text, isPlain c = true)
      (hdigits : IsNumeral digits) : IsSegment (text ++ arityMark :: digits)

instance (cs : List Char) : Decidable (IsNumeral cs) :=
  decidable_of_iff (cs ≠ [] ∧ cs.all Char.isDigit = true ∧ cs.head? ≠ some '0')
    (by rw [IsNumeral, List.all_eq_true])

/-- Whether a list of characters is a segment. -/
def checkSegment (cs : List Char) : Bool :=
  let text := cs.takeWhile (· != arityMark)
  !text.isEmpty && text.all isPlain &&
    match cs.dropWhile (· != arityMark) with
    | [] => true
    | _ :: digits => decide (IsNumeral digits)

/-- A well-formed full name. -/
def IsName (fullName : String) : Prop :=
  ∀ seg ∈ segments fullName, IsSegment seg

/-- The number after the backtick of a segment; zero if there is none. -/
def stated (seg : List Char) : Nat :=
  value ((seg.dropWhile (· != arityMark)).drop 1)

/-- What the markers of all segments add up to. -/
def statedSum : List (List Char) → Nat
  | [] => 0
  | seg :: segs => stated seg + statedSum segs

theorem isPlain_of_isDigit {c : Char} (h : c.isDigit = true) : isPlain c = true := by
  rw [← (digitChar_of_isDigit h).2]
  have hall : ∀ n < 10, isPlain (Nat.digitChar n) = true := by decide
  exact hall _ (digitChar_of_isDigit h).1

theorem ne_arityMark_of_isPlain {c : Char} (h : isPlain c = true) : (c != arityMark) = true := by
  rw [bne_iff_ne]
  rintro rfl
  revert h
  decide

theorem numeral?_eq_value {digits : List Char} (h : IsNumeral digits) :
    numeral? digits = some (value digits) := by
  obtain ⟨hne, hall, -⟩ := h
  have hempty : digits.isEmpty = false := by simpa using hne
  have hdigits : digits.all Char.isDigit = true := List.all_eq_true.mpr hall
  rw [numeral?, hempty, hdigits]
  rfl

/-- The text of a segment ends at the first backtick. -/
theorem span_arityMark {text rest : List Char} (hplain : ∀ c ∈ text, isPlain c = true)
    (hrest : Text.Ends (· != arityMark) rest) :
    (text ++ rest).takeWhile (· != arityMark) = text ∧
      (text ++ rest).dropWhile (· != arityMark) = rest :=
  Text.span_append (fun c hc ↦ ne_arityMark_of_isPlain (hplain c hc)) hrest

theorem ends_arityMark (digits : List Char) : Text.Ends (· != arityMark) (arityMark :: digits) :=
  Text.ends_cons.mpr (bne_self_eq_false arityMark)

theorem checkSegment_iff {cs : List Char} : checkSegment cs = true ↔ IsSegment cs := by
  constructor
  · intro h
    simp only [checkSegment, Bool.and_eq_true, Bool.not_eq_true', List.isEmpty_eq_false_iff,
      List.all_eq_true] at h
    obtain ⟨⟨hne, hplain⟩, hmarker⟩ := h
    have hsplit := List.takeWhile_append_dropWhile (p := (· != arityMark)) (l := cs)
    cases hdrop : cs.dropWhile (· != arityMark) with
    | nil =>
      rw [hdrop, List.append_nil] at hsplit
      rw [← hsplit]
      exact .bare hne hplain
    | cons c digits =>
      have hc : c = arityMark := by
        have hhead := List.head?_dropWhile_not (· != arityMark) cs
        rw [hdrop] at hhead
        simpa using hhead
      rw [hdrop] at hmarker hsplit
      rw [← hsplit, hc]
      exact .marked hne hplain (of_decide_eq_true hmarker)
  · intro h
    cases h with
    | bare hne hplain =>
      obtain ⟨htake, hdrop⟩ := span_arityMark hplain (Text.ends_nil _)
      rw [List.append_nil] at htake hdrop
      rw [checkSegment, hdrop, htake, List.isEmpty_eq_false_iff.mpr hne,
        List.all_eq_true.mpr hplain]
      rfl
    | marked hne hplain hdigits =>
      obtain ⟨htake, hdrop⟩ := span_arityMark hplain (ends_arityMark _)
      rw [checkSegment, hdrop, htake, List.isEmpty_eq_false_iff.mpr hne,
        List.all_eq_true.mpr hplain]
      exact decide_eq_true hdigits

instance (cs : List Char) : Decidable (IsSegment cs) :=
  decidable_of_iff _ checkSegment_iff

instance (fullName : String) : Decidable (IsName fullName) :=
  inferInstanceAs (Decidable (∀ seg ∈ segments fullName, IsSegment seg))

theorem stated_bare {text : List Char} (hplain : ∀ c ∈ text, isPlain c = true) :
    stated text = 0 := by
  have hdrop := (span_arityMark hplain (Text.ends_nil _)).2
  rw [List.append_nil] at hdrop
  rw [stated, hdrop]
  rfl

theorem stated_marked {text digits : List Char} (hplain : ∀ c ∈ text, isPlain c = true) :
    stated (text ++ arityMark :: digits) = value digits := by
  rw [stated, (span_arityMark hplain (ends_arityMark digits)).2]
  rfl

/-- The marker of a segment states the number that is used, if it fits a word. -/
theorem IsSegment.toNat_arity {seg : List Char} (h : IsSegment seg)
    (hword : stated seg < UInt64.size) : (arity seg).toNat = stated seg := by
  cases h with
  | bare hne hplain =>
    have hmark : ¬ seg.contains arityMark = true := by
      rw [List.contains_iff_mem]
      exact fun hmem ↦ absurd (hplain _ hmem) (by decide)
    rw [stated_bare hplain, arity, if_neg hmark]
    rfl
  | @marked text digits hne hplain hdigits =>
    rw [stated_marked hplain] at hword ⊢
    have hmark : (text ++ arityMark :: digits).contains arityMark = true := by
      rw [List.contains_iff_mem]
      exact List.mem_append_right _ List.mem_cons_self
    have hlast : ((text ++ arityMark :: digits).reverse.takeWhile (· != arityMark)).reverse =
        digits := by
      have hall : ∀ c ∈ digits.reverse, isPlain c = true := fun c hc ↦
        isPlain_of_isDigit (hdigits.2.1 c (List.mem_reverse.mp hc))
      have hrev : (text ++ arityMark :: digits).reverse =
          digits.reverse ++ arityMark :: text.reverse := by simp
      rw [hrev, (span_arityMark hall (ends_arityMark _)).1, List.reverse_reverse]
    rw [arity, if_pos hmark, hlast, numeral?_eq_value hdigits]
    simp only [if_pos hword]
    exact UInt64.toNat_ofNat_of_lt' hword

theorem stripArityChars_bare {text : List Char} (hplain : ∀ c ∈ text, isPlain c = true) :
    stripArityChars text = text := by
  obtain ⟨htake, hdrop⟩ := span_arityMark hplain (Text.ends_nil _)
  rw [List.append_nil] at htake hdrop
  rw [stripArityChars, hdrop, htake]
  rfl

theorem stripArityChars_marked {text digits : List Char} (hplain : ∀ c ∈ text, isPlain c = true)
    (hdigits : IsNumeral digits) : stripArityChars (text ++ arityMark :: digits) = text := by
  obtain ⟨htake, hdrop⟩ := span_arityMark hplain (ends_arityMark digits)
  have hmarks : (arityMark :: digits).dropWhile (· == arityMark) = digits := by
    obtain ⟨hne, hall, -⟩ := hdigits
    obtain ⟨d, ds, rfl⟩ := List.exists_cons_of_ne_nil hne
    have hd := ne_arityMark_of_isPlain (isPlain_of_isDigit (hall d List.mem_cons_self))
    rw [List.dropWhile_cons, if_pos (beq_self_eq_true arityMark), List.dropWhile_cons,
      if_neg (by simpa using hd)]
  rw [stripArityChars, hdrop, htake, hmarks, List.all_eq_true.mpr hdigits.2.1]
  rfl

/-! ### Names with arguments -/

/-- A dotted name with arguments in place of its markers: each marker gives way to as many arguments
as it states, between braces. -/
inductive Fills : List Char → List (List Char) → List Char → Prop
  | nil : Fills [] [] []
  | plain {c : Char} {name text : List Char} {args : List (List Char)} (hc : isPlain c = true)
      (h : Fills name args text) : Fills (c :: name) args (c :: text)
  | marker {digits name text : List Char} {own args : List (List Char)}
      (hdigits : IsNumeral digits) (hown : own.length = value digits)
      (hends : Text.Ends Char.isDigit name) (h : Fills name args text) :
      Fills (arityMark :: (digits ++ name)) (own ++ args)
        ('\x7b' :: (List.intercalate [','] own ++ '\x7d' :: text))

/-- A name and its arguments determine the text. -/
theorem Fills.unique {name name' text text' : List Char} {args args' : List (List Char)}
    (h : Fills name args text) (h' : Fills name' args' text') (hname : name = name')
    (hargs : args = args') : text = text' := by
  induction h generalizing name' args' text' with
  | nil =>
    cases h' with
    | nil => rfl
    | plain | marker => cases hname
  | @plain c name text args hc h ih =>
    cases h' with
    | nil => cases hname
    | plain hc' h' =>
      obtain ⟨rfl, htail⟩ := List.cons.inj hname
      rw [ih h' htail hargs]
    | marker hdigits hown hends h' =>
      obtain ⟨rfl, -⟩ := List.cons.inj hname
      exact absurd hc (by decide)
  | @marker digits name text own args hdigits hown hends h ih =>
    cases h' with
    | nil => cases hname
    | plain hc' h' =>
      obtain ⟨rfl, -⟩ := List.cons.inj hname
      exact absurd hc' (by decide)
    | marker hdigits' hown' hends' h' =>
      obtain ⟨rfl, rfl⟩ := Text.eq_of_append_eq hdigits.2.1 hdigits'.2.1 hends hends'
        (List.cons.inj hname).2
      obtain ⟨rfl, hrest⟩ := List.append_inj hargs (hown.trans hown'.symm)
      rw [ih h' rfl hrest]

/-- The text determines the name and its arguments, if the name ends with it and the arguments are
cut off by commas and braces. -/
theorem Fills.eq_of_append_eq {name name' text text' : List Char} {args args' : List (List Char)}
    (h : Fills name args text) (h' : Fills name' args' text') {r s : List Char}
    (hr : Text.Ends isNamePart r) (hs : Text.Ends isNamePart s)
    (hfree : ∀ x ∈ args, ∀ y ∈ args', ∀ c ∈ [',', '\x7d'], ∀ d ∈ [',', '\x7d'], ∀ r s,
      x ++ c :: r = y ++ d :: s → x = y)
    (heq : text ++ r = text' ++ s) : name = name' ∧ args = args' ∧ r = s := by
  induction h generalizing name' args' text' with
  | nil =>
    cases h' with
    | nil => exact ⟨rfl, rfl, heq⟩
    | plain hc =>
      rw [List.nil_append, List.cons_append] at heq
      rw [heq, Text.ends_cons, isNamePart, isBody, hc] at hr
      cases hr
    | marker =>
      rw [List.nil_append, List.cons_append] at heq
      rw [heq, Text.ends_cons] at hr
      cases hr
  | @plain c name text args hc h ih =>
    cases h' with
    | nil =>
      rw [List.nil_append, List.cons_append] at heq
      rw [← heq, Text.ends_cons, isNamePart, isBody, hc] at hs
      cases hs
    | plain hc' h' =>
      obtain ⟨rfl, htail⟩ := List.cons.inj heq
      obtain ⟨rfl, rfl, rfl⟩ := ih h' hfree htail
      exact ⟨rfl, rfl, rfl⟩
    | marker =>
      obtain ⟨rfl, -⟩ := List.cons.inj heq
      exact absurd hc (by decide)
  | @marker digits name text own args hdigits hown hends h ih =>
    cases h' with
    | nil =>
      rw [List.nil_append, List.cons_append] at heq
      rw [← heq, Text.ends_cons] at hs
      cases hs
    | plain hc' =>
      obtain ⟨rfl, -⟩ := List.cons.inj heq
      exact absurd hc' (by decide)
    | @marker digits' name' text' own' args' hdigits' hown' hends' h' =>
      -- the arguments of the first marker are cut off by its closing brace
      have hne : own ≠ [] := List.ne_nil_of_length_pos (hown ▸ hdigits.toDigits_value.1)
      have hne' : own' ≠ [] := List.ne_nil_of_length_pos (hown' ▸ hdigits'.toDigits_value.1)
      rw [List.cons_append, List.cons_append, List.cons.injEq, List.append_assoc,
        List.append_assoc] at heq
      obtain ⟨-, hbraced⟩ := heq
      obtain ⟨rfl, htail⟩ := Text.eq_of_intercalate_append_eq (by decide) hne hne'
        (fun x hx y hy ↦ hfree x (List.mem_append_left _ hx) y (List.mem_append_left _ hy)) hbraced
      obtain ⟨rfl, rfl, rfl⟩ := ih h'
        (fun x hx y hy ↦ hfree x (List.mem_append_right _ hx) y (List.mem_append_right _ hy)) htail
      rw [hdigits.eq_of_value_eq hdigits' (hown.symm.trans hown')]
      exact ⟨rfl, rfl, rfl⟩

/-- Up to its first brace a text with arguments has plain characters only. -/
theorem Fills.exists_brace {name text : List Char} {args : List (List Char)}
    (h : Fills name args text) (hargs : args ≠ []) :
    ∃ run rest, (∀ c ∈ run, isPlain c = true) ∧ text = run ++ '\x7b' :: rest := by
  induction h with
  | nil => exact absurd rfl hargs
  | @plain c name text args hc h ih =>
    obtain ⟨run, rest, hrun, rfl⟩ := ih hargs
    exact ⟨c :: run, rest, List.forall_mem_cons.mpr ⟨hc, hrun⟩, rfl⟩
  | marker => exact ⟨[], _, nofun, rfl⟩

/-! ### Writing names with arguments -/

theorem Fills.append_plain {run name text : List Char} {args : List (List Char)}
    (hrun : ∀ c ∈ run, isPlain c = true) (h : Fills name args text) :
    Fills (run ++ name) args (run ++ text) := by
  induction run with
  | nil => exact h
  | cons c run ih =>
    obtain ⟨hc, hrun⟩ := List.forall_mem_cons.mp hrun
    exact .plain hc (ih hrun)

/-- The plus signs of a full name stand between its segments. -/
theorem toList_dotted (fullName : String) :
    (dotted fullName).toList = List.intercalate ['.'] (segments fullName) := by
  rw [dotted, String.toList_ofList, segments]
  induction fullName.toList with
  | nil => rfl
  | cons c cs ih =>
    obtain ⟨part, parts, hparts⟩ := Text.exists_divide_eq '+' cs
    rw [List.map_cons, ih, Text.divide, hparts]
    split_ifs
    · rfl
    · rw [Text.intercalate_cons_eq, Text.intercalate_cons_eq]
      rfl

/-- A segment with as many arguments as its marker states. -/
def written (seg : List Char) (own : List (List Char)) : List Char :=
  stripArityChars seg ++
    if stated seg = 0 then [] else '\x7b' :: (List.intercalate [','] own ++ ['\x7d'])

theorem IsSegment.fills {seg : List Char} (h : IsSegment seg) {own args : List (List Char)}
    (hown : own.length = stated seg) {name text : List Char}
    (hends : Text.Ends Char.isDigit name) (hrest : Fills name args text) :
    Fills (seg ++ name) (own ++ args) (written seg own ++ text) := by
  cases h with
  | bare hne hplain =>
    rw [stated_bare hplain, List.length_eq_zero_iff] at hown
    subst hown
    rw [written, stripArityChars_bare hplain, if_pos (stated_bare hplain), List.append_nil]
    exact hrest.append_plain hplain
  | @marked text digits hne hplain hdigits =>
    rw [stated_marked hplain] at hown
    have hpos : value digits ≠ 0 := Nat.ne_of_gt hdigits.toDigits_value.1
    rw [written, stripArityChars_marked hplain hdigits, stated_marked hplain, if_neg hpos]
    have hfill := (Fills.marker hdigits hown hends hrest).append_plain hplain
    simpa using hfill

theorem toList_braced (args : List String) :
    (braced args).toList =
      '\x7b' :: (List.intercalate [','] (args.map String.toList) ++ ['\x7d']) := by
  rw [braced, String.toList_append, String.toList_append, String.toList_intercalate]
  rfl

theorem ends_isDigit_flatMap (segs : List (List Char)) :
    Text.Ends Char.isDigit (segs.flatMap ('.' :: ·)) := by
  cases segs with
  | nil => exact Text.ends_nil _
  | cons seg segs => exact Text.ends_cons.mpr rfl

/-- One step of the distribution of arguments over segments. -/
theorem exists_distribute_cons {seg : List Char} (hseg : IsSegment seg) {segs : List (List Char)}
    {args : List String} (hlen : stated seg ≤ args.length) (hword : args.length < UInt64.size)
    {texts : List String} (h : distribute segs (args.drop (stated seg)) = .ok texts)
    (hfills : Fills (segs.flatMap ('.' :: ·)) ((args.drop (stated seg)).map String.toList)
      (texts.flatMap fun t ↦ '.' :: t.toList)) :
    ∃ head, distribute (seg :: segs) args = .ok (head :: texts) ∧
      Fills (seg ++ segs.flatMap ('.' :: ·)) (args.map String.toList)
        (head.toList ++ texts.flatMap fun t ↦ '.' :: t.toList) := by
  have harity : (arity seg).toNat = stated seg :=
    hseg.toNat_arity (Nat.lt_of_le_of_lt hlen hword)
  have hown : ((args.take (stated seg)).map String.toList).length = stated seg := by
    rw [List.length_map, List.length_take_of_le hlen]
  have hfill := hseg.fills hown (ends_isDigit_flatMap segs) hfills
  rw [← List.map_append, List.take_append_drop] at hfill
  simp only [distribute, harity, if_neg (Nat.not_lt.mpr hlen), h]
  refine ⟨_, rfl, ?_⟩
  convert hfill using 2
  rw [written]
  split_ifs
  · rw [String.toList_ofList, List.append_nil]
  · rw [String.toList_append, String.toList_ofList, toList_braced]

/-- Segments take their arguments one after another. -/
theorem exists_distribute_fills {segs : List (List Char)} (hsegs : ∀ seg ∈ segs, IsSegment seg)
    {args : List String} (hlen : args.length = statedSum segs) (hword : args.length < UInt64.size) :
    ∃ texts, distribute segs args = .ok texts ∧
      Fills (segs.flatMap ('.' :: ·)) (args.map String.toList)
        (texts.flatMap fun t ↦ '.' :: t.toList) := by
  induction segs generalizing args with
  | nil =>
    obtain rfl := List.length_eq_zero_iff.mp hlen
    exact ⟨[], rfl, .nil⟩
  | cons seg segs ih =>
    obtain ⟨hseg, hsegs⟩ := List.forall_mem_cons.mp hsegs
    rw [statedSum] at hlen
    have hdrop : (args.drop (stated seg)).length = statedSum segs := by
      rw [List.length_drop]
      omega
    obtain ⟨texts, htexts, hfills⟩ := ih hsegs hdrop (by omega)
    obtain ⟨head, hhead, hfill⟩ := exists_distribute_cons hseg (by omega) hword htexts hfills
    exact ⟨head :: texts, hhead, .plain rfl hfill⟩

/-- What the words add up to is what the markers state. -/
theorem declaredArity_eq {segs : List (List Char)} (hsegs : ∀ seg ∈ segs, IsSegment seg)
    (hword : statedSum segs < UInt64.size) : declaredArity segs = statedSum segs := by
  induction segs with
  | nil => rfl
  | cons seg segs ih =>
    obtain ⟨hseg, hsegs⟩ := List.forall_mem_cons.mp hsegs
    rw [statedSum] at hword ⊢
    rw [declaredArity, hseg.toNat_arity (by omega), ih hsegs (by omega)]

/-- A well-formed name takes as many arguments as its markers state, and the text is the name with
the arguments in place of the markers. -/
theorem exists_fills_of_instantiate {fullName : String} (hname : IsName fullName)
    {args : List String} (hlen : args.length = statedSum (segments fullName))
    (hword : args.length < UInt64.size) :
    ∃ text, instantiate fullName args = .ok text ∧
      Fills (dotted fullName).toList (args.map String.toList) text.toList := by
  have hdeclared : declaredArity (segments fullName) = args.length := by
    rw [declaredArity_eq hname (hlen ▸ hword), hlen]
  obtain ⟨seg, segs, hsegs⟩ : ∃ seg segs, segments fullName = seg :: segs :=
    Text.exists_divide_eq '+' fullName.toList
  rw [IsName, hsegs] at hname
  obtain ⟨hseg, htail⟩ := List.forall_mem_cons.mp hname
  rw [hsegs, statedSum] at hlen
  have hdrop : (args.drop (stated seg)).length = statedSum segs := by
    rw [List.length_drop]
    omega
  obtain ⟨texts, htexts, hfills⟩ := exists_distribute_fills htail hdrop (by omega)
  obtain ⟨head, hhead, hfill⟩ := exists_distribute_cons hseg (by omega) hword htexts hfills
  refine ⟨String.intercalate "." (head :: texts), ?_, ?_⟩
  · rw [instantiate, if_neg (by omega), if_pos hdeclared, hsegs, hhead]
    rfl
  · rw [toList_dotted, hsegs, Text.intercalate_cons_eq, String.toList_intercalate, List.map_cons,
      Text.intercalate_cons_eq, List.flatMap_map]
    exact hfill

/-! ### Names without arguments -/

theorem isBody_of_isPlain {c : Char} (h : isPlain c = true) : isBody c = true := by
  rw [isBody, h, Bool.true_or]

/-- Where a name with its arguments ends, a name without arguments does. -/
theorem ends_isBody {r : List Char} (h : Text.Ends isNamePart r) : Text.Ends isBody r :=
  fun c hc ↦ (Bool.or_eq_false_iff.mp (h c hc)).1

theorem IsSegment.isBody {seg : List Char} (h : IsSegment seg) {c : Char} (hc : c ∈ seg) :
    isBody c = true := by
  cases h with
  | bare hne hplain => exact isBody_of_isPlain (hplain c hc)
  | marked hne hplain hdigits =>
    rcases List.mem_append.mp hc with htext | hmarker
    · exact isBody_of_isPlain (hplain c htext)
    · rcases List.mem_cons.mp hmarker with rfl | hdigit
      · rfl
      · exact isBody_of_isPlain (isPlain_of_isDigit (hdigits.2.1 c hdigit))

theorem IsSegment.exists_cons {seg : List Char} (h : IsSegment seg) :
    ∃ c cs, seg = c :: cs ∧ isPlain c = true := by
  cases h with
  | bare hne hplain =>
    obtain ⟨c, cs, rfl⟩ := List.exists_cons_of_ne_nil hne
    exact ⟨c, cs, rfl, hplain c List.mem_cons_self⟩
  | marked hne hplain hdigits =>
    obtain ⟨c, cs, rfl⟩ := List.exists_cons_of_ne_nil hne
    exact ⟨c, _, rfl, hplain c List.mem_cons_self⟩

/-- A dotted name begins with a plain character and goes on with plain characters and backticks. -/
theorem IsName.exists_dotted_eq {fullName : String} (h : IsName fullName) :
    ∃ c cs, (dotted fullName).toList = c :: cs ∧ isPlain c = true ∧
      ∀ d ∈ c :: cs, TypeName.isBody d = true := by
  obtain ⟨seg, segs, hsegs⟩ : ∃ seg segs, segments fullName = seg :: segs :=
    Text.exists_divide_eq '+' fullName.toList
  rw [IsName, hsegs] at h
  obtain ⟨c, cs, rfl, hc⟩ := (h seg List.mem_cons_self).exists_cons
  refine ⟨c, cs ++ segs.flatMap ('.' :: ·), ?_, hc, fun d hd ↦ ?_⟩
  · rw [toList_dotted, hsegs, Text.intercalate_cons_eq]
    rfl
  · rw [← List.cons_append] at hd
    rcases List.mem_append.mp hd with hfirst | hlater
    · exact (h _ List.mem_cons_self).isBody hfirst
    · obtain ⟨seg, hseg, hd⟩ := List.mem_flatMap.mp hlater
      rcases List.mem_cons.mp hd with rfl | hd
      · rfl
      · exact (h seg (List.mem_cons_of_mem _ hseg)).isBody hd

theorem IsName.isBody_dotted {fullName : String} (h : IsName fullName) :
    ∀ d ∈ (dotted fullName).toList, TypeName.isBody d = true := by
  obtain ⟨c, cs, hcs, -, hbody⟩ := h.exists_dotted_eq
  rw [hcs]
  exact hbody

end TypeName

end ApiDocs
