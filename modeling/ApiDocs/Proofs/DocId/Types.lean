import ApiDocs.Proofs.DocId.Names
import Mathlib.Data.List.Forall2

/-!
# Types inside documentation ids

Ids do not show everything that a type expression says: nesting is written like namespaces, generic
parameters have no names, and an array without dimensions looks like one with a single dimension.
Expressions that differ in nothing else are equivalent. Well-formed expressions are written alike
exactly if they are equivalent, and what is written can be read back up to equivalence from the
beginning of a longer text.

## Main definitions

* `TypeExpr.Equivalent`: expressions that ids do not tell apart.
* `TypeExpr.WellFormed`: expressions that ids can be read back for.
* `TypeExpr.Writes`: the texts of well-formed expressions.

## Main results

* `TypeExpr.WellFormed.exists_writes`: well-formed expressions can be written.
* `TypeExpr.Writes.equivalent_of_append_eq`: texts are read back up to equivalence.
* `TypeExpr.docText_eq_of_equivalent`: equivalent expressions are written alike.
-/

namespace ApiDocs

/-! ### Derived types -/

namespace TypeForm

/-- The form that stands for all forms written like it. -/
def canonical : TypeForm → TypeForm
  | array rank => array (if rank ≤ 1 then 1 else rank)
  | byRef => byRef
  | pointer => pointer

/-- What a form adds to the text of its target. -/
def suffix : TypeForm → List Char
  | array rank =>
    if rank ≤ 1 then ['[', ']']
    else '[' :: (List.intercalate [','] (List.replicate rank.toNat ['0', ':']) ++ [']'])
  | byRef => ['@']
  | pointer => ['*']

theorem toList_docText (target : String) (form : TypeForm) :
    (form.docText target).toList = target.toList ++ form.suffix := by
  cases form with
  | array rank =>
    rw [docText, suffix, String.toList_append]
    split_ifs
    · rfl
    · rw [String.toList_append, String.toList_append, String.toList_intercalate,
        List.map_replicate]
      rfl
  | byRef => exact String.toList_append
  | pointer => exact String.toList_append

theorem suffix_eq_of_canonical_eq {f g : TypeForm} (h : f.canonical = g.canonical) :
    f.suffix = g.suffix := by
  cases f with
  | array rank =>
    cases g with
    | array rank' =>
      have hrank : (if rank ≤ 1 then 1 else rank) = if rank' ≤ 1 then 1 else rank' :=
        TypeForm.array.inj h
      rw [suffix, suffix]
      split_ifs at hrank ⊢ with hle hle' hle'
      · rfl
      · exact absurd (hrank ▸ UInt32.le_refl 1) hle'
      · exact absurd (hrank ▸ UInt32.le_refl 1) hle
      · rw [hrank]
    | byRef | pointer => cases h
  | byRef | pointer =>
    cases g with
    | array rank => cases h
    | byRef | pointer => first | rfl | cases h

/-- The dimensions of two arrays are told apart by the closing bracket. -/
theorem replicate_eq_of_append_eq {n m : Nat} (hn : 0 < n) (hm : 0 < m) {r s : List Char}
    (h : List.intercalate [','] (List.replicate n ['0', ':']) ++ ']' :: r =
      List.intercalate [','] (List.replicate m ['0', ':']) ++ ']' :: s) : n = m ∧ r = s := by
  have hne {k : Nat} (hk : 0 < k) : List.replicate k ['0', ':'] ≠ [] :=
    List.ne_nil_of_length_pos (by rwa [List.length_replicate])
  obtain ⟨heq, hrest⟩ := Text.eq_of_intercalate_append_eq (by decide) (hne hn) (hne hm)
    (fun x hx y hy _ _ _ _ _ _ _ ↦
      (List.eq_of_mem_replicate hx).trans (List.eq_of_mem_replicate hy).symm) h
  have hlen := congrArg List.length heq
  rw [List.length_replicate, List.length_replicate] at hlen
  exact ⟨hlen, hrest⟩

/-- An array of several dimensions does not close at once. -/
theorem intercalate_replicate_append_ne {n : Nat} (hn : 0 < n) (r s : List Char) :
    List.intercalate [','] (List.replicate n ['0', ':']) ++ r ≠ ']' :: s := by
  obtain ⟨k, rfl⟩ := Nat.exists_eq_succ_of_ne_zero (Nat.ne_of_gt hn)
  rw [List.replicate_succ, Text.intercalate_cons_eq]
  intro h
  exact absurd (List.cons.inj h).1 (by decide)

theorem toNat_pos_of_not_le_one {rank : UInt32} (h : ¬ rank ≤ 1) : 0 < rank.toNat := by
  have hlt : 1 < rank.toNat := UInt32.lt_iff_toNat_lt.mp (UInt32.not_le.mp h)
  omega

theorem array_eq_of_suffix_append_eq {rank rank' : UInt32} {r s : List Char}
    (h : (array rank).suffix ++ r = (array rank').suffix ++ s) :
    (array rank).canonical = (array rank').canonical ∧ r = s := by
  rw [suffix, suffix] at h
  rw [canonical, canonical]
  split_ifs at h ⊢ with hle hle' hle'
  · exact ⟨rfl, (List.cons.inj (List.cons.inj h).2).2⟩
  · simp only [List.cons_append, List.append_assoc] at h
    exact absurd (List.cons.inj h).2.symm
      (intercalate_replicate_append_ne (toNat_pos_of_not_le_one hle') _ _)
  · simp only [List.cons_append, List.append_assoc] at h
    exact absurd (List.cons.inj h).2
      (intercalate_replicate_append_ne (toNat_pos_of_not_le_one hle) _ _)
  · simp only [List.cons_append, List.append_assoc] at h
    obtain ⟨hrank, hrest⟩ := replicate_eq_of_append_eq (toNat_pos_of_not_le_one hle)
      (toNat_pos_of_not_le_one hle') (List.cons.inj h).2
    exact ⟨by rw [UInt32.toNat_inj.mp hrank], hrest⟩

/-- A suffix begins with a character that tells its kind. -/
def mark : TypeForm → Char
  | array _ => '['
  | byRef => '@'
  | pointer => '*'

theorem exists_suffix_eq (f : TypeForm) : ∃ cs, f.suffix = f.mark :: cs := by
  cases f with
  | array rank =>
    rw [suffix]
    split_ifs
    · exact ⟨_, rfl⟩
    · exact ⟨_, rfl⟩
  | byRef | pointer => exact ⟨_, rfl⟩

/-- A suffix is read back from the beginning of a longer text. -/
theorem canonical_eq_of_suffix_append_eq {f g : TypeForm} {r s : List Char}
    (h : f.suffix ++ r = g.suffix ++ s) : f.canonical = g.canonical ∧ r = s := by
  have hmark : f.mark = g.mark := by
    obtain ⟨cs, hf⟩ := exists_suffix_eq f
    obtain ⟨ds, hg⟩ := exists_suffix_eq g
    rw [hf, hg] at h
    exact (List.cons.inj h).1
  cases f with
  | array rank =>
    cases g with
    | array rank' => exact array_eq_of_suffix_append_eq h
    | byRef | pointer => exact absurd hmark (by simp [mark])
  | byRef =>
    cases g with
    | byRef => exact ⟨rfl, (List.cons.inj h).2⟩
    | array | pointer => exact absurd hmark (by simp [mark])
  | pointer =>
    cases g with
    | pointer => exact ⟨rfl, (List.cons.inj h).2⟩
    | array | byRef => exact absurd hmark (by simp [mark])

end TypeForm

/-! ### Equivalence and well-formedness -/

namespace TypeExpr

mutual

/-- The expression that stands for all expressions written like it. -/
def canonical : TypeExpr → TypeExpr
  | named fullName args => named (TypeName.dotted fullName) (canonicals args)
  | param scope position _ => param scope position ""
  | derived form target => derived form.canonical target.canonical

/-- The expressions that stand for those of a list. -/
def canonicals : List TypeExpr → List TypeExpr
  | [] => []
  | arg :: args => arg.canonical :: canonicals args

end

@[simp] theorem canonicals_eq_map (args : List TypeExpr) :
    canonicals args = args.map canonical := by
  induction args with
  | nil => rfl
  | cons arg args ih => rw [canonicals, ih, List.map_cons]

/-- Expressions that differ only in how nesting is written, in the names of generic parameters and
in whether arrays of one dimension have none. -/
def Equivalent (a b : TypeExpr) : Prop :=
  a.canonical = b.canonical

instance (a b : TypeExpr) : Decidable (Equivalent a b) :=
  inferInstanceAs (Decidable (a.canonical = b.canonical))

theorem forall₂_equivalent_iff {args args' : List TypeExpr} :
    List.Forall₂ Equivalent args args' ↔ args.map canonical = args'.map canonical := by
  rw [← List.forall₂_eq_eq_eq, List.forall₂_map_left_iff, List.forall₂_map_right_iff]
  rfl

/-- Names are well formed, and named types have no arguments or as many as the markers of their
names add up to, a number that fits a word. -/
inductive WellFormed : TypeExpr → Prop
  | bare {fullName : String} (hname : TypeName.IsName fullName) : WellFormed (named fullName [])
  | generic {fullName : String} {args : List TypeExpr} (hname : TypeName.IsName fullName)
      (hlen : args.length = TypeName.statedSum (TypeName.segments fullName))
      (hword : args.length < UInt64.size) (hargs : ∀ arg ∈ args, WellFormed arg) :
      WellFormed (named fullName args)
  | param (scope : GenericScope) (position : UInt32) (name : String) :
      WellFormed (param scope position name)
  | derived (form : TypeForm) {target : TypeExpr} (htarget : WellFormed target) :
      WellFormed (derived form target)

/-! ### Texts of expressions -/

/-- Derives a type by a list of forms, the innermost first. -/
def derive (forms : List TypeForm) (target : TypeExpr) : TypeExpr :=
  forms.foldl (fun t form ↦ derived form t) target

/-- What a list of forms adds to a text. -/
def suffixes (forms : List TypeForm) : List Char :=
  forms.flatMap TypeForm.suffix

/-- The texts of well-formed expressions. The forms of an expression stand after all else, so they
are taken together. -/
inductive Writes : TypeExpr → List Char → Prop
  | bare {fullName : String} (hname : TypeName.IsName fullName) (forms : List TypeForm) :
      Writes (derive forms (named fullName []))
        ((TypeName.dotted fullName).toList ++ suffixes forms)
  | generic {fullName : String} {args : List TypeExpr} {texts : List (List Char)}
      {text : List Char} (hne : args ≠ []) (hlen : args.length = texts.length)
      (hargs : ∀ p ∈ args.zip texts, Writes p.1 p.2)
      (hfills : TypeName.Fills (TypeName.dotted fullName).toList texts text)
      (forms : List TypeForm) : Writes (derive forms (named fullName args)) (text ++ suffixes forms)
  | param (scope : GenericScope) (position : UInt32) (name : String) (forms : List TypeForm) :
      Writes (derive forms (param scope position name))
        (scope.mark.toList ++ (Nat.repr position.toNat).toList ++ suffixes forms)

theorem Writes.derived {a : TypeExpr} {text : List Char} (h : Writes a text) (form : TypeForm) :
    Writes (derived form a) (text ++ form.suffix) := by
  have hderive (forms : List TypeForm) (core : TypeExpr) :
      TypeExpr.derived form (derive forms core) = derive (forms ++ [form]) core := by
    rw [derive, derive, List.foldl_append]
    rfl
  have hsuffix (forms : List TypeForm) :
      suffixes forms ++ form.suffix = suffixes (forms ++ [form]) := by
    simp [suffixes]
  cases h with
  | bare hname forms =>
    rw [hderive, List.append_assoc, hsuffix]
    exact .bare hname _
  | generic hne hlen hargs hfills forms =>
    rw [hderive, List.append_assoc, hsuffix]
    exact .generic hne hlen hargs hfills _
  | param scope position name forms =>
    rw [hderive, List.append_assoc, hsuffix]
    exact .param scope position name _

theorem exists_docTexts {R : TypeExpr → String → Prop} {args : List TypeExpr}
    (h : ∀ arg ∈ args, ∃ text, arg.docText = .ok text ∧ R arg text) :
    ∃ texts, docTexts args = .ok texts ∧ List.Forall₂ R args texts := by
  induction args with
  | nil => exact ⟨[], rfl, .nil⟩
  | cons arg args ih =>
    obtain ⟨harg, hargs⟩ := List.forall_mem_cons.mp h
    obtain ⟨text, htext, hR⟩ := harg
    obtain ⟨texts, htexts, hRs⟩ := ih hargs
    refine ⟨text :: texts, ?_, .cons hR hRs⟩
    rw [docTexts, htext, htexts]
    rfl

theorem append_suffixes_nil (text : List Char) : text ++ suffixes [] = text :=
  List.append_nil text

/-- Well-formed expressions can be written. -/
theorem WellFormed.exists_writes {a : TypeExpr} (h : WellFormed a) :
    ∃ text, a.docText = .ok text ∧ Writes a text.toList := by
  have hbare {fullName : String} (hname : TypeName.IsName fullName) :
      Writes (named fullName []) (TypeName.dotted fullName).toList :=
    append_suffixes_nil (TypeName.dotted fullName).toList ▸ Writes.bare hname []
  induction h with
  | bare hname => exact ⟨_, rfl, hbare hname⟩
  | @generic fullName args hname hlen hword hargs ih =>
    cases args with
    | nil => exact ⟨_, rfl, hbare hname⟩
    | cons arg args =>
      obtain ⟨texts, htexts, hwrites⟩ := exists_docTexts ih
      have hcount := hwrites.length_eq
      obtain ⟨text, htext, hfills⟩ := TypeName.exists_fills_of_instantiate hname
        (hcount.symm.trans hlen) (hcount ▸ hword)
      refine ⟨text, ?_, ?_⟩
      · rw [docText, htexts]
        exact htext
      · have hzip : List.Forall₂ Writes (arg :: args) (texts.map String.toList) :=
          List.forall₂_map_right_iff.mpr hwrites
        obtain ⟨hlen, hargs⟩ := List.forall₂_iff_zip.mp hzip
        exact append_suffixes_nil text.toList ▸
          Writes.generic (List.cons_ne_nil _ _) hlen (fun p hp ↦ hargs hp) hfills []
  | param scope position name =>
    refine ⟨_, rfl, ?_⟩
    rw [String.toList_append, ← append_suffixes_nil (_ ++ _)]
    exact .param scope position name []
  | derived form htarget ih =>
    obtain ⟨text, htext, hwrites⟩ := ih
    refine ⟨form.docText text, ?_, ?_⟩
    · rw [docText, htext]
      rfl
    · rw [TypeForm.toList_docText]
      exact hwrites.derived form

/-! ### Reading texts back -/

/-- The text does not go on with the text of a type: it is at its end, or at a comma or a closing
parenthesis or brace. -/
def Closes (cs : List Char) : Prop :=
  ∀ c ∈ cs.head?, c ∈ [',', ')', '\x7d']

theorem closes_nil : Closes [] :=
  nofun

theorem closes_cons {c : Char} {cs : List Char} : Closes (c :: cs) ↔ c ∈ [',', ')', '\x7d'] := by
  simp [Closes]

/-- After a name come suffixes or the end of the type. -/
theorem ends_suffixes (forms : List TypeForm) {r : List Char} (hr : Closes r) :
    Text.Ends TypeName.isNamePart (suffixes forms ++ r) := by
  cases forms with
  | nil =>
    intro c hc
    have hclosing := hr c hc
    simp only [List.mem_cons, List.not_mem_nil, or_false] at hclosing
    rcases hclosing with rfl | rfl | rfl <;> rfl
  | cons form forms =>
    obtain ⟨cs, hcs⟩ := form.exists_suffix_eq
    rw [suffixes, List.flatMap_cons, hcs, List.cons_append, List.cons_append, Text.ends_cons]
    cases form <;> rfl

theorem forms_eq_of_suffixes_append_eq {forms forms' : List TypeForm} {r s : List Char}
    (hr : Closes r) (hs : Closes s) (h : suffixes forms ++ r = suffixes forms' ++ s) :
    forms.map TypeForm.canonical = forms'.map TypeForm.canonical ∧ r = s := by
  have hmark (form : TypeForm) : form.mark ∉ [',', ')', '\x7d'] := by
    cases form <;> simp [TypeForm.mark]
  induction forms generalizing forms' with
  | nil =>
    cases forms' with
    | nil => exact ⟨rfl, h⟩
    | cons form forms' =>
      obtain ⟨cs, hcs⟩ := form.exists_suffix_eq
      rw [suffixes, suffixes, List.flatMap_nil, List.nil_append, List.flatMap_cons, hcs] at h
      rw [h, List.cons_append, List.cons_append, closes_cons] at hr
      exact absurd hr (hmark form)
  | cons form forms ih =>
    cases forms' with
    | nil =>
      obtain ⟨cs, hcs⟩ := form.exists_suffix_eq
      rw [suffixes, suffixes, List.flatMap_nil, List.nil_append, List.flatMap_cons, hcs] at h
      rw [← h, List.cons_append, List.cons_append, closes_cons] at hs
      exact absurd hs (hmark form)
    | cons form' forms' =>
      rw [suffixes, suffixes, List.flatMap_cons, List.flatMap_cons, List.append_assoc,
        List.append_assoc] at h
      obtain ⟨hform, htail⟩ := TypeForm.canonical_eq_of_suffix_append_eq h
      obtain ⟨hforms, hrest⟩ := ih htail
      rw [List.map_cons, List.map_cons, hform, hforms]
      exact ⟨rfl, hrest⟩

theorem canonical_derive (forms : List TypeForm) (a : TypeExpr) :
    (derive forms a).canonical = derive (forms.map TypeForm.canonical) a.canonical := by
  induction forms generalizing a with
  | nil => rfl
  | cons form forms ih => exact ih (derived form a)

/-- Equivalent expressions have equivalent innermost targets and the same forms, up to arrays of one
dimension. -/
theorem equivalent_derive {forms forms' : List TypeForm} {a b : TypeExpr}
    (hforms : forms.map TypeForm.canonical = forms'.map TypeForm.canonical)
    (hab : Equivalent a b) : Equivalent (derive forms a) (derive forms' b) := by
  rw [Equivalent, canonical_derive, canonical_derive, hforms, hab]

theorem eq_arityMark_of_mem_mark {scope : GenericScope} {c : Char} (h : c ∈ scope.mark.toList) :
    c = TypeName.arityMark := by
  cases scope with
  | type => exact List.mem_singleton.mp h
  | method =>
    rcases List.mem_cons.mp h with rfl | h
    · rfl
    · exact List.mem_singleton.mp h

theorem isBody_mark_repr (scope : GenericScope) (n : Nat) :
    ∀ c ∈ scope.mark.toList ++ (Nat.repr n).toList, TypeName.isBody c = true := by
  intro c hc
  rcases List.mem_append.mp hc with hmark | hdigit
  · rw [eq_arityMark_of_mem_mark hmark]
    rfl
  · rw [Nat.toList_repr] at hdigit
    exact TypeName.isBody_of_isPlain (TypeName.isPlain_of_isDigit
      (Nat.isDigit_of_mem_toDigits (by decide) (by decide) hdigit))

theorem ends_arityMark_repr (n : Nat) :
    Text.Ends (· == TypeName.arityMark) (Nat.repr n).toList := by
  intro c hc
  rw [Nat.toList_repr] at hc
  have hdigit := Nat.isDigit_of_mem_toDigits (by decide) (by decide) (List.mem_of_mem_head? hc)
  have hne := TypeName.ne_arityMark_of_isPlain (TypeName.isPlain_of_isDigit hdigit)
  simpa using hne

/-- The scope and the position of a generic parameter are read off its text. -/
theorem param_eq_of_text_eq {scope scope' : GenericScope} {n m : Nat}
    (h : scope.mark.toList ++ (Nat.repr n).toList = scope'.mark.toList ++ (Nat.repr m).toList) :
    scope = scope' ∧ n = m := by
  have hmarks (scope : GenericScope) : ∀ c ∈ scope.mark.toList, (c == TypeName.arityMark) = true :=
    fun c hc ↦ beq_iff_eq.mpr (eq_arityMark_of_mem_mark hc)
  obtain ⟨hscope, hdigits⟩ := Text.eq_of_append_eq (hmarks scope) (hmarks scope')
    (ends_arityMark_repr n) (ends_arityMark_repr m) h
  refine ⟨?_, TypeName.eq_of_toList_repr_eq hdigits⟩
  cases scope <;> cases scope' <;> first | rfl | exact absurd hscope (by decide)

/-- Generic parameters begin with a backtick and names do not. -/
theorem dotted_append_ne {fullName : String} (hname : TypeName.IsName fullName)
    (scope : GenericScope) (r s : List Char) :
    (TypeName.dotted fullName).toList ++ r ≠ scope.mark.toList ++ s := by
  obtain ⟨c, cs, hcs, hc, -⟩ := hname.exists_dotted_eq
  have hmark : ∃ ds, scope.mark.toList = TypeName.arityMark :: ds := by
    cases scope <;> exact ⟨_, rfl⟩
  obtain ⟨ds, hds⟩ := hmark
  rw [hcs, hds]
  intro h
  rw [(List.cons.inj h).1] at hc
  exact absurd hc (by decide)

/-- Names without arguments and generic parameters are not followed by a brace. -/
theorem append_ne_of_fills {run r : List Char} (hrun : ∀ c ∈ run, TypeName.isBody c = true)
    (hr : Text.Ends TypeName.isNamePart r) {name text : List Char} {args : List (List Char)}
    (hfills : TypeName.Fills name args text) (hargs : args ≠ []) (s : List Char) :
    run ++ r ≠ text ++ s := by
  obtain ⟨run', rest, hrun', rfl⟩ := hfills.exists_brace hargs
  intro h
  rw [List.append_assoc] at h
  obtain ⟨-, rfl⟩ := Text.eq_of_append_eq hrun
    (fun c hc ↦ TypeName.isBody_of_isPlain (hrun' c hc)) (TypeName.ends_isBody hr)
    (Text.ends_cons.mpr rfl) h
  exact absurd (Text.ends_cons.mp hr) (by decide)

/-! ### Reading arguments back -/

section Arguments

variable {args args' : List TypeExpr} {texts texts' : List (List Char)}

theorem texts_ne_nil (hne : args ≠ []) (hlen : args.length = texts.length) : texts ≠ [] :=
  List.ne_nil_of_length_pos (hlen ▸ List.length_pos_iff.mpr hne)

theorem exists_mem_zip (hlen : args.length = texts.length) {text : List Char} (h : text ∈ texts) :
    ∃ arg, (arg, text) ∈ args.zip texts := by
  rw [← List.map_snd_zip (Nat.le_of_eq hlen.symm)] at h
  obtain ⟨⟨arg, t⟩, hmem, rfl⟩ := List.mem_map.mp h
  exact ⟨arg, hmem⟩

/-- Arguments are cut off where a comma or the character after the last one follows, if each of them
is read back where types end. -/
theorem text_eq_of_append_cons_eq (hlen : args.length = texts.length)
    (hlen' : args'.length = texts'.length)
    (hread : ∀ p ∈ args.zip texts, ∀ q ∈ args'.zip texts', ∀ r s, Closes r → Closes s →
      p.2 ++ r = q.2 ++ s → Equivalent p.1 q.1 ∧ r = s)
    {stop : Char} (hstop : stop ∈ [')', '\x7d']) :
    ∀ x ∈ texts, ∀ y ∈ texts', ∀ c ∈ [',', stop], ∀ d ∈ [',', stop], ∀ r s,
      x ++ c :: r = y ++ d :: s → x = y := by
  have hclose {c : Char} (hc : c ∈ [',', stop]) (r : List Char) : Closes (c :: r) := by
    rw [closes_cons]
    rcases List.mem_cons.mp hc with rfl | hc
    · exact List.mem_cons_self
    · rw [List.mem_singleton.mp hc]
      exact List.mem_cons_of_mem _ hstop
  intro x hx y hy c hc d hd r s heq
  obtain ⟨arg, harg⟩ := exists_mem_zip hlen hx
  obtain ⟨arg', harg'⟩ := exists_mem_zip hlen' hy
  have hrest := (hread _ harg _ harg' _ _ (hclose hc r) (hclose hd s) heq).2
  rw [hrest] at heq
  exact List.append_cancel_right heq

/-- Arguments with the same texts are equivalent, if each of them is read back where types end. -/
theorem map_canonical_eq_of_texts_eq (hlen : args.length = texts.length)
    (hlen' : args'.length = texts'.length)
    (hread : ∀ p ∈ args.zip texts, ∀ q ∈ args'.zip texts', ∀ r s, Closes r → Closes s →
      p.2 ++ r = q.2 ++ s → Equivalent p.1 q.1 ∧ r = s)
    (h : texts = texts') : args.map canonical = args'.map canonical := by
  subst h
  induction texts generalizing args args' with
  | nil =>
    rw [List.length_eq_zero_iff.mp hlen, List.length_eq_zero_iff.mp hlen']
  | cons text texts ih =>
    obtain ⟨arg, args, rfl⟩ := List.exists_cons_of_length_eq_add_one hlen
    obtain ⟨arg', args', rfl⟩ := List.exists_cons_of_length_eq_add_one hlen'
    have hhead : arg.canonical = arg'.canonical :=
      (hread _ List.mem_cons_self _ List.mem_cons_self _ _ closes_nil closes_nil rfl).1
    have htail := ih (Nat.succ.inj hlen) (Nat.succ.inj hlen') fun p hp q hq ↦
      hread p (List.mem_cons_of_mem _ hp) q (List.mem_cons_of_mem _ hq)
    rw [List.map_cons, List.map_cons, hhead, htail]

end Arguments

/-- What is written for a type is read back up to equivalence from the beginning of a longer text,
if the type ends there. -/
theorem Writes.equivalent_of_append_eq {a b : TypeExpr} {text text' : List Char}
    (ha : Writes a text) (hb : Writes b text') {r s : List Char} (hr : Closes r) (hs : Closes s)
    (h : text ++ r = text' ++ s) : Equivalent a b ∧ r = s := by
  induction ha generalizing b text' r s with
  | @bare fullName hname forms =>
    have hends := ends_suffixes forms hr
    rw [List.append_assoc] at h
    cases hb with
    | @bare fullName' hname' forms' =>
      rw [List.append_assoc] at h
      obtain ⟨hdotted, htail⟩ := Text.eq_of_append_eq hname.isBody_dotted hname'.isBody_dotted
        (TypeName.ends_isBody hends) (TypeName.ends_isBody (ends_suffixes forms' hs)) h
      obtain ⟨hforms, hrest⟩ := forms_eq_of_suffixes_append_eq hr hs htail
      refine ⟨equivalent_derive hforms ?_, hrest⟩
      rw [Equivalent, canonical, canonical, String.toList_inj.mp hdotted]
    | generic hne hlen hargs hfills forms' =>
      rw [List.append_assoc] at h
      exact absurd h (append_ne_of_fills hname.isBody_dotted hends hfills (texts_ne_nil hne hlen) _)
    | param scope position name forms' =>
      rw [List.append_assoc, List.append_assoc] at h
      exact absurd h (dotted_append_ne hname scope _ _)
  | @generic fullName args texts text hne hlen hargs hfills forms ih =>
    have hends := ends_suffixes forms hr
    rw [List.append_assoc] at h
    cases hb with
    | bare hname' forms' =>
      rw [List.append_assoc] at h
      exact absurd h.symm (append_ne_of_fills hname'.isBody_dotted (ends_suffixes forms' hs) hfills
        (texts_ne_nil hne hlen) _)
    | @generic fullName' args' texts' text' hne' hlen' hargs' hfills' forms' =>
      rw [List.append_assoc] at h
      -- arguments end at commas and braces, so they are read back one by one
      have hread : ∀ p ∈ args.zip texts, ∀ q ∈ args'.zip texts', ∀ r s, Closes r → Closes s →
          p.2 ++ r = q.2 ++ s → Equivalent p.1 q.1 ∧ r = s :=
        fun p hp q hq _ _ hr hs heq ↦ ih p hp (hargs' q hq) hr hs heq
      obtain ⟨hdotted, htexts, htail⟩ := hfills.eq_of_append_eq hfills' hends
        (ends_suffixes forms' hs) (text_eq_of_append_cons_eq hlen hlen' hread (by simp)) h
      obtain ⟨hforms, hrest⟩ := forms_eq_of_suffixes_append_eq hr hs htail
      have hcanonical := map_canonical_eq_of_texts_eq hlen hlen' hread htexts
      refine ⟨equivalent_derive hforms ?_, hrest⟩
      rw [Equivalent, canonical, canonical, canonicals_eq_map, canonicals_eq_map, hcanonical,
        String.toList_inj.mp hdotted]
    | param scope position name forms' =>
      rw [List.append_assoc] at h
      exact absurd h.symm (append_ne_of_fills (isBody_mark_repr scope _) (ends_suffixes forms' hs)
        hfills (texts_ne_nil hne hlen) _)
  | param scope position name forms =>
    have hends := ends_suffixes forms hr
    rw [List.append_assoc] at h
    cases hb with
    | bare hname' forms' =>
      rw [List.append_assoc, List.append_assoc] at h
      exact absurd h.symm (dotted_append_ne hname' scope _ _)
    | generic hne hlen hargs hfills forms' =>
      rw [List.append_assoc _ _ s] at h
      exact absurd h (append_ne_of_fills (isBody_mark_repr scope _) hends hfills
        (texts_ne_nil hne hlen) _)
    | param scope' position' name' forms' =>
      rw [List.append_assoc _ _ s] at h
      obtain ⟨htext, htail⟩ := Text.eq_of_append_eq (isBody_mark_repr scope _)
        (isBody_mark_repr scope' _) (TypeName.ends_isBody hends)
        (TypeName.ends_isBody (ends_suffixes forms' hs)) h
      obtain ⟨hforms, hrest⟩ := forms_eq_of_suffixes_append_eq hr hs htail
      obtain ⟨rfl, hposition⟩ := param_eq_of_text_eq htext
      refine ⟨equivalent_derive hforms ?_, hrest⟩
      rw [Equivalent, canonical, canonical, UInt32.toNat_inj.mp hposition]

/-! ### Equivalent expressions -/

theorem Equivalent.exists_named {fullName : String} {args : List TypeExpr} {b : TypeExpr}
    (h : Equivalent (named fullName args) b) :
    ∃ fullName' args', b = named fullName' args' ∧
      TypeName.dotted fullName = TypeName.dotted fullName' ∧
      args.map canonical = args'.map canonical := by
  cases b with
  | named fullName' args' =>
    rw [Equivalent, canonical, canonical, canonicals_eq_map, canonicals_eq_map] at h
    exact ⟨fullName', args', rfl, TypeExpr.named.inj h⟩
  | param | derived => cases h

theorem WellFormed.of_named {fullName : String} {args : List TypeExpr}
    (h : WellFormed (named fullName args)) :
    TypeName.IsName fullName ∧ (∀ arg ∈ args, WellFormed arg) ∧ (args ≠ [] →
      args.length = TypeName.statedSum (TypeName.segments fullName) ∧
        args.length < UInt64.size) := by
  cases h with
  | bare hname => exact ⟨hname, nofun, fun hne ↦ absurd rfl hne⟩
  | generic hname hlen hword hargs => exact ⟨hname, hargs, fun _ ↦ ⟨hlen, hword⟩⟩

/-- Names that are dotted alike are written alike with the same arguments. -/
theorem instantiate_eq_of_dotted_eq {fullName fullName' : String}
    (hname : TypeName.IsName fullName) (hname' : TypeName.IsName fullName')
    (hdotted : TypeName.dotted fullName = TypeName.dotted fullName') {texts : List String}
    (hlen : texts.length = TypeName.statedSum (TypeName.segments fullName))
    (hlen' : texts.length = TypeName.statedSum (TypeName.segments fullName'))
    (hword : texts.length < UInt64.size) :
    TypeName.instantiate fullName texts = TypeName.instantiate fullName' texts := by
  obtain ⟨text, htext, hfills⟩ := TypeName.exists_fills_of_instantiate hname hlen hword
  obtain ⟨text', htext', hfills'⟩ := TypeName.exists_fills_of_instantiate hname' hlen' hword
  have heq := hfills.unique hfills' (congrArg String.toList hdotted) rfl
  rw [htext, htext', String.toList_inj.mp heq]

theorem docTexts_eq_of_map_canonical_eq {args args' : List TypeExpr}
    (hargs' : ∀ arg ∈ args', WellFormed arg)
    (ih : ∀ arg ∈ args, ∀ b, WellFormed b → Equivalent arg b → arg.docText = b.docText)
    (h : args.map canonical = args'.map canonical) : docTexts args = docTexts args' := by
  induction args generalizing args' with
  | nil =>
    obtain rfl := List.map_eq_nil_iff.mp h.symm
    rfl
  | cons arg args ihargs =>
    cases args' with
    | nil => cases h
    | cons arg' args' =>
      obtain ⟨harg', hargs'⟩ := List.forall_mem_cons.mp hargs'
      obtain ⟨iharg, ih⟩ := List.forall_mem_cons.mp ih
      obtain ⟨hhead, htail⟩ := List.cons.inj h
      rw [docTexts, docTexts, iharg arg' harg' hhead, ihargs hargs' ih htail]

/-- Equivalent expressions that are well formed are written alike. -/
theorem docText_eq_of_equivalent {a b : TypeExpr} (ha : WellFormed a) (hb : WellFormed b)
    (h : Equivalent a b) : a.docText = b.docText := by
  induction ha generalizing b with
  | bare hname =>
    obtain ⟨fullName', args', rfl, hdotted, hargs⟩ := h.exists_named
    obtain rfl := List.map_eq_nil_iff.mp hargs.symm
    rw [docText, docText, hdotted]
  | @generic fullName args hname hlen hword hargs ih =>
    obtain ⟨fullName', args', rfl, hdotted, hcanonical⟩ := h.exists_named
    obtain ⟨hname', hargs', hcount'⟩ := hb.of_named
    have htexts := docTexts_eq_of_map_canonical_eq hargs' (fun arg harg b ↦ ih arg harg) hcanonical
    have hsame : args.length = args'.length := by
      simpa using congrArg List.length hcanonical
    cases args with
    | nil =>
      obtain rfl := List.length_eq_zero_iff.mp hsame.symm
      rw [docText, docText, hdotted]
    | cons arg args =>
      cases args' with
      | nil => cases hsame
      | cons arg' args' =>
        obtain ⟨texts, hok, hforall⟩ := exists_docTexts fun a ha ↦ (hargs a ha).exists_writes
        rw [docText, docText, ← htexts, hok]
        have hcount := hforall.length_eq
        exact instantiate_eq_of_dotted_eq hname hname' hdotted (hcount ▸ hlen)
          (by rw [← hcount, hsame, (hcount' (List.cons_ne_nil _ _)).1]) (hcount ▸ hword)
  | param scope position name =>
    cases b with
    | param scope' position' name' =>
      obtain ⟨rfl, rfl, -⟩ := TypeExpr.param.inj h
      rfl
    | named | derived => cases h
  | derived form htarget ih =>
    cases b with
    | derived form' target' =>
      obtain ⟨hform, htarget'⟩ := TypeExpr.derived.inj h
      cases hb with
      | derived _ hb =>
        rw [docText, docText, ih hb htarget']
        refine congrArg (fun f ↦ Except.map f target'.docText) (funext fun text ↦ ?_)
        rw [← String.toList_inj, TypeForm.toList_docText, TypeForm.toList_docText,
          TypeForm.suffix_eq_of_canonical_eq hform]
    | named | param => cases h

end TypeExpr

end ApiDocs
