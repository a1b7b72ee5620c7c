import ApiDocs.Proofs.DocId.Types

/-!
# Documentation ids identify members

The id of a member is put together from its declaring type, its name, its number of generic
parameters, the types of its parameters and, for conversions, the type of the result. The parts are
told apart by the characters between them: the last dot before the parameters ends the declaring
type, two backticks end the name, and a parenthesis and a tilde begin the rest. Members that are
well formed therefore have the same id exactly if they agree in all these parts.

## Main definitions

* `MemberDecl.WellFormed`: members whose ids can be read back.
* `MemberDecl.Alike`: members that agree in all parts of their ids.

## Main results

* `MemberDecl.WellFormed.exists_docId`: the parts of an id.
* `MemberDecl.docId_eq_iff_alike`: ids identify members.
-/

namespace ApiDocs

namespace MemberDecl

open TypeExpr (Writes Equivalent)

/-- Names and types are well formed, and the name is a text of plain characters. -/
structure WellFormed (m : MemberDecl) : Prop where
  declaringType : TypeName.IsName m.declaringType
  name_ne : m.name ≠ ""
  name : ∀ c ∈ m.name.toList, TypeName.isPlain c = true
  parameters : ∀ p ∈ m.parameters, p.type.WellFormed
  value : ∀ type ∈ m.valueType?, type.WellFormed

/-- Members with the same letter, name, number of generic parameters and, up to equivalence, types
of parameters, whose declaring types are dotted alike. Both or neither are conversions, and the
results of conversions are equivalent. -/
structure Alike (a b : MemberDecl) : Prop where
  letter : a.idLetter = b.idLetter
  name : a.name = b.name
  declaringType : TypeName.dotted a.declaringType = TypeName.dotted b.declaringType
  arity : a.genericParameters.length = b.genericParameters.length
  parameters : List.Forall₂ Equivalent (a.parameters.map Parameter.type)
    (b.parameters.map Parameter.type)
  conversion : a.isConversion = b.isConversion
  result : a.isConversion = true → ∀ t ∈ a.valueType?, ∀ u ∈ b.valueType?, Equivalent t u

/-! ### Parameters and results -/

/-- The text of the types of parameters. -/
inductive ParametersText : List TypeExpr → List Char → Prop
  | none : ParametersText [] []
  | some {types : List TypeExpr} {texts : List (List Char)} (hne : types ≠ [])
      (h : List.Forall₂ Writes types texts) :
      ParametersText types ('(' :: (List.intercalate [','] texts ++ [')']))

/-- The text of the result of a conversion. -/
inductive ResultText (m : MemberDecl) : List Char → Prop
  | none (h : m.isConversion = false) : ResultText m []
  | some {type : TypeExpr} {text : List Char} (h : m.isConversion = true)
      (htype : m.valueType? = .some type) (hwrites : Writes type text) : ResultText m ('~' :: text)

theorem WellFormed.exists_idParameters {m : MemberDecl} (h : m.WellFormed) :
    ∃ text, m.idParameters = .ok text ∧
      ParametersText (m.parameters.map Parameter.type) text.toList := by
  have htypes : ∀ type ∈ m.parameters.map Parameter.type,
      ∃ text, type.docText = .ok text ∧ Writes type text.toList := by
    intro type htype
    obtain ⟨p, hp, rfl⟩ := List.mem_map.mp htype
    exact (h.parameters p hp).exists_writes
  obtain ⟨texts, htexts, hwrites⟩ := TypeExpr.exists_docTexts htypes
  unfold idParameters
  cases hparams : m.parameters with
  | nil => exact ⟨"", rfl, .none⟩
  | cons p ps =>
    rw [hparams] at htexts hwrites
    refine ⟨"(" ++ String.intercalate "," texts ++ ")", ?_, ?_⟩
    · simp only [htexts]
      rfl
    · rw [String.toList_append, String.toList_append, String.toList_intercalate]
      exact .some (List.cons_ne_nil _ _) (List.forall₂_map_right_iff.mpr hwrites)

theorem exists_valueType_of_isConversion {m : MemberDecl} (h : m.isConversion = true) :
    ∃ type, m.valueType? = .some type := by
  rw [isConversion, Bool.and_eq_true, isOperator, Bool.and_eq_true, isSpecialMethod] at h
  obtain ⟨⟨hspecial, -⟩, -⟩ := h
  rw [valueType?]
  cases hshape : m.shape with
  | method f => exact ⟨f.returnType, rfl⟩
  | constructor | property | field | event => simp only [hshape] at hspecial; cases hspecial

theorem WellFormed.exists_idResult {m : MemberDecl} (h : m.WellFormed) :
    ∃ text, m.idResult = .ok text ∧ ResultText m text.toList := by
  unfold idResult
  cases hconv : m.isConversion with
  | false => exact ⟨"", rfl, .none hconv⟩
  | true =>
    obtain ⟨type, htype⟩ := exists_valueType_of_isConversion hconv
    obtain ⟨text, htext, hwrites⟩ := (h.value type htype).exists_writes
    refine ⟨"~" ++ text, ?_, ?_⟩
    · simp only [htype, htext]
      rfl
    · rw [String.toList_append]
      exact .some hconv htype hwrites

/-- The types of parameters are read back up to equivalence. -/
theorem ParametersText.eq_of_append_eq {types types' : List TypeExpr} {text text' : List Char}
    (h : ParametersText types text) (h' : ParametersText types' text') {r s : List Char}
    (hr : Text.Ends (· == '(') r) (hs : Text.Ends (· == '(') s) (heq : text ++ r = text' ++ s) :
    List.Forall₂ Equivalent types types' ∧ r = s := by
  cases h with
  | none =>
    cases h' with
    | none => exact ⟨.nil, heq⟩
    | some hne h' =>
      rw [List.nil_append, List.cons_append] at heq
      rw [heq, Text.ends_cons] at hr
      cases hr
  | @some types texts hne h =>
    cases h' with
    | none =>
      rw [List.nil_append, List.cons_append] at heq
      rw [← heq, Text.ends_cons] at hs
      cases hs
    | @some types' texts' hne' h' =>
      obtain ⟨hlen, hzip⟩ := List.forall₂_iff_zip.mp h
      obtain ⟨hlen', hzip'⟩ := List.forall₂_iff_zip.mp h'
      have hread : ∀ p ∈ types.zip texts, ∀ q ∈ types'.zip texts', ∀ r s, TypeExpr.Closes r →
          TypeExpr.Closes s → p.2 ++ r = q.2 ++ s → Equivalent p.1 q.1 ∧ r = s :=
        fun p hp q hq _ _ hr hs heq ↦ (hzip hp).equivalent_of_append_eq (hzip' hq) hr hs heq
      rw [List.cons_append, List.cons_append, List.append_assoc, List.append_assoc] at heq
      obtain ⟨htexts, hrest⟩ := Text.eq_of_intercalate_append_eq (by decide)
        (TypeExpr.texts_ne_nil hne hlen) (TypeExpr.texts_ne_nil hne' hlen')
        (TypeExpr.text_eq_of_append_cons_eq hlen hlen' hread (by simp)) (List.cons.inj heq).2
      have hcanonical := TypeExpr.map_canonical_eq_of_texts_eq hlen hlen' hread htexts
      exact ⟨TypeExpr.forall₂_equivalent_iff.mpr hcanonical, hrest⟩

/-- The result of a conversion is read back up to equivalence. -/
theorem ResultText.eq_of_text_eq {a b : MemberDecl} {text : List Char} (ha : ResultText a text)
    (hb : ResultText b text) :
    a.isConversion = b.isConversion ∧
      (a.isConversion = true → ∀ t ∈ a.valueType?, ∀ u ∈ b.valueType?, Equivalent t u) := by
  cases ha with
  | none h =>
    cases hb with
    | none h' => exact ⟨h.trans h'.symm, fun htrue ↦ absurd (h.symm.trans htrue) (by decide)⟩
  | some h htype hwrites =>
    cases hb with
    | some h' htype' hwrites' =>
      refine ⟨h.trans h'.symm, fun _ t ht u hu ↦ ?_⟩
      obtain rfl := Option.some.inj (htype.symm.trans ht)
      obtain rfl := Option.some.inj (htype'.symm.trans hu)
      exact (hwrites.equivalent_of_append_eq hwrites' TypeExpr.closes_nil TypeExpr.closes_nil
        rfl).1

/-! ### Names and numbers of generic parameters -/

/-- The mark of a generic method with `n` parameters. -/
def arityText (n : Nat) : List Char :=
  if n = 0 then [] else '\x60' :: '\x60' :: (Nat.repr n).toList

theorem toList_idArity (m : MemberDecl) :
    m.idArity.toList = arityText m.genericParameters.length := by
  rw [idArity, arityText]
  cases m.genericParameters with
  | nil => rfl
  | cons p ps => exact String.toList_append

theorem eq_of_arityText_eq {n m : Nat} (h : arityText n = arityText m) : n = m := by
  rw [arityText, arityText] at h
  split_ifs at h with hn hm hm
  · rw [hn, hm]
  · exact TypeName.eq_of_toList_repr_eq (List.cons.inj (List.cons.inj h).2).2

theorem ends_arityText (n : Nat) : Text.Ends (· != '\x60') (arityText n) := by
  rw [arityText]
  split_ifs
  · exact Text.ends_nil _
  · exact Text.ends_cons.mpr rfl

theorem mem_arityText {n : Nat} {c : Char} (hc : c ∈ arityText n) :
    c = '\x60' ∨ c.isDigit = true := by
  rw [arityText] at hc
  split_ifs at hc
  · cases hc
  · rw [List.mem_cons, List.mem_cons, Nat.toList_repr] at hc
    rcases hc with rfl | rfl | hdigit
    · exact Or.inl rfl
    · exact Or.inl rfl
    · exact Or.inr (Nat.isDigit_of_mem_toDigits (by decide) (by decide) hdigit)

theorem toList_idName (m : MemberDecl) :
    m.idName.toList = m.name.toList.map fun c ↦ if c = '.' then '#' else c :=
  String.toList_ofList

/-- Dots are written as number signs, of which a well-formed name has none. -/
theorem WellFormed.name_eq_of_idName_eq {a b : MemberDecl} (ha : a.WellFormed) (hb : b.WellFormed)
    (h : a.idName.toList = b.idName.toList) : a.name = b.name := by
  have hback {m : MemberDecl} (hm : m.WellFormed) :
      (m.idName.toList.map fun c ↦ if c = '#' then '.' else c) = m.name.toList := by
    rw [toList_idName, List.map_map]
    conv_rhs => rw [← List.map_id m.name.toList]
    refine List.map_congr_left fun c hc ↦ ?_
    have hsign : c ≠ '#' := by
      rintro rfl
      exact absurd (hm.name '#' hc) (by decide)
    by_cases hdot : c = '.'
    · rw [Function.comp_apply, if_pos hdot, if_pos rfl, hdot]
      rfl
    · rw [Function.comp_apply, if_neg hdot, if_neg hsign]
      rfl
  rw [← String.toList_inj, ← hback ha, ← hback hb, h]

/-- The characters of a name inside an id. -/
theorem WellFormed.mem_idName {m : MemberDecl} (h : m.WellFormed) {c : Char}
    (hc : c ∈ m.idName.toList) : (TypeName.isPlain c = true ∧ c ≠ '.') ∨ c = '#' := by
  rw [toList_idName] at hc
  obtain ⟨d, hd, rfl⟩ := List.mem_map.mp hc
  split_ifs with hdot
  · exact Or.inr rfl
  · exact Or.inl ⟨h.name d hd, hdot⟩

/-! ### The parts of an id -/

/-- The part of an id before the parameters. -/
def header (m : MemberDecl) : List Char :=
  (TypeName.dotted m.declaringType).toList ++
    '.' :: (m.idName.toList ++ arityText m.genericParameters.length)

/-- The parts of an id. -/
theorem WellFormed.exists_docId {m : MemberDecl} (h : m.WellFormed) :
    ∃ id parameters result, m.docId = .ok id ∧
      ParametersText (m.parameters.map Parameter.type) parameters ∧ ResultText m result ∧
      id.toList = m.idLetter.toList ++ ':' :: (m.header ++ (parameters ++ result)) := by
  obtain ⟨parameters, hparameters, hptext⟩ := h.exists_idParameters
  obtain ⟨result, hresult, hrtext⟩ := h.exists_idResult
  have hid : m.docId = .ok (m.idLetter ++ ":" ++ TypeName.dotted m.declaringType ++ "." ++
      m.idName ++ m.idArity ++ parameters ++ result) := by
    rw [docId, hparameters, hresult]
    rfl
  refine ⟨_, parameters.toList, result.toList, hid, hptext, hrtext, ?_⟩
  have hcolon : ":".toList = [':'] := rfl
  have hdot : ".".toList = ['.'] := rfl
  simp only [String.toList_append, header, toList_idArity, List.append_assoc, List.cons_append,
    hcolon, hdot, List.nil_append]

/-- What stands before the parameters has neither a parenthesis nor a tilde. -/
theorem WellFormed.mem_header {m : MemberDecl} (h : m.WellFormed) {c : Char}
    (hc : c ∈ m.header) : (c != '(' && c != '~') = true := by
  have hbody : ∀ {c}, TypeName.isBody c = true → (c != '(' && c != '~') = true := by
    intro c hc
    rw [Bool.and_eq_true, bne_iff_ne, bne_iff_ne]
    refine ⟨?_, ?_⟩ <;> rintro rfl <;> revert hc <;> decide
  rcases List.mem_append.mp hc with htype | hname
  · exact hbody (h.declaringType.isBody_dotted c htype)
  · rcases List.mem_cons.mp hname with rfl | hname
    · rfl
    · rcases List.mem_append.mp hname with hname | harity
      · rcases h.mem_idName hname with ⟨hplain, -⟩ | rfl
        · exact hbody (TypeName.isBody_of_isPlain hplain)
        · rfl
      · rcases mem_arityText harity with rfl | hdigit
        · rfl
        · exact hbody (TypeName.isBody_of_isPlain (TypeName.isPlain_of_isDigit hdigit))

/-- The last dot ends the declaring type. -/
theorem eq_of_append_dot_eq {xs xs' ys ys' : List Char} (hy : ∀ c ∈ ys, (c != '.') = true)
    (hy' : ∀ c ∈ ys', (c != '.') = true) (h : xs ++ '.' :: ys = xs' ++ '.' :: ys') :
    xs = xs' ∧ ys = ys' := by
  have hrev := congrArg List.reverse h
  simp only [List.reverse_append, List.reverse_cons, List.append_assoc,
    List.singleton_append] at hrev
  obtain ⟨hys, hxs⟩ := Text.eq_of_append_eq (fun c hc ↦ hy c (List.mem_reverse.mp hc))
    (fun c hc ↦ hy' c (List.mem_reverse.mp hc)) (Text.ends_cons.mpr rfl) (Text.ends_cons.mpr rfl)
    hrev
  exact ⟨List.reverse_injective (List.cons.inj hxs).2, List.reverse_injective hys⟩

/-- The declaring type, the name and the number of generic parameters are read off a header. -/
theorem WellFormed.eq_of_header_eq {a b : MemberDecl} (ha : a.WellFormed) (hb : b.WellFormed)
    (h : a.header = b.header) :
    TypeName.dotted a.declaringType = TypeName.dotted b.declaringType ∧ a.name = b.name ∧
      a.genericParameters.length = b.genericParameters.length := by
  have hdot {m : MemberDecl} (hm : m.WellFormed) :
      ∀ c ∈ m.idName.toList ++ arityText m.genericParameters.length, (c != '.') = true := by
    intro c hc
    rcases List.mem_append.mp hc with hname | harity
    · rcases hm.mem_idName hname with ⟨-, hne⟩ | rfl
      · exact bne_iff_ne.mpr hne
      · rfl
    · rcases mem_arityText harity with rfl | hdigit
      · rfl
      · refine bne_iff_ne.mpr ?_
        rintro rfl
        exact absurd hdigit (by decide)
  have hmark {m : MemberDecl} (hm : m.WellFormed) :
      ∀ c ∈ m.idName.toList, (c != '\x60') = true := by
    intro c hc
    rcases hm.mem_idName hc with ⟨hplain, -⟩ | rfl
    · exact TypeName.ne_arityMark_of_isPlain hplain
    · rfl
  obtain ⟨htype, hrest⟩ := eq_of_append_dot_eq (hdot ha) (hdot hb) h
  obtain ⟨hname, harity⟩ := Text.eq_of_append_eq (hmark ha) (hmark hb) (ends_arityText _)
    (ends_arityText _) hrest
  exact ⟨String.toList_inj.mp htype, ha.name_eq_of_idName_eq hb hname, eq_of_arityText_eq harity⟩

/-! ### Ids -/

theorem exists_toList_idLetter (m : MemberDecl) : ∃ c, m.idLetter.toList = [c] := by
  rw [idLetter]
  cases m.shape with
  | constructor | method => exact ⟨'M', by simp⟩
  | property => exact ⟨'P', by simp⟩
  | field => exact ⟨'F', by simp⟩
  | event => exact ⟨'E', by simp⟩

theorem ResultText.ends {m : MemberDecl} {text : List Char} (h : ResultText m text) :
    Text.Ends (· == '(') text := by
  cases h with
  | none => exact Text.ends_nil _
  | some => exact Text.ends_cons.mpr rfl

/-- The header ends where the parameters or the result begin. -/
theorem ParametersText.ends_append {types : List TypeExpr} {text : List Char}
    (h : ParametersText types text) {m : MemberDecl} {result : List Char}
    (hresult : ResultText m result) :
    Text.Ends (fun c ↦ c != '(' && c != '~') (text ++ result) := by
  cases h with
  | none =>
    cases hresult with
    | none => exact Text.ends_nil _
    | some => exact Text.ends_cons.mpr rfl
  | some => exact Text.ends_cons.mpr rfl

theorem Alike.idParameters_eq {a b : MemberDecl} (ha : a.WellFormed) (hb : b.WellFormed)
    (h : a.Alike b) : a.idParameters = b.idParameters := by
  have hcanonical := TypeExpr.forall₂_equivalent_iff.mp h.parameters
  have hwell {m : MemberDecl} (hm : m.WellFormed) :
      ∀ type ∈ m.parameters.map Parameter.type, type.WellFormed := by
    intro type htype
    obtain ⟨p, hp, rfl⟩ := List.mem_map.mp htype
    exact hm.parameters p hp
  have htexts := TypeExpr.docTexts_eq_of_map_canonical_eq (hwell hb)
    (fun type htype _ hother ↦ TypeExpr.docText_eq_of_equivalent (hwell ha type htype) hother)
    hcanonical
  have hlen : a.parameters.length = b.parameters.length := by
    simpa using congrArg List.length hcanonical
  unfold idParameters
  cases hpa : a.parameters with
  | nil =>
    rw [hpa] at hlen
    rw [List.length_eq_zero_iff.mp hlen.symm]
  | cons p ps =>
    cases hpb : b.parameters with
    | nil =>
      rw [hpa, hpb] at hlen
      cases hlen
    | cons q qs =>
      rw [hpa, hpb] at htexts
      simp only [htexts]

theorem Alike.idResult_eq {a b : MemberDecl} (ha : a.WellFormed) (hb : b.WellFormed)
    (h : a.Alike b) : a.idResult = b.idResult := by
  unfold idResult
  rw [← h.conversion]
  cases hconv : a.isConversion with
  | false => rfl
  | true =>
    obtain ⟨type, htype⟩ := exists_valueType_of_isConversion hconv
    obtain ⟨type', htype'⟩ := exists_valueType_of_isConversion (h.conversion ▸ hconv)
    have htext := TypeExpr.docText_eq_of_equivalent (ha.value type htype) (hb.value type' htype')
      (h.result hconv type htype type' htype')
    simp only [htype, htype', htext]

/-- Members that agree in all parts of their ids have the same id. -/
theorem Alike.docId_eq {a b : MemberDecl} (ha : a.WellFormed) (hb : b.WellFormed) (h : a.Alike b) :
    a.docId = b.docId := by
  have harity : a.idArity = b.idArity := by
    rw [← String.toList_inj, toList_idArity, toList_idArity, h.arity]
  rw [docId, docId, h.idParameters_eq ha hb, h.idResult_eq ha hb, h.letter, h.declaringType, idName,
    idName, h.name, harity]

/-- Members with the same id agree in all its parts. -/
theorem alike_of_docId_eq {a b : MemberDecl} (ha : a.WellFormed) (hb : b.WellFormed) {id : String}
    (hida : a.docId = .ok id) (hidb : b.docId = .ok id) : a.Alike b := by
  obtain ⟨id₁, parameters, result, hid₁, hparameters, hresult, htext⟩ := ha.exists_docId
  obtain rfl := Except.ok.inj (hida.symm.trans hid₁)
  obtain ⟨id₂, parameters', result', hid₂, hparameters', hresult', htext'⟩ := hb.exists_docId
  obtain rfl := Except.ok.inj (hidb.symm.trans hid₂)
  obtain ⟨c, hc⟩ := a.exists_toList_idLetter
  obtain ⟨c', hc'⟩ := b.exists_toList_idLetter
  rw [htext, hc, hc'] at htext'
  obtain ⟨rfl, hrest⟩ := List.cons.inj htext'
  obtain ⟨hheader, hrest⟩ := Text.eq_of_append_eq (fun _ ↦ ha.mem_header) (fun _ ↦ hb.mem_header)
    (hparameters.ends_append hresult) (hparameters'.ends_append hresult') (List.cons.inj hrest).2
  obtain ⟨htype, hname, harity⟩ := ha.eq_of_header_eq hb hheader
  obtain ⟨htypes, rfl⟩ := hparameters.eq_of_append_eq hparameters' hresult.ends hresult'.ends hrest
  obtain ⟨hconversion, hvalue⟩ := hresult.eq_of_text_eq hresult'
  have hletter := String.toList_inj.mp (hc.trans hc'.symm)
  exact ⟨hletter, hname, htype, harity, htypes, hconversion, hvalue⟩

/-- **Documentation ids identify members.** Every well-formed member has an id, and two of them have
the same one exactly if they agree in the letter, the name, the dotted declaring type, the number of
generic parameters, the types of parameters up to equivalence, and in whether they are conversions
and to what type. -/
theorem docId_eq_iff_alike {a b : MemberDecl} (ha : a.WellFormed) (hb : b.WellFormed) :
    ∃ s t, a.docId = .ok s ∧ b.docId = .ok t ∧ (s = t ↔ a.Alike b) := by
  obtain ⟨s, -, -, hs, -⟩ := ha.exists_docId
  obtain ⟨t, -, -, ht, -⟩ := hb.exists_docId
  refine ⟨s, t, hs, ht, ?_, fun h ↦ ?_⟩
  · rintro rfl
    exact alike_of_docId_eq ha hb hs ht
  · exact Except.ok.inj (hs.symm.trans ((h.docId_eq ha hb).trans ht))

/-- A generic method of a nested type, with an argument for each of the two markers of a type. -/
def pairDecl (declaringType parameterName : String) (rank : UInt32) : MemberDecl where
  name := "Pair.With"
  declaringType := declaringType
  shape := .method
    { returnType := .void
      genericParameters := [⟨0, parameterName⟩]
      parameters :=
        [{ name := "other"
           type := .named "Lists.Cell`1+Link`1"
            [.param .type 0 "T", .param .method 0 parameterName] },
          { name := "sizes", type := .derived (.array rank) (.named "System.Int32" []) }] }

theorem wellFormed_pairDecl {declaringType : String} (h : TypeName.IsName declaringType)
    (parameterName : String) (rank : UInt32) :
    (pairDecl declaringType parameterName rank).WellFormed where
  declaringType := h
  name_ne := by
    change "Pair.With" ≠ ""
    decide
  name := by
    have hall : "Pair.With".toList.all TypeName.isPlain = true := by decide
    exact List.all_eq_true.mp hall
  parameters := by
    have hlen : 2 = TypeName.statedSum (TypeName.segments "Lists.Cell`1+Link`1") := by decide
    have hword : 2 < UInt64.size := by decide
    intro p hp
    rcases List.mem_cons.mp hp with rfl | hp
    · refine .generic (by decide) hlen hword fun arg harg ↦ ?_
      rcases List.mem_cons.mp harg with rfl | harg
      · exact .param _ _ _
      · obtain rfl := List.mem_singleton.mp harg
        exact .param _ _ _
    · obtain rfl := List.mem_singleton.mp hp
      exact .derived _ (.bare (by decide))
  value := by
    intro type htype
    obtain rfl := Option.some.inj htype
    exact .bare (by decide)

theorem docId_eq_iff_alike_pairDecl :
    (∃ s t, (pairDecl "Lists.Cell`1" "U" 0).docId = .ok s ∧
      (pairDecl "Lists+Cell`1" "V" 1).docId = .ok t ∧
      (s = t ↔ (pairDecl "Lists.Cell`1" "U" 0).Alike (pairDecl "Lists+Cell`1" "V" 1))) ∧
    (pairDecl "Lists.Cell`1" "U" 0).docId =
      .ok "M:Lists.Cell`1.Pair#With``1(Lists.Cell\x7b`0\x7d.Link\x7b``0\x7d,System.Int32[])" := by
  refine ⟨docId_eq_iff_alike (wellFormed_pairDecl (by decide) _ _)
    (wellFormed_pairDecl (by decide) _ _), ?_⟩
  decide +kernel

end MemberDecl

end ApiDocs
