import ApiDocs.Decl.Assemble
import ApiDocs.DocId
import Mathlib.Data.List.Forall2
import Mathlib.Tactic.SplitIfs

/-!
# Arguments inside documentation ids

A name with arguments is written by dividing the list of arguments over its segments. Whatever the
markers of the segments state, the text is a pattern with one hole for each argument, filled in
order, and the pattern depends on the name and the number of arguments alone. The only thing that
can go wrong is the sum of the markers, which may not fit a 64-bit word.

## Main definitions

* `TypeName.Part`, `TypeName.fill`: texts with holes, and the holes filled in order.
* `TypeName.pattern`: the text with holes that is written for a name.
* `TypeName.Fits`: the markers of a name add up to a 64-bit word.
* `OverflowsUnless`: a computation gives a result under a condition, and otherwise overflows.
* `TypeExpr.instantiated`, `TypeExpr.Fits`: the names with arguments in a type expression.
* `MemberDecl.idTypes`: the type expressions that are written in an id.

## Main results

* `TypeName.count_hole_pattern`, `TypeName.instantiate_eq`: a name with arguments is its pattern,
  with each hole filled.
* `TypeExpr.overflowsUnless_docText`, `MemberDecl.overflowsUnless_docId`: what can be written.
* `MemberDecl.fills_arguments_unless_overflow`: the two together.
* `MemberDecl.docId_withinDecl`: a member that has no id.
-/

namespace ApiDocs

namespace TypeName

/-! ### Texts with holes -/

/-- A part of a text with holes. -/
inductive Part where
  /-- Characters that stand as they are. -/
  | text (s : String)
  /-- A hole for an argument. -/
  | hole
deriving DecidableEq

/-- A text with its holes filled in order. -/
def fill : List Part → List String → String
  | [], _ => ""
  | .text s :: parts, args => s ++ fill parts args
  | .hole :: parts, args => args.headD "" ++ fill parts args.tail

/-- There is one argument for each hole. -/
def Matches (parts : List Part) (args : List String) : Prop :=
  parts.count .hole = args.length

/-- Holes are filled from the left, so that each of two texts takes its own arguments. -/
theorem fill_append {parts : List Part} {args : List String} (h : Matches parts args)
    (parts' : List Part) (args' : List String) :
    fill (parts ++ parts') (args ++ args') = fill parts args ++ fill parts' args' := by
  induction parts generalizing args with
  | nil =>
    obtain rfl := List.length_eq_zero_iff.mp h.symm
    simp [fill]
  | cons part parts ih =>
    cases part with
    | text s =>
      have hparts : Matches parts args := by simpa [Matches] using h
      simp [fill, ih hparts, String.append_assoc]
    | hole =>
      obtain ⟨arg, args, rfl⟩ : ∃ arg args', args = arg :: args' :=
        List.exists_cons_of_length_eq_add_one (by simpa [Matches] using h.symm)
      have hparts : Matches parts args := by simpa [Matches] using h
      simp [fill, ih hparts, String.append_assoc]

/-- Texts with a separator between them are filled one after another. -/
theorem fill_intercalate (sep : String) {patterns : List (List Part)}
    {groups : List (List String)} (h : List.Forall₂ Matches patterns groups) :
    fill ([Part.text sep].intercalate patterns) groups.flatten =
      sep.intercalate (List.zipWith fill patterns groups) := by
  induction h with
  | nil => simp [fill]
  | @cons parts args patterns groups hparts hrest ih =>
    cases hrest with
    | nil => simp
    | cons hparts' hrest =>
      have hsep : Matches [Part.text sep] [] := rfl
      rw [List.intercalate_cons_cons, List.flatten_cons, List.append_assoc, fill_append hparts,
        ← List.nil_append (List.flatten _), fill_append hsep, ih]
      simp [fill, String.append_assoc]

/-- The same if the texts and their arguments are given by one list. -/
theorem fill_intercalate_map {α : Type} (sep : String) (parts : α → List Part)
    (own : α → List String) (h : ∀ x, Matches (parts x) (own x)) (xs : List α) :
    fill ([Part.text sep].intercalate (xs.map parts)) (xs.flatMap own) =
      sep.intercalate (xs.map fun x ↦ fill (parts x) (own x)) := by
  have hmatches : List.Forall₂ Matches (xs.map parts) (xs.map own) := by
    rw [List.forall₂_map_left_iff, List.forall₂_map_right_iff, List.forall₂_same]
    exact fun x _ ↦ h x
  rw [List.flatMap_def, fill_intercalate sep hmatches, List.zipWith_map, List.zipWith_self]

theorem count_hole_intercalate (sep : String) (patterns : List (List Part)) :
    ([Part.text sep].intercalate patterns).count .hole = patterns.flatten.count .hole := by
  induction patterns with
  | nil => rfl
  | cons parts patterns ih =>
    cases patterns with
    | nil => simp
    | cons parts' patterns =>
      rw [List.intercalate_cons_cons, List.count_append, List.count_append, ih]
      simp

/-! ### The pattern of a name -/

/-- The pattern of arguments between braces. -/
def bracedParts (n : Nat) : List Part :=
  .text "\x7b" :: ([Part.text ","].intercalate (List.replicate n [.hole]) ++ [.text "\x7d"])

/-- The pattern of a segment that takes a number of arguments. -/
def segmentParts (seg : List Char) (own : Nat) : List Part :=
  .text (String.ofList (stripArityChars seg)) :: if own = 0 then [] else bracedParts own

/-- The pattern of a name: if its markers account for the arguments, every segment takes its own,
and otherwise the innermost takes them all. -/
def pattern (fullName : String) (n : Nat) : List Part :=
  let segs := segments fullName
  if declaredArity segs = n then
    [Part.text "."].intercalate (segs.map fun seg ↦ segmentParts seg (arity seg).toNat)
  else
    [Part.text "."].intercalate (segs.map fun seg ↦ segmentParts seg 0) ++ bracedParts n

theorem count_hole_bracedParts (n : Nat) : (bracedParts n).count .hole = n := by
  simp [bracedParts, count_hole_intercalate]

theorem count_hole_segmentParts (seg : List Char) (own : Nat) :
    (segmentParts seg own).count .hole = own := by
  by_cases h : own = 0
  · simp [segmentParts, h]
  · simp [segmentParts, h, count_hole_bracedParts]

theorem count_hole_names (segs : List (List Char)) :
    ([Part.text "."].intercalate (segs.map fun seg ↦ segmentParts seg 0)).count .hole = 0 := by
  rw [count_hole_intercalate]
  induction segs with
  | nil => rfl
  | cons seg segs ih =>
    rw [List.map_cons, List.flatten_cons, List.count_append, count_hole_segmentParts, ih]

theorem count_hole_segments (segs : List (List Char)) :
    ([Part.text "."].intercalate
      (segs.map fun seg ↦ segmentParts seg (arity seg).toNat)).count .hole =
        declaredArity segs := by
  rw [count_hole_intercalate]
  induction segs with
  | nil => rfl
  | cons seg segs ih =>
    rw [List.map_cons, List.flatten_cons, List.count_append, count_hole_segmentParts, ih,
      declaredArity]

/-- The pattern of a name has one hole for each argument. -/
theorem count_hole_pattern (fullName : String) (n : Nat) :
    (pattern fullName n).count .hole = n := by
  rw [pattern]
  split_ifs with h
  · rw [count_hole_segments, h]
  · rw [List.count_append, count_hole_names, count_hole_bracedParts, Nat.zero_add]

theorem fill_bracedParts (args : List String) :
    fill (bracedParts args.length) args = braced args := by
  have hcommas : fill ([Part.text ","].intercalate (List.replicate args.length [.hole])) args =
      ",".intercalate args := by
    have hmap := fill_intercalate_map "," (fun _ : String ↦ [.hole]) ([·]) (fun _ ↦ rfl) args
    simpa [fill, List.map_const'] using hmap
  have hmatches : Matches ([Part.text ","].intercalate (List.replicate args.length [.hole]))
      args := by
    simp [Matches, count_hole_intercalate]
  have hend := fill_append hmatches [.text "\x7d"] []
  rw [List.append_nil, hcommas] at hend
  simp [bracedParts, fill, hend, braced, String.append_assoc]

theorem fill_segmentParts (seg : List Char) (own : List String) :
    fill (segmentParts seg own.length) own =
      if own.length = 0 then String.ofList (stripArityChars seg)
      else String.ofList (stripArityChars seg) ++ braced own := by
  rw [segmentParts, fill]
  split_ifs with h
  · simp [fill]
  · rw [fill_bracedParts]

/-- Segments that take no arguments are written as their names. -/
theorem fill_names (segs : List (List Char)) :
    fill ([Part.text "."].intercalate (segs.map fun seg ↦ segmentParts seg 0)) [] =
      ".".intercalate (segs.map fun seg ↦ String.ofList (stripArityChars seg)) := by
  have hnone : segs.flatMap (fun _ ↦ ([] : List String)) = [] := by simp
  have hmap := fill_intercalate_map "." (fun seg ↦ segmentParts seg 0) (fun _ ↦ [])
    (fun seg ↦ count_hole_segmentParts seg 0) segs
  rw [hnone] at hmap
  rw [hmap]
  simp [segmentParts, fill]

/-- Segments that take all arguments are written as their patterns, each filled with its own. -/
theorem exists_distribute_fill {segs : List (List Char)} {args : List String}
    (h : declaredArity segs = args.length) :
    ∃ groups, groups.flatten = args ∧
      List.Forall₂ Matches (segs.map fun seg ↦ segmentParts seg (arity seg).toNat) groups ∧
      distribute segs args =
        .ok (List.zipWith fill (segs.map fun seg ↦ segmentParts seg (arity seg).toNat) groups) := by
  induction segs generalizing args with
  | nil =>
    obtain rfl := List.length_eq_zero_iff.mp h.symm
    exact ⟨[], rfl, .nil, rfl⟩
  | cons seg segs ih =>
    rw [declaredArity] at h
    have hrest : declaredArity segs = (args.drop (arity seg).toNat).length := by
      rw [List.length_drop]
      omega
    have hown : (args.take (arity seg).toNat).length = (arity seg).toNat := by
      rw [List.length_take]
      omega
    obtain ⟨groups, hflatten, hmatches, hdistribute⟩ := ih hrest
    refine ⟨args.take (arity seg).toNat :: groups, ?_, .cons ?_ hmatches, ?_⟩
    · rw [List.flatten_cons, hflatten, List.take_append_drop]
    · rw [Matches, count_hole_segmentParts, hown]
    · have hfill := fill_segmentParts seg (args.take (arity seg).toNat)
      rw [hown] at hfill
      rw [distribute, if_neg (by omega), hdistribute, List.map_cons, List.zipWith_cons_cons, hfill]
      rfl

/-- The markers of a name add up to a number that fits a 64-bit word. -/
def Fits (fullName : String) : Prop :=
  declaredArity (segments fullName) < UInt64.size

instance (fullName : String) : Decidable (Fits fullName) :=
  inferInstanceAs (Decidable (_ < _))

/-- A name with arguments is its pattern, with each hole filled by one argument in order, unless its
markers overflow. -/
theorem instantiate_eq (fullName : String) (args : List String) :
    instantiate fullName args =
      if Fits fullName then .ok (fill (pattern fullName args.length) args)
      else .error .overflow := by
  by_cases hfits : Fits fullName
  · have hlt : declaredArity (segments fullName) < UInt64.size := hfits
    rw [if_pos hfits, instantiate, if_neg (Nat.not_le.mpr hlt), pattern]
    split_ifs with hall
    · obtain ⟨groups, hflatten, hmatches, hdistribute⟩ := exists_distribute_fill hall
      have hfill := fill_intercalate "." hmatches
      rw [hflatten] at hfill
      rw [hdistribute, hfill]
      rfl
    · have hmatches : Matches ([Part.text "."].intercalate
          ((segments fullName).map fun seg ↦ segmentParts seg 0)) [] := count_hole_names _
      have hfill := fill_append hmatches (bracedParts args.length) args
      rw [List.nil_append, fill_bracedParts, fill_names] at hfill
      rw [hfill]
  · have hle : UInt64.size ≤ declaredArity (segments fullName) := Nat.not_lt.mp hfits
    rw [if_neg hfits, instantiate, if_pos hle]

end TypeName

/-! ### Computations that overflow -/

/-- A computation gives a result if a condition holds, and otherwise ends with an overflow. -/
structure OverflowsUnless {α : Type} (p : Prop) (x : Except Crash α) : Prop where
  exists_ok : p → ∃ a, x = .ok a
  eq_overflow : ¬p → x = .error .overflow

namespace OverflowsUnless

variable {α β : Type} {p q : Prop} {x : Except Crash α}

theorem of_ok (a : α) (h : p) : OverflowsUnless p (.ok a : Except Crash α) :=
  ⟨fun _ ↦ ⟨a, rfl⟩, fun hnot ↦ absurd h hnot⟩

theorem congr (h : OverflowsUnless p x) (hiff : q ↔ p) : OverflowsUnless q x :=
  ⟨fun hq ↦ h.exists_ok (hiff.mp hq), fun hq ↦ h.eq_overflow (mt hiff.mpr hq)⟩

theorem bind (h : OverflowsUnless p x) {f : α → Except Crash β}
    (hf : ∀ a, OverflowsUnless q (f a)) : OverflowsUnless (p ∧ q) (x >>= f) := by
  by_cases hp : p
  · obtain ⟨a, rfl⟩ := h.exists_ok hp
    exact (hf a).congr (and_iff_right hp)
  · rw [h.eq_overflow hp]
    exact ⟨fun hboth ↦ absurd hboth.1 hp, fun _ ↦ rfl⟩

theorem map (h : OverflowsUnless p x) (f : α → β) : OverflowsUnless p (x.map f) := by
  by_cases hp : p
  · obtain ⟨a, rfl⟩ := h.exists_ok hp
    exact of_ok (f a) hp
  · rw [h.eq_overflow hp]
    exact ⟨fun hp' ↦ absurd hp' hp, fun _ ↦ rfl⟩

end OverflowsUnless

theorem TypeName.overflowsUnless_instantiate (fullName : String) (args : List String) :
    OverflowsUnless (Fits fullName) (instantiate fullName args) := by
  rw [instantiate_eq]
  exact ⟨fun h ↦ ⟨_, if_pos h⟩, fun h ↦ if_neg h⟩

namespace TypeExpr

mutual

/-- The names with arguments in a type expression. -/
def instantiated : TypeExpr → List String
  | named _ [] => []
  | named fullName (arg :: args) => fullName :: listInstantiated (arg :: args)
  | param _ _ _ => []
  | derived _ target => target.instantiated

/-- The names with arguments in a list of type expressions. -/
def listInstantiated : List TypeExpr → List String
  | [] => []
  | arg :: args => arg.instantiated ++ listInstantiated args

end

@[simp] theorem listInstantiated_eq_flatMap (ts : List TypeExpr) :
    listInstantiated ts = ts.flatMap instantiated := by
  induction ts with
  | nil => rfl
  | cons t ts ih => rw [listInstantiated, ih, List.flatMap_cons]

/-- The markers of all names with arguments in a type expression fit. -/
def Fits (t : TypeExpr) : Prop :=
  ∀ fullName ∈ t.instantiated, TypeName.Fits fullName

instance (t : TypeExpr) : Decidable t.Fits :=
  inferInstanceAs (Decidable (∀ fullName ∈ t.instantiated, TypeName.Fits fullName))

theorem forall_mem_listInstantiated_iff {ts : List TypeExpr} :
    (∀ fullName ∈ listInstantiated ts, TypeName.Fits fullName) ↔ ∀ t ∈ ts, t.Fits := by
  simp only [listInstantiated_eq_flatMap, List.mem_flatMap, Fits]
  constructor
  · intro h t ht fullName hname
    exact h fullName ⟨t, ht, hname⟩
  · rintro h fullName ⟨t, ht, hname⟩
    exact h t ht fullName hname

mutual

/-- A type expression can be written unless the markers of one of its names overflow. -/
theorem overflowsUnless_docText (t : TypeExpr) : OverflowsUnless t.Fits t.docText := by
  match t with
  | named fullName [] =>
    rw [docText]
    exact .of_ok _ (by simp [Fits, instantiated])
  | named fullName (arg :: args) =>
    have hfits : (named fullName (arg :: args)).Fits ↔
        (∀ t ∈ arg :: args, t.Fits) ∧ TypeName.Fits fullName := by
      rw [Fits, instantiated, List.forall_mem_cons, forall_mem_listInstantiated_iff, and_comm]
    rw [docText]
    exact ((overflowsUnless_docTexts (arg :: args)).bind
      (TypeName.overflowsUnless_instantiate fullName)).congr hfits
  | param scope position name =>
    rw [docText]
    exact .of_ok _ (by simp [Fits, instantiated])
  | derived form target =>
    rw [docText, Fits, instantiated]
    exact (overflowsUnless_docText target).map _

theorem overflowsUnless_docTexts (ts : List TypeExpr) :
    OverflowsUnless (∀ t ∈ ts, t.Fits) (docTexts ts) := by
  match ts with
  | [] =>
    rw [docTexts]
    exact .of_ok _ (by simp)
  | t :: ts =>
    rw [docTexts]
    exact ((overflowsUnless_docText t).bind fun text ↦
      (overflowsUnless_docTexts ts).map (text :: ·)).congr List.forall_mem_cons

end

theorem docTexts_eq_ok_iff {ts : List TypeExpr} {texts : List String} :
    docTexts ts = .ok texts ↔ List.Forall₂ (fun t text ↦ t.docText = .ok text) ts texts := by
  induction ts generalizing texts with
  | nil => simp [docTexts, eq_comm]
  | cons t ts ih =>
    rw [docTexts, bind_eq_ok_iff, List.forall₂_cons_left_iff]
    simp only [bind_eq_ok_iff, ih]
    constructor
    · rintro ⟨text, htext, texts', htexts, hcons⟩
      exact ⟨text, texts', htext, htexts, (Except.ok.inj hcons).symm⟩
    · rintro ⟨text, texts', htext, htexts, rfl⟩
      exact ⟨text, htext, texts', htexts, rfl⟩

end TypeExpr

namespace MemberDecl

/-- The type expressions that are written in the id of a member: those of its parameters, and the
one that a conversion leads to. -/
def idTypes (m : MemberDecl) : List TypeExpr :=
  m.parameters.map Parameter.type ++ if m.isConversion then m.valueType?.toList else []

theorem overflowsUnless_idParameters (m : MemberDecl) :
    OverflowsUnless (∀ t ∈ m.parameters.map Parameter.type, t.Fits) m.idParameters := by
  rw [idParameters]
  cases m.parameters with
  | nil => exact .of_ok _ (by simp)
  | cons p ps => exact (TypeExpr.overflowsUnless_docTexts _).map _

theorem overflowsUnless_idResult (m : MemberDecl) :
    OverflowsUnless (∀ t ∈ if m.isConversion then m.valueType?.toList else [], t.Fits)
      m.idResult := by
  rw [idResult]
  cases m.isConversion with
  | false => exact .of_ok _ (by simp)
  | true =>
    cases m.valueType? with
    | none => exact .of_ok _ (by simp)
    | some type => exact ((TypeExpr.overflowsUnless_docText type).map _).congr (by simp)

/-- A member has an id unless the markers of a name that is written in the id overflow. -/
theorem overflowsUnless_docId (m : MemberDecl) :
    OverflowsUnless (∀ t ∈ m.idTypes, t.Fits) m.docId := by
  rw [docId, idTypes]
  refine (m.overflowsUnless_idParameters.bind fun parameters ↦
    (m.overflowsUnless_idResult.map fun result ↦ m.idLetter ++ ":" ++
      TypeName.dotted m.declaringType ++ "." ++ m.idName ++ m.idArity ++ parameters ++
        result)).congr ?_
  exact List.forall_mem_append

/-- A type with arguments is written as the pattern of its name, with the written form of each
argument in its own hole and in order, and every member has a documentation id. Both fail only where
the markers of a name add up to more than a 64-bit word, and then with an overflow. -/
theorem fills_arguments_unless_overflow (fullName : String) {args : List TypeExpr}
    {texts : List String} (hne : args ≠ [])
    (htexts : List.Forall₂ (fun arg text ↦ arg.docText = .ok text) args texts) (m : MemberDecl) :
    ((TypeName.pattern fullName args.length).count .hole = texts.length ∧
      (TypeExpr.named fullName args).docText =
        if TypeName.Fits fullName then
          .ok (TypeName.fill (TypeName.pattern fullName args.length) texts)
        else
          .error .overflow) ∧
    OverflowsUnless (∀ t ∈ m.idTypes, t.Fits) m.docId := by
  refine ⟨?_, m.overflowsUnless_docId⟩
  have hlength : args.length = texts.length := htexts.length_eq
  obtain ⟨arg, args, rfl⟩ := List.exists_cons_of_ne_nil hne
  rw [TypeName.count_hole_pattern, TypeExpr.docText, TypeExpr.docTexts_eq_ok_iff.mpr htexts,
    hlength]
  exact ⟨rfl, TypeName.instantiate_eq fullName texts⟩

/-- A method with a parameter whose type is nested in a generic type and generic itself. -/
def putDecl : MemberDecl :=
  (methodOf "Acme.Sink" "Put" .void).withParameter "both"
    (.named "Acme.Outer`1+Inner`1" [.named "System.Int32" [], .named "System.String" []])

theorem fills_arguments_unless_overflow_putDecl :
    (TypeExpr.named "Acme.Outer`1+Inner`1"
        [.named "System.Int32" [], .named "System.String" []]).docText =
      .ok "Acme.Outer\x7bSystem.Int32\x7d.Inner\x7bSystem.String\x7d" ∧
    (∀ t ∈ putDecl.idTypes, t.Fits) ∧ ∃ id, putDecl.docId = .ok id := by
  have htexts : List.Forall₂ (fun (arg : TypeExpr) text ↦ arg.docText = .ok text)
      [.named "System.Int32" [], .named "System.String" []] ["System.Int32", "System.String"] :=
    .cons rfl (.cons rfl .nil)
  have hfits : ∀ t ∈ putDecl.idTypes, t.Fits := by decide +kernel
  obtain ⟨⟨-, htext⟩, hid⟩ :=
    fills_arguments_unless_overflow "Acme.Outer`1+Inner`1" (by simp) htexts putDecl
  refine ⟨?_, hfits, hid.exists_ok hfits⟩
  rw [htext]
  decide +kernel

/-- A method with a parameter whose type has markers that add up to more than a 64-bit word. -/
def withinDecl : MemberDecl :=
  (methodOf "Ring" "Area" .void).withParameter "within"
    (.named "Box`18446744073709551615+Lid`1" [.named "Band" []])

/-- Not every name can be written with its arguments, and not every member has an id: the markers of
a name may overflow, although the arguments would all go to the innermost type. -/
theorem docId_withinDecl :
    TypeName.instantiate "Box`18446744073709551615+Lid`1" ["Band"] = .error .overflow ∧
      withinDecl.docId = .error .overflow := by
  decide +kernel

end MemberDecl

end ApiDocs
