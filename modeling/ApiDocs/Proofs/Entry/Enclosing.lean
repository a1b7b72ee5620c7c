import ApiDocs.Proofs.Comment.Collection
import ApiDocs.Proofs.Entry.Selection
import ApiDocs.Proofs.Entry.Validation
import Mathlib.Data.PFun
import Mathlib.Logic.Relation

/-!
# The walk through enclosing types

Whether a type is selected is found out by a walk from the type to the type around it and on, until
a type is met that the switches do not let pass, or that is not nested. Nothing counts the rounds of
this walk. From a type that passes and lies inside itself it would go on forever, and it is only
because the declarations were checked before that it ends.

The selection bounds the rounds by the number of types. No walk through declarations that passed the
check is so long, so the bound is never felt.

## Main definitions

* `TypeDecl.LiesIn`: a type is nested directly in another one.
* `TypeDecl.PassesSwitches`: what the switches ask of a type.
* `AssemblyEntry.round`, `AssemblyEntry.walk`: one round of the walk, and the walk without a bound.
* `AssemblyEntry.SelectsExactly`: what a selection of types is.

## Main results

* `AssemblyEntry.not_dom_walk`: a walk that meets types that pass and are nested, and no other, does
  not end.
* `AssemblyEntry.walk_eq_some`: a walk along declaring types that end gives the bounded answer.
* `AssemblyEntry.allAround_iff`: the answer is whether all types along the walk pass.
* `AssemblyEntry.selectsExactly_of_validate`: the selection from declarations that were checked.
-/

namespace ApiDocs

namespace TypeDecl

/-- A type is nested directly in a declared type. -/
def LiesIn (types : List TypeDecl) (t u : TypeDecl) : Prop :=
  u ∈ types ∧ t.declaringType = some u.fullName

/-- The switches let a type pass: they ask for hidden types if it cannot be used from outside its
assembly, and for undocumented ones if no comment is filed under its id. -/
structure PassesSwitches (inclusion : Inclusion) (comments : Comments) (t : TypeDecl) : Prop where
  visible : t.access = .assembly ∨ t.access = .familyAndAssembly ∨ t.access = .owner →
    inclusion.hiddenTypes = true
  documented : TypeName.docId t.fullName ∉ comments.keys → inclusion.undocumentedTypes = true

theorem outer?_eq_some_iff {types : List TypeDecl}
    (hnodup : (types.map fun t ↦ t.fullName).Nodup) {t u : TypeDecl} :
    t.outer? types = some u ↔ LiesIn types t u := by
  constructor
  · intro h
    obtain ⟨_, -, hnamed⟩ := Option.bind_eq_some_iff.mp h
    exact ⟨List.mem_of_find?_eq_some hnamed, declaringType_of_outer? h⟩
  · rintro ⟨hu, h⟩
    rw [outer?, h, Option.bind_some, named?_fullName hnodup hu]

end TypeDecl

theorem Access.isHidden_iff {a : Access} :
    a.isHidden = true ↔ a = .assembly ∨ a = .familyAndAssembly ∨ a = .owner := by
  cases a <;> decide

namespace AssemblyEntry

open TypeDecl

theorem passes_iff {inclusion : Inclusion} {comments : Comments} {t : TypeDecl} :
    passes inclusion comments t = true ↔ t.PassesSwitches inclusion comments := by
  rw [passes, Bool.and_eq_true, Bool.or_eq_true, Bool.or_eq_true, Bool.not_eq_true',
    ← Bool.not_eq_true, Access.isHidden_iff, Comments.contains_iff]
  constructor
  · rintro ⟨hvisible, hdocumented⟩
    exact ⟨imp_iff_not_or.mpr hvisible, hdocumented.resolve_right⟩
  · rintro ⟨hvisible, hdocumented⟩
    exact ⟨imp_iff_not_or.mp hvisible, or_iff_not_imp_right.mpr hdocumented⟩

/-! ### Rounds and walks -/

/-- One round of the walk at a type: the answer, or the type to go on with. -/
def round (types : List TypeDecl) (p : TypeDecl → Bool) (t : TypeDecl) : Bool ⊕ TypeDecl :=
  if p t then
    match t.outer? types with
    | none => .inl true
    | some outer => .inr outer
  else .inl false

/-- The walk from a type outwards, round after round until one of them gives an answer. -/
noncomputable def walk (types : List TypeDecl) (p : TypeDecl → Bool) : TypeDecl →. Bool :=
  PFun.fix fun t ↦ Part.some (round types p t)

variable {types : List TypeDecl} {p : TypeDecl → Bool} {t : TypeDecl}

theorem mem_walk_iff {kept : Bool} :
    kept ∈ walk types p t ↔
      round types p t = .inl kept ∨ ∃ u, round types p t = .inr u ∧ kept ∈ walk types p u := by
  refine PFun.mem_fix_iff.trans ?_
  simp only [Part.mem_some_iff, eq_comm]
  rfl

/-- A walk that meets types that pass and are nested, and no other, does not end. -/
theorem not_dom_walk
    (h : ∀ u, Relation.ReflTransGen (fun v w ↦ v.outer? types = some w) t u →
      p u = true ∧ (u.outer? types).isSome = true) : ¬ (walk types p t).Dom := by
  intro hdom
  -- every type from which the walk ends has a type on its way at which a round gives the answer
  refine PFun.fixInduction (C := fun t ↦ (∀ u, Relation.ReflTransGen
    (fun v w ↦ v.outer? types = some w) t u → p u = true ∧ (u.outer? types).isSome = true) → False)
    (Part.get_mem hdom) (fun v hv ih hall ↦ ?_) h
  obtain ⟨hp, hsome⟩ := hall v .refl
  obtain ⟨outer, houter⟩ := Option.isSome_iff_exists.mp hsome
  refine ih outer ?_ fun u hu ↦ hall u (.head houter hu)
  rw [Part.mem_some_iff, round, if_pos hp, houter]

/-- A walk along declaring types that end gives the answer that enough steps give. -/
theorem walk_eq_some (hnodup : (types.map fun t ↦ t.fullName).Nodup) {n steps : Nat}
    (h : TypeDecl.EndsAfter types n t) (hn : n ≤ steps) :
    walk types p t = Part.some (allAround types p steps t) := by
  rw [Part.eq_some_iff, mem_walk_iff]
  induction h generalizing steps with
  | @outermost t hnone =>
    have houter : t.outer? types = none := by rw [outer?, hnone, Option.bind_none]
    refine Or.inl ?_
    rw [round, allAround, houter]
    cases p t <;> rfl
  | @nested t u n hu hsome _ ih =>
    obtain ⟨steps, rfl⟩ := Nat.exists_eq_add_one_of_ne_zero (Nat.ne_zero_of_lt hn)
    have houter := (outer?_eq_some_iff hnodup).mpr ⟨hu, hsome⟩
    rw [round, allAround, houter]
    cases p t with
    | false => exact Or.inl rfl
    | true => exact Or.inr ⟨u, rfl, mem_walk_iff.mpr (ih (Nat.le_of_succ_le_succ hn))⟩

/-- With steps enough, the answer is whether a type and all types around it pass. -/
theorem allAround_iff (hnodup : (types.map fun t ↦ t.fullName).Nodup) {n steps : Nat}
    (h : TypeDecl.EndsAfter types n t) (hn : n ≤ steps) :
    allAround types p steps t = true ↔
      ∀ u, Relation.ReflTransGen (LiesIn types) t u → p u = true := by
  induction h generalizing steps with
  | @outermost t hnone =>
    have houter : t.outer? types = none := by rw [outer?, hnone, Option.bind_none]
    have hself (u : TypeDecl) (hu : Relation.ReflTransGen (LiesIn types) t u) : u = t := by
      rcases Relation.ReflTransGen.cases_head hu with heq | ⟨v, ⟨-, hsome⟩, -⟩
      · exact heq.symm
      · cases hnone.symm.trans hsome
    rw [allAround, houter, Bool.and_true]
    exact ⟨fun hp u hu ↦ hself u hu ▸ hp, fun hall ↦ hall t .refl⟩
  | @nested t u n hu hsome _ ih =>
    obtain ⟨steps, rfl⟩ := Nat.exists_eq_add_one_of_ne_zero (Nat.ne_zero_of_lt hn)
    have houter := (outer?_eq_some_iff hnodup).mpr ⟨hu, hsome⟩
    have hrest := ih (Nat.le_of_succ_le_succ hn)
    rw [allAround_succ, houter]
    constructor
    · rintro ⟨hp, hall⟩ v hv
      rcases Relation.ReflTransGen.cases_head hv with rfl | ⟨w, hw, hwv⟩
      · exact hp
      · obtain rfl := Option.some.inj
          (houter.symm.trans ((outer?_eq_some_iff hnodup).mpr hw))
        exact hrest.mp (hall u rfl) v hwv
    · intro hall
      refine ⟨hall t .refl, fun w hw ↦ ?_⟩
      obtain rfl := Option.some.inj hw
      exact hrest.mpr fun v hv ↦ hall v (.head ⟨hu, hsome⟩ hv)

/-! ### Selection -/

open scoped Classical in
/-- A list of types is the selection from declared types. -/
structure SelectsExactly (inclusion : Inclusion) (comments : Comments)
    (declared selected : List TypeDecl) : Prop where
  /-- The walk from every declared type ends. -/
  ends : ∀ t ∈ declared, (walk declared (passes inclusion comments) t).Dom
  /-- It says whether the type is selected. -/
  answers : ∀ t ∈ declared, true ∈ walk declared (passes inclusion comments) t ↔ t ∈ selected
  /-- Selected are, in their order, the declared types that pass with all types around them. -/
  eq_filter : selected = declared.filter fun t ↦
    ∀ u, Relation.ReflTransGen (LiesIn declared) t u → u.PassesSwitches inclusion comments
  /-- The type that a selected type is nested in is selected. -/
  closed : ∀ t ∈ selected, ∀ outer, t.declaringType = some outer →
    ∃ u ∈ selected, u.fullName = outer

/-- **Types are selected exactly, by a walk that ends.** From declarations that passed the check,
whatever the comments and the switches are, the walk from every type ends without a bound on its
rounds. The selection consists, in the order of the declarations, of the types that pass together
with all types around them, and holds the types around its types. -/
theorem selectsExactly_of_validate {declared : List TypeDecl} (h : validate declared = .ok ())
    (inclusion : Inclusion) (comments : Comments) :
    SelectsExactly inclusion comments declared (select inclusion comments declared) := by
  have hnodup := nodup_of_validate h
  have hends (t : TypeDecl) (ht : t ∈ declared) :
      ∃ n ≤ declared.length, TypeDecl.EndsAfter declared n t :=
    (walkOut_eq_ok_iff hnodup).mp (walkOut_of_validate h ht)
  have hwalk (t : TypeDecl) (ht : t ∈ declared) : walk declared (passes inclusion comments) t =
      Part.some (allAround declared (passes inclusion comments) declared.length t) := by
    obtain ⟨n, hn, hend⟩ := hends t ht
    exact walk_eq_some hnodup hend hn
  refine ⟨fun t ht ↦ ?_, fun t ht ↦ ?_, ?_, fun t ht outer houter ↦ ?_⟩
  · rw [hwalk t ht]
    exact Part.some_dom _
  · rw [hwalk t ht, Part.mem_some_iff, select, List.mem_filter, eq_comm]
    exact (and_iff_right ht).symm
  · classical
    refine List.filter_congr fun t ht ↦ ?_
    obtain ⟨n, hn, hend⟩ := hends t ht
    rw [Bool.eq_iff_iff, allAround_iff hnodup hend hn, decide_eq_true_iff]
    exact forall₂_congr fun u _ ↦ passes_iff
  · obtain ⟨u, -, hu, -, -⟩ :=
      exists_of_walkOut (walkOut_of_validate h (List.mem_of_mem_filter ht)) houter
    refine ⟨u, mem_select_of_outer? ht hu, ?_⟩
    exact Option.some.inj ((declaringType_of_outer? hu).symm.trans houter)

/-- A nut in a lid that cannot be used from outside, and a box with the lid and a cap. -/
def boxDecls : List TypeDecl :=
  [{ fullName := "Nut", declaringType := some "Lid" },
    { fullName := "Lid", declaringType := some "Box", access := .assembly },
    { fullName := "Cap", declaringType := some "Box" }, { fullName := "Box" }]

theorem selectsExactly_of_validate_boxDecls :
    validate boxDecls = .ok () ∧
      (select .publicSurface .empty boxDecls).map (fun t ↦ t.fullName) = ["Cap", "Box"] ∧
      SelectsExactly .publicSurface .empty boxDecls (select .publicSurface .empty boxDecls) := by
  have hvalid : validate boxDecls = .ok () := by decide +kernel
  exact ⟨hvalid, by decide +kernel, selectsExactly_of_validate hvalid _ _⟩

end AssemblyEntry

end ApiDocs
