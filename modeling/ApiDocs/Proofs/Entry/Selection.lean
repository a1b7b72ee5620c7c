import ApiDocs.Entry.Assembly
import ApiDocs.Proofs.Decl.Consistency

/-!
# Selected types

A type is selected if the switches let it and all types around it pass. The types around a selected
type are therefore selected as well, and no switch that is turned on leaves a type out.

## Main definitions

* `Inclusion.Extends`: switches all of which are on where others are.

## Main results

* `AssemblyEntry.mem_select_of_outer?`: the type around a selected type is selected.
* `AssemblyEntry.mem_select_of_extends`: with more switches on, no type is left out.
-/

namespace ApiDocs

/-- Every switch that is on in other settings is on. -/
structure Inclusion.Extends (o' o : Inclusion) : Prop where
  undocumentedTypes : o.undocumentedTypes = true → o'.undocumentedTypes = true
  hiddenTypes : o.hiddenTypes = true → o'.hiddenTypes = true
  undocumentedMembers : o.undocumentedMembers = true → o'.undocumentedMembers = true
  hiddenMembers : o.hiddenMembers = true → o'.hiddenMembers = true

namespace AssemblyEntry

variable {types : List TypeDecl} {p : TypeDecl → Bool}

/-! ### Types around a type -/

theorem allAround_succ {n : Nat} {t : TypeDecl} :
    allAround types p (n + 1) t = true ↔
      p t = true ∧ ∀ u ∈ t.outer? types, allAround types p n u = true := by
  rw [allAround, Bool.and_eq_true]
  cases t.outer? types <;> simp

theorem allAround_zero {t : TypeDecl} :
    allAround types p 0 t = true ↔ p t = true ∧ t.outer? types = none := by
  rw [allAround, Bool.and_eq_true]
  cases t.outer? types <;> simp

/-- What holds as far as some steps reach holds as far as one more does. -/
theorem allAround_add_one {n : Nat} {t : TypeDecl} (h : allAround types p n t = true) :
    allAround types p (n + 1) t = true := by
  induction n generalizing t with
  | zero =>
    obtain ⟨hp, houter⟩ := allAround_zero.mp h
    exact allAround_succ.mpr ⟨hp, fun u hu ↦ by rw [houter] at hu; cases hu⟩
  | succ n ih =>
    obtain ⟨hp, houter⟩ := allAround_succ.mp h
    exact allAround_succ.mpr ⟨hp, fun u hu ↦ ih (houter u hu)⟩

theorem allAround_outer {n : Nat} {t u : TypeDecl} (h : allAround types p n t = true)
    (hu : t.outer? types = some u) : allAround types p n u = true := by
  cases n with
  | zero => cases hu.symm.trans (allAround_zero.mp h).2
  | succ n => exact allAround_add_one ((allAround_succ.mp h).2 u hu)

theorem allAround_mono {q : TypeDecl → Bool} (hpq : ∀ t, p t = true → q t = true) {n : Nat}
    {t : TypeDecl} (h : allAround types p n t = true) : allAround types q n t = true := by
  induction n generalizing t with
  | zero => exact allAround_zero.mpr ((allAround_zero.mp h).imp_left (hpq t))
  | succ n ih =>
    obtain ⟨hp, houter⟩ := allAround_succ.mp h
    exact allAround_succ.mpr ⟨hpq t hp, fun u hu ↦ ih (houter u hu)⟩

/-! ### Selection -/

variable {inclusion inclusion' : Inclusion} {comments : Comments}

/-- The type around a selected type is selected. -/
theorem mem_select_of_outer? {t u : TypeDecl} (h : t ∈ select inclusion comments types)
    (hu : t.outer? types = some u) : u ∈ select inclusion comments types := by
  obtain ⟨outer, -, hnamed⟩ := Option.bind_eq_some_iff.mp hu
  refine List.mem_filter.mpr ⟨List.mem_of_find?_eq_some hnamed, ?_⟩
  exact allAround_outer (List.mem_filter.mp h).2 hu

theorem passes_of_extends (h : inclusion'.Extends inclusion) {t : TypeDecl}
    (ht : passes inclusion comments t = true) : passes inclusion' comments t = true := by
  simp only [passes, Bool.and_eq_true, Bool.or_eq_true] at ht ⊢
  exact ⟨ht.1.imp_right h.hiddenTypes, ht.2.imp_left h.undocumentedTypes⟩

/-- With more switches on, no type is left out. -/
theorem mem_select_of_extends (h : inclusion'.Extends inclusion) {t : TypeDecl}
    (ht : t ∈ select inclusion comments types) : t ∈ select inclusion' comments types := by
  obtain ⟨hmem, hall⟩ := List.mem_filter.mp ht
  exact List.mem_filter.mpr ⟨hmem, allAround_mono (fun u ↦ passes_of_extends h) hall⟩

end AssemblyEntry

end ApiDocs
