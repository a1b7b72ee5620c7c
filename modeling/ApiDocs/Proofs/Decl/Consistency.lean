import ApiDocs.Crash
import ApiDocs.Decl.Consistency
import ApiDocs.Proofs.Lists

/-!
# What consistent declarations have

Declarations that pass the check have distinct full names, and the declaring types of every type can
be followed to a type that is not nested. A full name then stands for at most one type, and the type
that a type is nested in is always declared.

## Main results

* `TypeDecl.repeated?_eq_none_iff`: the search for repeated names.
* `TypeDecl.validate_eq_ok_iff`: the check of all types is the check of each.
* `TypeDecl.exists_of_walkOut`: one step out to a declaring type.
* `TypeDecl.nodup_of_validate`, `TypeDecl.walkOut_of_validate`: what the check makes sure of.
-/

namespace ApiDocs

namespace TypeDecl

variable {types : List TypeDecl}

/-- No name is found to be repeated exactly if there is none, neither among the types nor between
them and the names before. -/
theorem repeated?_eq_none_iff {seen : List String} :
    repeated? seen types = none ↔
      (types.map fun t ↦ t.fullName).Nodup ∧ ∀ t ∈ types, t.fullName ∉ seen := by
  induction types generalizing seen with
  | nil => simp [repeated?]
  | cons t ts ih =>
    rw [repeated?, List.map_cons, List.nodup_cons, List.forall_mem_cons]
    split_ifs with hseen
    · rw [List.contains_iff_mem] at hseen
      exact iff_of_false (fun h ↦ by cases h) fun h ↦ h.2.1 hseen
    · rw [List.contains_iff_mem] at hseen
      rw [ih]
      simp only [List.mem_cons, not_or, forall_and, List.mem_map, not_exists, not_and]
      constructor
      · rintro ⟨hnodup, hne, hrest⟩
        exact ⟨⟨hne, hnodup⟩, hseen, hrest⟩
      · rintro ⟨⟨hne, hnodup⟩, -, hrest⟩
        exact ⟨hnodup, hne, hrest⟩

theorem validateEach_eq_ok_iff {ts : List TypeDecl} :
    validateEach types ts = .ok () ↔ ∀ t ∈ ts, validateOne types t = .ok () := by
  induction ts with
  | nil => exact iff_of_true rfl fun t ht ↦ absurd ht List.not_mem_nil
  | cons u us ih =>
    rw [List.forall_mem_cons, ← ih, validateEach, bind_eq_ok_iff]
    exact ⟨fun ⟨⟨⟩, hu, hus⟩ ↦ ⟨hu, hus⟩, fun ⟨hu, hus⟩ ↦ ⟨(), hu, hus⟩⟩

/-- Declarations pass if no full name is repeated and every type passes. -/
theorem validate_eq_ok_iff :
    validate types = .ok () ↔
      (types.map fun t ↦ t.fullName).Nodup ∧ ∀ t ∈ types, validateOne types t = .ok () := by
  have hnodup : repeated? [] types = none ↔ (types.map fun t ↦ t.fullName).Nodup := by
    rw [repeated?_eq_none_iff]
    exact and_iff_left fun t _ ↦ List.not_mem_nil
  rw [validate, ← hnodup, ← validateEach_eq_ok_iff]
  cases repeated? [] types with
  | none => exact (and_iff_right rfl).symm
  | some fullName => exact iff_of_false (fun h ↦ by cases h) fun h ↦ by cases h.1

theorem declaringType_of_outer? {t u : TypeDecl} (h : t.outer? types = some u) :
    t.declaringType = some u.fullName := by
  obtain ⟨outer, houter, hnamed⟩ := Option.bind_eq_some_iff.mp h
  have hname := List.find?_some hnamed
  rw [houter, eq_of_beq hname]

/-- A declaring type that is followed is declared, and one step less is left from there. -/
theorem exists_of_walkOut {start : String} {n : Nat} {t : TypeDecl}
    (h : walkOut types start n t = .ok ()) {outer : String}
    (houter : t.declaringType = some outer) :
    ∃ u m, t.outer? types = some u ∧ n = m + 1 ∧ walkOut types start m u = .ok () := by
  rw [outer?, houter, Option.bind_some]
  unfold walkOut at h
  simp only [houter] at h
  cases hnamed : named? types outer with
  | none =>
    rw [hnamed] at h
    cases h
  | some u =>
    rw [hnamed] at h
    cases n with
    | zero => cases h
    | succ m => exact ⟨u, m, rfl, rfl, h⟩

variable (h : validate types = .ok ())

include h

/-- Full names are not repeated. -/
theorem nodup_of_validate : (types.map fun t ↦ t.fullName).Nodup :=
  (validate_eq_ok_iff.mp h).1

/-- Declaring types can be followed from every type. -/
theorem walkOut_of_validate {t : TypeDecl} (ht : t ∈ types) :
    walkOut types t.fullName types.length t = .ok () := by
  obtain ⟨⟨⟩, hwalk, -⟩ := bind_eq_ok_iff.mp ((validate_eq_ok_iff.mp h).2 t ht)
  exact hwalk

end TypeDecl

end ApiDocs
