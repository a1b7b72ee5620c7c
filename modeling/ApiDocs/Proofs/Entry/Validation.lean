import ApiDocs.Entry.Assembly
import ApiDocs.Proofs.Decl.Consistency
import Mathlib.Data.List.Basic
import Mathlib.Data.List.Perm.Subperm

/-!
# Which declarations are accepted

The check before an assembly is bound follows declaring types by counting steps, and takes it for a
cycle if there are more of them than types. No chain that ends is so long: the types along it are
all different, since each is a different number of steps away from the end. So the check accepts
exactly the declarations that are consistent, and otherwise it names a fault that they have.

## Main definitions

* `TypeDecl.EndsAfter`: the length of a chain of declaring types.
* `TypeDecl.Consistent`: declarations that can be bound.
* `MetadataFault.Applies`: what a fault says about declarations.

## Main results

* `TypeDecl.EndsAfter.lt_length`: a chain that ends takes fewer steps than there are types.
* `TypeDecl.walkOut_eq_ok_iff`: declaring types can be followed exactly if they end in time.
* `TypeDecl.applies_of_validate`: the fault that is found is there.
* `TypeDecl.validate_eq_ok_iff_consistent`: the check accepts exactly consistent declarations.
-/

namespace ApiDocs

namespace TypeDecl

/-- Following declaring types from a type ends after a number of steps, at a type that is not
nested. -/
inductive EndsAfter (types : List TypeDecl) : Nat → TypeDecl → Prop
  | outermost {t : TypeDecl} (h : t.declaringType = none) : EndsAfter types 0 t
  | nested {t u : TypeDecl} {n : Nat} (hu : u ∈ types) (h : t.declaringType = some u.fullName)
      (hend : EndsAfter types n u) : EndsAfter types (n + 1) t

/-- Declarations that can be bound. -/
structure Consistent (types : List TypeDecl) : Prop where
  /-- No two types have the same full name. -/
  distinct : types.Pairwise fun t u ↦ t.fullName ≠ u.fullName
  /-- Every declaring type that is named is declared. -/
  declared : ∀ t ∈ types, ∀ outer, t.declaringType = some outer → ∃ u ∈ types, u.fullName = outer
  /-- Following declaring types from any type ends. -/
  ends : ∀ t ∈ types, ∃ n, EndsAfter types n t
  /-- Every member has a declaring type. -/
  owned : ∀ t ∈ types, ∀ m ∈ t.members, m.declaringType ≠ ""

end TypeDecl

/-- What a fault says about a list of types. -/
def MetadataFault.Applies (types : List TypeDecl) : MetadataFault → Prop
  | declaredTwice fullName => 2 ≤ (types.map fun t ↦ t.fullName).count fullName
  | unknownOuter inner outer => ∃ t ∈ types, t.fullName = inner ∧ t.declaringType = some outer ∧
      ∀ u ∈ types, u.fullName ≠ outer
  | nestingCycle fullName => ∃ t ∈ types, t.fullName = fullName ∧ ∀ n, ¬ t.EndsAfter types n
  | orphanMember fullName member => ∃ t ∈ types, t.fullName = fullName ∧
      ∃ m ∈ t.members, m.name = member ∧ m.declaringType = ""
  | reported _ => False

namespace TypeDecl

variable {types : List TypeDecl}

/-! ### Chains of declaring types -/

section

variable (hnodup : (types.map fun t ↦ t.fullName).Nodup)

include hnodup

theorem named?_fullName {t : TypeDecl} (ht : t ∈ types) : named? types t.fullName = some t :=
  (find?_key_eq_some_iff hnodup).mpr ⟨ht, rfl⟩

/-- A chain of declaring types has one length. -/
theorem EndsAfter.unique {m n : Nat} {t : TypeDecl} (hm : EndsAfter types m t)
    (hn : EndsAfter types n t) : m = n := by
  induction hm generalizing n with
  | outermost hnone =>
    cases hn with
    | outermost => rfl
    | nested _ hsome => cases hnone.symm.trans hsome
  | nested hu hsome _ ih =>
    cases hn with
    | outermost hnone => cases hnone.symm.trans hsome
    | nested hv hsome' hend =>
      have hname := Option.some.inj (hsome.symm.trans hsome')
      obtain rfl := List.inj_on_of_nodup_map hnodup hu hv hname
      rw [ih hend]

/-- The types along a chain are all different, as each is a different number of steps away from the
end. -/
theorem EndsAfter.exists_path {n : Nat} {t : TypeDecl} (ht : t ∈ types)
    (h : EndsAfter types n t) :
    ∃ path : List TypeDecl, path.length = n + 1 ∧ path.Nodup ∧
      ∀ u ∈ path, u ∈ types ∧ ∃ k ≤ n, EndsAfter types k u := by
  induction h with
  | @outermost t hnone =>
    refine ⟨[t], rfl, List.nodup_singleton t, fun u hu ↦ ?_⟩
    obtain rfl := List.mem_singleton.mp hu
    exact ⟨ht, 0, Nat.le_refl 0, .outermost hnone⟩
  | @nested t u n hu hsome hend ih =>
    have hself : EndsAfter types (n + 1) t := .nested hu hsome hend
    obtain ⟨path, hlength, hpath, hmem⟩ := ih hu
    have hnew : t ∉ path := by
      intro hin
      obtain ⟨-, k, hk, hkend⟩ := hmem t hin
      have := EndsAfter.unique hnodup hself hkend
      omega
    refine ⟨t :: path, by rw [List.length_cons, hlength], List.nodup_cons.mpr ⟨hnew, hpath⟩,
      fun v hv ↦ ?_⟩
    rcases List.mem_cons.mp hv with rfl | hv
    · exact ⟨ht, n + 1, Nat.le_refl _, hself⟩
    · obtain ⟨hvmem, k, hk, hkend⟩ := hmem v hv
      exact ⟨hvmem, k, Nat.le_succ_of_le hk, hkend⟩

/-- A chain that ends takes fewer steps than there are types. -/
theorem EndsAfter.lt_length {n : Nat} {t : TypeDecl} (ht : t ∈ types)
    (h : EndsAfter types n t) : n < types.length := by
  obtain ⟨path, hlength, hpath, hmem⟩ := h.exists_path hnodup ht
  have hsub : path.Subperm types := List.subperm_of_subset hpath fun u hu ↦ (hmem u hu).1
  have := hsub.length_le
  omega

/-- Declaring types can be followed in a number of steps exactly if they end by then. -/
theorem walkOut_eq_ok_iff {start : String} {steps : Nat} {t : TypeDecl} :
    walkOut types start steps t = .ok () ↔ ∃ n ≤ steps, EndsAfter types n t := by
  constructor
  · intro h
    induction steps generalizing t with
    | zero =>
      cases houter : t.declaringType with
      | none => exact ⟨0, Nat.le_refl 0, .outermost houter⟩
      | some outer =>
        obtain ⟨-, m, -, hzero, -⟩ := exists_of_walkOut h houter
        cases hzero
    | succ steps ih =>
      cases houter : t.declaringType with
      | none => exact ⟨0, Nat.zero_le _, .outermost houter⟩
      | some outer =>
        obtain ⟨u, m, hu, hm, hrest⟩ := exists_of_walkOut h houter
        obtain rfl := Nat.succ.inj hm
        obtain ⟨n, hn, hend⟩ := ih hrest
        obtain ⟨name, -, hnamed⟩ := Option.bind_eq_some_iff.mp hu
        exact ⟨n + 1, Nat.succ_le_succ hn,
          .nested (List.mem_of_find?_eq_some hnamed) (declaringType_of_outer? hu) hend⟩
  · rintro ⟨n, hn, hend⟩
    induction hend generalizing steps with
    | outermost hnone => rw [walkOut, hnone]
    | nested hu hsome _ ih =>
      obtain ⟨steps, rfl⟩ := Nat.exists_eq_add_one_of_ne_zero (Nat.ne_zero_of_lt hn)
      rw [walkOut, hsome]
      simp only [named?_fullName hnodup hu]
      exact ih (Nat.le_of_succ_le_succ hn)

/-- With as many steps as there are types, declaring types can be followed exactly if they end. -/
theorem walkOut_length_eq_ok_iff {start : String} {t : TypeDecl} (ht : t ∈ types) :
    walkOut types start types.length t = .ok () ↔ ∃ n, EndsAfter types n t := by
  rw [walkOut_eq_ok_iff hnodup]
  exact ⟨fun ⟨n, _, hend⟩ ↦ ⟨n, hend⟩,
    fun ⟨n, hend⟩ ↦ ⟨n, Nat.le_of_lt (hend.lt_length hnodup ht), hend⟩⟩

end

/-! ### Faults -/

/-- A walk that fails has come to a type that is not declared, or has run out of steps. -/
theorem unknownOuter_or_nestingCycle_of_walkOut {start : String} {steps : Nat} {t : TypeDecl}
    {fault : MetadataFault} (ht : t ∈ types) (h : walkOut types start steps t = .error fault) :
    (∃ inner outer, fault = .unknownOuter inner outer ∧ fault.Applies types) ∨
      fault = .nestingCycle start := by
  fun_induction walkOut types start steps t with
  | case1 => cases h
  | case2 steps t outer houter hnone =>
    obtain rfl := Except.error.inj h
    refine Or.inl ⟨t.fullName, outer, rfl, t, ht, rfl, houter, fun u hu hname ↦ ?_⟩
    exact List.find?_eq_none.mp hnone u hu (beq_iff_eq.mpr hname)
  | case3 => exact Or.inr (Except.error.inj h).symm
  | case4 t outer houter next hnext steps ih => exact ih (List.mem_of_find?_eq_some hnext) h

/-- A name that is found to be repeated is, among the types and the names before them. -/
theorem two_le_count_of_repeated? {seen : List String} {fullName : String}
    (h : repeated? seen types = some fullName) :
    2 ≤ (seen ++ types.map fun t ↦ t.fullName).count fullName := by
  induction types generalizing seen with
  | nil => cases h
  | cons t ts ih =>
    rw [repeated?] at h
    split_ifs at h with hseen
    · obtain rfl := Option.some.inj h
      have hpos := List.count_pos_iff.mpr (List.contains_iff_mem.mp hseen)
      rw [List.count_append, List.map_cons, List.count_cons_self]
      omega
    · rw [List.map_cons, List.perm_middle.count_eq]
      exact ih h

theorem find?_isEmpty_eq_none_iff {t : TypeDecl} :
    (t.members.find? fun m ↦ m.declaringType.isEmpty) = none ↔
      ∀ m ∈ t.members, m.declaringType ≠ "" := by
  rw [List.find?_eq_none]
  exact forall₂_congr fun m _ ↦ not_congr String.isEmpty_iff

theorem validateOne_eq_ok_iff {t : TypeDecl} :
    validateOne types t = .ok () ↔
      walkOut types t.fullName types.length t = .ok () ∧ ∀ m ∈ t.members, m.declaringType ≠ "" := by
  rw [validateOne, bind_eq_ok_iff, ← find?_isEmpty_eq_none_iff]
  cases t.members.find? fun m ↦ m.declaringType.isEmpty with
  | none => exact ⟨fun ⟨⟨⟩, hwalk, _⟩ ↦ ⟨hwalk, rfl⟩, fun ⟨hwalk, _⟩ ↦ ⟨(), hwalk, rfl⟩⟩
  | some m => exact iff_of_false (fun ⟨_, _, h⟩ ↦ by cases h) fun ⟨_, h⟩ ↦ by cases h

/-- The fault that is found with a type is there. -/
theorem applies_of_validateOne (hnodup : (types.map fun t ↦ t.fullName).Nodup) {t : TypeDecl}
    (ht : t ∈ types) {fault : MetadataFault} (h : validateOne types t = .error fault) :
    fault.Applies types := by
  rw [validateOne] at h
  cases hwalk : walkOut types t.fullName types.length t with
  | error other =>
    rw [hwalk] at h
    obtain rfl := Except.error.inj h
    rcases unknownOuter_or_nestingCycle_of_walkOut ht hwalk with ⟨inner, outer, -, happlies⟩ | rfl
    · exact happlies
    · refine ⟨t, ht, rfl, fun n hend ↦ ?_⟩
      cases hwalk.symm.trans ((walkOut_length_eq_ok_iff hnodup ht).mpr ⟨n, hend⟩)
  | ok _ =>
    rw [hwalk] at h
    cases horphan : t.members.find? fun m ↦ m.declaringType.isEmpty with
    | none => simp only [horphan] at h; cases h
    | some m =>
      simp only [horphan] at h
      obtain rfl := Except.error.inj h
      have hempty := List.find?_some horphan
      exact ⟨t, ht, rfl, m, List.mem_of_find?_eq_some horphan, rfl, String.isEmpty_iff.mp hempty⟩

theorem exists_of_validateEach {ts : List TypeDecl} {fault : MetadataFault}
    (h : validateEach types ts = .error fault) : ∃ t ∈ ts, validateOne types t = .error fault := by
  induction ts with
  | nil => cases h
  | cons u us ih =>
    rw [validateEach] at h
    cases hu : validateOne types u with
    | error other =>
      rw [hu] at h
      obtain rfl := Except.error.inj h
      exact ⟨u, List.mem_cons_self, hu⟩
    | ok _ =>
      rw [hu] at h
      obtain ⟨t, ht, hone⟩ := ih h
      exact ⟨t, List.mem_cons_of_mem u ht, hone⟩

/-- The fault that is found is there. -/
theorem applies_of_validate {fault : MetadataFault} (h : validate types = .error fault) :
    fault.Applies types := by
  rw [validate] at h
  cases hrepeated : repeated? [] types with
  | some fullName =>
    rw [hrepeated] at h
    obtain rfl := Except.error.inj h
    exact two_le_count_of_repeated? hrepeated
  | none =>
    rw [hrepeated] at h
    obtain ⟨t, ht, hone⟩ := exists_of_validateEach h
    exact applies_of_validateOne (repeated?_eq_none_iff.mp hrepeated).1 ht hone

/-! ### The check -/

/-- **The check is exact.** Whatever the name of the assembly, declarations pass exactly if full
names are distinct, every declaring type is declared, declaring types end from every type, and every
member has a declaring type. Otherwise the error names the assembly and a fault that is there. -/
theorem validate_eq_ok_iff_consistent (assembly : String) (types : List TypeDecl) :
    ((validate types).mapError (BindError.malformed assembly) = .ok () ↔ Consistent types) ∧
      ((validate types).mapError (BindError.malformed assembly) = .ok () ∨
        ∃ fault, (validate types).mapError (BindError.malformed assembly) =
          .error (.malformed assembly fault) ∧ fault.Applies types) := by
  refine ⟨?_, ?_⟩
  · rw [mapError_eq_ok_iff, validate_eq_ok_iff]
    constructor
    · rintro ⟨hnodup, hone⟩
      have hends (t : TypeDecl) (ht : t ∈ types) : ∃ n, EndsAfter types n t :=
        (walkOut_length_eq_ok_iff hnodup ht).mp (validateOne_eq_ok_iff.mp (hone t ht)).1
      refine ⟨List.pairwise_map.mp hnodup, fun t ht outer houter ↦ ?_, hends,
        fun t ht ↦ (validateOne_eq_ok_iff.mp (hone t ht)).2⟩
      obtain ⟨n, hend⟩ := hends t ht
      cases hend with
      | outermost hnone => cases hnone.symm.trans houter
      | nested hu hsome _ => exact ⟨_, hu, Option.some.inj (hsome.symm.trans houter)⟩
    · intro h
      have hnodup : (types.map fun t ↦ t.fullName).Nodup := List.pairwise_map.mpr h.distinct
      exact ⟨hnodup, fun t ht ↦ validateOne_eq_ok_iff.mpr
        ⟨(walkOut_length_eq_ok_iff hnodup ht).mpr (h.ends t ht), h.owned t ht⟩⟩
  · cases hcheck : validate types with
    | ok _ => exact Or.inl rfl
    | error fault => exact Or.inr ⟨fault, rfl, applies_of_validate hcheck⟩

-- the longest chain that three types allow is no cycle, and a type that leads into one is found
example : validate [{ fullName := "Nut", declaringType := some "Lid" },
    { fullName := "Lid", declaringType := some "Box" }, { fullName := "Box" }] = .ok () := by
  decide +kernel

example : validate [{ fullName := "Nut", declaringType := some "Lid" },
    { fullName := "Lid", declaringType := some "Lid" }] = .error (.nestingCycle "Nut") := by
  decide +kernel

end TypeDecl

end ApiDocs
