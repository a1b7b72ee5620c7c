import ApiDocs.Proofs.Reference.Inheritance
import Mathlib.Data.List.Perm.Subperm
import Mathlib.Data.PFun

/-!
# The depth of types below known base types

The depth of a type is found by a walk from the type to the type for which the name of its base type
stands, and on. Base types may lead back to each other, so the walk counts its rounds and gives up
when there have been more of them than the index has names.

A walk that would end by itself is never given up. The names along it are all different, as each is
a different number of rounds away from the end, and the index has every one of them. The type that
the walk starts from need not be in the index: another type may have taken its name.

## Main definitions

* `Inheritance.base?`: the type for which the name of a type's base type stands.
* `Inheritance.RootedAt`: the number of base types above a type, if they end.
* `Inheritance.Unrooted`: base types that go on forever.
* `Inheritance.baseRound`, `Inheritance.baseWalk`: one round of the walk, and the walk.
* `Inheritance.RanksBases`: what the depth of a type is.

## Main results

* `Inheritance.RootedAt.le_size`: base types that end are no more than the index has names.
* `Inheritance.baseWalk_eq_some`: the walk ends.
* `Inheritance.ranksBases_ofAssemblies`: depth puts base types before the types derived from them.
-/

namespace ApiDocs.Inheritance

open Assemblies

variable (index : TypeIndex) (as : List AssemblyEntry)

/-- The type for which the name of a type's base type stands. -/
def base? (t : TypeEntry) : Option TypeEntry :=
  t.header.baseName?.bind (index.type? as)

/-- There are so many base types above a type; the last of them has none that is known. -/
inductive RootedAt : Nat → TypeEntry → Prop
  | root {t : TypeEntry} (h : base? index as t = none) : RootedAt 0 t
  | derived {t b : TypeEntry} {n : Nat} (h : base? index as t = some b) (hb : RootedAt n b) :
      RootedAt (n + 1) t

/-- The base types above a type go on forever. -/
def Unrooted (t : TypeEntry) : Prop :=
  ∃ chain : ℕ → TypeEntry, chain 0 = t ∧ ∀ i, base? index as (chain i) = some (chain (i + 1))

/-- One round of the walk, from the number of base types so far and the name of the next one: the
depth, or the state to go on with. -/
def baseRound (s : Nat × Option String) : Nat ⊕ Nat × Option String :=
  match s.2.bind (index.type? as) with
  | none => .inl s.1
  | some next =>
    if index.size < s.1 + 1 then .inl (s.1 + 1) else .inr (s.1 + 1, next.header.baseName?)

/-- The walk up the base types, round after round until one of them gives the depth. -/
noncomputable def baseWalk : Nat × Option String →. Nat :=
  PFun.fix fun s ↦ Part.some (baseRound index as s)

/-- The depth of a type says how many base types are above it. -/
structure RanksBases (t : TypeEntry) : Prop where
  /-- The walk from the type ends with the depth. -/
  walks : baseWalk index as (0, t.header.baseName?) = Part.some (baseDepth index as t)
  /-- The depth is at most one more than the index has names. -/
  le_size_add_one : baseDepth index as t ≤ index.size + 1
  /-- The base types above the type end unless they go on forever. -/
  rooted_iff : (∃ n, RootedAt index as n t) ↔ ¬ Unrooted index as t
  /-- If they end, the depth is their number, and the index has as many names. -/
  of_rooted : ∀ n, RootedAt index as n t → baseDepth index as t = n ∧ n ≤ index.size
  /-- A type has one base type more than its base type. -/
  of_base : ∀ n b, RootedAt index as n t → base? index as t = some b →
    baseDepth index as t = baseDepth index as b + 1 ∧ baseDepth index as t ≤ index.size
  /-- If they go on forever, the depth is greater than wherever they end. -/
  of_unrooted : Unrooted index as t → baseDepth index as t = index.size + 1 ∧
    ∀ n u, RootedAt index as n u → baseDepth index as u < baseDepth index as t
  /-- A base type has its turn before the types derived from it. -/
  earlier : ∀ n b, RootedAt index as n t → base? index as t = some b →
    ∀ i j : Nat, (turns index as)[i]? = some b → (turns index as)[j]? = some t → i < j

variable {index as}

/-! ### Base types that end -/

/-- The base types above a type have one number. -/
theorem RootedAt.unique {m n : Nat} {t : TypeEntry} (hm : RootedAt index as m t)
    (hn : RootedAt index as n t) : m = n := by
  induction hm generalizing n with
  | root hnone =>
    cases hn with
    | root => rfl
    | derived hsome => cases hnone.symm.trans hsome
  | derived hsome _ ih =>
    cases hn with
    | root hnone => cases hnone.symm.trans hsome
    | derived hsome' hb =>
      obtain rfl := Option.some.inj (hsome.symm.trans hsome')
      rw [ih hb]

/-- The names of the base types above a type are all different, as each stands for a type with a
different number of base types above it. -/
theorem RootedAt.exists_names {n : Nat} {t : TypeEntry} (h : RootedAt index as n t) :
    ∃ names : List String, names.length = n ∧ names.Nodup ∧
      ∀ name ∈ names, ∃ k < n, ∃ u, index.type? as name = some u ∧ RootedAt index as k u := by
  induction h with
  | root => exact ⟨[], rfl, List.nodup_nil, fun name hname ↦ by cases hname⟩
  | @derived t b n hbase hb ih =>
    obtain ⟨name, -, hname⟩ := Option.bind_eq_some_iff.mp hbase
    obtain ⟨names, hlength, hnodup, hmem⟩ := ih
    have hnew : name ∉ names := by
      intro hin
      obtain ⟨k, hk, u, hu, hku⟩ := hmem name hin
      obtain rfl := Option.some.inj (hname.symm.trans hu)
      have := hb.unique hku
      omega
    refine ⟨name :: names, by rw [List.length_cons, hlength], List.nodup_cons.mpr ⟨hnew, hnodup⟩,
      fun other hother ↦ ?_⟩
    rcases List.mem_cons.mp hother with rfl | hother
    · exact ⟨n, Nat.lt_succ_self n, b, hname, hb⟩
    · obtain ⟨k, hk, hu⟩ := hmem other hother
      exact ⟨k, Nat.lt_succ_of_lt hk, hu⟩

theorem mem_map_fst_of_type? {name : String} {u : TypeEntry}
    (h : index.type? as name = some u) : name ∈ index.entries.map Prod.fst := by
  obtain ⟨id, hid, -⟩ := Option.bind_eq_some_iff.mp h
  by_contra hnot
  have hnone : index.find? name = none := by
    refine List.lookup_eq_none_iff.mpr fun p hp ↦ bne_iff_ne.mpr ?_
    rintro rfl
    exact hnot (List.mem_map_of_mem hp)
  cases hnone.symm.trans hid

/-- Base types that end are no more than the index has names. -/
theorem RootedAt.le_size {n : Nat} {t : TypeEntry} (h : RootedAt index as n t) :
    n ≤ index.size := by
  obtain ⟨names, hlength, hnodup, hmem⟩ := h.exists_names
  have hsub : names.Subperm (index.entries.map Prod.fst) := by
    refine List.subperm_of_subset hnodup fun name hname ↦ ?_
    obtain ⟨-, -, u, hu, -⟩ := hmem name hname
    exact mem_map_fst_of_type? hu
  calc n = names.length := hlength.symm
    _ ≤ (index.entries.map Prod.fst).length := hsub.length_le
    _ = index.size := List.length_map _

/-! ### Base types that go on forever -/

theorem Unrooted.not_rootedAt {t : TypeEntry} (h : Unrooted index as t) (n : Nat) :
    ¬ RootedAt index as n t := by
  obtain ⟨chain, rfl, hchain⟩ := h
  suffices hall : ∀ i, ¬ RootedAt index as n (chain i) from hall 0
  induction n with
  | zero =>
    rintro i ⟨hnone⟩
    cases hnone.symm.trans (hchain i)
  | succ n ih =>
    rintro i (_ | ⟨hbase, hb⟩)
    obtain rfl := Option.some.inj (hbase.symm.trans (hchain i))
    exact ih (i + 1) hb

theorem unrooted_of_forall_not {t : TypeEntry} (h : ∀ n, ¬ RootedAt index as n t) :
    Unrooted index as t := by
  let up (u : TypeEntry) : TypeEntry := (base? index as u).getD u
  -- a type from which base types do not end has a base type from which they do not end either
  have hup (u : TypeEntry) (hu : ∀ n, ¬ RootedAt index as n u) :
      base? index as u = some (up u) ∧ ∀ n, ¬ RootedAt index as n (up u) := by
    cases hbase : base? index as u with
    | none => exact absurd (.root hbase) (hu 0)
    | some b =>
      have hb : up u = b := by simp only [up, hbase, Option.getD_some]
      exact ⟨by rw [hb], fun n hn ↦ hu (n + 1) (.derived hbase (hb ▸ hn))⟩
  have hchain (i : ℕ) : ∀ n, ¬ RootedAt index as n (up^[i] t) := by
    induction i with
    | zero => exact h
    | succ i ih =>
      rw [Function.iterate_succ_apply']
      exact (hup _ ih).2
  refine ⟨fun i ↦ up^[i] t, rfl, fun i ↦ ?_⟩
  simpa only [Function.iterate_succ_apply'] using (hup _ (hchain i)).1

/-- The base types above a type end unless they go on forever. -/
theorem exists_rootedAt_iff {t : TypeEntry} :
    (∃ n, RootedAt index as n t) ↔ ¬ Unrooted index as t := by
  constructor
  · rintro ⟨n, hn⟩ hun
    exact hun.not_rootedAt n hn
  · intro hun
    by_contra hnot
    exact hun (unrooted_of_forall_not (not_exists.mp hnot))

/-! ### Depth -/

theorem climb_of_eq_none {steps : Nat} {base : Option String}
    (h : base.bind (index.type? as) = none) : climb index as steps base = 0 := by
  cases base with
  | none => unfold climb; rfl
  | some name =>
    rw [Option.bind_some] at h
    unfold climb
    simp only [h]

theorem climb_zero_of_eq_some {base : Option String} {b : TypeEntry}
    (h : base.bind (index.type? as) = some b) : climb index as 0 base = 1 := by
  obtain ⟨name, rfl, hb⟩ := Option.bind_eq_some_iff.mp h
  unfold climb
  simp only [hb]

theorem climb_succ_of_eq_some {steps : Nat} {base : Option String} {b : TypeEntry}
    (h : base.bind (index.type? as) = some b) :
    climb index as (steps + 1) base = climb index as steps b.header.baseName? + 1 := by
  obtain ⟨name, rfl, hb⟩ := Option.bind_eq_some_iff.mp h
  conv_lhs => unfold climb
  simp only [hb]

theorem climb_le (steps : Nat) (base : Option String) : climb index as steps base ≤ steps + 1 := by
  fun_induction climb index as steps base with
  | case1 => exact Nat.zero_le _
  | case2 => exact Nat.zero_le _
  | case3 => exact Nat.le_refl 1
  | case4 steps name next hnext ih => exact Nat.succ_le_succ ih

/-- Base types are counted to their end if there are steps enough. -/
theorem RootedAt.climb_eq {n steps : Nat} {t : TypeEntry} (h : RootedAt index as n t)
    (hn : n ≤ steps + 1) : climb index as steps t.header.baseName? = n := by
  induction h generalizing steps with
  | root hnone => exact climb_of_eq_none hnone
  | derived hbase hb ih =>
    cases steps with
    | zero =>
      obtain rfl := Nat.le_zero.mp (Nat.le_of_succ_le_succ hn)
      exact climb_zero_of_eq_some hbase
    | succ steps => rw [climb_succ_of_eq_some hbase, ih (Nat.le_of_succ_le_succ hn)]

/-- Base types that go on forever are counted until the steps are used up. -/
theorem Unrooted.climb_eq {t : TypeEntry} (h : Unrooted index as t) (steps : Nat) :
    climb index as steps t.header.baseName? = steps + 1 := by
  obtain ⟨chain, rfl, hchain⟩ := h
  suffices hall : ∀ i, climb index as steps (chain i).header.baseName? = steps + 1 from hall 0
  induction steps with
  | zero => exact fun i ↦ climb_zero_of_eq_some (hchain i)
  | succ steps ih =>
    intro i
    rw [climb_succ_of_eq_some (hchain i), ih]

theorem RootedAt.baseDepth_eq {n : Nat} {t : TypeEntry} (h : RootedAt index as n t) :
    baseDepth index as t = n :=
  h.climb_eq (Nat.le_succ_of_le h.le_size)

theorem Unrooted.baseDepth_eq {t : TypeEntry} (h : Unrooted index as t) :
    baseDepth index as t = index.size + 1 :=
  h.climb_eq index.size

/-- A type has one base type more than its base type. -/
theorem RootedAt.baseDepth_eq_succ {n : Nat} {t b : TypeEntry} (h : RootedAt index as n t)
    (hbase : base? index as t = some b) :
    baseDepth index as t = baseDepth index as b + 1 := by
  cases h with
  | root hnone => cases hnone.symm.trans hbase
  | derived hbase' hb =>
    obtain rfl := Option.some.inj (hbase.symm.trans hbase')
    rw [hb.baseDepth_eq, (RootedAt.derived hbase hb).baseDepth_eq]

/-! ### The walk -/

theorem mem_baseWalk_iff {s : Nat × Option String} {d : Nat} :
    d ∈ baseWalk index as s ↔ baseRound index as s = .inl d ∨
      ∃ s', baseRound index as s = .inr s' ∧ d ∈ baseWalk index as s' := by
  refine PFun.mem_fix_iff.trans ?_
  simp only [Part.mem_some_iff, eq_comm]
  rfl

/-- The walk ends: it goes on only while it has counted no more base types than the index has
names. -/
theorem baseWalk_eq_some {steps : Nat} {s : Nat × Option String} (h : s.1 + steps = index.size) :
    baseWalk index as s = Part.some (s.1 + climb index as steps s.2) := by
  rw [Part.eq_some_iff]
  induction steps generalizing s with
  | zero =>
    refine mem_baseWalk_iff.mpr (Or.inl ?_)
    cases hbase : s.2.bind (index.type? as) with
    | none => simp only [baseRound, hbase, climb_of_eq_none hbase, Nat.add_zero]
    | some next =>
      simp only [baseRound, hbase, if_pos (show index.size < s.1 + 1 by omega),
        climb_zero_of_eq_some hbase]
  | succ steps ih =>
    refine mem_baseWalk_iff.mpr ?_
    cases hbase : s.2.bind (index.type? as) with
    | none =>
      exact Or.inl (by simp only [baseRound, hbase, climb_of_eq_none hbase, Nat.add_zero])
    | some next =>
      have hrest : s.1 + 1 + climb index as steps next.header.baseName? ∈
          baseWalk index as (s.1 + 1, next.header.baseName?) := ih (by rw [← h]; omega)
      refine Or.inr ⟨(s.1 + 1, next.header.baseName?), ?_, ?_⟩
      · simp only [baseRound, hbase, if_neg (show ¬ index.size < s.1 + 1 by omega)]
      · rwa [climb_succ_of_eq_some hbase, ← Nat.add_assoc, Nat.add_right_comm]

/-! ### The order of turns -/

/-- A type of smaller depth has its turn before a type of greater depth. -/
theorem lt_of_baseDepth_lt {i j : Nat} {t u : TypeEntry}
    (hlt : baseDepth index as u < baseDepth index as t) (hi : (turns index as)[i]? = some u)
    (hj : (turns index as)[j]? = some t) : i < j := by
  have hsorted : (turns index as).Pairwise fun t u ↦
      decide (baseDepth index as t ≤ baseDepth index as u) = true := by
    refine List.pairwise_mergeSort (fun t u v htu huv ↦ ?_) (fun t u ↦ ?_) _
    · rw [decide_eq_true_eq] at htu huv ⊢
      exact Nat.le_trans htu huv
    · rw [Bool.or_eq_true, decide_eq_true_eq, decide_eq_true_eq]
      exact Nat.le_total _ _
  rcases Nat.lt_trichotomy i j with hij | rfl | hji
  · exact hij
  · obtain rfl := Option.some.inj (hi.symm.trans hj)
    exact absurd hlt (Nat.lt_irrefl _)
  · obtain ⟨hi', rfl⟩ := List.getElem?_eq_some_iff.mp hi
    obtain ⟨hj', rfl⟩ := List.getElem?_eq_some_iff.mp hj
    have hle := List.pairwise_iff_getElem.mp hsorted j i hj' hi' hji
    exact absurd hlt (Nat.not_lt.mpr (of_decide_eq_true hle))

/-- **Depth puts base types before derived types.** Take any list of assemblies, the index of its
types, and any type. The walk up its base types ends, with at most one more than the index has
names. If the base types above it end, its depth is their number, which is that of its base type and
one, and no more than the index has names; so its base type has its turn first. If they go on
forever, its depth is greater than that of every type above which they end. -/
theorem ranksBases_ofAssemblies (as : List AssemblyEntry) (t : TypeEntry) :
    RanksBases (TypeIndex.ofAssemblies as) as t where
  walks := by
    rw [baseWalk_eq_some (Nat.zero_add _), Nat.zero_add]
    rfl
  le_size_add_one := climb_le _ _
  rooted_iff := exists_rootedAt_iff
  of_rooted _ h := ⟨h.baseDepth_eq, h.le_size⟩
  of_base _ _ h hbase := ⟨h.baseDepth_eq_succ hbase, h.baseDepth_eq ▸ h.le_size⟩
  of_unrooted h := by
    refine ⟨h.baseDepth_eq, fun n u hu ↦ ?_⟩
    rw [h.baseDepth_eq, hu.baseDepth_eq]
    exact Nat.lt_succ_of_le hu.le_size
  earlier _ _ h hbase _ _ :=
    lt_of_baseDepth_lt (h.baseDepth_eq_succ hbase ▸ Nat.lt_succ_self _)

-- the second disc has lost its name to its base type, so it has as many base types as there are
-- names and is in no cycle
example :
    let as := (Reference.boundEntries (Reference.bindAll .publicSurface .all
      [⟨⟨"Shapes", .ok [shapeDecl "Disc" (some "Shape"), shapeDecl "Shape" none]⟩, none⟩,
        ⟨⟨"Discs", .ok [shapeDecl "Disc" (some "Disc")]⟩, none⟩])).map Prod.fst
    (TypeIndex.ofAssemblies as).size = 2 ∧
      (types as).map (baseDepth (TypeIndex.ofAssemblies as) as) = [1, 0, 2] := by
  decide +kernel

example :
    let as := (Reference.boundEntries (Reference.bindAll .publicSurface .all
      [⟨⟨"Rings", .ok [shapeDecl "Ring" (some "Band"), shapeDecl "Band" (some "Ring"),
        shapeDecl "Hoop" (some "Ring"), shapeDecl "Disc" (some "Shape")]⟩, none⟩])).map Prod.fst
    (types as).map (baseDepth (TypeIndex.ofAssemblies as) as) = [5, 5, 5, 0] := by
  decide +kernel

end ApiDocs.Inheritance
