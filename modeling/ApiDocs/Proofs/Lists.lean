import Mathlib.Data.List.Flatten
import Mathlib.Data.List.Forall2
import Mathlib.Data.List.Induction
import Mathlib.Data.List.Nodup
import Mathlib.Data.List.Perm.Basic

/-!
# Lists

Facts about lists that hold whatever their elements are: leaving out repetitions, searching for keys
that are not repeated, partial maps, stable sorting, changes in one place and ranks.

## Main results

* `nodup_eraseDups`, `eraseDups_concat`: first occurrences.
* `find?_key_eq_some_iff`: the search for a key that is not repeated.
* `flatMap_filter_perm`: a list is divided by keys.
* `pairwise_mergeSort_of_pairwise`: a stable sort refines the order it is given.
* `mergeSort_filter`: a stable sort commutes with leaving elements out.
* `foldl_modify_zipIdx`: changes in some places, one after another.
* `map_countP_take_eq_range`: the elements with a property have consecutive ranks.
-/

namespace ApiDocs

variable {α β : Type}

/-! ### First occurrences -/

section

variable [BEq α] [LawfulBEq α]

theorem nodup_eraseDups (xs : List α) : xs.eraseDups.Nodup := by
  match xs with
  | [] => exact List.nodup_nil
  | x :: xs =>
    have hshorter := List.length_filter_le (fun y ↦ !y == x) xs
    rw [List.eraseDups_cons, List.nodup_cons, List.mem_eraseDups, List.mem_filter]
    exact ⟨fun h ↦ by simp at h, nodup_eraseDups _⟩
termination_by xs.length

/-- One more element is appended if it is new. -/
theorem eraseDups_concat (xs : List α) (x : α) :
    (xs ++ [x]).eraseDups =
      if x ∈ xs then xs.eraseDups else xs.eraseDups ++ [x] := by
  rw [List.eraseDups_append]
  by_cases h : x ∈ xs
  · have hold : [x].removeAll xs = [] := by simpa [List.removeAll] using h
    rw [if_pos h, hold]
    exact List.append_nil _
  · have hnew : [x].removeAll xs = [x] := by simpa [List.removeAll] using h
    rw [if_neg h, hnew]
    simp [List.eraseDups_cons]

theorem eraseDups_of_nodup {xs : List α} (h : xs.Nodup) : xs.eraseDups = xs := by
  induction xs with
  | nil => rfl
  | cons x xs ih =>
    rw [List.nodup_cons] at h
    have hself : (xs.filter fun y ↦ !y == x) = xs :=
      List.filter_eq_self.mpr fun y hy ↦ by
        rw [Bool.not_eq_true', beq_eq_false_iff_ne]
        exact fun hyx ↦ h.1 (hyx ▸ hy)
    rw [List.eraseDups_cons, hself, ih h.2]

theorem eraseDups_map_of_injective [BEq β] [LawfulBEq β] {f : α → β}
    (hf : Function.Injective f) (xs : List α) :
    (xs.map f).eraseDups = xs.eraseDups.map f := by
  induction hn : xs.length using Nat.strongRecOn generalizing xs with
  | ind n ih =>
    cases xs with
    | nil => rfl
    | cons x xs =>
      have hne : (fun y ↦ !y == f x) ∘ f = fun y ↦ !y == x := by
        funext y
        rw [Function.comp_apply, Bool.not_inj_iff, Bool.eq_iff_iff, beq_iff_eq, beq_iff_eq]
        exact hf.eq_iff
      have hlen : (xs.filter fun y ↦ !y == x).length < n := by
        rw [← hn, List.length_cons]
        exact Nat.lt_succ_of_le (List.length_filter_le _ _)
      rw [List.map_cons, List.eraseDups_cons, List.eraseDups_cons, List.map_cons, List.filter_map,
        hne, ih _ hlen _ rfl]

end

/-! ### Keys -/

section

variable {key : α → String} {xs : List α}

/-- If keys are not repeated, the search for a key finds the element that has it. -/
theorem find?_key_eq_some_iff (h : (xs.map key).Nodup) {k : String} {x : α} :
    (xs.find? fun y ↦ key y == k) = some x ↔ x ∈ xs ∧ key x = k := by
  constructor
  · intro hx
    have heq := List.find?_some hx
    exact ⟨List.mem_of_find?_eq_some hx, eq_of_beq heq⟩
  · rintro ⟨hmem, rfl⟩
    obtain ⟨y, hy⟩ : ∃ y, (xs.find? fun y ↦ key y == key x) = some y := by
      rw [← Option.isSome_iff_exists, List.find?_isSome]
      exact ⟨x, hmem, beq_self_eq_true _⟩
    have heq := List.find?_some hy
    rw [hy, List.inj_on_of_nodup_map h (List.mem_of_find?_eq_some hy) hmem (eq_of_beq heq)]

/-- If keys are not repeated, what only elements with one key contribute comes from one element. -/
theorem flatMap_eq_of_nodup_key (h : (xs.map key).Nodup) {x : α} (hx : x ∈ xs) {f : α → List β}
    (hf : ∀ y ∈ xs, key y ≠ key x → f y = []) : xs.flatMap f = f x := by
  induction xs with
  | nil => cases hx
  | cons y ys ih =>
    obtain ⟨hy, hys⟩ := List.nodup_cons.mp h
    rw [List.flatMap_cons]
    rcases List.mem_cons.mp hx with rfl | hx
    · have hrest : ys.flatMap f = [] := List.flatMap_eq_nil_iff.mpr fun z hz ↦
        hf z (List.mem_cons_of_mem x hz) fun heq ↦ hy (heq ▸ List.mem_map_of_mem hz)
      rw [hrest, List.append_nil]
    · have hne : key y ≠ key x := fun heq ↦ hy (heq ▸ List.mem_map_of_mem hx)
      rw [hf y List.mem_cons_self hne, List.nil_append]
      exact ih hys hx fun z hz ↦ hf z (List.mem_cons_of_mem y hz)

end

/-- A list is divided by keys without loss or repetition if the keys are those that occur, each
once. -/
theorem flatMap_filter_perm (key : α → String) {keys : List String} (hkeys : keys.Nodup)
    (xs : List α) (h : ∀ x ∈ xs, key x ∈ keys) :
    (keys.flatMap fun k ↦ xs.filter fun x ↦ key x == k).Perm xs := by
  induction keys generalizing xs with
  | nil =>
    obtain rfl : xs = [] := List.eq_nil_iff_forall_not_mem.mpr fun x hx ↦ by cases h x hx
    exact .refl _
  | cons k keys ih =>
    rw [List.nodup_cons] at hkeys
    -- the elements with other keys are divided by the other keys
    have hother : (keys.flatMap fun k' ↦ xs.filter fun x ↦ key x == k') =
        keys.flatMap fun k' ↦ (xs.filter fun x ↦ !key x == k).filter fun x ↦ key x == k' := by
      refine List.flatMap_congr fun k' hk' ↦ ?_
      rw [List.filter_filter]
      refine List.filter_congr fun x _ ↦ ?_
      by_cases hx : key x = k'
      · have hne : key x ≠ k := fun heq ↦ hkeys.1 (heq ▸ hx ▸ hk')
        simp [hx, hx ▸ hne]
      · simp [hx]
    have hrest := ih hkeys.2 (xs.filter fun x ↦ !key x == k) fun x hx ↦ by
      rw [List.mem_filter, Bool.not_eq_true', beq_eq_false_iff_ne] at hx
      exact (List.mem_cons.mp (h x hx.1)).resolve_left hx.2
    rw [List.flatMap_cons, hother]
    exact (hrest.append_left _).trans (List.filter_append_perm _ xs)

/-- An answer that stands for exactly the elements with a property is the first of them. -/
theorem eq_find?_of_eq_some_iff {xs : List α} {p : α → Bool} {answer : Option α}
    (h : ∀ x, answer = some x ↔ x ∈ xs ∧ p x = true) : answer = xs.find? p := by
  cases hfind : xs.find? p with
  | some x => exact (h x).mpr ⟨List.mem_of_find?_eq_some hfind, List.find?_some hfind⟩
  | none =>
    refine Option.eq_none_iff_forall_ne_some.mpr fun x hx ↦ ?_
    obtain ⟨hmem, hp⟩ := (h x).mp hx
    exact List.find?_eq_none.mp hfind x hmem hp

/-! ### Partial maps -/

theorem forall₂_filterMap {f : α → Option β} {xs : List α} (h : ∀ x ∈ xs, (f x).isSome) :
    List.Forall₂ (fun x y ↦ f x = some y) xs (xs.filterMap f) := by
  induction xs with
  | nil => exact .nil
  | cons x xs ih =>
    obtain ⟨y, hy⟩ := Option.isSome_iff_exists.mp (h x List.mem_cons_self)
    rw [List.filterMap_cons_some hy]
    exact .cons hy (ih fun x' hx' ↦ h x' (List.mem_cons_of_mem x hx'))

theorem filterMap_sublist_map {f : α → Option β} {g : α → β} (h : ∀ x b, f x = some b → b = g x)
    (xs : List α) : (xs.filterMap f).Sublist (xs.map g) := by
  induction xs with
  | nil => exact .slnil
  | cons x xs ih =>
    rw [List.filterMap_cons, List.map_cons]
    split
    · exact ih.cons _
    · rename_i b hb
      rw [h x b hb]
      exact ih.cons_cons _

/-! ### Stable sorting -/

section

variable {le : α → α → Bool} (htrans : ∀ a b c, le a b = true → le b c = true → le a c = true)
  (htotal : ∀ a b, (le a b || le b a) = true)

include htrans htotal

/-- A stable sort keeps the order of elements none of which comes before another one. -/
theorem filter_mergeSort {p : α → Bool}
    (hp : ∀ a b, p a = true → p b = true → le a b = true) (xs : List α) :
    (xs.mergeSort le).filter p = xs.filter p := by
  have hpairwise : (xs.filter p).Pairwise fun a b ↦ le a b = true := by
    refine List.pairwise_of_forall_mem_list fun a ha b hb ↦ ?_
    exact hp a b (List.of_mem_filter ha) (List.of_mem_filter hb)
  have hsub : (xs.filter p).Sublist (xs.mergeSort le) :=
    List.sublist_mergeSort htrans htotal hpairwise List.filter_sublist
  have hsub' : (xs.filter p).Sublist ((xs.mergeSort le).filter p) := by
    have := hsub.filter p
    rwa [List.filter_filter, List.filter_congr fun x _ ↦ Bool.and_self (p x)] at this
  have hlength : ((xs.mergeSort le).filter p).length = (xs.filter p).length :=
    ((List.mergeSort_perm xs le).filter p).length_eq
  exact (hsub'.eq_of_length hlength.symm).symm

/-- A stable sort puts elements in order, and keeps the order of those that may stand either way. -/
theorem pairwise_mergeSort_of_pairwise {R : α → α → Prop} {xs : List α} (h : xs.Pairwise R) :
    (xs.mergeSort le).Pairwise fun a b ↦ le a b = true ∧ (le b a = true → R a b) := by
  have hsorted := List.pairwise_mergeSort htrans htotal xs
  rw [List.pairwise_iff_forall_sublist] at h hsorted ⊢
  intro a b hab
  have hle : le a b = true := hsorted hab
  refine ⟨hle, fun hge ↦ h ?_⟩
  have hself (x : α) : le x x = true := (Bool.or_self (le x x)).symm.trans (htotal x x)
  -- both elements lie in the class of the first one, whose order is kept
  have hkept := filter_mergeSort htrans htotal (p := fun x ↦ le a x && le x a)
    (fun x y hx hy ↦ htrans x a y (Bool.and_eq_true_iff.mp hx).2 (Bool.and_eq_true_iff.mp hy).1) xs
  have hpair : [a, b].filter (fun x ↦ le a x && le x a) = [a, b] :=
    List.filter_eq_self.mpr fun x hx ↦ by
      rcases List.mem_pair.mp hx with rfl | rfl
      · rw [hself, Bool.and_self]
      · rw [hle, hge, Bool.and_self]
  have hsub := hab.filter fun x ↦ le a x && le x a
  rw [hpair, hkept] at hsub
  exact hsub.trans List.filter_sublist

omit htrans in
/-- Sorted lists are equal if they have the same elements of every class in the same order. -/
theorem eq_of_pairwise_of_filter_eq {xs ys : List α} (hxs : xs.Pairwise fun a b ↦ le a b = true)
    (hys : ys.Pairwise fun a b ↦ le a b = true)
    (h : ∀ a, (xs.filter fun x ↦ le a x && le x a) = ys.filter fun x ↦ le a x && le x a) :
    xs = ys := by
  have hself (x : α) : le x x = true := (Bool.or_self (le x x)).symm.trans (htotal x x)
  have hmem {us vs : List α}
      (huv : ∀ a, (us.filter fun x ↦ le a x && le x a) = vs.filter fun x ↦ le a x && le x a)
      {a : α} (ha : a ∈ us) : a ∈ vs := by
    have hin : a ∈ us.filter fun x ↦ le a x && le x a :=
      List.mem_filter.mpr ⟨ha, by rw [hself, Bool.and_self]⟩
    exact List.mem_of_mem_filter (huv a ▸ hin)
  -- the least element of one list is not above that of the other
  have hhead {a b : α} {us vs : List α} (hvs : (b :: vs).Pairwise fun a b ↦ le a b = true)
      (huv : ∀ c, ((a :: us).filter fun x ↦ le c x && le x c) =
        (b :: vs).filter fun x ↦ le c x && le x c) : le b a = true := by
    rcases List.mem_cons.mp (hmem huv List.mem_cons_self) with rfl | ha
    · exact hself a
    · exact List.rel_of_pairwise_cons hvs ha
  induction xs generalizing ys with
  | nil =>
    cases ys with
    | nil => rfl
    | cons b ys => cases hmem (fun a ↦ (h a).symm) List.mem_cons_self
  | cons a xs ih =>
    cases ys with
    | nil => cases hmem h List.mem_cons_self
    | cons b ys =>
      have hba : le b a = true := hhead hys h
      have hab : le a b = true := hhead hxs fun c ↦ (h c).symm
      have hclass := h a
      rw [List.filter_cons, hself, Bool.and_self, if_pos rfl, List.filter_cons, hab, hba,
        Bool.and_self, if_pos rfl] at hclass
      obtain rfl : a = b := (List.cons.inj hclass).1
      refine congrArg (a :: ·) (ih hxs.of_cons hys.of_cons fun c ↦ ?_)
      have hc := h c
      rw [List.filter_cons, List.filter_cons] at hc
      split_ifs at hc
      · exact (List.cons.inj hc).2
      · exact hc

/-- A stable sort commutes with leaving elements out. -/
theorem mergeSort_filter (p : α → Bool) (xs : List α) :
    (xs.filter p).mergeSort le = (xs.mergeSort le).filter p := by
  refine eq_of_pairwise_of_filter_eq htotal
    (List.pairwise_mergeSort htrans htotal (xs.filter p))
    ((List.pairwise_mergeSort htrans htotal xs).filter p) fun a ↦ ?_
  have hclass (x y : α) (hx : (le a x && le x a) = true) (hy : (le a y && le y a) = true) :
      le x y = true :=
    htrans x a y (Bool.and_eq_true_iff.mp hx).2 (Bool.and_eq_true_iff.mp hy).1
  calc ((xs.filter p).mergeSort le).filter (fun x ↦ le a x && le x a)
      = (xs.filter p).filter fun x ↦ le a x && le x a :=
        filter_mergeSort htrans htotal hclass (xs.filter p)
    _ = (xs.filter fun x ↦ le a x && le x a).filter p := List.filter_comm ..
    _ = ((xs.mergeSort le).filter fun x ↦ le a x && le x a).filter p := by
        rw [filter_mergeSort htrans htotal hclass]
    _ = ((xs.mergeSort le).filter p).filter fun x ↦ le a x && le x a := List.filter_comm ..

end

/-! ### Changes in one place -/

theorem map_modify_eq_map {f : α → α} {g : α → β} (h : ∀ x, g (f x) = g x)
    (xs : List α) (i : Nat) : (xs.modify i f).map g = xs.map g := by
  induction xs generalizing i with
  | nil => rw [List.modify_nil]
  | cons x xs ih =>
    cases i with
    | zero => rw [List.modify_zero_cons, List.map_cons, List.map_cons, h]
    | succ i => rw [List.modify_succ_cons, List.map_cons, List.map_cons, ih]

theorem modify_map_of_comm {f : α → β} {g : α → α} {g' : β → β}
    (h : ∀ x, g' (f x) = f (g x)) (xs : List α) (i : Nat) :
    (xs.map f).modify i g' = (xs.modify i g).map f := by
  induction xs generalizing i with
  | nil => simp only [List.map_nil, List.modify_nil]
  | cons x xs ih =>
    cases i with
    | zero => simp only [List.map_cons, List.modify_zero_cons, h]
    | succ i => simp only [List.map_cons, List.modify_succ_cons, ih]

theorem exists_of_mem_modify {f : α → α} {xs : List α} {i : Nat} {y : α}
    (h : y ∈ xs.modify i f) : ∃ x ∈ xs, y = x ∨ y = f x := by
  obtain ⟨j, hj⟩ := List.getElem?_of_mem h
  by_cases hij : i = j
  · subst hij
    rw [List.getElem?_modify_eq] at hj
    obtain ⟨x, hx, rfl⟩ := Option.map_eq_some_iff.mp hj
    exact ⟨x, List.mem_of_getElem? hx, Or.inr rfl⟩
  · rw [List.getElem?_modify_ne _ _ hij] at hj
    exact ⟨y, List.mem_of_getElem? hj, Or.inl rfl⟩

/-- A change in one place depends on what it makes of the element there. -/
theorem modify_congr_of_getElem? {f g : α → α} {xs : List α} {i : Nat}
    (h : ∀ x, xs[i]? = some x → f x = g x) : xs.modify i f = xs.modify i g := by
  induction xs generalizing i with
  | nil => rw [List.modify_nil, List.modify_nil]
  | cons x xs ih =>
    cases i with
    | zero => rw [List.modify_zero_cons, List.modify_zero_cons, h x rfl]
    | succ i => rw [List.modify_succ_cons, List.modify_succ_cons, ih h]

/-- A change in one place is a change of the elements with a property that holds just there. -/
theorem modify_eq_map_ite {p : α → Prop} [DecidablePred p] {xs : List α} {i : Nat}
    (h : ∀ j x, xs[j]? = some x → (p x ↔ i = j)) (f : α → α) :
    xs.modify i f = xs.map fun x ↦ if p x then f x else x := by
  refine List.ext_getElem? fun j ↦ ?_
  rw [List.getElem?_modify, List.getElem?_map]
  cases hx : xs[j]? with
  | none => rfl
  | some x => exact congrArg some (if_congr (h j x hx).symm rfl rfl)

theorem modify_append (i : Nat) (f : α → α) (xs ys : List α) :
    (xs ++ ys).modify i f =
      xs.modify i f ++ if xs.length ≤ i then ys.modify (i - xs.length) f else ys := by
  induction xs generalizing i with
  | nil =>
    rw [List.nil_append, List.modify_nil, List.nil_append, List.length_nil,
      if_pos (Nat.zero_le i), Nat.sub_zero]
  | cons x xs ih =>
    cases i with
    | zero =>
      rw [List.cons_append, List.modify_zero_cons, List.modify_zero_cons, List.cons_append,
        List.length_cons, if_neg (Nat.not_succ_le_zero xs.length)]
    | succ i =>
      simp only [List.cons_append, List.modify_succ_cons, ih, List.length_cons,
        Nat.add_le_add_iff_right, Nat.add_sub_add_right]

/-- Changes that are worked out for some elements and then made in their places, one after another,
are one change of all elements. By induction on the elements that are left. -/
theorem foldl_modify_zipIdx (value? : α → Option β) (change : β → α → α) (before xs : List α) :
    ((xs.zipIdx before.length).filterMap fun p ↦ (value? p.1).map fun v ↦ (p.2, v)).foldl
        (fun ys u ↦ ys.modify u.1 (change u.2)) (before ++ xs) =
      before ++ xs.map fun x ↦ ((value? x).map (change · x)).getD x := by
  induction xs generalizing before with
  | nil => rfl
  | cons x xs ih =>
    have hnext (y : α) := ih (before ++ [y])
    simp only [List.length_append, List.length_singleton, List.append_assoc,
      List.singleton_append] at hnext
    rw [List.zipIdx_cons, List.map_cons]
    cases hvalue : value? x with
    | none =>
      rw [List.filterMap_cons_none (by rw [hvalue, Option.map_none]), hnext]
      rfl
    | some v =>
      have hplace : (before ++ x :: xs).modify before.length (change v) =
          before ++ change v x :: xs := by
        rw [modify_append, List.modify_eq_self (Nat.le_refl _), if_pos (Nat.le_refl _),
          Nat.sub_self, List.modify_zero_cons]
      rw [List.filterMap_cons_some (by rw [hvalue, Option.map_some]), List.foldl_cons, hplace,
        hnext]
      rfl

/-! ### Ranks -/

/-- The rank of an element with a property, counted from zero among those that have it, is the
number of those before it. Ranks are consecutive. -/
theorem map_countP_take_eq_range (p : α → Bool) (xs : List α) :
    (xs.zipIdx.filter fun q ↦ p q.1).map (fun q ↦ (xs.take q.2).countP p) =
      List.range (xs.countP p) := by
  induction xs using List.reverseRecOn with
  | nil => rfl
  | append_singleton xs x ih =>
    have hbefore : ((xs.zipIdx.filter fun q ↦ p q.1).map fun q ↦ ((xs ++ [x]).take q.2).countP p) =
        List.range (xs.countP p) := by
      rw [← ih]
      refine List.map_congr_left fun q hq ↦ ?_
      have hlt := (List.getElem?_eq_some_iff.mp
        (List.mem_zipIdx_iff_getElem?.mp (List.mem_of_mem_filter hq))).1
      rw [List.take_append_of_le_length (Nat.le_of_lt hlt)]
    rw [List.zipIdx_append, List.filter_append, List.map_append, hbefore, List.countP_append]
    cases hx : p x with
    | false => simp [hx]
    | true => simp [hx, List.range_succ]

end ApiDocs
