/-!
# Search by halving

A list that is ordered by a key is searched by halving. What is searched for is given by the `rank`
of an element: whether the element stands before it, is it, or stands after it.

## Main definitions

* `Search.seek`: the place where halving ends.
* `Search.position?`, `Search.find?`: the place and the element that are searched for.
* `Search.Ranked`: lists in which the search finds what is there.

## Main results

* `Search.find?_eq_some_iff`: what the search finds in an ordered list.
* `Search.position?_map`: the search depends on the ranks only.
-/

namespace ApiDocs.Search

variable {α β : Type}

/-- The place where halving ends. The middle element decides which part is kept; the place of the
middle belongs to the second part. -/
def seek (rank : α → Ordering) (xs : List α) : Nat :=
  if 1 < xs.length then
    let half := xs.length / 2
    if xs[half]?.map rank = some .gt then
      seek rank (xs.take (xs.length - half))
    else
      half + seek rank (xs.drop half)
  else
    0
termination_by xs.length
decreasing_by
  · rw [List.length_take]
    omega
  · rw [List.length_drop]
    omega

/-- The place of the element that is searched for. -/
def position? (rank : α → Ordering) (xs : List α) : Option Nat :=
  if xs[seek rank xs]?.map rank = some .eq then some (seek rank xs) else none

/-- The element that is searched for. -/
def find? (rank : α → Ordering) (xs : List α) : Option α :=
  (position? rank xs).bind fun i ↦ xs[i]?

/-- Of any two elements, the first stands before what is searched for or the second after it. -/
def Ranked (rank : α → Ordering) (xs : List α) : Prop :=
  xs.Pairwise fun a b ↦ rank a = .lt ∨ rank b = .gt

/-- Halving ends at the place of the element that is searched for. -/
theorem seek_eq {rank : α → Ordering} {xs : List α} (h : Ranked rank xs) {i : Nat} {x : α}
    (hi : xs[i]? = some x) (hx : rank x = .eq) : seek rank xs = i := by
  have hpair := List.pairwise_iff_getElem.mp h
  obtain ⟨hlt, hget⟩ := List.getElem?_eq_some_iff.mp hi
  induction xs using seek.induct rank generalizing i with
  | case1 xs hlen half hgt ih =>
    -- the middle stands after the element, so the element is in the first part
    have hhalf : i < half := by
      rcases Nat.lt_trichotomy i half with hlt | rfl | hgt'
      · exact hlt
      · simp [hi, hx] at hgt
      · have := hpair half i (by omega) hlt hgt'
        grind
    rw [seek, if_pos hlen, if_pos hgt]
    refine ih (h.sublist (List.take_sublist _ _)) ?_ ?_ ?_ ?_
    · rw [List.getElem?_take, if_pos (by omega), hi]
    · exact List.pairwise_iff_getElem.mp (h.sublist (List.take_sublist _ _))
    · rw [List.length_take]
      omega
    · rw [List.getElem_take, hget]
  | case2 xs hlen half hgt ih =>
    have hhalf : half ≤ i := by
      rcases Nat.lt_or_ge i half with hlt' | hle
      · have := hpair i half hlt (by omega) hlt'
        grind
      · exact hle
    have hrest : seek rank (xs.drop half) = i - half := by
      refine ih (h.sublist (List.drop_sublist _ _)) ?_ ?_ ?_ ?_
      · rw [List.getElem?_drop, Nat.add_sub_cancel' hhalf, hi]
      · exact List.pairwise_iff_getElem.mp (h.sublist (List.drop_sublist _ _))
      · rw [List.length_drop]
        omega
      · rw [List.getElem_drop]
        simp only [Nat.add_sub_cancel' hhalf, hget]
    rw [seek, if_pos hlen, if_neg hgt]
    change half + seek rank (xs.drop half) = i
    omega
  | case3 xs hlen =>
    rw [seek, if_neg hlen]
    omega

/-- What the search finds is what is searched for, in any list. -/
theorem exists_of_position? {rank : α → Ordering} {xs : List α} {i : Nat}
    (hi : position? rank xs = some i) : ∃ x, xs[i]? = some x ∧ rank x = .eq := by
  unfold position? at hi
  split at hi
  · rename_i heq
    obtain rfl := Option.some.inj hi
    exact Option.map_eq_some_iff.mp heq
  · cases hi

theorem position?_eq_some_iff {rank : α → Ordering} {xs : List α} (h : Ranked rank xs) {i : Nat} :
    position? rank xs = some i ↔ ∃ x, xs[i]? = some x ∧ rank x = .eq := by
  constructor
  · exact exists_of_position?
  · rintro ⟨x, hi, hx⟩
    rw [position?, seek_eq h hi hx, hi, Option.map_some, hx, if_pos rfl]

/-- In an ordered list the search finds exactly the element that is searched for. -/
theorem find?_eq_some_iff {rank : α → Ordering} {xs : List α} (h : Ranked rank xs) {x : α} :
    find? rank xs = some x ↔ x ∈ xs ∧ rank x = .eq := by
  constructor
  · intro hx
    obtain ⟨i, hi, hix⟩ := Option.bind_eq_some_iff.mp hx
    obtain ⟨y, hiy, hy⟩ := (position?_eq_some_iff h).mp hi
    obtain rfl := Option.some.inj (hiy.symm.trans hix)
    exact ⟨List.mem_of_getElem? hiy, hy⟩
  · rintro ⟨hmem, hx⟩
    obtain ⟨i, hi⟩ := List.getElem?_of_mem hmem
    rw [find?, (position?_eq_some_iff h).mpr ⟨x, hi, hx⟩, Option.bind_some, hi]

/-! ### Changes that keep ranks -/

theorem seek_map (f : α → β) (rank : β → Ordering) (xs : List α) :
    seek rank (xs.map f) = seek (fun x ↦ rank (f x)) xs := by
  induction xs using seek.induct (fun x ↦ rank (f x)) with
  | case1 xs hlen half hgt ih =>
    rw [seek, seek, List.length_map, if_pos hlen, if_pos hlen, if_pos hgt]
    rw [if_pos (by simpa [half, Function.comp_def] using hgt), ← List.map_take]
    exact ih
  | case2 xs hlen half hgt ih =>
    rw [seek, seek, List.length_map, if_pos hlen, if_pos hlen, if_neg hgt]
    rw [if_neg (by simpa [half, Function.comp_def] using hgt), ← List.map_drop, ih]
  | case3 xs hlen =>
    rw [seek, seek, List.length_map, if_neg hlen, if_neg hlen]

/-- The search depends on the ranks of the elements only. -/
theorem position?_map (f : α → β) (rank : β → Ordering) (xs : List α) :
    position? rank (xs.map f) = position? (fun x ↦ rank (f x)) xs := by
  simp only [position?, seek_map, List.getElem?_map, Option.map_map, Function.comp_def]

end ApiDocs.Search
