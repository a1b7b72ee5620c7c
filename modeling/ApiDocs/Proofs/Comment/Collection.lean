import ApiDocs.Comment.Collection
import ApiDocs.Proofs.Lists

/-!
# Comments inserted one after another

A collection that comments are inserted into holds the last comment of each id, in the order in
which the ids first appeared.

## Main definitions

* `Comments.latest`: the last comment of each id in a list.

## Main results

* `Comments.get?_eq_some_iff`: what is found under an id.
* `Comments.place_latest`: one more comment takes its place among the last comments.
* `Comments.latest_of_nodup`: if no id is repeated, all comments are the last of their id.
-/

namespace ApiDocs.Comments

/-! ### Lookups -/

theorem contains_iff {comments : Comments} {key : String} :
    comments.contains key = true ↔ key ∈ comments.keys := by
  simp only [contains, keys, List.any_eq_true, List.mem_map, beq_iff_eq]

theorem isSome_get? {comments : Comments} {key : String} (h : key ∈ comments.keys) :
    (comments.get? key).isSome = true := by
  obtain ⟨c, hc, rfl⟩ := List.mem_map.mp h
  exact List.find?_isSome.mpr ⟨c, hc, beq_self_eq_true c.key⟩

theorem key_of_get? {comments : Comments} {key : String} {c : Comment}
    (h : comments.get? key = some c) : c.key = key := by
  have hbeq := List.find?_some h
  exact eq_of_beq hbeq

/-- A lookup gives the entry with the id, since no other one has it. -/
theorem get?_eq_some_iff {comments : Comments} {key : String} {c : Comment} :
    comments.get? key = some c ↔ c ∈ comments.entries ∧ c.key = key := by
  refine ⟨fun h ↦ ⟨List.mem_of_find?_eq_some h, key_of_get? h⟩, ?_⟩
  rintro ⟨hc, rfl⟩
  obtain ⟨d, hd⟩ := Option.isSome_iff_exists.mp (isSome_get? (List.mem_map_of_mem hc))
  rw [hd, List.inj_on_of_nodup_map comments.nodup_keys (List.mem_of_find?_eq_some hd) hc
    (key_of_get? hd)]

/-! ### The last comments -/

/-- The last comment under an id. -/
def last? (cs : List Comment) (key : String) : Option Comment :=
  cs.reverse.find? fun c ↦ c.key == key

/-- The last comment of each id, in the order of the ids' first appearance. -/
def latest (cs : List Comment) : List Comment :=
  (cs.map Comment.key).eraseDups.filterMap (last? cs)

theorem key_of_last? {cs : List Comment} {key : String} {c : Comment}
    (h : last? cs key = some c) : c.key = key := by
  have hbeq := List.find?_some h
  exact eq_of_beq hbeq

theorem isSome_last? {cs : List Comment} {key : String} (h : key ∈ cs.map Comment.key) :
    (last? cs key).isSome := by
  obtain ⟨c, hc, rfl⟩ := List.mem_map.mp h
  exact List.find?_isSome.mpr ⟨c, List.mem_reverse.mpr hc, beq_self_eq_true c.key⟩

theorem last?_concat (cs : List Comment) (c : Comment) (key : String) :
    last? (cs ++ [c]) key = if key = c.key then some c else last? cs key := by
  rw [last?, List.reverse_concat, List.find?_cons]
  by_cases h : key = c.key
  · rw [if_pos h, h, beq_self_eq_true]
  · rw [if_neg h, beq_eq_false_iff_ne.mpr (Ne.symm h), last?]

/-- Placing a comment among comments that are given by their ids changes the one under its id, or
appends it. -/
theorem place_filterMap (c : Comment) {get? : String → Option Comment} {keys : List String}
    (hkey : ∀ key d, get? key = some d → d.key = key) (hsome : ∀ key ∈ keys, (get? key).isSome)
    (hnodup : keys.Nodup) :
    place c (keys.filterMap get?) =
      if c.key ∈ keys then keys.filterMap fun key ↦ if key = c.key then some c else get? key
      else keys.filterMap get? ++ [c] := by
  induction keys with
  | nil => rfl
  | cons key keys ih =>
    obtain ⟨hnew, hnodup⟩ := List.nodup_cons.mp hnodup
    obtain ⟨d, hd⟩ := Option.isSome_iff_exists.mp (hsome key List.mem_cons_self)
    have ih := ih (fun k hk ↦ hsome k (List.mem_cons_of_mem key hk)) hnodup
    rw [List.filterMap_cons_some hd, place, hkey key d hd]
    by_cases h : key = c.key
    · have hrest : (keys.filterMap fun k ↦ if k = c.key then some c else get? k) =
          keys.filterMap get? :=
        List.filterMap_congr fun k hk ↦ if_neg fun (hk' : k = c.key) ↦
          hnew (h.trans hk'.symm ▸ hk)
      rw [if_pos h, if_pos (h ▸ List.mem_cons_self), List.filterMap_cons, if_pos h, hrest]
    · rw [if_neg h, ih]
      by_cases hmem : c.key ∈ keys
      · rw [if_pos hmem, if_pos (List.mem_cons_of_mem key hmem),
          List.filterMap_cons, if_neg h, hd]
      · rw [if_neg hmem, if_neg fun hc ↦ (List.mem_cons.mp hc).elim (h ·.symm) hmem]
        rfl

/-- Placing one more comment among the last comments keeps them the last. -/
theorem place_latest (c : Comment) (cs : List Comment) :
    place c (latest cs) = latest (cs ++ [c]) := by
  have hsome (key : String) (h : key ∈ (cs.map Comment.key).eraseDups) : (last? cs key).isSome :=
    isSome_last? (List.mem_eraseDups.mp h)
  have hlast : last? (cs ++ [c]) = fun key ↦ if key = c.key then some c else last? cs key :=
    funext (last?_concat cs c)
  rw [latest, place_filterMap c (fun _ _ ↦ key_of_last?) hsome (nodup_eraseDups _), latest,
    List.map_append, List.map_singleton, eraseDups_concat, hlast]
  by_cases h : c.key ∈ cs.map Comment.key
  · rw [if_pos (List.mem_eraseDups.mpr h), if_pos h]
  · have hothers : (cs.map Comment.key).eraseDups.filterMap (last? cs) =
        (cs.map Comment.key).eraseDups.filterMap fun key ↦
          if key = c.key then some c else last? cs key :=
      List.filterMap_congr fun key hkey ↦ (if_neg fun (hc : key = c.key) ↦
        h (hc ▸ List.mem_eraseDups.mp hkey)).symm
    rw [if_neg (mt List.mem_eraseDups.mp h), if_neg h, List.filterMap_append, ← hothers]
    simp

theorem place_of_notMem {c : Comment} {ds : List Comment} (h : c.key ∉ ds.map Comment.key) :
    place c ds = ds ++ [c] := by
  induction ds with
  | nil => rfl
  | cons d ds ih =>
    rw [List.map_cons, List.mem_cons, not_or] at h
    rw [place, if_neg (Ne.symm h.1), ih h.2, List.cons_append]

/-- Comments under different ids are all the last of their id. -/
theorem latest_of_nodup {cs : List Comment} (h : (cs.map Comment.key).Nodup) : latest cs = cs := by
  induction cs using List.reverseRecOn with
  | nil => rfl
  | append_singleton cs c ih =>
    rw [List.map_append, List.nodup_append] at h
    obtain ⟨hcs, -, hnew⟩ := h
    rw [← place_latest, ih hcs]
    exact place_of_notMem fun hc ↦ hnew _ hc _ (List.mem_singleton_self _) rfl

end ApiDocs.Comments
