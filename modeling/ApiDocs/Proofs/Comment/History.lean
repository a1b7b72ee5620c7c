import ApiDocs.Proofs.Comment.Collection
import Mathlib.Data.Finset.Card

/-!
# Histories of insertions

A collection of comments is built by insertions alone, and what it holds can be told from the list
of all comments that were ever inserted: the ids in the order in which they first appeared, and
under each id the comment that came last.

## Main definitions

* `Comments.firstPlace`: where an id first appears in a history.
* `Comments.Remembers`: what a collection holds after a history of insertions.

## Main results

* `Comments.entries_foldl_insert`: the entries after a history are the last comment of each id.
* `Comments.pairwise_firstPlace_eraseDups`: ids without repetition stand in the order of their first
  appearance.
* `Comments.remembers_foldl_insert`: a collection remembers its whole history.
-/

namespace ApiDocs.Comments

/-- The number of insertions before the first one under an id. -/
def firstPlace (history : List Comment) (key : String) : Nat :=
  history.findIdx fun c ↦ c.key == key

/-- What a collection holds after a history of insertions: a map that keeps the order of its ids and
under each of them the last value. -/
structure Remembers (history : List Comment) (cs : Comments) : Prop where
  /-- Every id that was inserted is met once, and no other. -/
  count_keys : ∀ key, cs.keys.count key = if ∃ c ∈ history, c.key = key then 1 else 0
  /-- The ids are met in the order of their first insertion. -/
  pairwise_keys : cs.keys.Pairwise fun key key' ↦ firstPlace history key < firstPlace history key'
  /-- The comment that is met under an id is the one that is looked up there. -/
  entries_eq : cs.entries.map some = cs.keys.map cs.get?
  /-- A lookup gives the last comment that was inserted under the id. -/
  get?_eq : ∀ key, cs.get? key = last? history key
  /-- The ids that were inserted are the ones that are there. -/
  contains_iff : ∀ key, cs.contains key = true ↔ ∃ c ∈ history, c.key = key
  /-- There are as many comments as different ids. -/
  size_eq : cs.size = (history.map Comment.key).toFinset.card
  /-- A comment is found under its own id only. -/
  key_eq : ∀ key c, cs.get? key = some c → c.key = key

/-! ### Ids in the order of their first appearance -/

/-- Further insertions do not change where an id first appeared. -/
theorem firstPlace_concat {history : List Comment} {key : String}
    (h : key ∈ history.map Comment.key) (c : Comment) :
    firstPlace (history ++ [c]) key = firstPlace history key := by
  obtain ⟨d, hd, rfl⟩ := List.mem_map.mp h
  have hlt : history.findIdx (fun c ↦ c.key == d.key) < history.length :=
    List.findIdx_lt_length_of_exists ⟨d, hd, beq_self_eq_true d.key⟩
  rw [firstPlace, firstPlace, List.findIdx_append, if_pos hlt]

/-- An id that is new appears after all others. -/
theorem firstPlace_lt_of_notMem {history : List Comment} {key : String} {c : Comment}
    (h : key ∈ history.map Comment.key) (hnew : c.key ∉ history.map Comment.key) :
    firstPlace (history ++ [c]) key < firstPlace (history ++ [c]) c.key := by
  obtain ⟨d, hd, rfl⟩ := List.mem_map.mp h
  have hlt : history.findIdx (fun c ↦ c.key == d.key) < history.length :=
    List.findIdx_lt_length_of_exists ⟨d, hd, beq_self_eq_true d.key⟩
  have hend : history.findIdx (fun d ↦ d.key == c.key) = history.length :=
    List.findIdx_eq_length_of_false fun d hd ↦
      beq_eq_false_iff_ne.mpr fun heq ↦ hnew (heq ▸ List.mem_map_of_mem hd)
  rw [firstPlace_concat h, firstPlace, firstPlace, List.findIdx_append, hend,
    if_neg (Nat.lt_irrefl _)]
  omega

/-- The ids of a history, each taken once, stand in the order of their first appearance. -/
theorem pairwise_firstPlace_eraseDups (history : List Comment) :
    (history.map Comment.key).eraseDups.Pairwise fun key key' ↦
      firstPlace history key < firstPlace history key' := by
  induction history using List.reverseRecOn with
  | nil => exact List.Pairwise.nil
  | append_singleton history c ih =>
    have hkept : (history.map Comment.key).eraseDups.Pairwise fun key key' ↦
        firstPlace (history ++ [c]) key < firstPlace (history ++ [c]) key' := by
      refine ih.imp_of_mem fun hkey hkey' hlt ↦ ?_
      rw [List.mem_eraseDups] at hkey hkey'
      rwa [firstPlace_concat hkey, firstPlace_concat hkey']
    rw [List.map_append, List.map_singleton, eraseDups_concat]
    by_cases h : c.key ∈ history.map Comment.key
    · rwa [if_pos h]
    · rw [if_neg h, List.pairwise_append]
      refine ⟨hkept, List.pairwise_singleton _ _, fun key hkey key' hkey' ↦ ?_⟩
      rw [List.mem_singleton.mp hkey']
      exact firstPlace_lt_of_notMem (List.mem_eraseDups.mp hkey) h

/-! ### The last comments -/

/-- The ids of the last comments are all ids, each once. -/
theorem map_key_latest (history : List Comment) :
    (latest history).map Comment.key = (history.map Comment.key).eraseDups := by
  have hkeys (keys : List String) (h : ∀ key ∈ keys, (last? history key).isSome) :
      (keys.filterMap (last? history)).map Comment.key = keys := by
    induction keys with
    | nil => rfl
    | cons key keys ih =>
      obtain ⟨hkey, hkeys⟩ := List.forall_mem_cons.mp h
      obtain ⟨c, hc⟩ := Option.isSome_iff_exists.mp hkey
      rw [List.filterMap_cons_some hc, List.map_cons, ih hkeys, key_of_last? hc]
  exact hkeys _ fun key hkey ↦ isSome_last? (List.mem_eraseDups.mp hkey)

/-- A comment is among the last exactly if it is the last under its id. -/
theorem mem_latest_iff {history : List Comment} {c : Comment} :
    c ∈ latest history ↔ last? history c.key = some c := by
  rw [latest, List.mem_filterMap]
  constructor
  · rintro ⟨key, -, hlast⟩
    rwa [key_of_last? hlast]
  · intro hlast
    have hmem : c ∈ history := List.mem_reverse.mp (List.mem_of_find?_eq_some hlast)
    exact ⟨c.key, List.mem_eraseDups.mpr (List.mem_map_of_mem hmem), hlast⟩

theorem entries_foldl_insert (history : List Comment) :
    (history.foldl insert empty).entries = latest history := by
  induction history using List.reverseRecOn with
  | nil => rfl
  | append_singleton history c ih =>
    rw [List.foldl_append, ← place_latest, ← ih]
    rfl

/-- Whatever comments are inserted one after another into an empty collection, it is afterwards a
map from ids to the last comment of each, in the order in which the ids first appeared. -/
theorem remembers_foldl_insert (history : List Comment) :
    Remembers history (history.foldl insert empty) := by
  have hentries := entries_foldl_insert history
  have hkeys : (history.foldl insert empty).keys = (history.map Comment.key).eraseDups := by
    rw [keys, hentries, map_key_latest]
  have hmem (key : String) :
      key ∈ (history.foldl insert empty).keys ↔ ∃ c ∈ history, c.key = key := by
    rw [hkeys, List.mem_eraseDups, List.mem_map]
  have hnodup : (history.foldl insert empty).keys.Nodup :=
    (history.foldl insert empty).nodup_keys
  refine ⟨fun key ↦ ?_, hkeys ▸ pairwise_firstPlace_eraseDups history, ?_, fun key ↦ ?_,
    fun key ↦ ?_, ?_, fun key c ↦ key_of_get?⟩
  · rw [hnodup.count]
    simp only [hmem]
  · rw [keys, List.map_map]
    exact List.map_congr_left fun c hc ↦ (get?_eq_some_iff.mpr ⟨hc, rfl⟩).symm
  · refine Option.ext fun c ↦ ?_
    rw [get?_eq_some_iff, hentries, mem_latest_iff]
    constructor
    · rintro ⟨hlast, rfl⟩
      exact hlast
    · intro hlast
      rw [key_of_last? hlast]
      exact ⟨hlast, rfl⟩
  · rw [contains_iff, hmem]
  · have hsize : (history.foldl insert empty).keys.length = (history.foldl insert empty).size :=
      List.length_map _
    rw [← hsize, ← List.toFinset_card_of_nodup hnodup]
    refine congrArg Finset.card (Finset.ext fun key ↦ ?_)
    rw [List.mem_toFinset, hmem, List.mem_toFinset, List.mem_map]

end ApiDocs.Comments
