import ApiDocs.Comment.Basic

/-!
# Collections of comments

The comments of one documentation file, at most one for each id, in the order in which the ids first
appeared. A later comment under the same id takes the place of the earlier one.

## Main definitions

* `Comments`: the comments of a file, and the name of the assembly they are about.
* `Comments.insert`: adds or replaces a comment.
* `Comments.get?`, `Comments.contains`, `Comments.namespaceComment?`: lookups.

## Main results

* `Comments.keys_insert`: the keys after an insertion.
-/

namespace ApiDocs

/-- The comments of a documentation file. -/
structure Comments where
  /-- The name of the assembly that the comments are about. -/
  assemblyName : Option String
  /-- The comments in the order of their ids' first appearance. -/
  entries : List Comment
  /-- No two comments have the same id. -/
  nodup_keys : (entries.map Comment.key).Nodup
deriving DecidableEq

namespace Comments

/-- No comments, about no assembly. -/
def empty : Comments :=
  ⟨none, [], List.nodup_nil⟩

/-- Puts a comment in the place of the one with the same id, or else at the end. -/
def place (c : Comment) : List Comment → List Comment
  | [] => [c]
  | d :: ds => if d.key = c.key then c :: ds else d :: place c ds

theorem map_key_place (c : Comment) (ds : List Comment) :
    (place c ds).map Comment.key =
      if c.key ∈ ds.map Comment.key then ds.map Comment.key else ds.map Comment.key ++ [c.key] := by
  induction ds with
  | nil => simp [place]
  | cons d ds ih =>
    by_cases h : d.key = c.key
    · simp [place, h]
    · have h' : c.key ≠ d.key := Ne.symm h
      simp only [place, h, if_false, List.map_cons, ih, List.mem_cons, h', false_or]
      split <;> simp

theorem nodup_map_key_place (c : Comment) {ds : List Comment} (h : (ds.map Comment.key).Nodup) :
    ((place c ds).map Comment.key).Nodup := by
  rw [map_key_place]
  split
  · exact h
  · rename_i hc
    rw [List.nodup_append]
    exact ⟨h, by simp, fun a ha b hb ↦ by simp only [List.mem_singleton] at hb; grind⟩

/-- Adds a comment. A comment under the same id is replaced and keeps its place. -/
def insert (cs : Comments) (c : Comment) : Comments :=
  { cs with entries := place c cs.entries, nodup_keys := nodup_map_key_place c cs.nodup_keys }

/-- The comments of a list, inserted one after another. -/
def ofList (assemblyName : Option String) (entries : List Comment) : Comments :=
  entries.foldl insert { empty with assemblyName }

/-- The comment under an id. -/
def get? (cs : Comments) (key : String) : Option Comment :=
  cs.entries.find? fun c ↦ c.key == key

/-- Whether there is a comment under an id. -/
def contains (cs : Comments) (key : String) : Bool :=
  cs.entries.any fun c ↦ c.key == key

/-- The ids of all comments, in order. -/
def keys (cs : Comments) : List String :=
  cs.entries.map Comment.key

/-- The number of comments. -/
def size (cs : Comments) : Nat :=
  cs.entries.length

/-- The comment about a namespace, under its documentation id or else under its bare name. -/
def namespaceComment? (cs : Comments) (name : String) : Option Comment :=
  cs.get? (TypeName.namespaceDocId name) <|> cs.get? name

/-- An insertion keeps the ids there are and appends one that is new. -/
@[simp] theorem keys_insert (cs : Comments) (c : Comment) :
    (cs.insert c).keys = if c.key ∈ cs.keys then cs.keys else cs.keys ++ [c.key] :=
  map_key_place c cs.entries

end Comments

end ApiDocs
