import ApiDocs.Proofs.Snapshot.RoundTrip

/-!
# Snapshots written again

A snapshot that has been read may leave out fields that hold a default, and a snapshot that is
written has them all. Most of these fields stand near the top, or add no array or object of their
own. Only the empty list of arguments of a named type can stand anywhere, one level below its type.
So what is written for a snapshot that has been read nests no deeper than the snapshot, except where
a named type without arguments stands on the last level.

The bound is carried along with a number of levels: a value *nests within* so many levels if every
level below them that it reaches is reached through a named type without arguments.

## Main definitions

* `Json.HoldsAt`: a value has a part on some level.
* `Snapshot.NestsWithin`: a value nests within a number of levels, named types without arguments
  apart.
* `Snapshot.Keeps`: what is written for a value that has been read nests no deeper than the value.

## Main results

* `Snapshot.keeps_typeExpr`, `Snapshot.keeps_memberDecl`, `Snapshot.keeps_assemblyDecl`: what is
  read is written within the same levels.
* `Snapshot.read_encode_of_decodeBytes?`: a snapshot that has been read can be written and read
  again, unless a named type without arguments stands on the last level.
-/

namespace ApiDocs

/-! ### Levels of a value -/

namespace Json

/-- A value has a part on a level. The value itself is on the first level, and what an array or
object holds is one level below it. -/
inductive HoldsAt (part : Json) : Json → Nat → Prop where
  | self : HoldsAt part part 1
  | item {items : List Json} {item : Json} {level : Nat} (hmem : item ∈ items)
      (hitem : HoldsAt part item level) : HoldsAt part (arr items) (level + 1)
  | field {fields : List (JsonText × Json)} {field : JsonText × Json} {level : Nat}
      (hmem : field ∈ fields) (hvalue : HoldsAt part field.2 level) :
      HoldsAt part (obj fields) (level + 1)

theorem depthItems_le_iff {items : List Json} {n : Nat} :
    depthItems items ≤ n ↔ ∀ item ∈ items, item.depth ≤ n := by
  induction items with
  | nil => exact iff_of_true (Nat.zero_le n) fun _ h ↦ absurd h List.not_mem_nil
  | cons first items ih => rw [depthItems, Nat.max_le, List.forall_mem_cons, ih]

theorem depthFields_le_iff {fields : List (JsonText × Json)} {n : Nat} :
    depthFields fields ≤ n ↔ ∀ field ∈ fields, field.2.depth ≤ n := by
  induction fields with
  | nil => exact iff_of_true (Nat.zero_le n) fun _ h ↦ absurd h List.not_mem_nil
  | cons first fields ih => rw [depthFields, Nat.max_le, List.forall_mem_cons, ih]

/-- A part on a level makes a value as deep as the part is below that level. -/
theorem HoldsAt.depth_le {part value : Json} {level : Nat} (h : HoldsAt part value level) :
    level + part.depth ≤ value.depth + 1 := by
  induction h with
  | self => omega
  | item hmem _ ih =>
    have := depthItems_le_iff.mp (Nat.le_refl _) _ hmem
    rw [depth]
    omega
  | field hmem _ ih =>
    have := depthFields_le_iff.mp (Nat.le_refl _) _ hmem
    rw [depth]
    omega

end Json

/-! ### Values that nest within some levels -/

namespace Snapshot

/-- A value reaches a level below the first `n` only if a named type without arguments stands on
that level. -/
def NestsWithin (n : Nat) (value : Json) : Prop :=
  ∀ level, n ≤ level → level < value.depth →
    ∃ fullName, Json.HoldsAt (TypeExpr.named fullName []).toJson value level

section

variable {m n : Nat}

theorem NestsWithin.mono {value : Json} (h : NestsWithin m value) (hle : m ≤ n) :
    NestsWithin n value :=
  fun level hlevel ↦ h level (Nat.le_trans hle hlevel)

theorem nestsWithin_of_depth_le {value : Json} (h : value.depth ≤ n) : NestsWithin n value :=
  fun _ hlevel hlt ↦ absurd (Nat.lt_of_lt_of_le hlt h) (Nat.not_lt.mpr hlevel)

@[simp] theorem nestsWithin_null : NestsWithin n .null :=
  nestsWithin_of_depth_le (Nat.zero_le n)

@[simp] theorem nestsWithin_bool (b : Bool) : NestsWithin n (.bool b) :=
  nestsWithin_of_depth_le (Nat.zero_le n)

@[simp] theorem nestsWithin_text (s : String) : NestsWithin n (.text s) :=
  nestsWithin_of_depth_le (Nat.zero_le n)

@[simp] theorem nestsWithin_word (w : UInt32) : NestsWithin n (.word w) :=
  nestsWithin_of_depth_le (Nat.zero_le n)

theorem nestsWithin_arr {items : List Json} (h : ∀ item ∈ items, NestsWithin n item) :
    NestsWithin (n + 1) (.arr items) := by
  intro level hlevel hlt
  obtain ⟨level, rfl⟩ := Nat.exists_eq_add_one.mpr (Nat.lt_of_lt_of_le n.succ_pos hlevel)
  rw [Json.depth, Nat.add_lt_add_iff_right, ← Nat.not_le, Json.depthItems_le_iff] at hlt
  obtain ⟨item, hmem, hitem⟩ : ∃ item ∈ items, level < item.depth := by simpa using hlt
  obtain ⟨fullName, hholds⟩ := h item hmem level (Nat.le_of_add_le_add_right hlevel) hitem
  exact ⟨fullName, .item hmem hholds⟩

theorem nestsWithin_object {fields : List (String × Json)}
    (h : ∀ field ∈ fields, NestsWithin n field.2) : NestsWithin (n + 1) (.object fields) := by
  intro level hlevel hlt
  obtain ⟨level, rfl⟩ := Nat.exists_eq_add_one.mpr (Nat.lt_of_lt_of_le n.succ_pos hlevel)
  rw [Json.object, Json.depth, Nat.add_lt_add_iff_right, ← Nat.not_le, Json.depthFields_le_iff,
    List.forall_mem_map] at hlt
  obtain ⟨field, hmem, hfield⟩ : ∃ field ∈ fields, level < field.2.depth := by
    simpa using hlt
  obtain ⟨fullName, hholds⟩ := h field hmem level (Nat.le_of_add_le_add_right hlevel) hfield
  exact ⟨fullName, .field (List.mem_map_of_mem hmem) hholds⟩

/-- A named type without arguments takes one level, whatever is written for its arguments. -/
theorem nestsWithin_named_nil (fullName : String) :
    NestsWithin (n + 1) (TypeExpr.named fullName []).toJson := by
  intro level hlevel hlt
  have hdepth : (TypeExpr.named fullName []).toJson.depth = 2 := rfl
  obtain rfl : level = 1 := by omega
  exact ⟨fullName, .self⟩

end

/-! ### Reading parts of a value -/

section

variable {value : Json} {fields : List (JsonText × Json)} {n : Nat}

theorem exists_of_fields? (h : value.fields? = some fields) (hdepth : value.depth ≤ n) :
    ∃ m, n = m + 1 ∧ Json.depthFields fields ≤ m := by
  match value, h with
  | .obj _, rfl =>
    obtain ⟨m, rfl⟩ := Nat.exists_eq_add_one.mpr (Nat.lt_of_lt_of_le (Nat.succ_pos _) hdepth)
    exact ⟨m, rfl, Nat.le_of_add_le_add_right hdepth⟩

theorem exists_of_items? {items : List Json} (h : value.items? = some items)
    (hdepth : value.depth ≤ n) : ∃ m, n = m + 1 ∧ ∀ item ∈ items, item.depth ≤ m := by
  match value, h with
  | .arr _, rfl =>
    obtain ⟨m, rfl⟩ := Nat.exists_eq_add_one.mpr (Nat.lt_of_lt_of_le (Nat.succ_pos _) hdepth)
    exact ⟨m, rfl, Json.depthItems_le_iff.mp (Nat.le_of_add_le_add_right hdepth)⟩

/-- An object that stands for an array nests no deeper than the array. -/
theorem depth_object_zip_le (names : List String) (items : List Json) :
    (Json.object (names.zip items)).depth ≤ (Json.arr items).depth := by
  rw [Json.object, Json.depth, Json.depth, Nat.add_le_add_iff_right, Json.depthFields_le_iff,
    List.forall_mem_map]
  intro field hfield
  exact Json.depthItems_le_iff.mp (Nat.le_refl _) field.2 (List.of_mem_zip hfield).2

theorem depth_asRecord_le (names : List String) (value : Json) :
    (value.asRecord names).depth ≤ value.depth := by
  unfold Json.asRecord
  split
  · split
    · exact depth_object_zip_le ..
    · exact Nat.le_refl _
  · exact Nat.le_refl _

theorem exists_of_record? {names : List String} (h : value.record? names = some fields)
    (hdepth : value.depth ≤ n) : ∃ m, n = m + 1 ∧ Json.depthFields fields ≤ m :=
  exists_of_fields? h (Nat.le_trans (depth_asRecord_le names value) hdepth)

/-- The value under a name nests no deeper than the fields. -/
theorem depth_le_of_unique? {name : String} {found : Json}
    (h : JsonFields.unique? fields name = some (some found)) :
    found.depth ≤ Json.depthFields fields := by
  unfold JsonFields.unique? at h
  split at h
  · exact absurd h nofun
  · rename_i key _ hfilter
    obtain rfl := Option.some.inj (Option.some.inj h)
    have hmem := (List.mem_filter.mp (hfilter ▸ List.mem_singleton_self (key, _))).1
    exact Json.depthFields_le_iff.mp (Nat.le_refl _) _ hmem
  · exact absurd h nofun

theorem exists_of_required {α : Type} {name : String} {read : Json → Option α} {x : α}
    (h : JsonFields.required fields name read = some x) :
    ∃ found, found.depth ≤ Json.depthFields fields ∧ read found = some x := by
  obtain ⟨found?, hunique, hread⟩ := Option.bind_eq_some_iff.mp h
  match found?, hread with
  | some found, hread => exact ⟨found, depth_le_of_unique? hunique, hread⟩

theorem exists_of_optional {α : Type} {name : String} {default : α} {read : Json → Option α}
    {x : α} (h : JsonFields.optional fields name default read = some x) :
    x = default ∨ ∃ found, found.depth ≤ Json.depthFields fields ∧ read found = some x := by
  obtain ⟨found?, hunique, hread⟩ := Option.bind_eq_some_iff.mp h
  match found?, hread with
  | some found, hread => exact .inr ⟨found, depth_le_of_unique? hunique, hread⟩
  | none, hread => exact .inl (Option.some.inj hread).symm

end

/-! ### Reading and writing -/

/-- What is written for a value that has been read nests no deeper than the value, as soon as so
many levels are allowed. -/
def Keeps {α : Type} (least : Nat) (read : Json → Option α) (write : α → Json) : Prop :=
  ∀ ⦃value : Json⦄ ⦃x : α⦄ ⦃n : Nat⦄, read value = some x → value.depth ≤ n → least ≤ n →
    NestsWithin n (write x)

section

variable {α : Type} {least n : Nat} {read : Json → Option α} {write : α → Json}
  {fields : List (JsonText × Json)} {name : String} {x : α}

theorem Keeps.required (h : Keeps least read write)
    (hread : JsonFields.required fields name read = some x)
    (hdepth : Json.depthFields fields ≤ n) (hn : least ≤ n) : NestsWithin n (write x) := by
  obtain ⟨found, hfound, hx⟩ := exists_of_required hread
  exact h hx (Nat.le_trans hfound hdepth) hn

theorem Keeps.optional {default : α} (h : Keeps least read write)
    (hread : JsonFields.optional fields name default read = some x)
    (hdepth : Json.depthFields fields ≤ n) (hn : least ≤ n)
    (hdefault : NestsWithin n (write default)) : NestsWithin n (write x) := by
  rcases exists_of_optional hread with rfl | ⟨found, hfound, hx⟩
  · exact hdefault
  · exact h hx (Nat.le_trans hfound hdepth) hn

theorem exists_mem_of_mapM {items : List Json} {xs : List α} (h : items.mapM read = some xs)
    (hx : x ∈ xs) : ∃ item ∈ items, read item = some x := by
  induction items generalizing xs with
  | nil =>
    obtain rfl := Option.some.inj h
    exact absurd hx List.not_mem_nil
  | cons first items ih =>
    simp only [List.mapM_cons, Option.bind_eq_bind, Option.bind_eq_some_iff, Option.pure_def,
      Option.some.injEq] at h
    obtain ⟨y, hy, ys, hys, rfl⟩ := h
    rcases List.mem_cons.mp hx with rfl | hx
    · exact ⟨first, List.mem_cons_self, hy⟩
    · obtain ⟨item, hmem, hitem⟩ := ih hys hx
      exact ⟨item, List.mem_cons_of_mem first hmem, hitem⟩

/-- Lists are written within the levels they are read from. -/
theorem Keeps.list (h : Keeps (least - 1) read write) :
    Keeps least (Json.list? read) fun xs ↦ .arr (xs.map write) := by
  intro value xs n hread hdepth hn
  obtain ⟨items, hitems, hmap⟩ := Option.bind_eq_some_iff.mp hread
  obtain ⟨m, rfl, hm⟩ := exists_of_items? hitems hdepth
  refine nestsWithin_arr (List.forall_mem_map.mpr fun x hx ↦ ?_)
  obtain ⟨item, hitem, hx⟩ := exists_mem_of_mapM hmap hx
  exact h hx (hm item hitem) (by omega)

/-- Values that may be missing are written within the levels they are read from. -/
theorem Keeps.nullable {write : Option α → Json} (hnone : write none = .null)
    (h : Keeps least read fun x ↦ write (some x)) : Keeps least (Json.nullable read) write := by
  intro value x n hread hdepth hn
  cases x with
  | none => exact hnone ▸ nestsWithin_null
  | some x =>
    unfold Json.nullable at hread
    split at hread
    · exact absurd hread nofun
    · obtain ⟨y, hy, heq⟩ := Option.map_eq_some_iff.mp hread
      obtain rfl := Option.some.inj heq
      exact h hy hdepth hn

end

/-! ### Type expressions -/

theorem exists_of_parts? {isInner : Bool} {value : Json} {kind : String}
    {fields : List (JsonText × Json)} {n : Nat}
    (h : TypeExpr.parts? isInner value = some (kind, fields)) (hdepth : value.depth ≤ n) :
    ∃ m, n = m + 1 ∧ Json.depthFields fields ≤ m := by
  unfold TypeExpr.parts? at h
  simp only at h
  split at h
  · rename_i first items
    obtain ⟨_, -, h⟩ := Option.bind_eq_some_iff.mp h
    obtain ⟨_, hrecord, h⟩ := Option.bind_eq_some_iff.mp h
    obtain ⟨-, rfl⟩ := Prod.mk.inj (Option.some.inj h)
    have htail : (Json.arr items).depth ≤ (Json.arr (first :: items)).depth :=
      Nat.add_le_add_right (Nat.le_max_right ..) 1
    exact exists_of_record? hrecord (Nat.le_trans htail hdepth)
  · obtain ⟨_, hfields, h⟩ := Option.bind_eq_some_iff.mp h
    obtain ⟨_, -, h⟩ := Option.bind_eq_some_iff.mp h
    obtain ⟨-, rfl⟩ := Prod.mk.inj (Option.some.inj h)
    exact exists_of_fields? hfields hdepth

theorem nestsWithin_derived {n : Nat} {target : TypeExpr} (h : NestsWithin n target.toJson)
    (form : TypeForm) : NestsWithin (n + 1) (TypeExpr.derived form target).toJson := by
  cases form <;> exact nestsWithin_object (by simpa using h)

/-- Type expressions are written within the levels they are read from. -/
theorem keeps_typeExpr (levels : Nat) (isInner : Bool) :
    Keeps 0 (TypeExpr.read levels isInner) TypeExpr.toJson := by
  induction levels generalizing isInner with
  | zero => exact fun _ _ _ h ↦ absurd h nofun
  | succ levels ih =>
    intro value t n h hdepth _
    obtain ⟨⟨kind, fields⟩, hparts, h⟩ := Option.bind_eq_some_iff.mp h
    obtain ⟨m, rfl, hfields⟩ := exists_of_parts? hparts hdepth
    have htarget {name : String} {target : TypeExpr}
        (h : JsonFields.required fields name (TypeExpr.read levels true) = some target) :
        NestsWithin m target.toJson := (ih true).required h hfields (Nat.zero_le m)
    have hparam (scope : GenericScope) (position : UInt32) (name : String) :
        NestsWithin (m + 1) (TypeExpr.param scope position name).toJson :=
      nestsWithin_object (by simp)
    simp only at h
    split at h
    · obtain ⟨fullName, -, h⟩ := Option.bind_eq_some_iff.mp h
      obtain ⟨args, hargs, h⟩ := Option.bind_eq_some_iff.mp h
      obtain rfl := Option.some.inj h
      by_cases hnil : args = []
      · exact hnil ▸ nestsWithin_named_nil fullName
      · have hkeeps : Keeps 0 (Json.list? (TypeExpr.read levels true)) fun args ↦
            .arr (args.map TypeExpr.toJson) := (ih true).list
        rcases exists_of_optional hargs with hdefault | ⟨found, hfound, hread⟩
        · exact absurd hdefault hnil
        · have hlist := hkeeps hread (Nat.le_trans hfound hfields) (Nat.zero_le m)
          exact nestsWithin_object (by simpa using hlist)
    · obtain ⟨position, -, h⟩ := Option.bind_eq_some_iff.mp h
      obtain ⟨name, -, h⟩ := Option.bind_eq_some_iff.mp h
      exact Option.some.inj h ▸ hparam .type position name
    · obtain ⟨position, -, h⟩ := Option.bind_eq_some_iff.mp h
      obtain ⟨name, -, h⟩ := Option.bind_eq_some_iff.mp h
      exact Option.some.inj h ▸ hparam .method position name
    · obtain ⟨rank, -, h⟩ := Option.bind_eq_some_iff.mp h
      obtain ⟨element, helement, h⟩ := Option.bind_eq_some_iff.mp h
      exact Option.some.inj h ▸ nestsWithin_derived (htarget helement) (.array rank)
    · obtain ⟨target, hread, h⟩ := Option.bind_eq_some_iff.mp h
      exact Option.some.inj h ▸ nestsWithin_derived (htarget hread) .byRef
    · obtain ⟨target, hread, h⟩ := Option.bind_eq_some_iff.mp h
      exact Option.some.inj h ▸ nestsWithin_derived (htarget hread) .pointer
    · exact absurd h nofun

/-! ### Members -/

theorem keeps_ofInner? : Keeps 0 TypeExpr.ofInner? TypeExpr.toJson :=
  fun value _ _ h ↦ keeps_typeExpr value.depth true h

theorem keeps_genericParameter : Keeps 0 GenericParameter.ofJson? GenericParameter.toJson := by
  intro value p n h hdepth _
  obtain ⟨fields, hrecord, -⟩ := Option.bind_eq_some_iff.mp h
  obtain ⟨m, rfl, -⟩ := exists_of_record? hrecord hdepth
  exact nestsWithin_object (by simp)

theorem keeps_accessor (isInner : Bool) : Keeps 0 (Accessor.read isInner) Accessor.toJson := by
  intro value a n h hdepth _
  obtain ⟨fields, hrecord, -⟩ := Option.bind_eq_some_iff.mp h
  obtain ⟨m, rfl, -⟩ := exists_of_record? hrecord hdepth
  exact nestsWithin_object (by simp [Access.toJson])

theorem keeps_parameter : Keeps 0 (Parameter.read TypeExpr.ofInner?) Parameter.toJson := by
  intro value p n h hdepth _
  obtain ⟨fields, hrecord, h⟩ := Option.bind_eq_some_iff.mp h
  obtain ⟨m, rfl, hfields⟩ := exists_of_record? hrecord hdepth
  obtain ⟨name, -, h⟩ := Option.bind_eq_some_iff.mp h
  obtain ⟨type, htype, h⟩ := Option.bind_eq_some_iff.mp h
  obtain ⟨isOptional, -, h⟩ := Option.bind_eq_some_iff.mp h
  obtain rfl := Option.some.inj h
  have hwritten := keeps_ofInner?.required htype hfields (Nat.zero_le m)
  exact nestsWithin_object (by simpa using hwritten)

/-- The shape of a member is written within the levels that its fields are read from. -/
theorem nestsWithin_of_mem_toFields {fields : List (JsonText × Json)} {kind : String}
    {s : MemberShape} {n : Nat} (h : MemberShape.ofFields? fields kind = some s)
    (hdepth : Json.depthFields fields ≤ n) : ∀ field ∈ s.toFields, NestsWithin n field.2 := by
  have hparameters : Keeps 0 Parameter.listOfInner? fun ps ↦ .arr (ps.map Parameter.toJson) :=
    keeps_parameter.list
  have hgeneric : Keeps 0 (Json.list? GenericParameter.ofJson?) fun ps ↦
      .arr (ps.map GenericParameter.toJson) := keeps_genericParameter.list
  have haccessor : Keeps 0 (Json.nullable (Accessor.read true)) Accessor.optionToJson :=
    Keeps.nullable rfl (keeps_accessor true)
  have hzero := Nat.zero_le n
  unfold MemberShape.ofFields? at h
  split at h
  case h_6 => exact absurd h nofun
  all_goals
    simp only [Option.bind_eq_bind, Option.bind_eq_some_iff, Option.pure_def, Option.some.injEq]
      at h
  case h_1 =>
    obtain ⟨_, -, _, -, parameters, hread, rfl⟩ := h
    simp [MemberShape.toFields, Access.toJson, hparameters.required hread hdepth hzero]
  case h_2 =>
    obtain ⟨_, -, _, -, _, -, _, -, _, -, _, -, returnType, hreturn, parameters, hread, generics,
      hgenerics, rfl⟩ := h
    simp [MemberShape.toFields, Access.toJson, keeps_ofInner?.required hreturn hdepth hzero,
      hparameters.required hread hdepth hzero, hgeneric.required hgenerics hdepth hzero]
  case h_3 =>
    obtain ⟨getter, hgetter, setter, hsetter, type, htype, parameters, hread, rfl⟩ := h
    simp [MemberShape.toFields, haccessor.optional hgetter hdepth hzero nestsWithin_null,
      haccessor.optional hsetter hdepth hzero nestsWithin_null,
      keeps_ofInner?.required htype hdepth hzero, hparameters.required hread hdepth hzero]
  case h_4 =>
    obtain ⟨_, -, _, -, _, -, type, htype, rfl⟩ := h
    simp [MemberShape.toFields, Access.toJson, keeps_ofInner?.required htype hdepth hzero]
  case h_5 =>
    obtain ⟨add, hadd, remove, hremove, type, htype, rfl⟩ := h
    simp [MemberShape.toFields, (keeps_accessor true).required hadd hdepth hzero,
      (keeps_accessor true).required hremove hdepth hzero,
      keeps_ofInner?.required htype hdepth hzero]

/-- Members are written within the levels they are read from. -/
theorem keeps_memberDecl (levels : Nat) : Keeps 0 (MemberDecl.read levels) MemberDecl.toJson := by
  induction levels with
  | zero => exact fun _ _ _ h ↦ absurd h nofun
  | succ levels ih =>
    intro value member n h hdepth _
    obtain ⟨fields, hfields?, h⟩ := Option.bind_eq_some_iff.mp h
    obtain ⟨m, rfl, hfields⟩ := exists_of_fields? hfields? hdepth
    simp only [Option.bind_eq_bind, Option.bind_eq_some_iff, Option.pure_def, Option.some.injEq]
      at h
    obtain ⟨name, -, declaringType, -, base, hbase, kind, -, shape, hshape, rfl⟩ := h
    have hkeeps : Keeps 0 (Json.nullable (MemberDecl.read levels)) MemberDecl.optionToJson :=
      Keeps.nullable rfl ih
    have hwritten := hkeeps.optional hbase hfields (Nat.zero_le m) nestsWithin_null
    rw [MemberDecl.toJson]
    refine nestsWithin_object (List.forall_mem_append.mpr ⟨?_, ?_⟩)
    · simpa using hwritten
    · exact nestsWithin_of_mem_toFields hshape hfields

/-! ### Types and assemblies -/

theorem nestsWithin_traits {n : Nat} (traits : TypeTraits) (hn : 1 ≤ n) :
    NestsWithin n traits.toJson := by
  have htraits : NestsWithin (0 + 1) traits.toJson := nestsWithin_object (by simp)
  exact htraits.mono hn

theorem nestsWithin_ofText? {n : Nat} (s : Option String) : NestsWithin n (Json.ofText? s) := by
  cases s with
  | none => exact nestsWithin_null
  | some s => exact nestsWithin_text s

/-- Types are written within the levels they are read from, if there are levels for the fields that
may be missing. -/
theorem keeps_typeDecl : Keeps 2 TypeDecl.ofJson? TypeDecl.toJson := by
  intro value t n h hdepth hn
  obtain ⟨fields, hrecord, h⟩ := Option.bind_eq_some_iff.mp h
  obtain ⟨m, rfl, hfields⟩ := exists_of_record? hrecord hdepth
  simp only [Option.bind_eq_bind, Option.bind_eq_some_iff, Option.pure_def, Option.some.injEq] at h
  obtain ⟨fullName, -, access, -, traits, -, baseType, hbase, interfaces, hinterfaces,
    declaringType, -, generics, hgenerics, members, hmembers, rfl⟩ := h
  have hzero := Nat.zero_le m
  have hempty : NestsWithin m (.arr []) := nestsWithin_of_depth_le (Nat.le_of_succ_le_succ hn)
  have htypeExpr : Keeps 0 TypeExpr.ofJson? TypeExpr.toJson :=
    fun value _ _ h ↦ keeps_typeExpr value.depth false h
  have hmember : Keeps 0 MemberDecl.ofJson? MemberDecl.toJson :=
    fun value _ _ h ↦ keeps_memberDecl value.depth h
  have hnullable : Keeps 0 (Json.nullable TypeExpr.ofJson?) TypeExpr.optionToJson :=
    Keeps.nullable rfl htypeExpr
  have hlist : Keeps 0 (Json.list? TypeExpr.ofJson?) fun ts ↦ .arr (ts.map TypeExpr.toJson) :=
    htypeExpr.list
  have hgeneric : Keeps 0 (Json.list? GenericParameter.ofJson?) fun ps ↦
      .arr (ps.map GenericParameter.toJson) := keeps_genericParameter.list
  have hmemberList : Keeps 0 (Json.list? MemberDecl.ofJson?) fun ms ↦
      .arr (ms.map MemberDecl.toJson) := hmember.list
  refine nestsWithin_object ?_
  simp [Access.toJson, nestsWithin_traits traits (Nat.le_of_succ_le_succ hn), nestsWithin_ofText?,
    hnullable.optional hbase hfields hzero nestsWithin_null,
    hlist.optional hinterfaces hfields hzero hempty,
    hgeneric.optional hgenerics hfields hzero hempty,
    hmemberList.optional hmembers hfields hzero hempty]

/-- Assemblies are written within the levels they are read from, if there are levels for the fields
that may be missing. -/
theorem keeps_assemblyDecl : Keeps 4 AssemblyDecl.ofJson? AssemblyDecl.toJson := by
  intro value a n h hdepth hn
  obtain ⟨fields, hrecord, h⟩ := Option.bind_eq_some_iff.mp h
  obtain ⟨m, rfl, hfields⟩ := exists_of_record? hrecord hdepth
  simp only [Option.bind_eq_bind, Option.bind_eq_some_iff, Option.pure_def, Option.some.injEq] at h
  obtain ⟨name, -, types, htypes, rfl⟩ := h
  have hlist : Keeps 3 (Json.list? TypeDecl.ofJson?) fun ts ↦ .arr (ts.map TypeDecl.toJson) :=
    keeps_typeDecl.list
  have hm : 3 ≤ m := Nat.le_of_succ_le_succ hn
  have hempty : NestsWithin m (.arr []) :=
    nestsWithin_of_depth_le (Nat.le_trans (show 1 ≤ 3 by decide) hm)
  refine nestsWithin_object ?_
  simp [hlist.optional htypes hfields hm hempty]

/-! ### Snapshots -/

theorem nestsWithin_of_decodeBytes? {data : ByteArray} {a : AssemblyDecl}
    (h : decodeBytes? data = some a) : NestsWithin depthLimit a.toJson := by
  obtain ⟨value, -, h⟩ := Option.bind_eq_some_iff.mp h
  rw [ofJson?] at h
  split_ifs at h with hsound
  rw [Bool.and_eq_true, decide_eq_true_eq] at hsound
  exact keeps_assemblyDecl h hsound.1 (by decide)

/-- A snapshot that has been read is written, and read again as the same assembly, unless a named
type without arguments stands on the last level; what is written then nests too deeply. -/
theorem read_encode_of_decodeBytes? {data : ByteArray} {a : AssemblyDecl}
    (h : decodeBytes? data = some a) :
    (read (.ofText (encode a)) = .ok a ∧
      ∀ fullName, ¬Json.HoldsAt (TypeExpr.named fullName []).toJson a.toJson depthLimit) ∨
    (read (.ofText (encode a)) = .error .undecodable ∧
      ∃ fullName, Json.HoldsAt (TypeExpr.named fullName []).toJson a.toJson depthLimit) := by
  have hdecode := decode?_encode a
  by_cases hdepth : a.toJson.depth ≤ depthLimit
  · left
    rw [if_pos hdepth] at hdecode
    refine ⟨by rw [FileContent.ofText, read, decodeBytes?_toUTF8, hdecode], fun _ hholds ↦ ?_⟩
    have hbelow : depthLimit + 2 ≤ a.toJson.depth + 1 := hholds.depth_le
    omega
  · right
    rw [if_neg hdepth] at hdecode
    refine ⟨by rw [FileContent.ofText, read, decodeBytes?_toUTF8, hdecode], ?_⟩
    exact nestsWithin_of_decodeBytes? h depthLimit (Nat.le_refl _) (Nat.not_le.mp hdepth)

/-- A pointer to a pointer and so on, to a named type without arguments, as a snapshot may have it:
the field for the arguments is missing. -/
def bandJson : Nat → Json
  | 0 => .object [("kind", .text "named"), ("fullName", .text "Band")]
  | k + 1 => .object [("kind", .text "pointer"), ("target", bandJson k)]

/-- The type expression. -/
def bandType : Nat → TypeExpr
  | 0 => .named "Band" []
  | k + 1 => .derived .pointer (bandType k)

/-- An assembly with a type that has the type expression for its base. -/
def bandAssembly (k : Nat) : AssemblyDecl :=
  { name := "Rings", types := [{ fullName := "Ring", baseType := some (bandType k) }] }

/-- A snapshot of the assembly that has no field more than it needs. -/
def bandSnapshot (k : Nat) : Json :=
  .object [("name", .text "Rings"),
    ("types", .arr [.object [("fullName", .text "Ring"), ("baseType", bandJson k)]])]

theorem depth_bandJson (k : Nat) : (bandJson k).depth = k + 1 := by
  induction k with
  | zero => rfl
  | succ k ih => simp [bandJson, Json.object, Json.text, Json.depth, Json.depthFields, ih]

theorem isPlain_bandJson (k : Nat) : (bandJson k).IsPlain := by
  induction k with
  | zero => simp [bandJson]
  | succ k ih => simpa [bandJson] using ih

theorem depth_toJson_bandType (k : Nat) : (bandType k).toJson.depth = k + 2 := by
  induction k with
  | zero => rfl
  | succ k ih =>
    simp [bandType, TypeExpr.toJson, Json.object, Json.text, Json.depth, Json.depthFields, ih]

theorem read_bandJson {k levels : Nat} (isInner : Bool) (h : k < levels) :
    TypeExpr.read levels isInner (bandJson k) = some (bandType k) := by
  induction k generalizing levels isInner with
  | zero =>
    obtain ⟨levels, rfl⟩ := Nat.exists_eq_add_one.mpr h
    cases isInner <;> rfl
  | succ k ih =>
    obtain ⟨levels, rfl⟩ := Nat.exists_eq_add_one.mpr (Nat.zero_lt_of_lt h)
    have hparts : TypeExpr.read (levels + 1) isInner (bandJson (k + 1)) =
        (TypeExpr.read levels true (bandJson k)).bind fun target ↦
          some (.derived .pointer target) := by cases isInner <;> rfl
    rw [hparts, ih true (Nat.lt_of_succ_lt_succ h)]
    rfl

theorem depth_bandSnapshot (k : Nat) : (bandSnapshot k).depth = k + 4 := by
  simp [bandSnapshot, Json.object, Json.text, Json.depth, Json.depthFields, Json.depthItems,
    depth_bandJson]

theorem depth_toJson_bandAssembly (k : Nat) : (bandAssembly k).toJson.depth = k + 5 := by
  simp [bandAssembly, AssemblyDecl.toJson, TypeDecl.toJson, Json.object, Json.text, Json.depth,
    Json.depthFields, Json.depthItems, depth_toJson_bandType, TypeExpr.optionToJson, Access.toJson,
    TypeTraits.toJson, Json.ofText?]

/-- The short snapshot is accepted as long as it does not nest too deeply itself. -/
theorem decodeBytes?_bandSnapshot {k : Nat} (h : k + 4 ≤ depthLimit) :
    decodeBytes? (bandSnapshot k).pretty.toUTF8 = some (bandAssembly k) := by
  have hplain : (bandSnapshot k).IsPlain := by simpa [bandSnapshot] using isPlain_bandJson k
  have hrelevant : relevant (bandSnapshot k) = bandSnapshot k := rfl
  have hbase : Json.nullable TypeExpr.ofJson? (bandJson k) = some (some (bandType k)) := by
    have hread : TypeExpr.ofJson? (bandJson k) = some (bandType k) :=
      read_bandJson false (depth_bandJson k ▸ Nat.lt_succ_self k)
    cases k <;> exact congrArg (Option.map some) hread
  have htype : TypeDecl.ofJson? (.object [("fullName", .text "Ring"), ("baseType", bandJson k)]) =
      (Json.nullable TypeExpr.ofJson? (bandJson k)).bind fun baseType ↦
        some { fullName := "Ring", baseType } := rfl
  have hparts : AssemblyDecl.ofJson? (bandSnapshot k) =
      (Json.list? TypeDecl.ofJson? (.arr [.object [("fullName", .text "Ring"),
        ("baseType", bandJson k)]])).bind fun types ↦ some { name := "Rings", types } := rfl
  have hassembly : AssemblyDecl.ofJson? (bandSnapshot k) = some (bandAssembly k) := by
    rw [hparts, Json.list?, Json.items?, Option.bind_eq_bind, Option.bind_some, List.mapM_cons,
      htype, hbase]
    rfl
  rw [decodeBytes?_toUTF8, decode?, Json.parse?_pretty hplain, Option.bind_some, ofJson?, hrelevant,
    (bandSnapshot k).isSound_of_isPlain hplain, Bool.and_true, depth_bandSnapshot,
    if_pos (decide_eq_true h), hassembly]

/-- One level more than the snapshot has is left, and it is written and read again. -/
theorem read_encode_of_decodeBytes?_bandSnapshot :
    decodeBytes? (bandSnapshot 122).pretty.toUTF8 = some (bandAssembly 122) ∧
      read (.ofText (encode (bandAssembly 122))) = .ok (bandAssembly 122) := by
  have hdecode := decodeBytes?_bandSnapshot (show 122 + 4 ≤ depthLimit by decide)
  refine ⟨hdecode, ?_⟩
  rcases read_encode_of_decodeBytes? hdecode with ⟨hread, -⟩ | ⟨-, fullName, hholds⟩
  · exact hread
  · have hbelow : depthLimit + 2 ≤ (bandAssembly 122).toJson.depth + 1 := hholds.depth_le
    rw [depth_toJson_bandAssembly] at hbelow
    exact absurd hbelow (by decide)

/-- The named type stands on the last level, and what is written for it cannot be read. -/
theorem read_encode_bandAssembly :
    decodeBytes? (bandSnapshot 123).pretty.toUTF8 = some (bandAssembly 123) ∧
      read (.ofText (encode (bandAssembly 123))) = .error .undecodable := by
  refine ⟨decodeBytes?_bandSnapshot (by decide), ?_⟩
  have hdepth : ¬(bandAssembly 123).toJson.depth ≤ depthLimit := by
    rw [depth_toJson_bandAssembly]
    decide
  rw [FileContent.ofText, read, decodeBytes?_toUTF8, decode?_encode, if_neg hdepth]

end Snapshot

end ApiDocs
