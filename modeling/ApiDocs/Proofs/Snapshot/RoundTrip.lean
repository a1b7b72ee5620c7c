import ApiDocs.Proofs.Json.Printing
import ApiDocs.Snapshot.Basic

/-!
# Snapshots read back

The JSON form of a declaration is read back as the declaration, at every level: type expressions by
induction on their nesting, members along their chains of overridden members, and the declarations
that hold them from these. The JSON form of an assembly has only fields that belong to declarations
and is plain, so nothing but its nesting can keep its text from being read.

## Main results

* `TypeExpr.read_toJson`, `MemberDecl.read_toJson`, `TypeDecl.ofJson?_toJson`: declarations from
  their JSON forms.
* `AssemblyDecl.isPlain_toJson`: JSON forms are plain.
* `Snapshot.read_encode`: a snapshot is read back unless it nests too deeply.
-/

namespace ApiDocs

/-! ### Parts of values -/

namespace Json

theorem word?_word (n : UInt32) : (word n).word? = some n := by
  have hsize : n.toNat < UInt32.size := n.toNat_lt_size
  simp [word?, word, nat, nat?, JsonNumber.toNat?, hsize]

theorem list?_map {α : Type} {read : Json → Option α} {write : α → Json} {xs : List α}
    (h : ∀ x ∈ xs, read (write x) = some x) : list? read (.arr (xs.map write)) = some xs := by
  have hall : (xs.map write).mapM read = some xs := by
    induction xs with
    | nil => rfl
    | cons x xs ih =>
      rw [List.map_cons, List.mapM_cons, h x List.mem_cons_self,
        ih fun y hy ↦ h y (List.mem_cons_of_mem x hy)]
      rfl
  exact hall

end Json

theorem Access.read_toJson (isInner : Bool) (a : Access) : read isInner a.toJson = some a :=
  ofWord?_word a

/-! ### Declarations from their JSON forms

Each first step says which parts are left to read once the fields are found by their names. -/

theorem TypeTraits.ofJson?_toJson (t : TypeTraits) : ofJson? t.toJson = some t :=
  rfl

theorem GenericParameter.ofJson?_toJson (p : GenericParameter) : ofJson? p.toJson = some p :=
  calc ofJson? p.toJson
    _ = (Json.word p.position).word?.bind fun position ↦ some { p with position } := rfl
    _ = some p := by rw [Json.word?_word, Option.bind_some]

theorem GenericParameter.list?_map_toJson (ps : List GenericParameter) :
    Json.list? ofJson? (.arr (ps.map toJson)) = some ps :=
  Json.list?_map fun p _ ↦ p.ofJson?_toJson

theorem Accessor.read_toJson (isInner : Bool) (a : Accessor) : read isInner a.toJson = some a :=
  calc read isInner a.toJson
    _ = (Access.read isInner a.access.toJson).bind fun access ↦ some { a with access } := rfl
    _ = some a := by rw [Access.read_toJson, Option.bind_some]

theorem Accessor.nullable_read_optionToJson (isInner : Bool) (a : Option Accessor) :
    Json.nullable (read isInner) (optionToJson a) = some a := by
  cases a with
  | none => rfl
  | some a => exact congrArg (Option.map some) (read_toJson isInner a)

namespace TypeExpr

theorem depth_toJson_pos (t : TypeExpr) : 0 < t.toJson.depth := by
  match t with
  | named _ _ | param _ _ _ | derived (.array _) _ | derived .byRef _ | derived .pointer _ =>
    exact Nat.succ_pos _

mutual

/-- As many levels as its JSON form nests are enough to read a type expression. -/
theorem read_toJson (t : TypeExpr) {levels : Nat} (isInner : Bool)
    (h : t.toJson.depth ≤ levels) : read levels isInner t.toJson = some t := by
  obtain ⟨levels, rfl⟩ := Nat.exists_eq_add_one.mpr (Nat.lt_of_lt_of_le t.depth_toJson_pos h)
  match t, h with
  | named fullName args, h =>
    have hargs : Json.depthItems (args.map toJson) ≤ levels := by
      simp only [toJson, listToJson_eq_map, Json.object, Json.text, Json.depth, List.map_cons,
        List.map_nil, Json.depthFields] at h
      omega
    calc read (levels + 1) isInner (named fullName args).toJson
      _ = (Json.list? (read levels true) (.arr (listToJson args))).bind fun args ↦
            some (named fullName args) := by cases isInner <;> rfl
      _ = some (named fullName args) := by
        rw [listToJson_eq_map, Json.list?_map (read_toJson_of_mem args hargs), Option.bind_some]
  | param scope position name, _ =>
    calc read (levels + 1) isInner (param scope position name).toJson
      _ = (Json.word position).word?.bind fun position ↦ some (param scope position name) := by
        cases isInner <;> cases scope <;> rfl
      _ = some (param scope position name) := by rw [Json.word?_word, Option.bind_some]
  | derived form target, h =>
    have htarget : read levels true target.toJson = some target := read_toJson target true (by
      cases form <;>
        simp only [toJson, Json.object, Json.text, Json.word, Json.nat, Json.depth, List.map_cons,
          List.map_nil, Json.depthFields] at h <;>
        omega)
    cases form with
    | array rank =>
      calc read (levels + 1) isInner (derived (.array rank) target).toJson
        _ = (Json.word rank).word?.bind fun rank ↦
              (read levels true target.toJson).bind fun target ↦
                some (derived (.array rank) target) := by cases isInner <;> rfl
        _ = some (derived (.array rank) target) := by
          rw [Json.word?_word, htarget, Option.bind_some, Option.bind_some]
    | byRef =>
      calc read (levels + 1) isInner (derived .byRef target).toJson
        _ = (read levels true target.toJson).bind fun target ↦ some (derived .byRef target) := by
          cases isInner <;> rfl
        _ = some (derived .byRef target) := by rw [htarget, Option.bind_some]
    | pointer =>
      calc read (levels + 1) isInner (derived .pointer target).toJson
        _ = (read levels true target.toJson).bind fun target ↦ some (derived .pointer target) := by
          cases isInner <;> rfl
        _ = some (derived .pointer target) := by rw [htarget, Option.bind_some]

theorem read_toJson_of_mem (ts : List TypeExpr) {levels : Nat}
    (h : Json.depthItems (ts.map toJson) ≤ levels) :
    ∀ t ∈ ts, read levels true t.toJson = some t := by
  match ts with
  | [] => exact fun t ht ↦ absurd ht List.not_mem_nil
  | first :: ts =>
    rw [List.map_cons, Json.depthItems] at h
    intro t ht
    rcases List.mem_cons.mp ht with heq | ht
    · rw [heq]
      exact read_toJson first true (by omega)
    · exact read_toJson_of_mem ts (by omega) t ht

end

theorem ofJson?_toJson (t : TypeExpr) : ofJson? t.toJson = some t :=
  read_toJson t false (Nat.le_refl _)

theorem ofInner?_toJson (t : TypeExpr) : ofInner? t.toJson = some t :=
  read_toJson t true (Nat.le_refl _)

theorem nullable_ofJson?_optionToJson (t : Option TypeExpr) :
    Json.nullable ofJson? (optionToJson t) = some t := by
  match t with
  | none => rfl
  | some t =>
    have hread := ofJson?_toJson t
    match t with
    | named _ _ | param _ _ _ | derived (.array _) _ | derived .byRef _ | derived .pointer _ =>
      exact congrArg (Option.map some) hread

end TypeExpr

theorem Parameter.read_toJson {readType : Json → Option TypeExpr} (p : Parameter)
    (h : readType p.type.toJson = some p.type) : read readType p.toJson = some p :=
  calc read readType p.toJson
    _ = (readType p.type.toJson).bind fun type ↦ some { p with type } := rfl
    _ = some p := by rw [h, Option.bind_some]

theorem Parameter.listOfInner?_map_toJson (ps : List Parameter) :
    listOfInner? (.arr (ps.map toJson)) = some ps :=
  Json.list?_map fun p _ ↦ p.read_toJson p.type.ofInner?_toJson

namespace MemberDecl

/-- The fields of a member in its JSON form. -/
def jsonFields (name declaringType : String) (base : Json) (s : MemberShape) :
    List (JsonText × Json) :=
  ([("name", .text name), ("declaringType", .text declaringType), ("baseDefinition", base),
    ("kind", .text s.word)] ++ s.toFields).map fun (name, value) ↦ (some name, value)

/-- The shape of a member is found among the other fields of the member. -/
theorem ofFields?_jsonFields (name declaringType : String) (base : Json) (s : MemberShape) :
    MemberShape.ofFields? (jsonFields name declaringType base s) s.word = some s := by
  cases s with
  | constructor c =>
    have hparts : MemberShape.ofFields? (jsonFields name declaringType base (.constructor c))
        "constructor" =
      (Access.read true c.access.toJson).bind fun access ↦
        (Parameter.listOfInner? (.arr (c.parameters.map Parameter.toJson))).bind fun parameters ↦
          some (.constructor { c with access, parameters }) := rfl
    rw [MemberShape.word, hparts, Access.read_toJson, Parameter.listOfInner?_map_toJson]
    rfl
  | method f =>
    have hparts : MemberShape.ofFields? (jsonFields name declaringType base (.method f)) "method" =
      (Access.read true f.access.toJson).bind fun access ↦
        (TypeExpr.ofInner? f.returnType.toJson).bind fun returnType ↦
          (Parameter.listOfInner? (.arr (f.parameters.map Parameter.toJson))).bind fun parameters ↦
            (Json.list? GenericParameter.ofJson?
              (.arr (f.genericParameters.map GenericParameter.toJson))).bind fun genericParameters ↦
                some (.method { f with access, returnType, parameters, genericParameters }) := rfl
    rw [MemberShape.word, hparts, Access.read_toJson, TypeExpr.ofInner?_toJson,
      Parameter.listOfInner?_map_toJson, GenericParameter.list?_map_toJson]
    rfl
  | property p =>
    have hparts :
        MemberShape.ofFields? (jsonFields name declaringType base (.property p)) "property" =
      (Json.nullable (Accessor.read true) (Accessor.optionToJson p.getter)).bind fun getter ↦
        (Json.nullable (Accessor.read true) (Accessor.optionToJson p.setter)).bind fun setter ↦
          (TypeExpr.ofInner? p.type.toJson).bind fun type ↦
            (Parameter.listOfInner? (.arr (p.indexParameters.map Parameter.toJson))).bind
              fun indexParameters ↦
                some (.property { p with getter, setter, type, indexParameters }) := rfl
    rw [MemberShape.word, hparts, Accessor.nullable_read_optionToJson,
      Accessor.nullable_read_optionToJson, TypeExpr.ofInner?_toJson,
      Parameter.listOfInner?_map_toJson]
    rfl
  | field f =>
    have hparts : MemberShape.ofFields? (jsonFields name declaringType base (.field f)) "field" =
      (Access.read true f.access.toJson).bind fun access ↦
        (TypeExpr.ofInner? f.type.toJson).bind fun type ↦
          some (.field { f with access, type }) := rfl
    rw [MemberShape.word, hparts, Access.read_toJson, TypeExpr.ofInner?_toJson]
    rfl
  | event e =>
    have hparts : MemberShape.ofFields? (jsonFields name declaringType base (.event e)) "event" =
      (Accessor.read true e.add.toJson).bind fun add ↦
        (Accessor.read true e.remove.toJson).bind fun remove ↦
          (TypeExpr.ofInner? e.handlerType.toJson).bind fun handlerType ↦
            some (.event { add, remove, handlerType }) := rfl
    rw [MemberShape.word, hparts, Accessor.read_toJson, Accessor.read_toJson,
      TypeExpr.ofInner?_toJson]
    rfl

/-- As many levels as its JSON form nests are enough to read a member. -/
theorem read_toJson (m : MemberDecl) {levels : Nat} (h : m.toJson.depth ≤ levels) :
    read levels m.toJson = some m := by
  match m, levels with
  | ⟨name, declaringType, base, shape⟩, levels + 1 =>
    have hbase : Json.nullable (read levels) (optionToJson base) = some base := by
      match base, h with
      | none, _ => rfl
      | some ⟨name', declaringType', base', shape'⟩, h =>
        have hdepth : (toJson ⟨name', declaringType', base', shape'⟩).depth ≤ levels := by
          rw [toJson, optionToJson] at h
          simp only [Json.object, Json.text, Json.depth, List.map_cons, Json.depthFields,
            List.cons_append, List.nil_append] at h
          omega
        exact congrArg (Option.map some) (read_toJson _ hdepth)
    have hparts : read (levels + 1) (toJson ⟨name, declaringType, base, shape⟩) =
      (Json.nullable (read levels) (optionToJson base)).bind fun baseDefinition ↦
        (MemberShape.ofFields? (jsonFields name declaringType (optionToJson base) shape)
          shape.word).bind fun shape ↦ some ⟨name, declaringType, baseDefinition, shape⟩ := by
      cases shape <;> rfl
    rw [hparts, hbase, Option.bind_some, ofFields?_jsonFields, Option.bind_some]
termination_by sizeOf m

theorem ofJson?_toJson (m : MemberDecl) : ofJson? m.toJson = some m :=
  read_toJson m (Nat.le_refl _)

end MemberDecl

theorem TypeDecl.ofJson?_toJson (t : TypeDecl) : ofJson? t.toJson = some t := by
  have hparts : ofJson? t.toJson =
    (Access.ofJson? t.access.toJson).bind fun access ↦
      (Json.nullable TypeExpr.ofJson? (TypeExpr.optionToJson t.baseType)).bind fun baseType ↦
        (Json.list? TypeExpr.ofJson? (.arr (t.interfaces.map TypeExpr.toJson))).bind
          fun interfaces ↦
            (Json.nullable Json.text? (.ofText? t.declaringType)).bind fun declaringType ↦
              (Json.list? GenericParameter.ofJson?
                (.arr (t.genericParameters.map GenericParameter.toJson))).bind
                fun genericParameters ↦
                  (Json.list? MemberDecl.ofJson? (.arr (t.members.map MemberDecl.toJson))).bind
                    fun members ↦ some
                      { t with access, baseType, interfaces, declaringType, genericParameters,
                               members } := rfl
  have hdeclaring : Json.nullable Json.text? (.ofText? t.declaringType) = some t.declaringType := by
    cases t.declaringType <;> rfl
  rw [hparts, Access.ofJson?, Access.read_toJson, TypeExpr.nullable_ofJson?_optionToJson,
    Json.list?_map fun u _ ↦ u.ofJson?_toJson, hdeclaring, GenericParameter.list?_map_toJson,
    Json.list?_map fun m _ ↦ m.ofJson?_toJson]
  rfl

theorem AssemblyDecl.ofJson?_toJson (a : AssemblyDecl) : ofJson? a.toJson = some a :=
  calc ofJson? a.toJson
    _ = (Json.list? TypeDecl.ofJson? (.arr (a.types.map TypeDecl.toJson))).bind fun types ↦
          some { a with types } := rfl
    _ = some a := by rw [Json.list?_map fun t _ ↦ t.ofJson?_toJson, Option.bind_some]

/-! ### JSON forms are plain -/

namespace Json

@[simp] theorem isPlain_null : null.IsPlain :=
  trivial

@[simp] theorem isPlain_bool (b : Bool) : (bool b).IsPlain :=
  trivial

@[simp] theorem isPlain_text (s : String) : (text s).IsPlain :=
  rfl

@[simp] theorem isPlain_word (n : UInt32) : (word n).IsPlain :=
  ⟨n.toNat, n.toNat_lt_size, rfl⟩

@[simp] theorem isPlain_ofText? (s : Option String) : (ofText? s).IsPlain := by
  cases s with
  | none => exact isPlain_null
  | some s => exact isPlain_text s

@[simp] theorem isPlain_arr_iff (items : List Json) :
    (arr items).IsPlain ↔ ∀ item ∈ items, item.IsPlain := by
  induction items with
  | nil => exact iff_of_true trivial fun _ h ↦ absurd h List.not_mem_nil
  | cons item items ih => exact (and_congr_right' ih).trans List.forall_mem_cons.symm

@[simp] theorem isPlain_object_iff (fields : List (String × Json)) :
    (object fields).IsPlain ↔ ∀ field ∈ fields, field.2.IsPlain := by
  induction fields with
  | nil => exact iff_of_true trivial fun _ h ↦ absurd h List.not_mem_nil
  | cons field fields ih =>
    rw [List.forall_mem_cons, ← ih]
    exact and_iff_right rfl

end Json

theorem TypeTraits.isPlain_toJson (t : TypeTraits) : t.toJson.IsPlain := by
  simp [toJson]

theorem Access.isPlain_toJson (a : Access) : a.toJson.IsPlain :=
  Json.isPlain_text a.word

theorem Accessor.isPlain_toJson (a : Accessor) : a.toJson.IsPlain := by
  simp [toJson, Access.isPlain_toJson]

theorem Accessor.isPlain_optionToJson (a : Option Accessor) : (optionToJson a).IsPlain := by
  cases a with
  | none => exact Json.isPlain_null
  | some a => exact a.isPlain_toJson

theorem GenericParameter.isPlain_toJson (p : GenericParameter) : p.toJson.IsPlain := by
  simp [toJson]

theorem TypeExpr.isPlain_toJson (t : TypeExpr) : t.toJson.IsPlain := by
  match t with
  | named fullName args =>
    have hargs (arg : TypeExpr) (_ : arg ∈ args) : arg.toJson.IsPlain := arg.isPlain_toJson
    simpa [toJson] using hargs
  | param scope position name => simp [toJson]
  | derived form target =>
    have htarget := target.isPlain_toJson
    cases form <;> simpa [toJson] using htarget
termination_by sizeOf t

theorem TypeExpr.isPlain_optionToJson (t : Option TypeExpr) : (optionToJson t).IsPlain := by
  cases t with
  | none => exact Json.isPlain_null
  | some t => exact t.isPlain_toJson

theorem Parameter.isPlain_toJson (p : Parameter) : p.toJson.IsPlain := by
  simp [toJson, TypeExpr.isPlain_toJson]

theorem MemberShape.isPlain_of_mem_toFields (s : MemberShape) :
    ∀ field ∈ s.toFields, field.2.IsPlain := by
  cases s <;>
    simp [toFields, Access.isPlain_toJson, Accessor.isPlain_toJson, Accessor.isPlain_optionToJson,
      TypeExpr.isPlain_toJson, Parameter.isPlain_toJson, GenericParameter.isPlain_toJson]

theorem MemberDecl.isPlain_toJson (m : MemberDecl) : m.toJson.IsPlain := by
  match m with
  | ⟨name, declaringType, none, shape⟩ =>
    rw [toJson, optionToJson, Json.isPlain_object_iff, List.forall_mem_append]
    exact ⟨by simp, shape.isPlain_of_mem_toFields⟩
  | ⟨name, declaringType, some base, shape⟩ =>
    rw [toJson, optionToJson, Json.isPlain_object_iff, List.forall_mem_append]
    exact ⟨by simpa using base.isPlain_toJson, shape.isPlain_of_mem_toFields⟩
termination_by sizeOf m

theorem TypeDecl.isPlain_toJson (t : TypeDecl) : t.toJson.IsPlain := by
  simp [toJson, Access.isPlain_toJson, TypeTraits.isPlain_toJson, TypeExpr.isPlain_toJson,
    TypeExpr.isPlain_optionToJson, GenericParameter.isPlain_toJson, MemberDecl.isPlain_toJson]

theorem AssemblyDecl.isPlain_toJson (a : AssemblyDecl) : a.toJson.IsPlain := by
  simp [toJson, TypeDecl.isPlain_toJson]

/-! ### Plain values are sound -/

namespace JsonNumber

theorem le_ofDigitChars (w : Nat) (cs : List Char) : w ≤ Nat.ofDigitChars 10 cs w := by
  induction cs generalizing w with
  | nil => exact Nat.le_refl w
  | cons c cs ih =>
    rw [Nat.ofDigitChars_cons]
    exact Nat.le_trans (by omega) (ih _)

/-- Digits that form a number within a 64-bit word are all taken. -/
theorem fill_eq_ofDigitChars {w : Nat} {cs : List Char}
    (h : Nat.ofDigitChars 10 cs w < UInt64.size) : fill w cs = (Nat.ofDigitChars 10 cs w, []) := by
  induction cs generalizing w with
  | nil => rfl
  | cons c cs ih =>
    rw [Nat.ofDigitChars_cons] at h ⊢
    rw [fill, if_pos (Nat.lt_of_le_of_lt (le_ofDigitChars _ cs) h), ih h]

theorem toDouble_of_lt {n : Nat} (h : n < UInt32.size) : toDouble n = n := by
  rcases Nat.eq_zero_or_pos n with rfl | hpos
  · rfl
  · have hlog : n.log2 < 52 := (Nat.log2_lt (Nat.ne_of_gt hpos)).mpr (Nat.lt_trans h (by decide))
    simp [toDouble, Nat.sub_eq_zero_of_le (Nat.le_of_lt hlog), Nat.mod_one]

theorem isFinite_of_lt {n : Nat} (h : n < UInt32.size) : isFinite { whole := n } = true := by
  have hfill : fill 0 (Nat.toDigits 10 n) = (n, []) := by
    rw [fill_eq_ofDigitChars, Nat.ofDigitChars_ten_toDigits]
    rw [Nat.ofDigitChars_ten_toDigits]
    exact Nat.lt_trans h (by decide)
  have hleading : leading { whole := n } = (n, 0) := by
    rw [leading, hfill]
    rfl
  have hproduct : toDouble n * toDouble (Nat.pow 10 0) < overflow := by
    rw [toDouble_of_lt h, show toDouble (Nat.pow 10 0) = 1 from rfl, Nat.mul_one]
    exact Nat.lt_trans h (by decide +kernel)
  unfold isFinite
  rw [hleading]
  split
  · rfl
  · rfl
  · rename_i word e _ heq
    obtain ⟨rfl, he⟩ := Prod.mk.inj heq
    obtain rfl : e = 0 := (Int.ofNat.inj he).symm
    rw [Bool.and_eq_true, decide_eq_true hproduct]
    exact ⟨rfl, rfl⟩

end JsonNumber

namespace Json

mutual

theorem isSound_of_isPlain (v : Json) (h : v.IsPlain) : v.isSound = true := by
  match v, h with
  | null, _ | bool _, _ => rfl
  | num n, h =>
    obtain ⟨w, hw, rfl⟩ := h
    exact JsonNumber.isFinite_of_lt hw
  | str s, h => exact h
  | arr items, h => exact itemsSound_of_itemsPlain items h
  | obj fields, h => exact fieldsSound_of_fieldsPlain fields h

theorem itemsSound_of_itemsPlain (items : List Json) (h : ItemsPlain items) :
    itemsSound items = true := by
  match items, h with
  | [], _ => rfl
  | item :: items, h =>
    rw [itemsSound, isSound_of_isPlain item h.1, itemsSound_of_itemsPlain items h.2, Bool.and_self]

theorem fieldsSound_of_fieldsPlain (fields : List (JsonText × Json)) (h : FieldsPlain fields) :
    fieldsSound fields = true := by
  match fields, h with
  | [], _ => rfl
  | (name, value) :: fields, h =>
    rw [fieldsSound, h.1, isSound_of_isPlain value h.2.1, fieldsSound_of_fieldsPlain fields h.2.2,
      Bool.and_self, Bool.and_self]

end

end Json

/-! ### Snapshots -/

namespace Snapshot

theorem relevantFields_object {names : List String} {fields : List (String × Json)}
    (h : ∀ field ∈ fields, field.1 ∈ names) :
    relevantFields names (.object fields) = .object fields := by
  refine congrArg Json.obj (List.filter_eq_self.mpr fun field hfield ↦ ?_)
  obtain ⟨named, hmem, rfl⟩ := List.mem_map.mp hfield
  exact List.contains_iff_mem.mpr (h named hmem)

theorem mapField_object {name : String} {change : Json → Json} {fields : List (String × Json)}
    (h : ∀ field ∈ fields, field.1 = name → change field.2 = field.2) :
    (Json.object fields).mapField name change = .object fields := by
  refine congrArg Json.obj ?_
  rw [List.map_map]
  refine List.map_congr_left fun field hfield ↦ ?_
  by_cases hname : field.1 = name
  · simp [hname, h field hfield hname]
  · simp [hname]

theorem mapItems_map {α : Type} {change : Json → Json} {write : α → Json} {xs : List α}
    (h : ∀ x ∈ xs, change (write x) = write x) :
    Json.mapItems change (.arr (xs.map write)) = .arr (xs.map write) := by
  refine congrArg Json.arr ?_
  rw [List.map_map]
  exact List.map_congr_left h

/-- All fields in the JSON form of a type belong to declarations. -/
theorem relevantType_toJson (t : TypeDecl) : relevantType t.toJson = t.toJson := by
  have htraits : relevantFields TypeTraits.fieldNames t.traits.toJson = t.traits.toJson :=
    relevantFields_object (by simp [TypeTraits.fieldNames])
  have hgeneric (p : GenericParameter) :
      relevantFields GenericParameter.fieldNames p.toJson = p.toJson :=
    relevantFields_object (by simp [GenericParameter.fieldNames])
  have hgenerics : Json.mapItems (relevantFields GenericParameter.fieldNames)
      (.arr (t.genericParameters.map GenericParameter.toJson)) = _ :=
    mapItems_map fun p _ ↦ hgeneric p
  rw [relevantType, TypeDecl.toJson, relevantFields_object, mapField_object, mapField_object]
  · simpa using hgenerics
  · simpa using htraits
  · simp [TypeDecl.fieldNames]

/-- All fields in the JSON form of an assembly belong to declarations. -/
theorem relevant_toJson (a : AssemblyDecl) : relevant a.toJson = a.toJson := by
  have htypes : Json.mapItems relevantType (.arr (a.types.map TypeDecl.toJson)) = _ :=
    mapItems_map fun t _ ↦ relevantType_toJson t
  rw [relevant, AssemblyDecl.toJson, relevantFields_object, mapField_object]
  · simpa using htypes
  · simp [AssemblyDecl.fieldNames]

theorem decode?_encode (a : AssemblyDecl) :
    decode? (encode a) = if a.toJson.depth ≤ depthLimit then some a else none := by
  have hsound := a.toJson.isSound_of_isPlain a.isPlain_toJson
  rw [decode?, encode, Json.parse?_pretty a.isPlain_toJson, Option.bind_some, ofJson?,
    relevant_toJson, hsound, Bool.and_true, AssemblyDecl.ofJson?_toJson]
  simp only [decide_eq_true_eq]

/-- A snapshot is read back as the assembly it was written from, unless its arrays and objects nest
too deeply to be read at all. -/
theorem read_encode (a : AssemblyDecl) :
    read (.ofText (encode a)) =
      if a.toJson.depth ≤ depthLimit then .ok a else .error .undecodable := by
  rw [FileContent.ofText, read, decodeBytes?_toUTF8, decode?_encode]
  split_ifs <;> rfl

end Snapshot

end ApiDocs
