import ApiDocs.Proofs.Lists
import ApiDocs.Reference.Basic

/-!
# Lookups by identifier

In a list of assemblies as binding leaves it, assemblies stand in the order of their identifiers and
types in the slots that their identifiers name. A lookup then finds exactly the types that are
there. This does not depend on what the passes over several assemblies change: the members of types
and the methods that extend them.

## Main definitions

* `TypeId.ComesBefore`: the order of types by assembly and slot.
* `Assemblies.Addressed`: identifiers say where assemblies and types stand.
* `Assemblies.outline`: a list of assemblies without what later passes change.

## Main results

* `Assemblies.Addressed.type?_eq_some_iff`: a lookup finds exactly the types that are there.
* `Assemblies.Addressed.pairwise_types`: types stand in the order of their identifiers.
* `Assemblies.Addressed.of_outline_eq`: addresses depend on the outline only.
* `Assemblies.type?_modifyType_self`, `Assemblies.type?_modifyType_of_ne`: lookups after a change of
  one type.
* `Assemblies.Addressed.modifyType_eq_mapTypes`: a change in one slot is a change of the type with
  the identifier.
-/

namespace ApiDocs

theorem AssemblyId.cmp_eq_lt_iff {a b : AssemblyId} : a.cmp b = .lt ↔ a.val < b.val := by
  unfold AssemblyId.cmp compareOfLessAndEq
  split_ifs <;> simp_all

theorem AssemblyId.cmp_eq_eq_iff {a b : AssemblyId} : a.cmp b = .eq ↔ a = b := by
  obtain ⟨x⟩ := a
  obtain ⟨y⟩ := b
  unfold AssemblyId.cmp compareOfLessAndEq
  split_ifs with hlt heq
  · simp only [AssemblyId.mk.injEq, false_iff]
    rintro rfl
    exact UInt32.lt_irrefl _ hlt
  · simpa using heq
  · simpa using heq

theorem AssemblyId.cmp_eq_gt_iff {a b : AssemblyId} : a.cmp b = .gt ↔ b.val < a.val := by
  unfold AssemblyId.cmp compareOfLessAndEq
  split_ifs with hlt heq
  · simp only [false_iff]
    exact UInt32.lt_asymm hlt
  · simp only [heq, false_iff]
    exact UInt32.lt_irrefl _
  · simp only [true_iff]
    exact UInt32.lt_of_le_of_ne (UInt32.not_lt.mp hlt) (Ne.symm heq)

/-- A type comes before another one by its assembly, or by its slot in the same assembly. -/
def TypeId.ComesBefore (a b : TypeId) : Prop :=
  a.assembly.val < b.assembly.val ∨ a.assembly = b.assembly ∧ a.slot < b.slot

theorem TypeId.ComesBefore.asymm {a b : TypeId} (h : a.ComesBefore b) : ¬ b.ComesBefore a := by
  rintro (hba | ⟨heq, hba⟩) <;> rcases h with hab | ⟨heq', hab⟩
  · exact UInt32.lt_asymm hab hba
  · exact UInt32.lt_irrefl _ (heq' ▸ hba)
  · exact UInt32.lt_irrefl _ (heq ▸ hab)
  · exact UInt32.lt_asymm hab hba

namespace Assemblies

/-! ### Addresses -/

/-- Assemblies stand in the order of their identifiers, and every type in the slot of its assembly
that its identifier names. -/
structure Addressed (as : List AssemblyEntry) : Prop where
  increasing : as.Pairwise fun a b ↦ a.id.val < b.id.val
  slot : ∀ a ∈ as, ∀ (j : Nat) (t : TypeEntry), a.types[j]? = some t →
    t.id.assembly = a.id ∧ t.id.slot.toNat = j

theorem mem_types {as : List AssemblyEntry} {t : TypeEntry} :
    t ∈ types as ↔ ∃ a ∈ as, t ∈ a.types :=
  List.mem_flatMap

theorem ranked_of_increasing {as : List AssemblyEntry}
    (h : as.Pairwise fun a b ↦ a.id.val < b.id.val) (id : AssemblyId) :
    Search.Ranked (fun a ↦ a.id.cmp id) as := by
  refine h.imp fun {a b} hab ↦ ?_
  rw [AssemblyId.cmp_eq_lt_iff, AssemblyId.cmp_eq_gt_iff]
  rcases UInt32.lt_or_le a.id.val id.val with hlt | hle
  · exact Or.inl hlt
  · exact Or.inr (UInt32.lt_of_le_of_lt hle hab)

theorem exists_of_position? {as : List AssemblyEntry} {id : AssemblyId} {i : Nat}
    (h : position? as id = some i) : ∃ a, as[i]? = some a ∧ a.id = id := by
  obtain ⟨a, ha, hid⟩ := Search.exists_of_position? h
  exact ⟨a, ha, AssemblyId.cmp_eq_eq_iff.mp hid⟩

/-- Assemblies that stand in the order of their identifiers are found by them. -/
theorem find?_eq_some_iff {as : List AssemblyEntry}
    (h : as.Pairwise fun a b ↦ a.id.val < b.id.val) {id : AssemblyId} {a : AssemblyEntry} :
    find? as id = some a ↔ a ∈ as ∧ a.id = id := by
  rw [show find? as id = Search.find? (fun a ↦ a.id.cmp id) as from rfl,
    Search.find?_eq_some_iff (ranked_of_increasing h id), AssemblyId.cmp_eq_eq_iff]

namespace Addressed

variable {as : List AssemblyEntry} (h : Addressed as)

include h

/-- A lookup finds exactly the types that are there. -/
theorem type?_eq_some_iff {id : TypeId} {t : TypeEntry} :
    type? as id = some t ↔ t ∈ types as ∧ t.id = id := by
  constructor
  · intro ht
    obtain ⟨a, ha, hslot⟩ := Option.bind_eq_some_iff.mp ht
    obtain ⟨hmem, hid⟩ := (find?_eq_some_iff h.increasing).mp ha
    obtain ⟨hassembly, hj⟩ := h.slot a hmem _ t hslot
    refine ⟨mem_types.mpr ⟨a, hmem, List.mem_of_getElem? hslot⟩, ?_⟩
    calc t.id = ⟨t.id.assembly, t.id.slot⟩ := rfl
      _ = ⟨id.assembly, id.slot⟩ := by rw [hassembly, hid, UInt32.toNat_inj.mp hj]
  · rintro ⟨hmem, rfl⟩
    obtain ⟨a, ha, hta⟩ := mem_types.mp hmem
    obtain ⟨j, hj⟩ := List.getElem?_of_mem hta
    obtain ⟨hassembly, hslot⟩ := h.slot a ha j t hj
    rw [type?, (find?_eq_some_iff h.increasing).mpr ⟨ha, hassembly.symm⟩, Option.bind_some,
      hslot, hj]

theorem type?_id {t : TypeEntry} (ht : t ∈ types as) : type? as t.id = some t :=
  h.type?_eq_some_iff.mpr ⟨ht, rfl⟩

theorem eq_of_id_eq {t u : TypeEntry} (ht : t ∈ types as) (hu : u ∈ types as) (hid : t.id = u.id) :
    t = u :=
  Option.some.inj ((h.type?_id ht).symm.trans (hid ▸ h.type?_id hu))

/-- Types stand in the order of their identifiers. -/
theorem pairwise_types : (types as).Pairwise fun t u ↦ t.id.ComesBefore u.id := by
  have hassembly {a : AssemblyEntry} (ha : a ∈ as) {t : TypeEntry} (ht : t ∈ a.types) :
      t.id.assembly = a.id := by
    obtain ⟨j, hj⟩ := List.getElem?_of_mem ht
    exact (h.slot a ha j t hj).1
  rw [types, List.pairwise_flatMap]
  constructor
  · intro a ha
    rw [List.pairwise_iff_getElem]
    intro i j hi hj hij
    obtain ⟨hassembly, hslot⟩ := h.slot a ha i _ (List.getElem?_eq_getElem hi)
    obtain ⟨hassembly', hslot'⟩ := h.slot a ha j _ (List.getElem?_eq_getElem hj)
    refine Or.inr ⟨hassembly.trans hassembly'.symm, ?_⟩
    rw [UInt32.lt_iff_toNat_lt, hslot, hslot']
    exact hij
  · refine h.increasing.imp_of_mem fun {a b} ha hb hab t ht u hu ↦ Or.inl ?_
    rw [hassembly ha ht, hassembly hb hu]
    exact hab

/-- Identifiers of types are not repeated. -/
theorem nodup_map_id : ((types as).map TypeEntry.id).Nodup := by
  rw [List.Nodup, List.pairwise_map]
  exact h.pairwise_types.imp fun {t u} htu heq ↦ (heq ▸ htu).asymm (heq ▸ htu)

end Addressed

end Assemblies

/-! ### What passes over several assemblies keep -/

/-- A type's entry without its members and the methods that extend it. -/
def TypeEntry.outline (t : TypeEntry) : TypeEntry :=
  { t with members := {}, extensionMethods := [] }

namespace Assemblies

/-- A list of assemblies without the members of types and the methods that extend them. -/
def outline (as : List AssemblyEntry) : List AssemblyEntry :=
  mapTypes TypeEntry.outline as

theorem types_mapTypes (f : TypeEntry → TypeEntry) (as : List AssemblyEntry) :
    types (mapTypes f as) = (types as).map f := by
  rw [types, types, mapTypes, List.flatMap_map, List.map_flatMap]

theorem mapTypes_mapTypes (f g : TypeEntry → TypeEntry) (as : List AssemblyEntry) :
    mapTypes g (mapTypes f as) = mapTypes (fun t ↦ g (f t)) as := by
  simp only [mapTypes, List.map_map, Function.comp_def]

theorem mapTypes_congr {as : List AssemblyEntry} {f g : TypeEntry → TypeEntry}
    (h : ∀ t ∈ types as, f t = g t) : mapTypes f as = mapTypes g as := by
  refine List.map_congr_left fun a ha ↦ ?_
  rw [List.map_congr_left fun t ht ↦ h t (mem_types.mpr ⟨a, ha, ht⟩)]

theorem mapTypes_self (as : List AssemblyEntry) : mapTypes (fun t ↦ t) as = as := by
  simp only [mapTypes, List.map_id']

/-- A change of all types keeps the outline if it keeps that of every type. -/
theorem outline_mapTypes {f : TypeEntry → TypeEntry} (hf : ∀ t, (f t).outline = t.outline)
    (as : List AssemblyEntry) : outline (mapTypes f as) = outline as := by
  rw [outline, outline, mapTypes_mapTypes]
  exact congrArg (fun g ↦ mapTypes g as) (funext hf)

/-- A change of one type keeps the outline if it keeps that of the type. -/
theorem outline_modifyType {f : TypeEntry → TypeEntry} (hf : ∀ t, (f t).outline = t.outline)
    (id : TypeId) (as : List AssemblyEntry) : outline (modifyType id f as) = outline as := by
  unfold modifyType
  cases position? as id.assembly with
  | none => rfl
  | some i =>
    refine map_modify_eq_map (fun a ↦ ?_) as i
    simp only [map_modify_eq_map hf]

theorem map_id_outline (as : List AssemblyEntry) :
    (outline as).map AssemblyEntry.id = as.map AssemblyEntry.id := by
  rw [outline, mapTypes, List.map_map]
  rfl

theorem map_id_types_outline (as : List AssemblyEntry) :
    (types (outline as)).map TypeEntry.id = (types as).map TypeEntry.id := by
  rw [outline, types_mapTypes, List.map_map]
  rfl

theorem addressed_outline_iff {as : List AssemblyEntry} :
    Addressed (outline as) ↔ Addressed as := by
  constructor
  · rintro ⟨hinc, hslot⟩
    refine ⟨?_, fun a ha j t ht ↦ ?_⟩
    · rw [outline, mapTypes, List.pairwise_map] at hinc
      exact hinc
    · exact hslot _ (List.mem_map_of_mem ha) j t.outline (by rw [List.getElem?_map, ht]; rfl)
  · rintro ⟨hinc, hslot⟩
    refine ⟨?_, fun a ha j t ht ↦ ?_⟩
    · rw [outline, mapTypes, List.pairwise_map]
      exact hinc
    · obtain ⟨b, hb, rfl⟩ := List.mem_map.mp ha
      rw [List.getElem?_map] at ht
      obtain ⟨u, hu, rfl⟩ := Option.map_eq_some_iff.mp ht
      exact hslot b hb j u hu

/-- Whether identifiers say where types stand depends on the outline only. -/
theorem Addressed.of_outline_eq {as bs : List AssemblyEntry} (h : Addressed as)
    (heq : outline bs = outline as) : Addressed bs :=
  addressed_outline_iff.mp (heq ▸ addressed_outline_iff.mpr h)

theorem map_id_eq_of_outline_eq {as bs : List AssemblyEntry} (heq : outline bs = outline as) :
    bs.map AssemblyEntry.id = as.map AssemblyEntry.id := by
  rw [← map_id_outline, heq, map_id_outline]

/-- What holds of the lookup of every type holds of the types one by one. -/
theorem Addressed.forall₂_types {as bs : List AssemblyEntry} (h : Addressed as)
    (heq : outline bs = outline as) {R : TypeEntry → TypeEntry → Prop}
    (hR : ∀ t ∈ types as, ∀ u, type? bs t.id = some u → R t u) :
    List.Forall₂ R (types as) (types bs) := by
  have hids : (types bs).map TypeEntry.id = (types as).map TypeEntry.id := by
    rw [← map_id_types_outline, heq, map_id_types_outline]
  have hlen : (types as).length = (types bs).length := by
    simpa using (congrArg List.length hids).symm
  refine List.forall₂_iff_get.mpr ⟨hlen, fun i hi hj ↦ ?_⟩
  have hid : ((types bs).get ⟨i, hj⟩).id = ((types as).get ⟨i, hi⟩).id := by
    have := congrArg (·[i]?) hids
    simpa [hi, hj] using this
  refine hR _ (List.get_mem _ _) _ ?_
  rw [← hid]
  exact (h.of_outline_eq heq).type?_id (List.get_mem _ _)

/-! ### Changes of one type -/

/-- Where an assembly stands depends on the identifiers of the assemblies only. -/
theorem position?_congr {as bs : List AssemblyEntry}
    (h : as.map AssemblyEntry.id = bs.map AssemblyEntry.id) (id : AssemblyId) :
    position? as id = position? bs id := by
  have hmap (cs : List AssemblyEntry) :
      position? cs id = Search.position? (AssemblyId.cmp · id) (cs.map AssemblyEntry.id) :=
    (Search.position?_map AssemblyEntry.id (AssemblyId.cmp · id) cs).symm
  rw [hmap, hmap, h]

theorem map_id_modifyType (id : TypeId) (f : TypeEntry → TypeEntry) (as : List AssemblyEntry) :
    (modifyType id f as).map AssemblyEntry.id = as.map AssemblyEntry.id := by
  unfold modifyType
  cases position? as id.assembly with
  | none => rfl
  | some i =>
    refine map_modify_eq_map (fun a ↦ ?_) as i
    rfl

theorem type?_eq_bind (as : List AssemblyEntry) (id : TypeId) :
    type? as id = (position? as id.assembly).bind fun i ↦
      as[i]?.bind fun a ↦ a.types[id.slot.toNat]? := by
  rw [type?, find?, Option.bind_assoc]

theorem type?_mapTypes (f : TypeEntry → TypeEntry) (as : List AssemblyEntry) (id : TypeId) :
    type? (mapTypes f as) id = (type? as id).map f := by
  have hids : (mapTypes f as).map AssemblyEntry.id = as.map AssemblyEntry.id := by
    rw [mapTypes, List.map_map]
    rfl
  rw [type?_eq_bind, type?_eq_bind, position?_congr hids]
  cases position? as id.assembly with
  | none => rfl
  | some i =>
    rw [Option.bind_some, Option.bind_some, mapTypes, List.getElem?_map]
    cases as[i]? with
    | none => rfl
    | some a => exact List.getElem?_map

theorem type?_modifyType_self (id : TypeId) (f : TypeEntry → TypeEntry)
    (as : List AssemblyEntry) : type? (modifyType id f as) id = (type? as id).map f := by
  rw [type?_eq_bind, type?_eq_bind, position?_congr (map_id_modifyType id f as)]
  cases hpos : position? as id.assembly with
  | none => rfl
  | some i =>
    simp only [modifyType, hpos, Option.bind_some, List.getElem?_modify_eq]
    cases as[i]? with
    | none => rfl
    | some a => exact List.getElem?_modify_eq f _ a.types

theorem type?_modifyType_of_ne {id id' : TypeId} (hne : id' ≠ id) (f : TypeEntry → TypeEntry)
    (as : List AssemblyEntry) : type? (modifyType id f as) id' = type? as id' := by
  rw [type?_eq_bind, type?_eq_bind, position?_congr (map_id_modifyType id f as)]
  cases hpos' : position? as id'.assembly with
  | none => rfl
  | some i' =>
    cases hpos : position? as id.assembly with
    | none => simp only [modifyType, hpos]
    | some i =>
      simp only [modifyType, hpos, Option.bind_some]
      by_cases hi : i = i'
      · -- the same assembly is meant, so the slots differ
        subst hi
        obtain ⟨a, ha, hid⟩ := exists_of_position? hpos
        obtain ⟨b, hb, hid'⟩ := exists_of_position? hpos'
        obtain rfl := Option.some.inj (ha.symm.trans hb)
        have hslot : id.slot.toNat ≠ id'.slot.toNat := by
          intro heq
          refine hne ?_
          calc id' = ⟨id'.assembly, id'.slot⟩ := rfl
            _ = ⟨id.assembly, id.slot⟩ := by rw [← hid', hid, UInt32.toNat_inj.mp heq]
        rw [List.getElem?_modify_eq, ha]
        exact List.getElem?_modify_ne f a.types hslot
      · rw [List.getElem?_modify_ne _ _ hi]

theorem modifyType_congr {as : List AssemblyEntry} {id : TypeId} {f g : TypeEntry → TypeEntry}
    (h : ∀ t, type? as id = some t → f t = g t) : modifyType id f as = modifyType id g as := by
  rw [type?_eq_bind] at h
  unfold modifyType
  cases hpos : position? as id.assembly with
  | none => rfl
  | some i =>
    refine modify_congr_of_getElem? fun a ha ↦ ?_
    rw [modify_congr_of_getElem? fun t ht ↦ h t ?_]
    rw [hpos, Option.bind_some, ha, Option.bind_some, ht]

/-- A change that leaves the type in the slot as it is changes nothing. -/
theorem modifyType_of_eq_self {as : List AssemblyEntry} {id : TypeId} {f : TypeEntry → TypeEntry}
    (h : ∀ t, type? as id = some t → f t = t) : modifyType id f as = as := by
  have hsame (a : AssemblyEntry) :
      { a with types := a.types.modify id.slot.toNat fun t ↦ t } = a :=
    congrArg (fun types ↦ { a with types }) (List.modify_id _ a.types)
  calc modifyType id f as = modifyType id (fun t ↦ t) as := modifyType_congr h
    _ = as := by
      unfold modifyType
      cases position? as id.assembly with
      | none => rfl
      | some i =>
        simp only [hsame]
        exact List.modify_id i as

/-- The assembly with an identifier stands just where the identifier leads to. -/
theorem Addressed.id_eq_iff_of_position? {as : List AssemblyEntry} (h : Addressed as)
    {id : AssemblyId} {i k : Nat} {b : AssemblyEntry} (hpos : position? as id = some i)
    (hb : as[k]? = some b) : b.id = id ↔ i = k := by
  obtain ⟨a, ha, hid⟩ := exists_of_position? hpos
  constructor
  · intro hbid
    have hfind := (find?_eq_some_iff h.increasing).mpr ⟨List.mem_of_getElem? ha, hid⟩
    have hfind' := (find?_eq_some_iff h.increasing).mpr ⟨List.mem_of_getElem? hb, hbid⟩
    obtain rfl := Option.some.inj (hfind.symm.trans hfind')
    have hnodup : as.Nodup := by
      refine h.increasing.imp fun {c d} hcd heq ↦ ?_
      exact UInt32.lt_irrefl d.id.val (heq ▸ hcd)
    exact (List.getElem?_inj (List.getElem?_eq_some_iff.mp ha).1 hnodup).mp (ha.trans hb.symm)
  · rintro rfl
    rw [← Option.some.inj (ha.symm.trans hb), hid]

/-- A change in the slot that an identifier leads to is a change of the type that has the
identifier. -/
theorem Addressed.modifyType_eq_mapTypes {as : List AssemblyEntry} (h : Addressed as) (id : TypeId)
    (f : TypeEntry → TypeEntry) :
    modifyType id f as = mapTypes (fun t ↦ if t.id = id then f t else t) as := by
  have htypes (a : AssemblyEntry) (ha : a ∈ as) (hid : a.id = id.assembly) :
      a.types.modify id.slot.toNat f = a.types.map fun t ↦ if t.id = id then f t else t := by
    refine modify_eq_map_ite (fun j t ht ↦ ?_) f
    obtain ⟨hassembly, hslot⟩ := h.slot a ha j t ht
    constructor
    · rintro rfl
      exact hslot
    · intro hj
      calc t.id = ⟨t.id.assembly, t.id.slot⟩ := rfl
        _ = ⟨id.assembly, id.slot⟩ := by
          rw [hassembly, hid, UInt32.toNat_inj.mp (hslot.trans hj.symm)]
  -- the types of other assemblies have other identifiers
  have hother (a : AssemblyEntry) (ha : a ∈ as) (hne : a.id ≠ id.assembly) :
      (a.types.map fun t ↦ if t.id = id then f t else t) = a.types := by
    refine (List.map_congr_left fun t ht ↦ if_neg fun hid ↦ hne ?_).trans (List.map_id' _)
    obtain ⟨j, hj⟩ := List.getElem?_of_mem ht
    rw [← (h.slot a ha j t hj).1, hid]
  unfold modifyType mapTypes
  cases hpos : position? as id.assembly with
  | none =>
    refine ((List.map_congr_left fun a ha ↦ ?_).trans (List.map_id' as)).symm
    rw [hother a ha fun hid ↦ ?_]
    have hfind := (find?_eq_some_iff h.increasing).mpr ⟨ha, hid⟩
    rw [find?, hpos] at hfind
    cases hfind
  | some i =>
    refine (modify_eq_map_ite (fun k b hb ↦ h.id_eq_iff_of_position? hpos hb) _).trans
      (List.map_congr_left fun b hb ↦ ?_)
    split_ifs with hbid
    · rw [htypes b hb hbid]
    · rw [hother b hb hbid]

end Assemblies

end ApiDocs
