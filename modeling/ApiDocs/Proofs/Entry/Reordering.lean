import ApiDocs.Decl.Assemble
import ApiDocs.Proofs.Entry.Overloads
import ApiDocs.Proofs.Entry.Switches

/-!
# Members found in another order

A type's members are sorted by signature, so the order in which they are found shows only among
members with equal signatures. If there are none, the entry of the type does not depend on it at
all. Otherwise members with equal signatures change places, and methods among them that share their
simple name do so without their numbers: a number belongs to a place among the methods of a name,
whichever of them stands there.

## Main definitions

* `MemberTable.ReordersTies`: lists that differ in the order of members with equal signatures.
* `TypeEntry.AgreesUpToTies`: types that differ in the order of members with equal signatures.
* `MemberDecl.HasIds`: a member and the member it overrides have documentation ids.

## Main results

* `MemberTable.eq_of_perm`, `MemberTable.reordersTies_of_perm`: lists of the same members in the
  order of signatures.
* `TypeEntry.map_signature_overloadIndex_congr`: numbers belong to places.
* `TypeEntry.exists_build_iff`: the types that have an entry.
* `TypeEntry.agreesUpToTies_of_perm`: the entry of a type whose members are found in another order.
-/

namespace ApiDocs

/-! ### Ties -/

namespace MemberTable

/-- Two lists of members differ in nothing but the order of members with equal signatures. -/
structure ReordersTies (xs ys : List MemberEntry) : Prop where
  /-- In every place there are members with equal signatures. -/
  signatures : (xs.map fun m ↦ m.signature) = ys.map fun m ↦ m.signature
  /-- The members with a signature are the same. -/
  members : ∀ signature, (xs.filter fun m ↦ m.signature == signature).Perm
    (ys.filter fun m ↦ m.signature == signature)

variable {xs ys : List MemberEntry}

section

variable (h : xs.Perm ys) (hxs : xs.Pairwise fun a b ↦ a.signature ≤ b.signature)
  (hys : ys.Pairwise fun a b ↦ a.signature ≤ b.signature)

include h hxs hys

theorem map_signature_eq_of_perm :
    (xs.map fun m ↦ m.signature) = ys.map fun m ↦ m.signature := by
  have hxs' : (xs.map fun m ↦ m.signature).Pairwise (· ≤ ·) := List.pairwise_map.mpr hxs
  have hys' : (ys.map fun m ↦ m.signature).Pairwise (· ≤ ·) := List.pairwise_map.mpr hys
  exact (h.map _).eq_of_pairwise (fun a b _ _ ↦ String.le_antisymm) hxs' hys'

/-- Sorting the same members twice gives lists that differ in ties only. -/
theorem reordersTies_of_perm : ReordersTies xs ys :=
  ⟨map_signature_eq_of_perm h hxs hys, fun _ ↦ h.filter _⟩

/-- Members with different signatures have one order. -/
theorem eq_of_perm (hdistinct : (xs.map fun m ↦ m.signature).Nodup) : xs = ys := by
  refine h.eq_of_pairwise (fun a b ha hb hab hba ↦ ?_) hxs hys
  exact List.inj_on_of_nodup_map hdistinct ha (h.mem_iff.mpr hb) (String.le_antisymm hab hba)

end

theorem get_ofList_perm (h : xs.Perm ys) (g : MemberGroup) :
    ((ofList xs).get g).Perm ((ofList ys).get g) := by
  rw [ofList, ofList, get_ofGroups, get_ofGroups]
  calc ((xs.filter fun e ↦ e.decl.group == g).mergeSort bySignature).Perm
        (xs.filter fun e ↦ e.decl.group == g) := List.mergeSort_perm _ _
    List.Perm _ (ys.filter fun e ↦ e.decl.group == g) := h.filter _
    List.Perm _ ((ys.filter fun e ↦ e.decl.group == g).mergeSort bySignature) :=
      (List.mergeSort_perm _ _).symm

/-- A table is what its groups hold. -/
theorem ext_get {t u : MemberTable} (h : ∀ g, t.get g = u.get g) : t = u := by
  obtain ⟨c, f, p, m, o, e⟩ := t
  obtain ⟨c', f', p', m', o', e'⟩ := u
  obtain rfl : c = c' := h .constructors
  obtain rfl : f = f' := h .fields
  obtain rfl : p = p' := h .properties
  obtain rfl : m = m' := h .methods
  obtain rfl : o = o' := h .operators
  obtain rfl : e = e' := h .events
  rfl

end MemberTable

/-! ### Numbers -/

namespace TypeEntry

variable {xs ys : List MemberEntry}

/-- Numbering keeps the signatures of the entries of a name. -/
theorem map_signature_filter_numbered (name : String) (entries : List MemberEntry) :
    (((numbered entries).filter fun m ↦ m.decl.simpleName == name).map fun m ↦ m.signature) =
      (entries.filter fun m ↦ m.decl.simpleName == name).map fun m ↦ m.signature := by
  have hsame (ms : List MemberEntry) :
      (((ms.map MemberEntry.unnumbered).filter fun m ↦ m.decl.simpleName == name).map fun m ↦
        m.signature) = (ms.filter fun m ↦ m.decl.simpleName == name).map fun m ↦ m.signature := by
    rw [List.filter_map, List.map_map]
    rfl
  rw [← hsame, map_unnumbered_numbered, hsame]

/-- Numbers belong to places among the entries of a name, whichever of those with equal signatures
stands there. -/
theorem map_signature_overloadIndex_congr (h : xs.Perm ys)
    (hxs : xs.Pairwise fun a b ↦ a.signature ≤ b.signature)
    (hys : ys.Pairwise fun a b ↦ a.signature ≤ b.signature) (name : String) :
    (((numbered xs).filter fun m ↦ m.decl.simpleName == name).map fun m ↦
        (m.signature, m.overloadIndex)) =
      ((numbered ys).filter fun m ↦ m.decl.simpleName == name).map fun m ↦
        (m.signature, m.overloadIndex) := by
  have hcount : countNamed name xs = countNamed name ys := h.countP_eq _
  -- signatures and numbers are compared apart, as members cannot be
  rw [← List.zip_map', ← List.zip_map', map_signature_filter_numbered,
    map_signature_filter_numbered, map_overloadIndex, map_overloadIndex,
    map_ordinal_filter_numbered, map_ordinal_filter_numbered, hcount,
    MemberTable.map_signature_eq_of_perm (h.filter _) (hxs.filter _) (hys.filter _)]

/-- Two types differ in nothing but the order of members with equal signatures. Numbers of methods
do not move with them. -/
structure AgreesUpToTies (t u : TypeEntry) : Prop where
  frame : u = { t with members := u.members }
  others : ∀ g, g ≠ .methods → MemberTable.ReordersTies (t.members.get g) (u.members.get g)
  methods : MemberTable.ReordersTies (t.members.methods.map MemberEntry.unnumbered)
    (u.members.methods.map MemberEntry.unnumbered)
  /-- In every place among the methods of a name there are methods with equal signatures and equal
  numbers. -/
  numbers : ∀ name, ((t.overloads name).map fun m ↦ (m.signature, m.overloadIndex)) =
    (u.overloads name).map fun m ↦ (m.signature, m.overloadIndex)

section

variable {t u : TypeEntry} (hframe : u = { t with members := u.members })
  (hperm : ∀ g, (t.members.get g).Perm (u.members.get g))
  (ht : ∀ g, (t.members.get g).Pairwise fun a b ↦ a.signature ≤ b.signature)
  (hu : ∀ g, (u.members.get g).Pairwise fun a b ↦ a.signature ≤ b.signature)

include hframe hperm ht hu

/-- Types with the same members in the order of signatures differ in ties only. -/
theorem agreesUpToTies_numberOverloads : t.numberOverloads.AgreesUpToTies u.numberOverloads where
  frame := by
    rw [hframe]
    rfl
  others := fun g hg ↦ by
    rw [t.get_numberOverloads_of_ne hg, u.get_numberOverloads_of_ne hg]
    exact MemberTable.reordersTies_of_perm (hperm g) (ht g) (hu g)
  methods := by
    change MemberTable.ReordersTies ((numbered _).map _) ((numbered _).map _)
    rw [map_unnumbered_numbered, map_unnumbered_numbered]
    exact MemberTable.reordersTies_of_perm ((hperm .methods).map _)
      (List.pairwise_map.mpr (ht .methods)) (List.pairwise_map.mpr (hu .methods))
  numbers := map_signature_overloadIndex_congr (hperm .methods) (ht .methods) (hu .methods)

/-- Types with the same members, whose signatures differ in every group, are the same. -/
theorem eq_of_nodup_signatures
    (hdistinct : ∀ g, ((t.members.get g).map fun m ↦ m.signature).Nodup) : u = t := by
  have hmembers : t.members = u.members :=
    MemberTable.ext_get fun g ↦ MemberTable.eq_of_perm (hperm g) (ht g) (hu g) (hdistinct g)
  rw [hframe, ← hmembers]

end

end TypeEntry

/-! ### Types that have an entry -/

/-- The member and the member that it overrides have documentation ids. -/
def MemberDecl.HasIds (buildingType : String) (d : MemberDecl) : Prop :=
  (∃ id, d.docId = .ok id) ∧ ∀ base ∈ d.overridden? buildingType, ∃ id, base.docId = .ok id

theorem MemberEntry.exists_build_iff {comments : Comments} {owner : TypeId} {fullName : String}
    {d : MemberDecl} : (∃ m, build comments owner fullName d = .ok m) ↔ d.HasIds fullName := by
  constructor
  · rintro ⟨m, hm⟩
    obtain ⟨bound, overrides, hbound, hover, -⟩ := exists_of_build hm
    obtain ⟨docId, hid, -⟩ := BoundMember.exists_of_ofDecl hbound
    refine ⟨⟨docId, hid⟩, fun base hbase ↦ ?_⟩
    rw [buildOverride, hbase] at hover
    obtain ⟨b, hb, -⟩ := map_eq_ok_iff.mp hover
    obtain ⟨baseId, hbaseId, -⟩ := BoundMember.exists_of_ofDecl hb
    exact ⟨baseId, hbaseId⟩
  · rintro ⟨hid, hbase⟩
    exact AssemblyEntry.exists_member_build hid hbase

theorem exists_error_of_not_ok {ε α : Type} {result : Except ε α} (h : ¬ ∃ a, result = .ok a) :
    ∃ e, result = .error e := by
  cases result with
  | error e => exact ⟨e, rfl⟩
  | ok a => exact absurd ⟨a, rfl⟩ h

namespace TypeEntry

variable {filter : MemberFilter} {comments : Comments} {id : TypeId}

theorem exists_build_of_memberEntries {inclusion : Inclusion} {fullName : String}
    {ds : List MemberDecl} {entries : List MemberEntry}
    (h : memberEntries inclusion filter comments id fullName ds = .ok entries) {d : MemberDecl}
    (hd : d ∈ ds) (hacc : d.isAccessor = false) :
    ∃ m, MemberEntry.build comments id fullName d = .ok m := by
  induction ds generalizing entries with
  | nil => cases hd
  | cons e es ih =>
    rw [memberEntries] at h
    split_ifs at h with he
    · rcases List.mem_cons.mp hd with rfl | hd
      · exact absurd he (Bool.eq_false_iff.mp hacc)
      · exact ih h hd
    · obtain ⟨entry, hentry, h⟩ := bind_eq_ok_iff.mp h
      obtain ⟨_, -, h⟩ := bind_eq_ok_iff.mp h
      obtain ⟨rest, hrest, -⟩ := bind_eq_ok_iff.mp h
      rcases List.mem_cons.mp hd with rfl | hd
      · exact ⟨entry, hentry⟩
      · exact ih hrest hd

/-- If the filter never crashes, a type has an entry exactly if the members that may be shown have
theirs. -/
theorem exists_build_iff (htotal : ∀ m, ∃ b, filter m = .ok b) (inclusion : Inclusion)
    (decl : TypeDecl) :
    (∃ t, build inclusion filter comments id decl = .ok t) ↔
      ∀ d ∈ decl.members, d.isAccessor = false → d.HasIds decl.fullName := by
  constructor
  · rintro ⟨t, ht⟩ d hd hacc
    obtain ⟨entries, hentries, -⟩ := exists_of_build ht
    exact MemberEntry.exists_build_iff.mp (exists_build_of_memberEntries hentries hd hacc)
  · intro hids
    obtain ⟨entries, hentries⟩ := AssemblyEntry.exists_memberEntries inclusion htotal
      fun d hd hacc ↦ MemberEntry.exists_build_iff.mpr (hids d hd hacc)
    rw [build, hentries]
    exact ⟨_, rfl⟩

/-- **The order in which members are found shows in ties only.** If the members of a type are found
in another order, either no entry is built both times, for want of a documentation id, or the
entries agree up to ties, and altogether if in every group signatures are different. -/
theorem agreesUpToTies_of_perm (htotal : ∀ m, ∃ b, filter m = .ok b) (decl : TypeDecl)
    {ms : List MemberDecl} (hperm : decl.members.Perm ms) (inclusion : Inclusion)
    (comments : Comments) (id : TypeId) :
    ((∃ d ∈ decl.members, d.isAccessor = false ∧ ¬ d.HasIds decl.fullName) ∧
        (∃ c, build inclusion filter comments id decl = .error c) ∧
        ∃ c, build inclusion filter comments id { decl with members := ms } = .error c) ∨
      ∃ t u, build inclusion filter comments id decl = .ok t ∧
        build inclusion filter comments id { decl with members := ms } = .ok u ∧
        t.numberOverloads.AgreesUpToTies u.numberOverloads ∧
        ((∀ g, ((t.members.get g).map fun m ↦ m.signature).Nodup) →
          u.numberOverloads = t.numberOverloads) := by
  by_cases hids : ∀ d ∈ decl.members, d.isAccessor = false → d.HasIds decl.fullName
  · obtain ⟨t, ht⟩ := (exists_build_iff htotal inclusion decl).mpr hids
    obtain ⟨u, hu⟩ := (exists_build_iff htotal inclusion { decl with members := ms }).mpr
      fun d hd ↦ hids d (hperm.mem_iff.mpr hd)
    refine Or.inr ⟨t, u, ht, hu, ?_⟩
    obtain ⟨entries, hentries, rfl⟩ := exists_of_build ht
    obtain ⟨entries', hentries', rfl⟩ := exists_of_build hu
    -- members are chosen one by one, whatever was found before them
    have hentriesPerm : entries.Perm entries' := by
      rw [memberEntries_eq_filterMap hentries, memberEntries_eq_filterMap hentries']
      exact hperm.filterMap _
    have hgroups := MemberTable.get_ofList_perm hentriesPerm
    have hsorted := MemberTable.pairwise_get_ofList entries
    have hsorted' := MemberTable.pairwise_get_ofList entries'
    exact ⟨agreesUpToTies_numberOverloads rfl hgroups hsorted hsorted', fun hdistinct ↦
      congrArg numberOverloads (eq_of_nodup_signatures rfl hgroups hsorted hsorted' hdistinct)⟩
  · have hmissing : ∃ d ∈ decl.members, d.isAccessor = false ∧ ¬ d.HasIds decl.fullName := by
      simpa only [not_forall, exists_prop] using hids
    refine Or.inl ⟨hmissing, exists_error_of_not_ok fun h ↦ hids ?_,
      exists_error_of_not_ok fun h ↦ hids fun d hd ↦ ?_⟩
    · exact (exists_build_iff htotal inclusion decl).mp h
    · exact (exists_build_iff htotal inclusion { decl with members := ms }).mp h d
        (hperm.mem_iff.mp hd)

/-! ### Two methods that look alike -/

/-- A sketch with the given methods. Points of two namespaces can be drawn, which signatures do not
tell apart. -/
def sketchDecl (members : List MemberDecl) : TypeDecl :=
  { TypeDecl.classNamed "Sketch" with members }

/-- The method that draws a point of ink. -/
def drawInk : MemberDecl :=
  (MemberDecl.methodOf "Sketch" "Draw" .void).withParameter "at" (.named "Ink.Point" [])

/-- The method that draws a point of a line. -/
def drawLine : MemberDecl :=
  (MemberDecl.methodOf "Sketch" "Draw" .void).withParameter "at" (.named "Line.Point" [])

/-- A method whose signature comes after those of the drawing methods. -/
def undo : MemberDecl :=
  .methodOf "Sketch" "Undo" .void

/-- The entry of a sketch whose methods are found in the order of their signatures. -/
def sketchEntry (members : List MemberDecl) : TypeEntry where
  id := ⟨⟨0⟩, 0⟩
  header := (sketchDecl members).toTypeHeader
  comment := none
  genericParameters := []
  members := .ofGroups fun g ↦ (members.filterMap
    (chosen? .all .all (.ofList none []) ⟨⟨0⟩, 0⟩ "Sketch")).filter fun m ↦ m.decl.group == g

theorem build_sketchDecl (members : List MemberDecl)
    (h : members = [drawInk, drawLine, undo] ∨ members = [drawLine, drawInk, undo] ∨
      members = [drawInk, undo]) :
    build .all .all (.ofList none []) ⟨⟨0⟩, 0⟩ (sketchDecl members) =
      .ok (sketchEntry members) := by
  rcases h with rfl | rfl | rfl
  all_goals
    rw [sketchEntry, ← MemberTable.ofList_of_pairwise (by decide +kernel)]
    with_unfolding_all rfl

/-- Methods that look alike leave their numbers behind when they change places, so that neither
list is a reordering of the other. -/
theorem not_perm_methods_sketchDecl :
    ∃ ms t u, [drawInk, drawLine, undo].Perm ms ∧
      build .all .all (.ofList none []) ⟨⟨0⟩, 0⟩ (sketchDecl [drawInk, drawLine, undo]) = .ok t ∧
      build .all .all (.ofList none []) ⟨⟨0⟩, 0⟩ (sketchDecl ms) = .ok u ∧
      t.numberOverloads.members.methods.map (fun m ↦ (m.docId, m.overloadIndex)) =
        [("M:Sketch.Draw(Ink.Point)", some 1), ("M:Sketch.Draw(Line.Point)", some 2),
          ("M:Sketch.Undo", none)] ∧
      u.numberOverloads.members.methods.map (fun m ↦ (m.docId, m.overloadIndex)) =
        [("M:Sketch.Draw(Line.Point)", some 1), ("M:Sketch.Draw(Ink.Point)", some 2),
          ("M:Sketch.Undo", none)] ∧
      ¬ t.numberOverloads.members.methods.Perm u.numberOverloads.members.methods :=
  ⟨[drawLine, drawInk, undo], _, _, List.Perm.swap _ _ _, build_sketchDecl _ (by simp),
    build_sketchDecl _ (by simp), by decide +kernel, by decide +kernel, by decide +kernel⟩

/-- The two drawing methods agree up to their tie. Without one of them, nothing depends on the
order. -/
theorem agreesUpToTies_of_perm_sketchDecl :
    (∃ t u, build .all .all (.ofList none []) ⟨⟨0⟩, 0⟩ (sketchDecl [drawInk, drawLine, undo]) =
          .ok t ∧
        build .all .all (.ofList none []) ⟨⟨0⟩, 0⟩ (sketchDecl [drawLine, drawInk, undo]) = .ok u ∧
        t.numberOverloads.AgreesUpToTies u.numberOverloads) ∧
      ∃ t u, build .all .all (.ofList none []) ⟨⟨0⟩, 0⟩ (sketchDecl [drawInk, undo]) = .ok t ∧
        build .all .all (.ofList none []) ⟨⟨0⟩, 0⟩ (sketchDecl [undo, drawInk]) = .ok u ∧
        u.numberOverloads = t.numberOverloads := by
  have htotal (m : MemberEntry) : ∃ b, MemberFilter.all m = .ok b := ⟨true, rfl⟩
  constructor
  · have halike := build_sketchDecl [drawInk, drawLine, undo] (by simp)
    rcases agreesUpToTies_of_perm htotal (sketchDecl [drawInk, drawLine, undo])
      (List.Perm.swap drawLine drawInk [undo]) .all (.ofList none []) ⟨⟨0⟩, 0⟩ with
      ⟨-, ⟨c, hc⟩, -⟩ | ⟨t, u, ht, hu, hagrees, -⟩
    · cases halike.symm.trans hc
    · exact ⟨t, u, ht, hu, hagrees⟩
  · have hapart := build_sketchDecl [drawInk, undo] (by simp)
    rcases agreesUpToTies_of_perm htotal (sketchDecl [drawInk, undo])
      (List.Perm.swap undo drawInk []) .all (.ofList none []) ⟨⟨0⟩, 0⟩ with
      ⟨-, ⟨c, hc⟩, -⟩ | ⟨t, u, ht, hu, -, hsame⟩
    · cases hapart.symm.trans hc
    · obtain rfl := Except.ok.inj (hapart.symm.trans ht)
      refine ⟨_, u, hapart, hu, hsame fun g ↦ ?_⟩
      cases g <;> decide +kernel

end TypeEntry

end ApiDocs
