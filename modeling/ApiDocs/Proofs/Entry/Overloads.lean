import ApiDocs.Proofs.Entry.Listing

/-!
# Numbers among overloads

Methods of a type that share their simple name are numbered in one pass over all methods of the
type, which keeps a counter for every name. Methods of other names may stand between them, so a
number is the count of methods of the same name up to the method itself. Taken together, the numbers
of a name are consecutive from one on.

Counters are words. A number is the count modulo `2 ^ 32`, and is the count itself if there are
fewer methods than words.

What a method has for a number beforehand does not matter, and nothing but the numbers changes.

## Main definitions

* `TypeEntry.countNamed`: the number of entries with a simple name.
* `TypeEntry.overloads`: the methods of a type that share a simple name.
* `TypeEntry.NumbersOverloads`: methods are numbered among those of the same name.
* `TypeEntry.AgreesUpToNumbers`: types that differ in nothing but the numbers of methods.

## Main results

* `TypeEntry.numbered_eq`: the pass gives every entry its count.
* `TypeEntry.map_overloadIndex_filter_numbered`: methods of the same name are numbered from one on.
* `TypeEntry.numbered_numbered`: numbering a second time changes nothing.
* `TypeEntry.numbersOverloads_numberOverloads`: what numbering makes of a type.
-/

namespace ApiDocs

namespace TypeEntry

/-- The number of entries with a simple name. -/
def countNamed (name : String) (entries : List MemberEntry) : Nat :=
  entries.countP fun e ↦ e.decl.simpleName == name

/-- The methods of a type that have a simple name, in their order. -/
def overloads (t : TypeEntry) (name : String) : List MemberEntry :=
  t.members.methods.filter fun m ↦ m.decl.simpleName == name

/-- Methods are numbered among those of the same simple name. -/
structure NumbersOverloads (t : TypeEntry) : Prop where
  /-- A method that shares its name with no other has no number. -/
  alone : ∀ name m, t.overloads name = [m] → m.overloadIndex = none
  /-- Methods that share a name have the numbers from one on, in their order. -/
  shared : ∀ name, 1 < (t.overloads name).length →
    (t.overloads name).map MemberEntry.overloadIndex =
      (List.range' 1 (t.overloads name).length).map some
  /-- Of two methods that share a name, the first has the smaller number and a signature that does
  not come after that of the second, in the order of bytes. -/
  ordered : ∀ name, (t.overloads name).Pairwise fun a b ↦
    (∃ i j, a.overloadIndex = some i ∧ b.overloadIndex = some j ∧ i < j) ∧
      Text.bytes a.signature ≤ Text.bytes b.signature
  /-- Operators and all other members that are no methods have no number. -/
  others : ∀ g, g ≠ .methods → ∀ m ∈ t.members.get g, m.overloadIndex = none

/-- Two types differ in nothing but the numbers of their methods. -/
def AgreesUpToNumbers (t u : TypeEntry) : Prop :=
  u = { t with members := { t.members with methods := u.members.methods } } ∧
    u.members.methods.map MemberEntry.unnumbered = t.members.methods.map MemberEntry.unnumbered

/-! ### The pass -/

theorem countNamed_cons (name : String) (e : MemberEntry) (es : List MemberEntry) :
    countNamed name (e :: es) =
      countNamed name es + if e.decl.simpleName = name then 1 else 0 := by
  simp only [countNamed, List.countP_cons, beq_iff_eq]

/-- A counter that is moved up at an entry accounts for the entry. -/
theorem bump_add_ofNat_countNamed (counters : String → UInt32) (name : String) (e : MemberEntry)
    (es : List MemberEntry) :
    bump counters e.decl.simpleName name + .ofNat (countNamed name es) =
      counters name + .ofNat (countNamed name (e :: es)) := by
  rw [countNamed_cons, bump]
  split_ifs with h h' h'
  · rw [UInt32.ofNat_add, UInt32.add_assoc, UInt32.add_comm 1]
    rfl
  · exact absurd h.symm h'
  · exact absurd h'.symm h
  · rfl

theorem tally_apply (entries : List MemberEntry) (name : String) :
    tally entries name = .ofNat (countNamed name entries) := by
  have hfold (counters : String → UInt32) :
      entries.foldl (fun counters e ↦ bump counters e.decl.simpleName) counters name =
        counters name + .ofNat (countNamed name entries) := by
    induction entries generalizing counters with
    | nil => exact (UInt32.add_zero _).symm
    | cons e es ih => rw [List.foldl_cons, ih, bump_add_ofNat_countNamed]
  rw [tally, hfold, UInt32.zero_add]

/-- Every entry that shares its name gets the number after the last one given to the name, those
given to the entries before it counted. -/
theorem numberFrom_eq (totals last : String → UInt32) (entries : List MemberEntry) :
    numberFrom totals last entries = entries.zipIdx.map fun p ↦
      { p.1 with
        ordinal :=
          if 1 < totals p.1.decl.simpleName then
            some (last p.1.decl.simpleName +
              .ofNat (countNamed p.1.decl.simpleName (entries.take p.2)) + 1)
          else none } := by
  induction entries generalizing last with
  | nil => rfl
  | cons e es ih =>
    rw [List.zipIdx_cons', List.map_cons, List.map_map, numberFrom]
    by_cases hshared : 1 < totals e.decl.simpleName
    · rw [if_pos hshared, ih]
      congr 1
      · simp [hshared, countNamed]
      · refine List.map_congr_left fun p _ ↦ ?_
        simp only [Function.comp_apply, Prod.map, id_eq, List.take_succ_cons,
          bump_add_ofNat_countNamed]
    · rw [if_neg hshared, ih]
      congr 1
      · simp [hshared]
      · -- an entry that shares its name does not have that of `e`
        refine List.map_congr_left fun p _ ↦ ?_
        simp only [Function.comp_apply, Prod.map, id_eq, List.take_succ_cons, countNamed_cons]
        split_ifs with hp hname
        · exact absurd (hname ▸ hp) hshared
        · rfl
        · rfl

/-- The number of an entry is the count of the entries of its name up to itself. -/
theorem numbered_eq (entries : List MemberEntry) :
    numbered entries = entries.zipIdx.map fun p ↦
      { p.1 with
        ordinal :=
          if 1 < UInt32.ofNat (countNamed p.1.decl.simpleName entries) then
            some (.ofNat (countNamed p.1.decl.simpleName (entries.take p.2) + 1))
          else none } := by
  simp only [numbered, numberFrom_eq, tally_apply, UInt32.zero_add, UInt32.ofNat_add]
  rfl

/-! ### Lists of entries -/

theorem countNamed_map_unnumbered (name : String) (entries : List MemberEntry) :
    countNamed name (entries.map MemberEntry.unnumbered) = countNamed name entries :=
  List.countP_map

/-- Numbering changes nothing but numbers. -/
theorem map_unnumbered_numbered (entries : List MemberEntry) :
    (numbered entries).map MemberEntry.unnumbered = entries.map MemberEntry.unnumbered := by
  have hzip : entries.map MemberEntry.unnumbered =
      entries.zipIdx.map fun p ↦ p.1.unnumbered := by
    conv_lhs => rw [← List.zipIdx_map_fst 0 entries]
    rw [List.map_map]
    rfl
  rw [hzip, numbered_eq, List.map_map]
  rfl

theorem countNamed_numbered (name : String) (entries : List MemberEntry) :
    countNamed name (numbered entries) = countNamed name entries := by
  rw [← countNamed_map_unnumbered, map_unnumbered_numbered, countNamed_map_unnumbered]

/-- Numbers that entries have beforehand do not matter. -/
theorem numbered_map_unnumbered (entries : List MemberEntry) :
    numbered (entries.map MemberEntry.unnumbered) = numbered entries := by
  rw [numbered_eq, numbered_eq, List.zipIdx_map, List.map_map]
  refine List.map_congr_left fun p _ ↦ ?_
  simp only [Function.comp_apply, Prod.map, ← List.map_take, countNamed_map_unnumbered]
  rfl

/-- Numbering a second time changes nothing. -/
theorem numbered_numbered (entries : List MemberEntry) :
    numbered (numbered entries) = numbered entries := by
  rw [← numbered_map_unnumbered (numbered entries), map_unnumbered_numbered,
    numbered_map_unnumbered]

/-- The numbers of a name depend on how many entries have it, and on nothing else. -/
theorem map_ordinal_filter_numbered (name : String) (entries : List MemberEntry) :
    ((numbered entries).filter fun m ↦ m.decl.simpleName == name).map MemberEntry.ordinal =
      (List.range (countNamed name entries)).map fun i ↦
        if 1 < UInt32.ofNat (countNamed name entries) then some (.ofNat (i + 1)) else none := by
  let hasName (m : MemberEntry) : Bool := m.decl.simpleName == name
  calc ((numbered entries).filter hasName).map MemberEntry.ordinal
    _ = (entries.zipIdx.filter fun q ↦ hasName q.1).map fun q ↦
          if 1 < UInt32.ofNat (countNamed name entries) then
            some (.ofNat ((entries.take q.2).countP hasName + 1))
          else none := by
        rw [numbered_eq, List.filter_map, List.map_map]
        refine List.map_congr_left fun q hq ↦ ?_
        have hname : q.1.decl.simpleName = name := eq_of_beq (List.mem_filter.mp hq).2
        simp only [Function.comp_apply, hname]
        rfl
    _ = _ := by
        rw [countNamed, ← map_countP_take_eq_range, List.map_map]
        rfl

theorem map_overloadIndex (entries : List MemberEntry) :
    entries.map MemberEntry.overloadIndex =
      (entries.map MemberEntry.ordinal).map (Option.map UInt32.toNat) :=
  List.map_map.symm

/-- Entries of the same name are numbered from one on, in their order, if there are words enough. -/
theorem map_overloadIndex_filter_numbered {entries : List MemberEntry} {name : String}
    (hshared : 1 < countNamed name entries) (hwords : countNamed name entries < UInt32.size) :
    ((numbered entries).filter fun m ↦ m.decl.simpleName == name).map MemberEntry.overloadIndex =
      (List.range' 1 (countNamed name entries)).map some := by
  have htotal : 1 < UInt32.ofNat (countNamed name entries) := by
    rw [UInt32.lt_iff_toNat_lt, UInt32.toNat_ofNat_of_lt' hwords]
    exact hshared
  calc ((numbered entries).filter fun m ↦ m.decl.simpleName == name).map MemberEntry.overloadIndex
    _ = (List.range (countNamed name entries)).map fun i ↦ some (i + 1) := by
        rw [map_overloadIndex, map_ordinal_filter_numbered, List.map_map]
        refine List.map_congr_left fun i hi ↦ ?_
        have hi : i + 1 < UInt32.size := Nat.lt_of_le_of_lt (List.mem_range.mp hi) hwords
        rw [Function.comp_apply, if_pos htotal, Option.map_some, UInt32.toNat_ofNat_of_lt' hi]
    _ = (List.range' 1 (countNamed name entries)).map some := by
        rw [List.range'_eq_map_range, List.map_map]
        refine List.map_congr_left fun i _ ↦ ?_
        rw [Function.comp_apply, Nat.add_comm]

/-- Entries with consecutive numbers have increasing ones. -/
theorem pairwise_overloadIndex {entries : List MemberEntry}
    (h : 1 < entries.length →
      entries.map MemberEntry.overloadIndex = (List.range' 1 entries.length).map some) :
    entries.Pairwise fun a b ↦
      ∃ i j, a.overloadIndex = some i ∧ b.overloadIndex = some j ∧ i < j := by
  by_cases hlength : 1 < entries.length
  · have hrange : (entries.map MemberEntry.overloadIndex).Pairwise fun x y ↦
        ∃ i j, x = some i ∧ y = some j ∧ i < j := by
      rw [h hlength, List.pairwise_map]
      exact (List.pairwise_lt_range' 1 Nat.one_pos).imp fun hij ↦ ⟨_, _, rfl, rfl, hij⟩
    exact List.pairwise_map.mp hrange
  · cases entries with
    | nil => exact .nil
    | cons m rest =>
      rw [List.length_cons] at hlength
      obtain rfl : rest = [] := List.length_eq_zero_iff.mp (by omega)
      exact List.pairwise_singleton _ m

/-- Numbering keeps the order of signatures. -/
theorem pairwise_signature_numbered {entries : List MemberEntry}
    (h : entries.Pairwise fun a b ↦ a.signature ≤ b.signature) :
    (numbered entries).Pairwise fun a b ↦ a.signature ≤ b.signature := by
  have hmap : ((numbered entries).map MemberEntry.unnumbered).Pairwise fun a b ↦
      a.signature ≤ b.signature := by
    rw [map_unnumbered_numbered]
    exact List.pairwise_map.mpr h
  rwa [List.pairwise_map] at hmap

/-! ### Types -/

theorem agreesUpToNumbers_numberOverloads (t : TypeEntry) :
    t.AgreesUpToNumbers t.numberOverloads :=
  ⟨rfl, map_unnumbered_numbered t.members.methods⟩

theorem numberOverloads_numberOverloads (t : TypeEntry) :
    t.numberOverloads.numberOverloads = t.numberOverloads := by
  simp only [numberOverloads, numbered_numbered]

/-- Only methods are numbered. -/
theorem get_numberOverloads_of_ne (t : TypeEntry) {g : MemberGroup} (hg : g ≠ .methods) :
    t.numberOverloads.members.get g = t.members.get g := by
  cases g with
  | methods => exact absurd rfl hg
  | constructors | fields | properties | operators | events => rfl

theorem length_overloads_numberOverloads (t : TypeEntry) (name : String) :
    (t.numberOverloads.overloads name).length = countNamed name t.members.methods := by
  rw [overloads, ← List.countP_eq_length_filter]
  exact countNamed_numbered name t.members.methods

theorem length_methods_numberOverloads (t : TypeEntry) :
    t.numberOverloads.members.methods.length = t.members.methods.length := by
  have hlength := congrArg List.length (map_unnumbered_numbered t.members.methods)
  rwa [List.length_map, List.length_map] at hlength

/-- Numbering a type whose methods stand in the order of their signatures, and whose other members
have no numbers. -/
theorem numbersOverloads_numberOverloads {t : TypeEntry}
    (hwords : t.members.methods.length < UInt32.size)
    (hsorted : t.members.methods.Pairwise fun a b ↦ a.signature ≤ b.signature)
    (hothers : ∀ g, g ≠ .methods → ∀ m ∈ t.members.get g, m.ordinal = none) :
    t.numberOverloads.NumbersOverloads := by
  have hlength := t.length_overloads_numberOverloads
  have hshared (name : String) (h : 1 < (t.numberOverloads.overloads name).length) :
      (t.numberOverloads.overloads name).map MemberEntry.overloadIndex =
        (List.range' 1 (t.numberOverloads.overloads name).length).map some := by
    rw [hlength] at h ⊢
    exact map_overloadIndex_filter_numbered h (Nat.lt_of_le_of_lt List.countP_le_length hwords)
  refine ⟨fun name m hm ↦ ?_, hshared, fun name ↦ ?_, fun g hg m hm ↦ ?_⟩
  · have hone : countNamed name t.members.methods = 1 := by rw [← hlength, hm]; rfl
    have hnone := map_ordinal_filter_numbered name t.members.methods
    rw [hone, show (numbered t.members.methods).filter _ = [m] from hm] at hnone
    rw [MemberEntry.overloadIndex, List.head_eq_of_cons_eq hnone]
    rfl
  · refine (pairwise_overloadIndex (hshared name)).and ?_
    refine List.Pairwise.filter _ ((pairwise_signature_numbered hsorted).imp fun hab ↦ ?_)
    exact (Text.bytes_le_bytes_iff _ _).mpr hab
  · rw [t.get_numberOverloads_of_ne hg] at hm
    rw [MemberEntry.overloadIndex, hothers g hg m hm, Option.map_none]

end TypeEntry

end ApiDocs
