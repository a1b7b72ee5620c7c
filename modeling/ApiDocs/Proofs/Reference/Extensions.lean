import ApiDocs.Decl.Assemble
import ApiDocs.Proofs.Reference.Content
import ApiDocs.Proofs.Reference.Inheritance
import ApiDocs.Proofs.Reference.Integrity

/-!
# Extension methods of a finished reference

Extensions are attached to the types they extend after members were left out and before overloads
are numbered. A reference to an extension is a place in a list of methods, and numbering moves no
method, so the references are still those of the finished lists. The type that an extension extends
is found by its full name, which stands for the first type that has it.

## Main definitions

* `TypeExpr.Names`: the type that an expression names through references to variables.
* `MemberEntry.Extends`: a method extends the types of a name.
* `Assemblies.IsFirst`: a type is the first one of its name.
* `Reference.AttachesExtensions`: what the extension methods of a type are.

## Main results

* `TypeIndex.find?_eq_some_id_iff`: a full name stands for the first type that has it.
* `Extension.mem_all_iff`: all extensions of a list of assemblies.
* `Reference.extensionMethods_eq`: extension methods are those of the finished assemblies.
* `Reference.attachesExtensions_of_build`: the extension methods of every reference that is built.
-/

namespace ApiDocs

/-! ### Methods that extend a type -/

/-- An expression names a type, or is a reference to a variable whose type names it. -/
inductive TypeExpr.Names : TypeExpr → String → Prop
  | named (fullName : String) (args : List TypeExpr) : Names (.named fullName args) fullName
  | byRef {target : TypeExpr} {fullName : String} (h : Names target fullName) :
      Names (.derived .byRef target) fullName

theorem TypeExpr.definitionName?_eq_some_iff {e : TypeExpr} {fullName : String} :
    e.definitionName? = some fullName ↔ e.Names fullName := by
  constructor
  · fun_induction definitionName? e with
    | case1 name args =>
      rintro ⟨⟩
      exact .named _ args
    | case2 target ih => exact fun h ↦ .byRef (ih h)
    | case3 =>
      intro h
      cases h
  · intro h
    induction h with
    | named name args => rfl
    | byRef _ ih => exact ih

/-- A method that needs no instance is marked as an extension, and its first parameter names a
type. -/
structure MemberEntry.Extends (m : MemberEntry) (fullName : String) : Prop where
  isStatic : m.decl.isStatic = true
  isExtension : m.decl.isExtension = true
  first : ∃ p, m.parameters.head? = some p ∧ p.type.Names fullName

/-- A method comes before another one by its type, or by its place in the same type. -/
def MethodRef.ComesBefore (a b : MethodRef) : Prop :=
  a.owner.ComesBefore b.owner ∨ a.owner = b.owner ∧ a.index < b.index

/-! ### The first type of a name -/

/-- No type of the same full name comes before a type. -/
def Assemblies.IsFirst (as : List AssemblyEntry) (t : TypeEntry) : Prop :=
  ∀ u ∈ types as, u.fullName = t.fullName → ¬ u.id.ComesBefore t.id

namespace TypeIndex

open Assemblies

/-- A full name stands for the first type that has it. -/
theorem find?_eq_some_id_iff {as : List AssemblyEntry} (h : Addressed as) {t : TypeEntry}
    (ht : t ∈ types as) {name : String} :
    (ofAssemblies as).find? name = some t.id ↔ name = t.fullName ∧ IsFirst as t := by
  have hpairwise := h.pairwise_types
  rw [find?_ofAssemblies]
  constructor
  · intro hfind
    obtain ⟨u, hu, hid⟩ := Option.map_eq_some_iff.mp hfind
    obtain rfl := h.eq_of_id_eq (List.mem_of_find?_eq_some hu) ht hid
    obtain ⟨hname, before, after, hsplit, hbefore⟩ := List.find?_eq_some_iff_append.mp hu
    obtain rfl := eq_of_beq hname
    refine ⟨rfl, fun v hv hvname hvu ↦ ?_⟩
    rw [hsplit] at hv hpairwise
    rcases List.mem_append.mp hv with hv | hv
    · exact absurd hvname (by simpa using hbefore v hv)
    · rcases List.mem_cons.mp hv with rfl | hv
      · exact hvu.asymm hvu
      · have hafter := (List.pairwise_cons.mp (List.pairwise_append.mp hpairwise).2.1).1
        exact hvu.asymm (hafter v hv)
  · rintro ⟨rfl, hfirst⟩
    obtain ⟨before, after, hsplit⟩ := List.append_of_mem ht
    refine Option.map_eq_some_iff.mpr ⟨t, List.find?_eq_some_iff_append.mpr ?_, rfl⟩
    refine ⟨beq_self_eq_true _, before, after, hsplit, fun v hv ↦ ?_⟩
    rw [Bool.not_eq_true', beq_eq_false_iff_ne]
    refine fun hvname ↦ hfirst v (hsplit ▸ List.mem_append_left _ hv) hvname ?_
    rw [hsplit] at hpairwise
    exact (List.pairwise_append.mp hpairwise).2.2 v hv t List.mem_cons_self

/-- What names stand for depends on the outline only. -/
theorem find?_eq_of_outline_eq {as bs : List AssemblyEntry} (h : outline as = outline bs)
    (name : String) : (ofAssemblies as).find? name = (ofAssemblies bs).find? name := by
  rw [ofAssemblies_congr h]

end TypeIndex

/-! ### All extensions -/

namespace Extension

open Assemblies

theorem target?_eq_some_iff {index : TypeIndex} {m : MemberEntry} {id : TypeId} :
    target? index m = some id ↔ ∃ name, m.Extends name ∧ index.find? name = some id := by
  unfold target?
  constructor
  · intro h
    split_ifs at h with hmarks
    rw [Bool.and_eq_true] at hmarks
    obtain ⟨p, hp, h⟩ := Option.bind_eq_some_iff.mp h
    obtain ⟨name, hname, h⟩ := Option.bind_eq_some_iff.mp h
    exact ⟨name, ⟨hmarks.1, hmarks.2, p, hp, TypeExpr.definitionName?_eq_some_iff.mp hname⟩, h⟩
  · rintro ⟨name, ⟨hstatic, hextension, p, hp, hname⟩, h⟩
    rw [hstatic, hextension, Bool.and_self, if_pos rfl]
    refine Option.bind_eq_some_iff.mpr ⟨p, hp, ?_⟩
    exact Option.bind_eq_some_iff.mpr
      ⟨name, TypeExpr.definitionName?_eq_some_iff.mpr hname, h⟩

theorem mem_ofType_iff {index : TypeIndex} {t : TypeEntry} {e : TypeId × MethodRef} :
    e ∈ ofType index t ↔ ∃ i m, t.members.methods[i]? = some m ∧
      target? index m = some e.1 ∧ e.2 = .ofPosition t.id i := by
  rw [ofType, List.mem_filterMap]
  constructor
  · rintro ⟨⟨m, i⟩, hm, he⟩
    obtain ⟨target, htarget, rfl⟩ := Option.map_eq_some_iff.mp he
    exact ⟨i, m, List.mem_zipIdx_iff_getElem?.mp hm, htarget, rfl⟩
  · rintro ⟨i, m, hm, htarget, href⟩
    refine ⟨(m, i), List.mem_zipIdx_iff_getElem?.mpr hm, ?_⟩
    exact Option.map_eq_some_iff.mpr ⟨e.1, htarget, Prod.ext rfl href.symm⟩

/-- The extensions of a list of assemblies are the methods that extend a name that stands for a
type. -/
theorem mem_all_iff {index : TypeIndex} {as : List AssemblyEntry} {e : TypeId × MethodRef} :
    e ∈ all index as ↔ ∃ t ∈ types as, ∃ i m, t.members.methods[i]? = some m ∧
      (∃ name, m.Extends name ∧ index.find? name = some e.1) ∧ e.2 = .ofPosition t.id i := by
  simp only [all, List.mem_flatMap, mem_ofType_iff, target?_eq_some_iff]

/-- The extensions that a type declares stand in the order of their places. -/
theorem pairwise_ofType {index : TypeIndex} {t : TypeEntry}
    (h : t.members.methods.length ≤ UInt32.size) :
    (ofType index t).Pairwise fun e f ↦ e.2.owner = f.2.owner ∧ e.2.index < f.2.index := by
  rw [ofType, List.pairwise_filterMap, List.pairwise_iff_getElem]
  intro i j hi hj hij e he f hf
  simp only [List.getElem_zipIdx, Nat.zero_add] at he hf
  rw [List.length_zipIdx] at hi hj
  obtain ⟨target, -, rfl⟩ := Option.map_eq_some_iff.mp he
  obtain ⟨target', -, rfl⟩ := Option.map_eq_some_iff.mp hf
  exact ⟨rfl, (UInt32.ofNat_lt_iff_lt (by omega) (by omega)).mpr hij⟩

theorem pairwise_all {index : TypeIndex} {as : List AssemblyEntry} (h : Addressed as)
    (hmethods : ∀ t ∈ types as, t.members.methods.length ≤ UInt32.size) :
    (all index as).Pairwise fun e f ↦ e.2.ComesBefore f.2 := by
  have howner {t : TypeEntry} {e : TypeId × MethodRef} (he : e ∈ ofType index t) :
      e.2.owner = t.id := by
    obtain ⟨i, m, -, -, href⟩ := mem_ofType_iff.mp he
    rw [href]
    rfl
  rw [all, List.pairwise_flatMap]
  refine ⟨fun t ht ↦ (pairwise_ofType (hmethods t ht)).imp Or.inr, ?_⟩
  refine h.pairwise_types.imp fun {t u} htu e he f hf ↦ Or.inl ?_
  rw [howner he, howner hf]
  exact htu

/-- The extensions of the first type of a name are the methods that extend the name, and the other
types of the name have none. -/
theorem mem_map_filter_all_iff {index : TypeIndex} {as : List AssemblyEntry} (h : Addressed as)
    (hindex : ∀ name, index.find? name = (TypeIndex.ofAssemblies as).find? name) {t : TypeEntry}
    (ht : t ∈ types as) {ref : MethodRef} :
    ref ∈ ((all index as).filter fun e ↦ e.1 == t.id).map Prod.snd ↔
      IsFirst as t ∧ ∃ u ∈ types as, ∃ i m, u.members.methods[i]? = some m ∧
        ref = .ofPosition u.id i ∧ m.Extends t.fullName := by
  have hname {name : String} : index.find? name = some t.id ↔
      name = t.fullName ∧ IsFirst as t := by
    rw [hindex]
    exact TypeIndex.find?_eq_some_id_iff h ht
  constructor
  · intro href
    obtain ⟨e, he, rfl⟩ := List.mem_map.mp href
    obtain ⟨he, hid⟩ := List.mem_filter.mp he
    obtain ⟨u, hu, i, m, hm, ⟨name, hextends, hfind⟩, href⟩ := mem_all_iff.mp he
    rw [eq_of_beq hid] at hfind
    obtain ⟨rfl, hfirst⟩ := hname.mp hfind
    exact ⟨hfirst, u, hu, i, m, hm, href, hextends⟩
  · rintro ⟨hfirst, u, hu, i, m, hm, rfl, hextends⟩
    refine List.mem_map.mpr ⟨(t.id, .ofPosition u.id i), List.mem_filter.mpr ⟨?_, ?_⟩, rfl⟩
    · exact mem_all_iff.mpr ⟨u, hu, i, m, hm, ⟨_, hextends, hname.mpr ⟨rfl, hfirst⟩⟩, rfl⟩
    · exact beq_self_eq_true t.id

/-- Numbers among overloads do not matter to extensions. -/
theorem ofType_numberOverloads (index : TypeIndex) (t : TypeEntry) :
    ofType index t.numberOverloads = ofType index t := by
  have hunnumbered (t : TypeEntry) : ofType index t =
      ((t.members.get .methods).map MemberEntry.unnumbered).zipIdx.filterMap fun p ↦
        (target? index p.1).map fun target ↦ (target, .ofPosition t.id p.2) := by
    rw [List.zipIdx_map, List.filterMap_map]
    rfl
  rw [hunnumbered, hunnumbered, TypeEntry.get_numberOverloads]
  rfl

end Extension

/-! ### The whole reference -/

namespace Reference

open Assemblies

/-- Extension methods are those of the finished assemblies, though they were attached before
overloads were numbered. -/
theorem extensionMethods_eq {inclusion : Inclusion} {index : TypeIndex} {files : List Comments}
    {as : List AssemblyEntry} {t : TypeEntry}
    (ht : t ∈ Assemblies.types (complete inclusion index files as)) :
    t.extensionMethods = ((Extension.all index (complete inclusion index files as)).filter
      fun e ↦ e.1 == t.id).map Prod.snd := by
  simp only [complete] at ht ⊢
  generalize (if inclusion.undocumentedMembers then Inheritance.propagate index files as
    else Inheritance.dropUndocumented (Inheritance.propagate index files as)) = bs at ht ⊢
  rw [Extension.attach, mapTypes_mapTypes, types_mapTypes] at ht
  have hall : Extension.all index (mapTypes TypeEntry.numberOverloads
      (Extension.attach index bs)) = Extension.all index bs := by
    rw [Extension.attach, mapTypes_mapTypes, Extension.all, types_mapTypes, List.flatMap_map]
    exact List.flatMap_congr fun u _ ↦ Extension.ofType_numberOverloads index _
  obtain ⟨t₀, -, rfl⟩ := List.mem_map.mp ht
  rw [hall]
  rfl

/-- The extension methods of a type. -/
structure AttachesExtensions (r : Reference) (t : TypeEntry) : Prop where
  /-- They stand in the order of assemblies, slots and places, each once. -/
  ordered : t.extensionMethods.Pairwise MethodRef.ComesBefore
  /-- They are the places of the methods that extend the name of the type, if the type is the first
  one of its name; else there are none. -/
  listed : ∀ ref, ref ∈ t.extensionMethods ↔ IsFirst r.assemblies t ∧
    ∃ u ∈ Assemblies.types r.assemblies, ∃ i m, u.members.methods[i]? = some m ∧
      ref = .ofPosition u.id i ∧ m.Extends t.fullName
  /-- A lookup finds the method of every reference. -/
  found : List.Forall₂ (fun ref m ↦ r.method? ref = some m) t.extensionMethods
    (r.extensionMethods t.id)

/-- **Every extension method is listed with the first type of the name it extends.** There must be
words enough to number the assemblies, the types of each assembly and the methods of each type. -/
theorem attachesExtensions_of_build {inclusion : Inclusion} {filter : MemberFilter}
    {inputs : List AssemblyInput} {namespaceComments : Option CommentSource} {r : Reference}
    (h : build inclusion filter inputs namespaceComments = .ok r)
    (hinputs : inputs.length ≤ UInt32.size)
    (htypes : ∀ a ∈ r.assemblies, a.types.length ≤ UInt32.size)
    (hmethods : ∀ t ∈ Assemblies.types r.assemblies, t.members.methods.length ≤ UInt32.size)
    {t : TypeEntry} (ht : t ∈ Assemblies.types r.assemblies) : r.AttachesExtensions t := by
  obtain ⟨-, hr⟩ := build_eq_ok_iff.mp h
  set bindings := bindAll inclusion filter inputs
  have hbound : IsBound (boundEntries bindings) :=
    isBound_boundEntries hinputs fun p hp ↦ length_types_of_mem_boundEntries (hr ▸ htypes) hp
  have haddr : Addressed r.assemblies := hr ▸ addressed_ofBindings hbound
  have houtline : outline r.assemblies = outline ((boundEntries bindings).map Prod.fst) :=
    hr ▸ outline_ofBindings inclusion bindings namespaceComments
  set index := TypeIndex.ofAssemblies ((boundEntries bindings).map Prod.fst)
  have hrefs : t.extensionMethods =
      ((Extension.all index r.assemblies).filter fun e ↦ e.1 == t.id).map Prod.snd := by
    subst hr
    exact extensionMethods_eq ht
  have hlisted (ref : MethodRef) : ref ∈ t.extensionMethods ↔ IsFirst r.assemblies t ∧
      ∃ u ∈ Assemblies.types r.assemblies, ∃ i m, u.members.methods[i]? = some m ∧
        ref = .ofPosition u.id i ∧ m.Extends t.fullName := by
    rw [hrefs]
    exact Extension.mem_map_filter_all_iff haddr
      (fun name ↦ (TypeIndex.find?_eq_of_outline_eq houtline name).symm) ht
  exact {
    ordered := by
      rw [hrefs]
      refine List.Pairwise.map _ (fun _ _ h ↦ h) ?_
      exact (Extension.pairwise_all haddr hmethods).sublist List.filter_sublist
    listed := hlisted
    found := by
      have hmembers : r.extensionMethods t.id = t.extensionMethods.filterMap r.method? := by
        unfold extensionMethods type?
        rw [haddr.type?_id ht]
      rw [hmembers]
      refine forall₂_filterMap fun ref href ↦ ?_
      obtain ⟨-, u, hu, i, m, hm, rfl, -⟩ := (hlisted ref).mp href
      exact isSome_method? haddr hu (hmethods u hu) (List.getElem?_eq_some_iff.mp hm).1 }

/-! ### An extension of types of the same name -/

/-- Two assemblies declare a type of the same name, and a third one an extension of it, whose first
parameter is a reference to a variable. -/
def lidInputs : List AssemblyInput :=
  [⟨⟨"Boxes", .ok [.classNamed "Box"]⟩, none⟩,
    ⟨⟨"Crates", .ok [.classNamed "Box"]⟩, none⟩,
    ⟨⟨"Lids", .ok [(TypeDecl.classNamed "Lid").withMember
      ((MemberDecl.methodOf "Lid" "Close" .void).withParameter "box"
        (.derived .byRef (.named "Box" []))).asExtension]⟩, none⟩]

/-- The assemblies of boxes, crates and lids as they are bound. -/
def lids : List (AssemblyEntry × Comments) :=
  boundEntries (bindAll .publicSurface .all lidInputs)

theorem attachesExtensions_of_build_lidInputs :
    ∃ r, build .publicSurface .all lidInputs none = .ok r ∧
      (Assemblies.types r.assemblies).map TypeEntry.extensionMethods =
        [[⟨⟨⟨2⟩, 0⟩, 0⟩], [], []] ∧
      ∀ t ∈ Assemblies.types r.assemblies, r.AttachesExtensions t := by
  set r := ofBindings .publicSurface (bindAll .publicSurface .all lidInputs) none with hr
  have hbuild : build .publicSurface .all lidInputs none = .ok r :=
    build_eq_ok_iff.mpr ⟨by decide +kernel, hr⟩
  have hassemblies : r.assemblies = Inheritance.completeAlong _ .publicSurface lids :=
    Inheritance.assemblies_ofBindings _ _ (Inheritance.order_eq_of_pairwise (by decide +kernel))
  have hmethods : ∀ t ∈ Assemblies.types r.assemblies,
      t.members.methods.length ≤ UInt32.size := by
    rw [hassemblies]
    decide +kernel
  have htypes : ∀ a ∈ r.assemblies, a.types.length ≤ UInt32.size := by
    rw [hassemblies]
    decide +kernel
  refine ⟨r, hbuild, ?_, fun t ht ↦ ?_⟩
  · rw [hassemblies]
    decide +kernel
  · exact attachesExtensions_of_build hbuild (by decide) htypes hmethods ht

end Reference

end ApiDocs
