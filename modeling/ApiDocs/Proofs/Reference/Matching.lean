import ApiDocs.Proofs.Entry.Matching
import ApiDocs.Proofs.Reference.Skipping
import ApiDocs.Proofs.Reference.Switches

/-!
# Inputs that are bound completely

If every documentation file matches the declarations of its assembly, nothing is left to report and
a reference with all switches on has all that is declared: every type with the comment under its id,
and every member with a comment. The passes over several assemblies may put the comment of an
overridden member in the place of one that asks for it, but they take no comment away.

The ids of overridden members are written as well, and that fails if the markers in the name of a
generic type state more arguments than a 64-bit word can count. Such a name keeps an assembly from
being bound, even if the member that it stands for is declared elsewhere.

## Main definitions

* `AssemblyInput.Matched`: an input that can be read and whose comments match its declarations.
* `Reference.BindsFully`: a reference has all that its inputs declare.

## Main results

* `TypeEntry.Presents.inheritType`, `Inheritance.presents_propagateAlong`: inheritance takes no
  comments away.
* `Reference.presents_complete`: all passes leave a type as complete as it was.
* `Reference.bindsFully_of_matched`: inputs that match are bound completely.
* `Reference.reports_ringInputs`: a name that no id can be written for.
-/

namespace ApiDocs

/-! ### What the passes keep -/

namespace TypeEntry.Presents

variable {comments : Comments} {d : TypeDecl} {t : TypeEntry}

/-- A type with the same outline as another one and with members of the same declarations, all of
them with comments. -/
theorem of_map_decl_eq {u : TypeEntry} (h : u.Presents comments d)
    (houtline : t.outline = u.outline)
    (hdecls : (t.members.toList.map fun m ↦ m.decl) = u.members.toList.map fun m ↦ m.decl)
    (hdocumented : ∀ m ∈ t.members.toList, m.comment.isSome = true) : t.Presents comments d := by
  have hcomment : t.comment = u.comment := congrArg (fun t ↦ t.comment) houtline
  refine ⟨(congrArg (fun t ↦ t.header) houtline).trans h.header_eq, ?_, ?_, ?_, hdocumented⟩
  · rw [hcomment, h.comment_eq]
  · rw [hcomment, h.documented]
  · rw [hdecls]
    exact h.members_perm

/-- A turn of the sweep takes no comment away. -/
theorem inheritType (h : t.Presents comments d) (index : TypeIndex) (files : List Comments)
    (as : List AssemblyEntry) : (Inheritance.inheritType index files as t).Presents comments d := by
  refine h.of_map_decl_eq rfl ?_ fun m hm ↦ ?_
  · rw [Inheritance.toList_members_inheritType, List.map_map]
    exact List.map_congr_left fun m _ ↦
      (Inheritance.changesComments_inheritMember as).decl_eq m
  · rw [Inheritance.toList_members_inheritType] at hm
    obtain ⟨m₀, hm₀, rfl⟩ := List.mem_map.mp hm
    unfold Inheritance.inheritMember
    split_ifs
    · cases m₀.overrides.bind (Inheritance.inherited? index files as) with
      | none => exact h.members_documented m₀ hm₀
      | some c => rfl
    · exact h.members_documented m₀ hm₀

theorem extend (h : t.Presents comments d) (methods : List MethodRef) :
    Presents comments d { t with extensionMethods := methods } :=
  h.of_map_decl_eq rfl rfl h.members_documented

theorem numberOverloads (h : t.Presents comments d) : t.numberOverloads.Presents comments d := by
  have hnumbered := MemberTable.map_toList_congr t.get_numberOverloads
  refine h.of_map_decl_eq rfl ?_ fun m hm ↦ ?_
  · have hdecls := congrArg (List.map fun m ↦ m.decl) hnumbered
    rwa [List.map_map, List.map_map] at hdecls
  · have hmem : m.unnumbered ∈ t.members.toList.map MemberEntry.unnumbered :=
      hnumbered ▸ List.mem_map_of_mem hm
    obtain ⟨m₀, hm₀, heq⟩ := List.mem_map.mp hmem
    have hcomment : m₀.comment = m.comment := congrArg (fun m ↦ m.comment) heq
    rw [← hcomment]
    exact h.members_documented m₀ hm₀

end TypeEntry.Presents

open Assemblies

/-- The sweep takes no comments away from the type in a place. -/
theorem Inheritance.presents_propagateAlong {comments : Comments} {d : TypeDecl} {i j : Nat}
    {index : TypeIndex} {files : List Comments} (ids : List TypeId) {as : List AssemblyEntry}
    (h : ∀ t ∈ typeAt? as i j, t.Presents comments d) :
    ∀ t ∈ typeAt? (propagateAlong index files ids as) i j, t.Presents comments d := by
  induction ids generalizing as with
  | nil => exact h
  | cons id ids ih =>
    rw [propagateAlong_cons]
    refine ih fun t ht ↦ ?_
    rcases typeAt?_modifyType id (inheritType index files as) as i j with heq | heq
    · exact h t (heq ▸ ht)
    · rw [heq] at ht
      obtain ⟨t₀, ht₀, rfl⟩ := Option.map_eq_some_iff.mp ht
      exact (h t₀ ht₀).inheritType index files as

/-- The passes leave the type in a place as complete as it was. -/
theorem Reference.presents_complete {comments : Comments} {d : TypeDecl} {i j : Nat}
    (index : TypeIndex) (files : List Comments) {as : List AssemblyEntry}
    (h : ∀ t ∈ typeAt? as i j, t.Presents comments d) :
    ∀ t ∈ typeAt? (complete .all index files as) i j, t.Presents comments d := by
  intro t ht
  rw [Option.mem_def, complete, typeAt?_mapTypes, Extension.attach, typeAt?_mapTypes] at ht
  obtain ⟨t₂, ht₂, rfl⟩ := Option.map_eq_some_iff.mp ht
  obtain ⟨t₁, ht₁, rfl⟩ := Option.map_eq_some_iff.mp ht₂
  exact ((Inheritance.presents_propagateAlong _ h t₁ ht₁).extend _).numberOverloads

/-! ### One input -/

theorem CommentSource.reports_of_not_fails {s : Option CommentSource} (h : ¬ Fails s)
    (assembly : Option String) : (loadAny assembly s).2 = [] := by
  generalize hreports : (loadAny assembly s).2 = reports
  have hrows := reports_loadAny assembly s
  rw [hreports] at hrows
  cases hrows with
  | absent | loaded _ => rfl
  | skipped hload => exact absurd ⟨_, _, rfl, hload⟩ h

/-- An input whose declarations can be read and are consistent, and whose comments can be loaded and
match the declarations. -/
structure AssemblyInput.Matched (input : AssemblyInput) (declared : List TypeDecl) : Prop where
  load_eq : input.source.load = .ok declared
  valid : TypeDecl.validate declared = .ok ()
  loadable : ¬ CommentSource.Fails input.comments
  matched : input.loaded.Matches declared

/-- An input that matches is bound completely, without reports. -/
theorem AssemblyInput.Matched.exists_bind {input : AssemblyInput} {declared : List TypeDecl}
    (h : input.Matched declared)
    (hlinks : ∀ d ∈ declared, ∀ m ∈ d.members, ∀ base ∈ m.overridden? d.fullName,
      ∃ id, base.docId = .ok id) (id : AssemblyId) :
    ∃ a, AssemblyEntry.build .all .all id input.source input.loaded = .ok a ∧
      (input.bind .all .all id).diagnostics = [] ∧ a.Presents input.loaded declared := by
  obtain ⟨a, ha, hreports, hpresents⟩ :=
    AssemblyEntry.exists_build_of_matches h.load_eq h.valid h.matched hlinks id
  refine ⟨a, ha, ?_, hpresents⟩
  rw [bind_eq_of_ok ha, hreports, CommentSource.reports_of_not_fails h.loadable]
  rfl

/-! ### The whole reference -/

namespace Reference

/-- A reference has all that its inputs declare: the assembly of every input in its place, every
declared type in its slot with the comment under its id, and all members but the methods behind
properties and events, each with a comment. -/
structure BindsFully (inputs : List AssemblyInput) (r : Reference) : Prop where
  length_eq : r.assemblies.length = inputs.length
  presents : ∀ (i : Nat) (input : AssemblyInput), inputs[i]? = some input →
    ∃ a declared, r.assemblies[i]? = some a ∧ a.id = .ofNat i ∧ a.name = input.source.name ∧
      input.source.load = .ok declared ∧ AssemblyEntry.Presents input.loaded declared a

/-- If all inputs can be bound, their assemblies stand in their places. -/
theorem map_some_boundEntries {inclusion : Inclusion} {filter : MemberFilter}
    {inputs : List AssemblyInput}
    (h : ∀ (i : Nat) (input : AssemblyInput), inputs[i]? = some input →
      ∃ a, AssemblyEntry.build inclusion filter (.ofNat i) input.source input.loaded = .ok a) :
    (boundEntries (bindAll inclusion filter inputs)).map some =
      (bindAll inclusion filter inputs).map fun b ↦
        b.entry.map fun entry ↦ (entry, b.comments) := by
  rw [boundEntries, List.map_filterMap_some_eq_filter_map_isSome, List.filter_eq_self]
  intro o ho
  obtain ⟨b, hb, rfl⟩ := List.mem_map.mp ho
  obtain ⟨p, hp, rfl⟩ := List.mem_map.mp hb
  obtain ⟨a, ha⟩ := h p.2 p.1 (List.mem_zipIdx_iff_getElem?.mp hp)
  rw [Option.isSome_map]
  exact congrArg (fun b ↦ b.entry.isSome) (AssemblyInput.bind_eq_of_ok ha)

theorem getElem?_boundEntries {inclusion : Inclusion} {filter : MemberFilter}
    {inputs : List AssemblyInput}
    (h : ∀ (i : Nat) (input : AssemblyInput), inputs[i]? = some input →
      ∃ a, AssemblyEntry.build inclusion filter (.ofNat i) input.source input.loaded = .ok a)
    {i : Nat} {input : AssemblyInput} (hinput : inputs[i]? = some input) {a : AssemblyEntry}
    (ha : AssemblyEntry.build inclusion filter (.ofNat i) input.source input.loaded = .ok a) :
    (boundEntries (bindAll inclusion filter inputs))[i]? = some (a, input.loaded) := by
  have hplace := congrArg (fun os ↦ os[i]?) (map_some_boundEntries h)
  simp only [bindAll, List.getElem?_map, List.getElem?_zipIdx, hinput, Option.map_some,
    Nat.zero_add, AssemblyInput.bind_eq_of_ok ha] at hplace
  obtain ⟨p, hp, heq⟩ := Option.map_eq_some_iff.mp hplace
  rw [bindAll, hp, Option.some.inj heq]

/-- The passes leave an assembly as complete as it was. -/
theorem exists_presents_complete {comments : Comments} {declared : List TypeDecl} {i : Nat}
    (index : TypeIndex) (files : List Comments) {as : List AssemblyEntry} {a₀ : AssemblyEntry}
    (ha₀ : as[i]? = some a₀) (h : a₀.Presents comments declared) :
    ∃ a, (complete .all index files as)[i]? = some a ∧ a.id = a₀.id ∧ a.name = a₀.name ∧
      a.Presents comments declared := by
  obtain ⟨a, ha, houtline⟩ := exists_getElem?_outline_eq outline_complete ha₀
  have hlength : a.types.length = declared.length := by
    have htypes : a.types.map TypeEntry.outline = a₀.types.map TypeEntry.outline :=
      congrArg (fun a ↦ a.types) houtline
    have hlengths := congrArg List.length htypes
    rwa [List.length_map, List.length_map, h.length_eq] at hlengths
  refine ⟨a, ha, congrArg (fun a ↦ a.id) houtline, congrArg (fun a ↦ a.name) houtline, hlength,
    fun j d hd ↦ ?_⟩
  have hlt : j < a.types.length := by
    rw [hlength]
    exact (List.getElem?_eq_some_iff.mp hd).1
  have ht := List.getElem?_eq_getElem hlt
  refine ⟨_, ht, presents_complete index files (fun t₀ ht₀ ↦ ?_) _
    (Option.bind_eq_some_iff.mpr ⟨a, ha, ht⟩)⟩
  obtain ⟨t, ht, hpresents⟩ := h.presents j d hd
  rw [Option.mem_def, typeAt?, ha₀, Option.bind_some, ht] at ht₀
  exact Option.some.inj ht₀ ▸ hpresents

/-- **Inputs that match are bound completely.** Of a list of inputs that is not rejected, let all be
readable and consistent and let their comments match what they declare. If the members that their
members override have documentation ids and the file of comments on namespaces can be loaded, the
reference with all switches on has no reports and all that is declared. -/
theorem bindsFully_of_matched {inputs : List AssemblyInput} (hvalid : ¬ Rejected inputs)
    (hmatched : ∀ input ∈ inputs, ∃ declared, input.Matched declared) (hlinks : LinksNamed inputs)
    {namespaceComments : Option CommentSource}
    (hloadable : ¬ CommentSource.Fails namespaceComments) :
    ∃ r, build .all .all inputs namespaceComments = .ok r ∧ r.diagnostics = [] ∧
      BindsFully inputs r := by
  have hbind (i : Nat) (input : AssemblyInput) (hinput : inputs[i]? = some input) :
      ∃ a declared, input.source.load = .ok declared ∧
        AssemblyEntry.build .all .all (.ofNat i) input.source input.loaded = .ok a ∧
        (input.bind .all .all (.ofNat i)).diagnostics = [] ∧
        a.Presents input.loaded declared := by
    have hmem := List.mem_of_getElem? hinput
    obtain ⟨declared, hdeclared⟩ := hmatched input hmem
    obtain ⟨a, ha, hreports, hpresents⟩ := hdeclared.exists_bind
      (hlinks input hmem declared hdeclared.load_eq) (.ofNat i)
    exact ⟨a, declared, hdeclared.load_eq, ha, hreports, hpresents⟩
  have hall (i : Nat) (input : AssemblyInput) (hinput : inputs[i]? = some input) :
      ∃ a, AssemblyEntry.build .all .all (.ofNat i) input.source input.loaded = .ok a := by
    obtain ⟨a, -, -, ha, -⟩ := hbind i input hinput
    exact ⟨a, ha⟩
  refine ⟨_, build_eq_ok_iff.mpr ⟨checkInputs_eq_ok_iff.mpr hvalid, rfl⟩, ?_, ?_, ?_⟩
  · rw [ofBindings, CommentSource.reports_of_not_fails hloadable, List.append_nil,
      List.flatMap_eq_nil_iff]
    intro b hb
    obtain ⟨p, hp, rfl⟩ := List.mem_map.mp hb
    obtain ⟨-, -, -, -, hreports, -⟩ := hbind p.2 p.1 (List.mem_zipIdx_iff_getElem?.mp hp)
    exact hreports
  · have hbound := congrArg List.length (map_some_boundEntries hall)
    have houtline := congrArg List.length
      (outline_ofBindings .all (bindAll .all .all inputs) namespaceComments)
    simp only [outline, mapTypes, List.length_map] at houtline
    rw [houtline]
    simpa [bindAll] using hbound
  · intro i input hinput
    obtain ⟨a₀, declared, hload, ha₀, -, hpresents⟩ := hbind i input hinput
    have hplace : ((boundEntries (bindAll .all .all inputs)).map Prod.fst)[i]? = some a₀ := by
      rw [List.getElem?_map, getElem?_boundEntries hall hinput ha₀, Option.map_some]
    obtain ⟨a, ha, hid, hname, hpresents⟩ := exists_presents_complete
      (TypeIndex.ofAssemblies ((boundEntries (bindAll .all .all inputs)).map Prod.fst))
      ((boundEntries (bindAll .all .all inputs)).map Prod.snd) hplace hpresents
    refine ⟨a, declared, ha, hid.trans (AssemblyEntry.id_of_build ha₀), ?_, hload, hpresents⟩
    rw [hname]
    exact AssemblyInput.name_of_bind_entry
      (congrArg (fun b ↦ b.entry) (AssemblyInput.bind_eq_of_ok ha₀))

/-! ### Files made for their assemblies -/

/-- An assembly with a file of comments that say nothing. -/
def filedInput (name : String) (declared : List TypeDecl) (keys : List String) : AssemblyInput :=
  ⟨⟨name, .ok declared⟩, some (.memory (.ofList none (keys.map fun key ↦ { key })))⟩

theorem matched_filedInput {name : String} {declared : List TypeDecl} {keys known : List String}
    (hvalid : TypeDecl.validate declared = .ok ())
    (hknown : AssemblyEntry.knownIds declared = .ok known)
    (hfiled : ∀ key ∈ known,
      key ∈ (filedInput name declared keys).loaded.keys ∧ DocKind.OnDeclaration key)
    (hdeclared : ∀ key ∈ (filedInput name declared keys).loaded.keys,
      DocKind.OnDeclaration key → key ∈ known) :
    (filedInput name declared keys).Matched declared := by
  refine ⟨rfl, hvalid, ?_, AssemblyEntry.matches_of_knownIds hknown hfiled hdeclared⟩
  rintro ⟨source, e, heq, hload⟩
  obtain rfl := Option.some.inj heq
  cases hload

/-- Shapes and discs with a comment for every type and member, and one on a namespace. -/
def filedInputs : List AssemblyInput :=
  [filedInput "Shapes" [(TypeDecl.classNamed "Shape").withMember (.methodOf "Shape" "Area" .void)]
      ["T:Shape", "N:Shapes", "M:Shape.Area"],
    filedInput "Discs" [discDecl]
      ["M:Disc.op_Equality", "M:Disc.Area", "P:Disc.Edge", "M:Disc.get_Edge", "F:Disc.edge",
        "M:Disc.Draw", "M:Disc.Roll", "T:Disc"]]

theorem matched_filedInputs : ∀ input ∈ filedInputs, ∃ declared, input.Matched declared := by
  intro input hinput
  rcases List.mem_pair.mp hinput with rfl | rfl
  · exact ⟨_, matched_filedInput (by decide +kernel) rfl (by decide +kernel) (by decide +kernel)⟩
  · exact ⟨_, matched_filedInput (by decide +kernel) rfl (by decide +kernel) (by decide +kernel)⟩

theorem linksNamed_filedInputs : LinksNamed filedInputs := by
  intro input hinput declared hload d hd m hm base hbase
  have hids : ∀ input ∈ filedInputs, ∀ declared ∈ input.source.load.toOption, ∀ d ∈ declared,
      ∀ m ∈ d.members, ∀ base ∈ m.overridden? d.fullName,
      ∃ id ∈ ["M:Shape.Area", "P:Shape.Edge"], base.docId = .ok id := by
    decide +kernel
  have hdeclared : declared ∈ input.source.load.toOption := by
    rw [hload]
    rfl
  exact (hids input hinput declared hdeclared d hd m hm base hbase).imp fun _ hid ↦ hid.2

theorem bindsFully_of_matched_filedInputs :
    ¬ Rejected filedInputs ∧ (∀ input ∈ filedInputs, ∃ declared, input.Matched declared) ∧
      LinksNamed filedInputs ∧
      ∃ r, build .all .all filedInputs none = .ok r ∧ r.diagnostics = [] ∧
        BindsFully filedInputs r := by
  have hvalid : ¬ Rejected filedInputs := checkInputs_eq_ok_iff.mp (by decide +kernel)
  have hloadable : ¬ CommentSource.Fails none := by
    rintro ⟨s, e, heq, -⟩
    exact Option.some_ne_none s heq.symm
  exact ⟨hvalid, matched_filedInputs, linksNamed_filedInputs,
    bindsFully_of_matched hvalid matched_filedInputs linksNamed_filedInputs hloadable⟩

/-- The ring overrides a method of a type that is declared elsewhere. The markers in the name of the
parameter's type state more arguments than a word can count. -/
def ringInputs : List AssemblyInput :=
  [filedInput "Rings"
    [(TypeDecl.classNamed "Ring").withMember
      ((MemberDecl.methodOf "Ring" "Area" .void).withBaseDefinition
        ((MemberDecl.methodOf "Band" "Area" .void).withParameter "within"
          (.named "Box`18446744073709551615+Lid`1" [.named "Band" []])))]
    ["T:Ring", "M:Ring.Area"]]

/-- An input that matches is not bound if it overrides a member without a documentation id. -/
theorem reports_ringInputs :
    ¬ Rejected ringInputs ∧ (∀ input ∈ ringInputs, ∃ declared, input.Matched declared) ∧
      (build .all .all ringInputs none).map (fun r ↦ (r.assemblies, r.diagnostics)) =
        .ok ([], [.bindingFailure "Rings" "binding panicked: attempt to add with overflow"]) := by
  refine ⟨checkInputs_eq_ok_iff.mp (by decide +kernel), fun input hinput ↦ ?_, by decide +kernel⟩
  obtain rfl := List.mem_singleton.mp hinput
  exact ⟨_, matched_filedInput (by decide +kernel) rfl (by decide +kernel) (by decide +kernel)⟩

end Reference

end ApiDocs
