import ApiDocs.Proofs.Reference.Content
import ApiDocs.Proofs.Reference.Integrity
import ApiDocs.Proofs.Reference.Isolation

/-!
# Inputs and reports

Nothing that goes wrong with a single input keeps a reference from being built. The names of the
inputs are checked before anything else; after that every input leaves either its assembly, under
the number of its place, or a report that it could not be bound. The reports of a reference are
those of its inputs one after another: what happened to the input's documentation file comes first,
then what happened to the input. A report on the file of comments on namespaces comes last.

## Main definitions

* `CommentSource.Reports`: what there is to report on a source of comments.
* `BuildError.Applies`: what an error says about the inputs.
* `Reference.Rejected`: the inputs of which no reference is built.
* `Reference.Answers`: what a reference has of an input.
* `Reference.Accounted`: a reference has an answer for each of its inputs, and nothing else.

## Main results

* `Reference.exists_applies_of_rejected`: the error names what is wrong with the inputs.
* `Reference.answers_bind`: what a reference has of an input is what came of binding it.
* `Reference.rejected_or_accounted`: the inputs are rejected or accounted for.
-/

namespace ApiDocs

/-! ### Reports -/

/-- What there is to report on a source of comments: that it could not be loaded, if so. -/
inductive CommentSource.Reports (assembly : Option String) :
    Option CommentSource → List Diagnostic → Prop
  | absent : Reports assembly none []
  | loaded {s : CommentSource} {comments : Comments} (h : s.load = .ok comments) :
      Reports assembly (some s) []
  | skipped {s : CommentSource} {e : CommentError} (h : s.load = .error e) :
      Reports assembly (some s) [.docFileSkipped assembly s.label e.message]

theorem CommentSource.reports_loadAny (assembly : Option String) (s : Option CommentSource) :
    Reports assembly s (loadAny assembly s).2 := by
  cases s with
  | none => exact .absent
  | some s =>
    rw [loadAny, loadOrSkip]
    cases hload : s.load with
    | ok comments => exact .loaded hload
    | error e => exact .skipped hload

/-- Whether a report says that an assembly could not be bound. -/
def Diagnostic.isFailureOf (assembly : String) : Diagnostic → Bool
  | bindingFailure name _ => name == assembly
  | unboundEntries _ _ _ | docFileSkipped _ _ _ => false

theorem CommentSource.Reports.filter_isFailureOf {assembly : Option String}
    {s : Option CommentSource} {reports : List Diagnostic} (h : Reports assembly s reports)
    (name : String) : reports.filter (Diagnostic.isFailureOf name) = [] := by
  cases h <;> rfl

/-- An assembly that was built has at most one report, on comments that belong to no declaration. -/
theorem AssemblyEntry.diagnostics_of_build {inclusion : Inclusion} {filter : MemberFilter}
    {id : AssemblyId} {source : AssemblySource} {comments : Comments} {a : AssemblyEntry}
    (h : build inclusion filter id source comments = .ok a) :
    a.diagnostics = [] ∨
      ∃ types members, a.diagnostics = [.unboundEntries source.name types members] := by
  obtain ⟨declared, built, known, -, -, -, -, rfl⟩ := exists_of_build h
  simp only [unbound]
  split_ifs
  · exact Or.inl rfl
  · exact Or.inr ⟨_, _, rfl⟩

/-! ### Errors -/

/-- What an error says about a list of inputs. -/
def BuildError.Applies (inputs : List AssemblyInput) : BuildError → Prop
  | noAssemblies => inputs = []
  | unnamedAssembly => ∃ input ∈ inputs, input.source.name = ""
  | repeatedAssembly name => 2 ≤ (inputs.map fun input ↦ input.source.name).count name
  | unevenLists _ _ => False

namespace Reference

/-- The inputs of which no reference is built: there are none, or one has no name, or two have the
same name. -/
def Rejected (inputs : List AssemblyInput) : Prop :=
  inputs = [] ∨ (∃ input ∈ inputs, input.source.name = "") ∨
    ¬ (inputs.map fun input ↦ input.source.name).Nodup

theorem checkInputs_eq_ok_iff {inputs : List AssemblyInput} :
    checkInputs inputs = .ok () ↔ ¬ Rejected inputs := by
  simp only [Rejected, not_or, not_not, not_exists, not_and]
  rw [checkInputs]
  split_ifs with hempty
  · exact iff_of_false (fun h ↦ by cases h) fun h ↦ h.1 (List.isEmpty_iff.mp hempty)
  · have hne : inputs ≠ [] := fun h ↦ hempty (List.isEmpty_iff.mpr h)
    rw [checkNames_eq_ok_iff]
    exact ⟨fun h ↦ ⟨hne, fun input hi ↦ (h.1 input hi).1, h.2⟩,
      fun h ↦ ⟨fun input hi ↦ ⟨h.2.1 input hi, List.not_mem_nil⟩, h.2.2⟩⟩

/-- A name that is found to be listed twice is, among the inputs and the names before them. -/
theorem applies_of_checkNames {seen : List String} {inputs : List AssemblyInput} {e : BuildError}
    (h : checkNames seen inputs = .error e) :
    (e = .unnamedAssembly ∧ ∃ input ∈ inputs, input.source.name = "") ∨
      ∃ name, e = .repeatedAssembly name ∧
        2 ≤ (seen ++ inputs.map fun input ↦ input.source.name).count name := by
  induction inputs generalizing seen with
  | nil => cases h
  | cons input inputs ih =>
    rw [checkNames] at h
    split_ifs at h with hempty hseen
    · obtain rfl := Except.error.inj h
      exact Or.inl ⟨rfl, input, List.mem_cons_self, String.isEmpty_iff.mp hempty⟩
    · obtain rfl := Except.error.inj h
      refine Or.inr ⟨input.source.name, rfl, ?_⟩
      have hpos := List.count_pos_iff.mpr (List.contains_iff_mem.mp hseen)
      rw [List.count_append, List.map_cons, List.count_cons_self]
      omega
    · rcases ih h with ⟨rfl, other, hother, hname⟩ | ⟨name, rfl, hcount⟩
      · exact Or.inl ⟨rfl, other, List.mem_cons_of_mem input hother, hname⟩
      · refine Or.inr ⟨name, rfl, ?_⟩
        rwa [List.map_cons, List.perm_middle.count_eq]

/-- The error names what is wrong with the inputs. -/
theorem exists_applies_of_rejected {inputs : List AssemblyInput} (h : Rejected inputs)
    (inclusion : Inclusion) (filter : MemberFilter) (namespaceComments : Option CommentSource) :
    ∃ e, build inclusion filter inputs namespaceComments = .error e ∧ e.Applies inputs := by
  cases hcheck : checkInputs inputs with
  | ok u => exact absurd h (checkInputs_eq_ok_iff.mp hcheck)
  | error e =>
    refine ⟨e, by rw [build, hcheck]; rfl, ?_⟩
    rw [checkInputs] at hcheck
    split_ifs at hcheck with hempty
    · obtain rfl := Except.error.inj hcheck
      exact List.isEmpty_iff.mp hempty
    · rcases applies_of_checkNames hcheck with ⟨rfl, hunnamed⟩ | ⟨name, rfl, hcount⟩
      · exact hunnamed
      · exact hcount

end Reference

/-! ### One input -/

namespace AssemblyInput

variable {inclusion : Inclusion} {filter : MemberFilter} {id : AssemblyId} {input : AssemblyInput}

/-- What comes of an input whose assembly can be built. -/
theorem bind_eq_of_ok {a : AssemblyEntry}
    (h : AssemblyEntry.build inclusion filter id input.source input.loaded = .ok a) :
    input.bind inclusion filter id =
      ⟨input.loaded, some a,
        (CommentSource.loadAny (some input.source.name) input.comments).2 ++ a.diagnostics⟩ := by
  rw [loaded] at h
  simp only [AssemblyInput.bind, loaded, h]

/-- What comes of an input whose assembly cannot be built. -/
theorem bind_eq_of_error {e : BindError}
    (h : AssemblyEntry.build inclusion filter id input.source input.loaded = .error e) :
    input.bind inclusion filter id =
      ⟨input.loaded, none,
        (CommentSource.loadAny (some input.source.name) input.comments).2 ++
          [.bindingFailure input.source.name e.message]⟩ := by
  rw [loaded] at h
  simp only [AssemblyInput.bind, loaded, h]

theorem name_of_bind_entry {a : AssemblyEntry}
    (h : (input.bind inclusion filter id).entry = some a) : a.name = input.source.name := by
  obtain ⟨_, _, _, -, -, -, -, rfl⟩ :=
    AssemblyEntry.exists_of_build (Reference.build_of_bind_entry h)
  rfl

theorem filter_isFailureOf_bind_of_ok {a : AssemblyEntry}
    (h : AssemblyEntry.build inclusion filter id input.source input.loaded = .ok a)
    (name : String) :
    (input.bind inclusion filter id).diagnostics.filter (Diagnostic.isFailureOf name) = [] := by
  have hskipped := (CommentSource.reports_loadAny (some input.source.name)
    input.comments).filter_isFailureOf name
  rw [bind_eq_of_ok h, List.filter_append, hskipped, List.nil_append]
  rcases AssemblyEntry.diagnostics_of_build h with hnone | ⟨types, members, hone⟩
  · rw [hnone, List.filter_nil]
  · rw [hone]
    rfl

theorem filter_isFailureOf_bind_of_error {e : BindError}
    (h : AssemblyEntry.build inclusion filter id input.source input.loaded = .error e)
    (name : String) :
    (input.bind inclusion filter id).diagnostics.filter (Diagnostic.isFailureOf name) =
      if input.source.name = name then [.bindingFailure input.source.name e.message] else [] := by
  have hskipped := (CommentSource.reports_loadAny (some input.source.name)
    input.comments).filter_isFailureOf name
  rw [bind_eq_of_error h, List.filter_append, hskipped, List.nil_append, List.filter_singleton,
    Diagnostic.isFailureOf]
  split_ifs with hname
  · rw [beq_iff_eq.mpr hname, cond_true]
  · rw [beq_false_of_ne hname, cond_false]

/-- No report on an input says that an assembly of another name could not be bound. -/
theorem filter_isFailureOf_bind_of_ne (inclusion : Inclusion) (filter : MemberFilter)
    (id : AssemblyId) {name : String} (hne : input.source.name ≠ name) :
    (input.bind inclusion filter id).diagnostics.filter (Diagnostic.isFailureOf name) = [] := by
  cases hbuild : AssemblyEntry.build inclusion filter id input.source input.loaded with
  | ok a => exact filter_isFailureOf_bind_of_ok hbuild name
  | error e => rw [filter_isFailureOf_bind_of_error hbuild, if_neg hne]

end AssemblyInput

/-! ### The whole reference -/

namespace Reference

/-- The assemblies of a reference that have a name. -/
def assembliesNamed (r : Reference) (name : String) : List AssemblyEntry :=
  r.assemblies.filter fun a ↦ a.name == name

/-- The reports of a reference that an assembly could not be bound. -/
def failuresOf (r : Reference) (assembly : String) : List Diagnostic :=
  r.diagnostics.filter (Diagnostic.isFailureOf assembly)

/-- What a reference has of the input in a place, with the reports on it: its assembly, once and
under the number of the place, or else one report that it could not be bound. In both cases a report
on its documentation file comes first, if the file could not be loaded. -/
inductive Answers (inclusion : Inclusion) (filter : MemberFilter) (r : Reference)
    (input : AssemblyInput) (i : Nat) : List Diagnostic → Prop
  | bound {a built : AssemblyEntry} {skipped : List Diagnostic}
      (hbuild : AssemblyEntry.build inclusion filter (.ofNat i) input.source input.loaded =
        .ok built)
      (hskipped : CommentSource.Reports (some input.source.name) input.comments skipped)
      (honly : r.assembliesNamed input.source.name = [a]) (hid : a.id = .ofNat i)
      (hown : a.diagnostics = [] ∨
        ∃ types members, a.diagnostics = [.unboundEntries input.source.name types members])
      (hnone : r.failuresOf input.source.name = []) :
      Answers inclusion filter r input i (skipped ++ a.diagnostics)
  | failed {e : BindError} {skipped : List Diagnostic}
      (hbuild : AssemblyEntry.build inclusion filter (.ofNat i) input.source input.loaded =
        .error e)
      (hskipped : CommentSource.Reports (some input.source.name) input.comments skipped)
      (hnone : r.assembliesNamed input.source.name = [])
      (honly : r.failuresOf input.source.name =
        [.bindingFailure input.source.name e.message]) :
      Answers inclusion filter r input i
        (skipped ++ [.bindingFailure input.source.name e.message])

/-- A reference has an answer for each of its inputs. Its assemblies stand in the order of the
inputs, and its reports are those on the inputs in their order, followed by the report on the file
of comments on namespaces if that could not be loaded. -/
structure Accounted (inclusion : Inclusion) (filter : MemberFilter) (inputs : List AssemblyInput)
    (namespaceComments : Option CommentSource) (r : Reference) : Prop where
  ordered : (r.assemblies.map AssemblyEntry.name).Sublist
    (inputs.map fun input ↦ input.source.name)
  reported : ∃ rows last,
    List.Forall₂ (fun p row ↦ Answers inclusion filter r p.1 p.2 row) inputs.zipIdx rows ∧
    CommentSource.Reports none namespaceComments last ∧ r.diagnostics = rows.flatten ++ last

section

variable {inclusion : Inclusion} {filter : MemberFilter} {inputs : List AssemblyInput}
  {namespaceComments : Option CommentSource}

theorem map_name_zipIdx (inputs : List AssemblyInput) :
    (inputs.zipIdx.map fun p ↦ p.1.source.name) = inputs.map fun input ↦ input.source.name := by
  conv_rhs => rw [← List.zipIdx_map_fst 0 inputs]
  rw [List.map_map]
  rfl

/-- Bound assemblies stand in the order of the inputs. -/
theorem map_name_boundEntries_sublist (inclusion : Inclusion) (filter : MemberFilter)
    (inputs : List AssemblyInput) :
    (((boundEntries (bindAll inclusion filter inputs)).map Prod.fst).map
      AssemblyEntry.name).Sublist (inputs.map fun input ↦ input.source.name) := by
  rw [← map_name_zipIdx, boundEntries, bindAll, List.filterMap_map, List.map_filterMap,
    List.map_filterMap]
  refine filterMap_sublist_map (fun p name hname ↦ ?_) _
  simp only [Function.comp_apply, Option.map_map, Option.map_eq_some_iff] at hname
  obtain ⟨a, ha, rfl⟩ := hname
  exact AssemblyInput.name_of_bind_entry ha

/-- The passes keep everything of assemblies but their types. -/
theorem map_outline_assembliesNamed (inclusion : Inclusion) (bindings : List Binding)
    (namespaceComments : Option CommentSource) (name : String) :
    ((ofBindings inclusion bindings namespaceComments).assembliesNamed name).map
        AssemblyEntry.outline =
      (((boundEntries bindings).map Prod.fst).filter fun a ↦ a.name == name).map
        AssemblyEntry.outline := by
  have hfilter (as : List AssemblyEntry) :
      (as.filter fun a ↦ a.name == name).map AssemblyEntry.outline =
        (Assemblies.outline as).filter fun a ↦ a.name == name := by
    rw [Assemblies.outline, Assemblies.mapTypes, List.filter_map]
    rfl
  rw [assembliesNamed, hfilter, hfilter, outline_ofBindings]

variable (hnodup : (inputs.map fun input ↦ input.source.name).Nodup) {i : Nat}
  {input : AssemblyInput} (hinput : inputs[i]? = some input)

include hnodup hinput

/-- What only inputs with the name of one of them contribute comes from that one. -/
theorem flatMap_zipIdx_eq {β : Type} {f : AssemblyInput × Nat → List β}
    (hf : ∀ p, p.1.source.name ≠ input.source.name → f p = []) :
    inputs.zipIdx.flatMap f = f (input, i) := by
  have hkeys : (inputs.zipIdx.map fun p ↦ p.1.source.name).Nodup := by
    rwa [map_name_zipIdx]
  exact flatMap_eq_of_nodup_key hkeys (List.mem_zipIdx_iff_getElem?.mpr hinput) fun p _ ↦ hf p

/-- Of all bound assemblies, only the one of an input can have its name. -/
theorem filter_name_boundEntries :
    (((boundEntries (bindAll inclusion filter inputs)).map Prod.fst).filter fun a ↦
        a.name == input.source.name) =
      (input.bind inclusion filter (.ofNat i)).entry.toList := by
  have hentries : (boundEntries (bindAll inclusion filter inputs)).map Prod.fst =
      inputs.zipIdx.flatMap fun p ↦ (p.1.bind inclusion filter (.ofNat p.2)).entry.toList := by
    rw [boundEntries, bindAll, List.filterMap_map, List.map_filterMap,
      List.filterMap_eq_flatMap_toList]
    refine List.flatMap_congr fun p _ ↦ ?_
    simp only [Function.comp_apply, Option.map_map]
    exact congrArg Option.toList Option.map_id'
  rw [hentries, List.filter_flatMap, flatMap_zipIdx_eq hnodup hinput fun p hne ↦ ?_]
  · refine List.filter_eq_self.mpr fun a ha ↦ ?_
    rw [AssemblyInput.name_of_bind_entry (Option.mem_toList.mp ha), beq_self_eq_true]
  · refine List.filter_eq_nil_iff.mpr fun a ha heq ↦ hne ?_
    rw [← AssemblyInput.name_of_bind_entry (Option.mem_toList.mp ha), eq_of_beq heq]

/-- Of all reports, only those on an input can say that it could not be bound. -/
theorem failuresOf_ofBindings (inclusion : Inclusion) (filter : MemberFilter)
    (namespaceComments : Option CommentSource) :
    (ofBindings inclusion (bindAll inclusion filter inputs) namespaceComments).failuresOf
        input.source.name =
      (input.bind inclusion filter (.ofNat i)).diagnostics.filter
        (Diagnostic.isFailureOf input.source.name) := by
  have hlast := (CommentSource.reports_loadAny none namespaceComments).filter_isFailureOf
    input.source.name
  rw [failuresOf, ofBindings, List.filter_append, hlast, List.append_nil, bindAll,
    List.flatMap_map, List.filter_flatMap]
  exact flatMap_zipIdx_eq hnodup hinput fun p hne ↦
    AssemblyInput.filter_isFailureOf_bind_of_ne inclusion filter _ hne

/-- What a reference has of an input is what came of binding it. -/
theorem answers_bind (namespaceComments : Option CommentSource) :
    Answers inclusion filter
      (ofBindings inclusion (bindAll inclusion filter inputs) namespaceComments) input i
      (input.bind inclusion filter (.ofNat i)).diagnostics := by
  have hfailures := failuresOf_ofBindings hnodup hinput inclusion filter namespaceComments
  have houtline := map_outline_assembliesNamed inclusion (bindAll inclusion filter inputs)
    namespaceComments input.source.name
  have hskipped := CommentSource.reports_loadAny (some input.source.name) input.comments
  rw [filter_name_boundEntries hnodup hinput] at houtline
  cases hbuild : AssemblyEntry.build inclusion filter (.ofNat i) input.source input.loaded with
  | error e =>
    rw [AssemblyInput.bind_eq_of_error hbuild] at houtline
    rw [AssemblyInput.filter_isFailureOf_bind_of_error hbuild, if_pos rfl] at hfailures
    rw [AssemblyInput.bind_eq_of_error hbuild]
    exact .failed hbuild hskipped (List.map_eq_nil_iff.mp houtline) hfailures
  | ok built =>
    rw [AssemblyInput.bind_eq_of_ok hbuild] at houtline
    rw [AssemblyInput.filter_isFailureOf_bind_of_ok hbuild] at hfailures
    obtain ⟨a, honly, heq⟩ := List.map_eq_singleton_iff.mp houtline
    have hdiagnostics : a.diagnostics = built.diagnostics := congrArg (fun a ↦ a.diagnostics) heq
    have hid : a.id = built.id := congrArg (fun a ↦ a.id) heq
    rw [AssemblyInput.bind_eq_of_ok hbuild, ← hdiagnostics]
    refine .bound hbuild hskipped honly (hid.trans (AssemblyEntry.id_of_build hbuild)) ?_ hfailures
    rw [hdiagnostics]
    exact AssemblyEntry.diagnostics_of_build hbuild

end

/-- **Every input is accounted for.** Either the inputs are rejected, with an error that says why,
or a reference is built that has an answer for each of them. Rejected are only lists that are empty,
have an assembly without a name or two of the same name; nothing that happens while comments are
loaded, declarations are read or checked, or the filter is asked keeps a reference from being
built. -/
theorem rejected_or_accounted (inclusion : Inclusion) (filter : MemberFilter)
    (inputs : List AssemblyInput) (namespaceComments : Option CommentSource) :
    (Rejected inputs ∧ ∃ e, build inclusion filter inputs namespaceComments = .error e ∧
        e.Applies inputs ∧ ∃ text, e.message = "invalid argument: " ++ text) ∨
      (¬ Rejected inputs ∧ ∃ r, build inclusion filter inputs namespaceComments = .ok r ∧
        Accounted inclusion filter inputs namespaceComments r) := by
  by_cases hrejected : Rejected inputs
  · obtain ⟨e, hbuild, happlies⟩ :=
      exists_applies_of_rejected hrejected inclusion filter namespaceComments
    exact Or.inl ⟨hrejected, e, hbuild, happlies, e.body, rfl⟩
  · have hcheck := checkInputs_eq_ok_iff.mpr hrejected
    refine Or.inr ⟨hrejected, _, build_eq_ok_iff.mpr ⟨hcheck, rfl⟩, ?_, ?_⟩
    · have hnames : (ofBindings inclusion (bindAll inclusion filter inputs)
          namespaceComments).assemblies.map AssemblyEntry.name =
          ((boundEntries (bindAll inclusion filter inputs)).map Prod.fst).map
            AssemblyEntry.name := by
        have houtline := congrArg (List.map AssemblyEntry.name)
          (outline_ofBindings inclusion (bindAll inclusion filter inputs) namespaceComments)
        rwa [Assemblies.outline, Assemblies.mapTypes, List.map_map, Assemblies.outline,
          Assemblies.mapTypes, List.map_map] at houtline
      rw [hnames]
      exact map_name_boundEntries_sublist inclusion filter inputs
    · simp only [Rejected, not_or, not_not] at hrejected
      refine ⟨(bindAll inclusion filter inputs).map Binding.diagnostics,
        (CommentSource.loadAny none namespaceComments).2, ?_,
        CommentSource.reports_loadAny none namespaceComments, rfl⟩
      rw [bindAll, List.map_map, List.forall₂_map_right_iff, List.forall₂_same]
      exact fun p hp ↦
        answers_bind hrejected.2.2 (List.mem_zipIdx_iff_getElem?.mp hp) namespaceComments

/-- The file of the first input is missing and the comment of the second belongs to no declaration;
the other two cannot be bound. -/
def troubledInputs : List AssemblyInput :=
  [⟨⟨"Shapes", .ok [TypeDecl.classNamed "Shape"]⟩, some (.file "shapes.xml" .missing)⟩,
    ⟨⟨"Discs", .ok [TypeDecl.classNamed "Disc"]⟩,
      some (.memory (.ofList none [{ key := "T:Disk" }]))⟩,
    ⟨⟨"Rings", .ok [TypeDecl.classNamed "Ring", TypeDecl.classNamed "Ring"]⟩,
      some (.file "rings.xml" .missing)⟩,
    ⟨⟨"Bands", .error (.crashed ⟨none⟩)⟩, none⟩]

example : (build {} .all troubledInputs none).map (fun r ↦ r.diagnostics) =
    .ok [.docFileSkipped (some "Shapes") "shapes.xml"
        "cannot read shapes.xml: No such file or directory (os error 2)",
      .unboundEntries "Discs" [{ key := "T:Disk" }] [],
      .docFileSkipped (some "Rings") "rings.xml"
        "cannot read rings.xml: No such file or directory (os error 2)",
      .bindingFailure "Rings" "Malformed metadata in Rings: type Ring is declared twice",
      .bindingFailure "Bands" "binding panicked: unknown panic"] := by
  decide +kernel

end Reference

end ApiDocs
