import ApiDocs.Proofs.Reference.Accounting

/-!
# Documentation files that cannot be loaded

A documentation file that cannot be loaded counts as if there were none. In any places where files
cannot be loaded, and for the file of comments on namespaces, they may be left out of the inputs:
the reference stays the same, and of its reports only those on these files go away.

## Main definitions

* `CommentSource.leaveOut`, `AssemblyInput.leaveOut`, `Reference.leaveOut`: sources left out.
* `CommentSource.Skips`: the report that goes away with a source.
* `Reference.DiffersBySkips`: two references are equal but for reports on sources left out.

## Main results

* `CommentSource.Skips.bind_eq`: an input whose source cannot be loaded, bound without it.
* `Reference.differsBySkips_leaveOut`: sources that cannot be loaded may be left out.
-/

namespace ApiDocs

/-! ### One source -/

/-- A source that may be missing, left out or not. -/
def CommentSource.leaveOut (out : Bool) (s : Option CommentSource) : Option CommentSource :=
  if out then none else s

/-- An input with its source of comments left out or not. -/
def AssemblyInput.leaveOut (out : Bool) (input : AssemblyInput) : AssemblyInput :=
  { input with comments := CommentSource.leaveOut out input.comments }

namespace CommentSource

/-- There is a source, but it gives no comments. -/
def Fails (s : Option CommentSource) : Prop :=
  ∃ source e, s = some source ∧ source.load = .error e

/-- The report that goes away when a source is left out that cannot be loaded. -/
inductive Skips (assembly : Option String) :
    Bool → Option CommentSource → List Diagnostic → Prop
  | kept (s : Option CommentSource) : Skips assembly false s []
  | left {source : CommentSource} {e : CommentError} (h : source.load = .error e) :
      Skips assembly true (some source) [.docFileSkipped assembly source.label e.message]

variable {assembly : Option String} {out : Bool} {s : Option CommentSource}
  {skips : List Diagnostic}

theorem skips_loadAny (assembly : Option String) (h : out = true → Fails s) :
    Skips assembly out s (if out then (loadAny assembly s).2 else []) := by
  cases out with
  | false => exact .kept s
  | true =>
    obtain ⟨source, e, rfl, hload⟩ := h rfl
    rw [if_pos rfl, loadAny, loadOrSkip, hload]
    exact .left hload

/-- No comments are lost with a source that cannot be loaded, and one report is. -/
theorem Skips.loadAny_eq (h : Skips assembly out s skips) :
    loadAny assembly s =
      ((loadAny assembly (leaveOut out s)).1, skips ++ (loadAny assembly (leaveOut out s)).2) := by
  cases h with
  | kept => rfl
  | left hload =>
    rw [loadAny, loadOrSkip, hload]
    rfl

/-- An input whose source cannot be loaded, bound without it. -/
theorem Skips.bind_eq {input : AssemblyInput}
    (h : Skips (some input.source.name) out input.comments skips) (inclusion : Inclusion)
    (filter : MemberFilter) (id : AssemblyId) :
    input.bind inclusion filter id =
      { (input.leaveOut out).bind inclusion filter id with
        diagnostics := skips ++ ((input.leaveOut out).bind inclusion filter id).diagnostics } := by
  simp only [AssemblyInput.bind, AssemblyInput.leaveOut, h.loadAny_eq]
  split <;> simp only [List.append_assoc]

end CommentSource

/-! ### The whole reference -/

namespace Reference

/-- The inputs with the sources of comments left out in some places. -/
def leaveOut (out : Nat → Bool) (inputs : List AssemblyInput) : List AssemblyInput :=
  inputs.mapIdx fun i input ↦ input.leaveOut (out i)

/-- The second reference has what the first has, but for one report for each source left out. The
reports on each input, and those on the file of comments on namespaces, follow the report that its
source could not be loaded. -/
structure DiffersBySkips (out : Nat → Bool) (inputs : List AssemblyInput) (outLast : Bool)
    (namespaceComments : Option CommentSource) (r r' : Reference) : Prop where
  assemblies_eq : r'.assemblies = r.assemblies
  namespaces_eq : r'.namespaces = r.namespaces
  types_eq : r'.types = r.types
  index_eq : r'.index = r.index
  diagnostics_eq : ∃ (skips rows : List (List Diagnostic)) (lastSkips last : List Diagnostic),
    List.Forall₂
      (fun p skip ↦ CommentSource.Skips (some p.1.source.name) (out p.2) p.1.comments skip)
      inputs.zipIdx skips ∧
    CommentSource.Skips none outLast namespaceComments lastSkips ∧
    rows.length = inputs.length ∧
    r.diagnostics = (skips.zipWith (· ++ ·) rows).flatten ++ (lastSkips ++ last) ∧
    r'.diagnostics = rows.flatten ++ last

variable {out : Nat → Bool} {inputs : List AssemblyInput}

theorem map_name_leaveOut (out : Nat → Bool) (inputs : List AssemblyInput) :
    ((leaveOut out inputs).map fun input ↦ input.source.name) =
      inputs.map fun input ↦ input.source.name := by
  refine List.ext_getElem (by simp [leaveOut]) fun i _ _ ↦ ?_
  simp only [leaveOut, List.getElem_map, List.getElem_mapIdx]
  rfl

/-- Whether inputs are rejected depends on their names. -/
theorem rejected_iff_of_map_name_eq {xs ys : List AssemblyInput}
    (h : (xs.map fun input ↦ input.source.name) = ys.map fun input ↦ input.source.name) :
    Rejected xs ↔ Rejected ys := by
  have hrejected (inputs : List AssemblyInput) : Rejected inputs ↔
      (inputs.map fun input ↦ input.source.name) = [] ∨
        "" ∈ (inputs.map fun input ↦ input.source.name) ∨
        ¬ (inputs.map fun input ↦ input.source.name).Nodup := by
    rw [Rejected, List.map_eq_nil_iff, List.mem_map]
  rw [hrejected, hrejected, h]

theorem bindAll_leaveOut (inclusion : Inclusion) (filter : MemberFilter) (out : Nat → Bool)
    (inputs : List AssemblyInput) :
    bindAll inclusion filter (leaveOut out inputs) =
      inputs.zipIdx.map fun p ↦
        (p.1.leaveOut (out p.2)).bind inclusion filter (.ofNat p.2) := by
  refine List.ext_getElem (by simp [bindAll, leaveOut]) fun i _ _ ↦ ?_
  simp only [bindAll, leaveOut, List.getElem_map, List.getElem_zipIdx, List.getElem_mapIdx,
    Nat.zero_add]

section

variable {skips : AssemblyInput × Nat → List Diagnostic}
  (hskips : ∀ p ∈ inputs.zipIdx,
    CommentSource.Skips (some p.1.source.name) (out p.2) p.1.comments (skips p))
  (inclusion : Inclusion) (filter : MemberFilter)

include hskips

/-- The same assemblies are bound, with the same comments. -/
theorem boundEntries_leaveOut :
    boundEntries (bindAll inclusion filter (leaveOut out inputs)) =
      boundEntries (bindAll inclusion filter inputs) := by
  rw [bindAll_leaveOut, bindAll, boundEntries, boundEntries, List.filterMap_map,
    List.filterMap_map]
  refine List.filterMap_congr fun p hp ↦ ?_
  simp only [Function.comp_apply]
  rw [(hskips p hp).bind_eq inclusion filter (.ofNat p.2)]

/-- The reports on each input follow the one on its source. -/
theorem flatMap_diagnostics_bindAll :
    (bindAll inclusion filter inputs).flatMap Binding.diagnostics =
      ((inputs.zipIdx.map skips).zipWith (· ++ ·)
        ((bindAll inclusion filter (leaveOut out inputs)).map Binding.diagnostics)).flatten := by
  rw [bindAll_leaveOut, bindAll, List.flatMap_map, List.map_map, List.zipWith_map,
    List.zipWith_self, ← List.flatMap_def]
  exact List.flatMap_congr fun p hp ↦
    congrArg Binding.diagnostics ((hskips p hp).bind_eq inclusion filter (.ofNat p.2))

end

/-- **Documentation files that cannot be loaded may be left out.** Of a list of inputs that is not
rejected, take some places with documentation files that cannot be loaded, and perhaps the file of
comments on namespaces if it cannot be loaded. Without these files the reference is the same, but
for one report for each of them. -/
theorem differsBySkips_leaveOut (inclusion : Inclusion) (filter : MemberFilter)
    {inputs : List AssemblyInput} (hvalid : ¬ Rejected inputs)
    {namespaceComments : Option CommentSource} {out : Nat → Bool} {outLast : Bool}
    (hfails : ∀ i input, inputs[i]? = some input → out i = true →
      CommentSource.Fails input.comments)
    (hlast : outLast = true → CommentSource.Fails namespaceComments) :
    ∃ r r',
      build inclusion filter inputs namespaceComments = .ok r ∧
      build inclusion filter (leaveOut out inputs)
        (CommentSource.leaveOut outLast namespaceComments) = .ok r' ∧
      DiffersBySkips out inputs outLast namespaceComments r r' := by
  have hvalid' : ¬ Rejected (leaveOut out inputs) :=
    (rejected_iff_of_map_name_eq (map_name_leaveOut out inputs)).not.mpr hvalid
  have hskips (p : AssemblyInput × Nat) (hp : p ∈ inputs.zipIdx) :=
    CommentSource.skips_loadAny (some p.1.source.name)
      (hfails p.2 p.1 (List.mem_zipIdx_iff_getElem?.mp hp))
  have hskipsLast := CommentSource.skips_loadAny none hlast
  have hbound := boundEntries_leaveOut hskips inclusion filter
  have hloaded := hskipsLast.loadAny_eq
  refine ⟨_, _, build_eq_ok_iff.mpr ⟨checkInputs_eq_ok_iff.mpr hvalid, rfl⟩,
    build_eq_ok_iff.mpr ⟨checkInputs_eq_ok_iff.mpr hvalid', rfl⟩, ?_, ?_, ?_, ?_, ?_⟩
  · simp only [ofBindings, hbound]
  · simp only [ofBindings, hbound]
    rw [congrArg Prod.fst hloaded]
  · simp only [ofBindings, hbound]
  · simp only [ofBindings, hbound]
  · have hrows := flatMap_diagnostics_bindAll hskips inclusion filter
    refine ⟨_, _, _, _, List.forall₂_map_right_iff.mpr (List.forall₂_same.mpr hskips), hskipsLast,
      ?_, congrArg₂ _ hrows (congrArg Prod.snd hloaded), rfl⟩
    simp [bindAll, leaveOut]

theorem differsBySkips_leaveOut_troubledInputs :
    ¬ Rejected troubledInputs ∧ ∃ r r',
      build {} .all troubledInputs (some (.file "namespaces.xml" .missing)) = .ok r ∧
      build {} .all (leaveOut (fun i ↦ i == 0 || i == 2) troubledInputs) none = .ok r' ∧
      DiffersBySkips (fun i ↦ i == 0 || i == 2) troubledInputs true
        (some (.file "namespaces.xml" .missing)) r r' := by
  have hvalid : ¬ Rejected troubledInputs := checkInputs_eq_ok_iff.mp (by decide +kernel)
  have hmissing (file : String) : CommentSource.Fails (some (.file file .missing)) :=
    ⟨_, _, rfl, rfl⟩
  have hfails (i : Nat) (input : AssemblyInput) (hi : troubledInputs[i]? = some input)
      (hout : (i == 0 || i == 2) = true) : CommentSource.Fails input.comments := by
    rcases Bool.or_eq_true_iff.mp hout with h | h
    · obtain rfl := eq_of_beq h
      obtain rfl := Option.some.inj hi
      exact hmissing "shapes.xml"
    · obtain rfl := eq_of_beq h
      obtain rfl := Option.some.inj hi
      exact hmissing "rings.xml"
  have hlast : true = true → CommentSource.Fails (some (.file "namespaces.xml" .missing)) :=
    fun _ ↦ hmissing "namespaces.xml"
  exact ⟨hvalid, differsBySkips_leaveOut {} .all hvalid hfails hlast⟩

end Reference

end ApiDocs
