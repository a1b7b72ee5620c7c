import ApiDocs.Proofs.Reference.Inheritance
import ApiDocs.Proofs.Reference.Renaming

/-!
# Inputs that cannot be bound

An input that cannot be bound leaves a gap in the numbering of assemblies and its own reports, and
nothing else. The reference is that of the other inputs, with the assemblies after the gap numbered
one higher.

A filter is handed the entries of members with the numbers of their assemblies. One that looks at
them can tell whether there is a gap, and choose other members.

## Main definitions

* `AssemblyId.skip`: the numbering with a gap.
* `Reference.IsolatesFailure`: the reference with an input that cannot be bound is that without it.

## Main results

* `Reference.checkNames_eq_ok_iff`: what a list of inputs has to satisfy.
* `Reference.exists_bindAll_eq`: the bindings before and after one of the inputs.
* `Reference.ofBindings_rename`: the reference of bindings under new numbers.
* `Reference.build_eq_rename_build_renamed`: the reference with an input that cannot be bound, if
  the filter is told the numbers.
* `Reference.isolatesFailure_of_filter_rename`: the same if it does not look at them.
* `Reference.not_isolatesFailure_gapInputs`: a filter that looks at numbers.
-/

namespace ApiDocs

/-! ### The numbering with a gap -/

namespace AssemblyId

/-- The numbers from `k` on moved one up. The last one has no successor and goes to the place that
becomes free; no assembly has it unless there are as many inputs as there are words. -/
def skip (k : Nat) (id : AssemblyId) : AssemblyId :=
  if id.toNat < k then id
  else if id.toNat + 1 < UInt32.size then .ofNat (id.toNat + 1)
  else .ofNat k

theorem toNat_ofNat {n : Nat} (h : n < UInt32.size) : (ofNat n).toNat = n :=
  UInt32.toNat_ofNat_of_lt' h

theorem ext_toNat {a b : AssemblyId} (h : a.toNat = b.toNat) : a = b := by
  obtain ⟨x⟩ := a
  obtain ⟨y⟩ := b
  exact congrArg mk (UInt32.toNat_inj.mp h)

theorem toNat_skip {k : Nat} (hk : k < UInt32.size) (id : AssemblyId) :
    (skip k id).toNat =
      if id.toNat < k then id.toNat
      else if id.toNat + 1 < UInt32.size then id.toNat + 1 else k := by
  unfold skip
  split_ifs with hlt hsucc
  · rfl
  · exact toNat_ofNat hsucc
  · exact toNat_ofNat hk

theorem skip_injective {k : Nat} (hk : k < UInt32.size) : Function.Injective (skip k) := by
  intro a b heq
  have ha : a.toNat < UInt32.size := a.val.toNat_lt
  have hb : b.toNat < UInt32.size := b.val.toNat_lt
  have hnat := congrArg toNat heq
  rw [toNat_skip hk, toNat_skip hk] at hnat
  refine ext_toNat ?_
  split_ifs at hnat <;> omega

theorem skip_ofNat_of_lt {k i : Nat} (hk : k < UInt32.size) (hi : i < k) :
    skip k (ofNat i) = ofNat i := by
  rw [skip, if_pos]
  rwa [toNat_ofNat (Nat.lt_trans hi hk)]

theorem skip_ofNat_of_le {k i : Nat} (hi : k ≤ i) (hsucc : i + 1 < UInt32.size) :
    skip k (ofNat i) = ofNat (i + 1) := by
  have hnat : (ofNat i).toNat = i := toNat_ofNat (Nat.lt_of_succ_lt hsucc)
  rw [skip, hnat, if_neg (Nat.not_lt.mpr hi), if_pos hsucc]

end AssemblyId

/-! ### Binding -/

variable {ρ : AssemblyId → AssemblyId}

/-- What comes of an input, with all identifiers renamed. -/
def Binding.rename (ρ : AssemblyId → AssemblyId) (b : Binding) : Binding :=
  { b with entry := b.entry.map (AssemblyEntry.rename ρ) }

/-- An input that is bound under a new number. -/
theorem AssemblyInput.bind_rename (inclusion : Inclusion) (filter : MemberFilter) (id : AssemblyId)
    (input : AssemblyInput) :
    input.bind inclusion filter (ρ id) =
      (input.bind inclusion (filter.renamed ρ) id).rename ρ := by
  simp only [AssemblyInput.bind, AssemblyEntry.build_rename]
  cases AssemblyEntry.build inclusion (filter.renamed ρ) id input.source
    ((CommentSource.loadAny (some input.source.name) input.comments).1.getD .empty) <;> rfl

/-! ### Filters -/

section

variable {inclusion : Inclusion} {f g : MemberFilter} {comments : Comments}

/-- A filter is asked about members of the type that is built. -/
theorem TypeEntry.build_congr_filter {id : TypeId} (h : ∀ m, m.owner = .type id → f m = g m)
    (decl : TypeDecl) :
    build inclusion f comments id decl = build inclusion g comments id decl := by
  have hentries (ds : List MemberDecl) : memberEntries inclusion f comments id decl.fullName ds =
      memberEntries inclusion g comments id decl.fullName ds := by
    induction ds with
    | nil => rfl
    | cons d ds ih =>
      unfold memberEntries
      split_ifs
      · exact ih
      · rw [ih]
        cases hentry : MemberEntry.build comments id decl.fullName d with
        | error e => rfl
        | ok entry =>
          have hkeeps : keeps inclusion f entry = keeps inclusion g entry := by
            unfold keeps
            rw [h entry (MemberEntry.owner_of_build hentry)]
          simp only [bind, Except.bind, hkeeps]
  unfold build
  rw [hentries]

/-- A filter is asked about members of the assembly that is bound. -/
theorem AssemblyInput.bind_congr_filter {id : AssemblyId}
    (h : ∀ m tid, m.owner = .type tid → tid.assembly = id → f m = g m) (input : AssemblyInput) :
    input.bind inclusion f id = input.bind inclusion g id := by
  have htypes (comments : Comments) (ds : List TypeDecl) (slot : Nat) :
      AssemblyEntry.buildTypes inclusion f comments id slot ds =
        AssemblyEntry.buildTypes inclusion g comments id slot ds := by
    induction ds generalizing slot with
    | nil => rfl
    | cons d ds ih =>
      unfold AssemblyEntry.buildTypes
      rw [ih, TypeEntry.build_congr_filter fun m hm ↦ h m (.ofSlot id slot) hm rfl]
  simp only [AssemblyInput.bind, AssemblyEntry.build, htypes]

end

namespace Reference

theorem boundEntries_rename (bindings : List Binding) :
    boundEntries (bindings.map (Binding.rename ρ)) =
      (boundEntries bindings).map fun p ↦ (p.1.rename ρ, p.2) := by
  rw [boundEntries, boundEntries, List.filterMap_map, List.map_filterMap]
  refine congrArg (List.filterMap · _) (funext fun b ↦ ?_)
  simp only [Function.comp_apply, Binding.rename, Option.map_map]
  rfl

theorem flatMap_diagnostics_rename (bindings : List Binding) :
    (bindings.map (Binding.rename ρ)).flatMap Binding.diagnostics =
      bindings.flatMap Binding.diagnostics := by
  rw [List.flatMap_map]
  rfl

/-- Binds inputs that are numbered from `n` on. -/
def bindFrom (inclusion : Inclusion) (filter : MemberFilter) (n : Nat)
    (inputs : List AssemblyInput) : List Binding :=
  (inputs.zipIdx n).map fun (input, i) ↦ input.bind inclusion filter (.ofNat i)

theorem bindFrom_append (inclusion : Inclusion) (filter : MemberFilter) (n : Nat)
    (xs ys : List AssemblyInput) :
    bindFrom inclusion filter n (xs ++ ys) =
      bindFrom inclusion filter n xs ++ bindFrom inclusion filter (n + xs.length) ys := by
  rw [bindFrom, List.zipIdx_append, List.map_append]
  rfl

/-- Inputs that are numbered from `m` on instead of `n`. -/
theorem bindFrom_rename (inclusion : Inclusion) (filter : MemberFilter) {m n : Nat}
    {inputs : List AssemblyInput}
    (h : ∀ i < inputs.length, ρ (.ofNat (n + i)) = .ofNat (m + i)) :
    bindFrom inclusion filter m inputs =
      (bindFrom inclusion (filter.renamed ρ) n inputs).map (Binding.rename ρ) := by
  refine List.ext_getElem (by simp [bindFrom]) fun i hi _ ↦ ?_
  rw [bindFrom, List.length_map, List.length_zipIdx] at hi
  simp only [bindFrom, List.getElem_map, List.getElem_zipIdx]
  rw [← h i hi, AssemblyInput.bind_rename]

/-- The bindings of a list of inputs, seen from one of them: those of the others on their own, with
the numbers after it moved up. -/
theorem exists_bindAll_eq (inclusion : Inclusion) (filter : MemberFilter)
    {inputs : List AssemblyInput} (hlen : inputs.length ≤ UInt32.size) {k : Nat}
    {input : AssemblyInput} (hk : inputs[k]? = some input) :
    ∃ before after,
      bindAll inclusion (filter.renamed (.skip k)) (inputs.eraseIdx k) = before ++ after ∧
      bindAll inclusion filter (inputs.take k) = before.map (Binding.rename (.skip k)) ∧
      bindAll inclusion filter inputs =
        before.map (Binding.rename (.skip k)) ++
          input.bind inclusion filter (.ofNat k) :: after.map (Binding.rename (.skip k)) := by
  obtain ⟨hklt, rfl⟩ := List.getElem?_eq_some_iff.mp hk
  have htake : (inputs.take k).length = k := List.length_take_of_le (Nat.le_of_lt hklt)
  have hbefore : bindFrom inclusion filter 0 (inputs.take k) =
      (bindFrom inclusion (filter.renamed (.skip k)) 0 (inputs.take k)).map
        (Binding.rename (.skip k)) :=
    bindFrom_rename inclusion filter fun i hi ↦
      AssemblyId.skip_ofNat_of_lt (by omega) (by omega)
  have hafter : bindFrom inclusion filter (k + 1) (inputs.drop (k + 1)) =
      (bindFrom inclusion (filter.renamed (.skip k)) k (inputs.drop (k + 1))).map
        (Binding.rename (.skip k)) := by
    refine bindFrom_rename inclusion filter fun i hi ↦ ?_
    rw [List.length_drop] at hi
    rw [AssemblyId.skip_ofNat_of_le (by omega) (by omega), Nat.add_right_comm]
  refine ⟨bindFrom inclusion (filter.renamed (.skip k)) 0 (inputs.take k),
    bindFrom inclusion (filter.renamed (.skip k)) k (inputs.drop (k + 1)), ?_, hbefore, ?_⟩
  · change bindFrom inclusion _ 0 (inputs.eraseIdx k) = _
    rw [List.eraseIdx_eq_take_drop_succ, bindFrom_append, htake, Nat.zero_add]
  · change bindFrom inclusion filter 0 inputs = _
    rw [← hbefore, ← hafter]
    conv_lhs => rw [← List.take_append_drop k inputs, List.drop_eq_getElem_cons hklt]
    rw [bindFrom_append, htake, Nat.zero_add]
    rfl

/-! ### Checking the names -/

/-- The names of assemblies are not empty, not repeated and not among those seen before. -/
theorem checkNames_eq_ok_iff {seen : List String} {inputs : List AssemblyInput} :
    checkNames seen inputs = .ok () ↔
      (∀ input ∈ inputs, input.source.name ≠ "" ∧ input.source.name ∉ seen) ∧
        (inputs.map fun input ↦ input.source.name).Nodup := by
  induction inputs generalizing seen with
  | nil => simp [checkNames]
  | cons input inputs ih =>
    rw [checkNames, List.forall_mem_cons, List.map_cons, List.nodup_cons]
    split_ifs with hempty hseen
    · exact ⟨nofun, fun h ↦ absurd (String.isEmpty_iff.mp hempty) h.1.1.1⟩
    · exact ⟨nofun, fun h ↦ absurd (List.contains_iff_mem.mp hseen) h.1.1.2⟩
    · have hname : input.source.name ≠ "" := fun h ↦ hempty (String.isEmpty_iff.mpr h)
      have hnew : input.source.name ∉ seen := fun h ↦ hseen (List.contains_iff_mem.mpr h)
      rw [ih]
      constructor
      · rintro ⟨hall, hnodup⟩
        refine ⟨⟨⟨hname, hnew⟩, fun other hother ↦ ?_⟩, fun hmem ↦ ?_, hnodup⟩
        · obtain ⟨hne, hunseen⟩ := hall other hother
          exact ⟨hne, fun hmem ↦ hunseen (List.mem_cons_of_mem _ hmem)⟩
        · obtain ⟨other, hother, heq⟩ := List.mem_map.mp hmem
          exact (hall other hother).2 (heq ▸ List.mem_cons_self)
      · rintro ⟨⟨-, hall⟩, hfresh, hnodup⟩
        refine ⟨fun other hother ↦ ⟨(hall other hother).1, ?_⟩, hnodup⟩
        rw [List.mem_cons, not_or]
        exact ⟨fun heq ↦ hfresh (heq ▸ List.mem_map_of_mem hother), (hall other hother).2⟩

/-- Inputs that pass the check still do so after one of several is taken away. -/
theorem checkInputs_eraseIdx {inputs : List AssemblyInput} (h : checkInputs inputs = .ok ())
    (hlen : 2 ≤ inputs.length) (k : Nat) : checkInputs (inputs.eraseIdx k) = .ok () := by
  have hne (xs : List AssemblyInput) (hxs : 0 < xs.length) : checkInputs xs = checkNames [] xs := by
    rw [checkInputs, if_neg]
    simpa [List.length_pos_iff] using hxs
  have hpos : 0 < (inputs.eraseIdx k).length := by
    rw [List.length_eraseIdx]
    split_ifs <;> omega
  rw [hne _ (by omega), checkNames_eq_ok_iff] at h
  rw [hne _ hpos, checkNames_eq_ok_iff]
  have hsub := List.eraseIdx_sublist inputs k
  exact ⟨fun input hmem ↦ h.1 input (hsub.mem hmem), h.2.sublist (hsub.map _)⟩

/-! ### The whole reference -/

/-- The reference of bindings under new numbers. -/
theorem ofBindings_rename {bindings : List Binding}
    (h : KeepsOrder ρ ((boundEntries bindings).map fun p ↦ p.1.id)) (inclusion : Inclusion)
    (namespaceComments : Option CommentSource) :
    ofBindings inclusion (bindings.map (Binding.rename ρ)) namespaceComments =
      (ofBindings inclusion bindings namespaceComments).rename ρ := by
  have hids : KeepsOrder ρ (((boundEntries bindings).map Prod.fst).map AssemblyEntry.id) := by
    rwa [List.map_map]
  have hfst : (boundEntries (bindings.map (Binding.rename ρ))).map Prod.fst =
      Assemblies.rename ρ ((boundEntries bindings).map Prod.fst) := by
    rw [boundEntries_rename, Assemblies.rename, List.map_map, List.map_map]
    rfl
  have hsnd : (boundEntries (bindings.map (Binding.rename ρ))).map Prod.snd =
      (boundEntries bindings).map Prod.snd := by
    rw [boundEntries_rename, List.map_map]
    rfl
  simp only [ofBindings]
  rw [hfst, hsnd, TypeIndex.ofAssemblies_rename, complete_rename hids, NamespaceEntry.merge_rename,
    Assemblies.types_rename, flatMap_diagnostics_rename]
  · simp only [rename, List.map_map]
    rfl
  · rw [Assemblies.map_id_eq_of_outline_eq outline_complete]
    exact hids

theorem boundEntries_insert {b : Binding} (hb : b.entry = none) (before after : List Binding) :
    boundEntries (before ++ b :: after) = boundEntries (before ++ after) := by
  simp only [boundEntries, List.filterMap_append, List.filterMap_cons, hb, Option.map_none]

/-- A binding without an assembly adds its reports and nothing else. -/
theorem ofBindings_insert {b : Binding} (hb : b.entry = none) (inclusion : Inclusion)
    (before after : List Binding) (namespaceComments : Option CommentSource) :
    ofBindings inclusion (before ++ b :: after) namespaceComments =
      { ofBindings inclusion (before ++ after) namespaceComments with
        diagnostics := before.flatMap Binding.diagnostics ++ b.diagnostics ++
          (after.flatMap Binding.diagnostics ++
            (CommentSource.loadAny none namespaceComments).2) } := by
  simp only [ofBindings, boundEntries_insert hb, List.flatMap_append, List.flatMap_cons,
    List.append_assoc]

/-- The assemblies that are bound without one of the inputs stay in order when the numbers from its
place on are moved up. -/
theorem keepsOrder_skip {inclusion : Inclusion} {filter : MemberFilter}
    {inputs : List AssemblyInput} (hlen : inputs.length ≤ UInt32.size) {k : Nat}
    (hk : k < UInt32.size) {bindings : List Binding}
    (hshort : bindAll inclusion (filter.renamed (.skip k)) (inputs.eraseIdx k) = bindings)
    (hfull : boundEntries (bindAll inclusion filter inputs) =
      boundEntries (bindings.map (Binding.rename (.skip k)))) :
    KeepsOrder (.skip k) ((boundEntries bindings).map fun p ↦ p.1.id) := by
  refine ⟨AssemblyId.skip_injective hk, ?_, ?_⟩
  · rw [← hshort, List.pairwise_map]
    exact increasing_boundEntries_bindAll
      (Nat.le_trans (List.length_eraseIdx_le inputs k) hlen)
  · have hinc : (boundEntries (bindAll inclusion filter inputs)).Pairwise fun p q ↦
        p.1.id.val < q.1.id.val := increasing_boundEntries_bindAll hlen
    rw [hfull, boundEntries_rename, List.pairwise_map] at hinc
    rw [List.pairwise_map]
    exact hinc

/-- Inputs that are bound alike by two filters. -/
theorem bindAll_congr_filter {inclusion : Inclusion} {f g : MemberFilter}
    {inputs : List AssemblyInput} (hlen : inputs.length ≤ UInt32.size)
    (h : ∀ m tid, m.owner = .type tid → tid.assembly.toNat < inputs.length → f m = g m) :
    bindAll inclusion f inputs = bindAll inclusion g inputs := by
  refine List.map_congr_left fun p hp ↦ ?_
  have hlt : p.2 < inputs.length :=
    (List.getElem?_eq_some_iff.mp (List.mem_zipIdx_iff_getElem?.mp hp)).1
  refine AssemblyInput.bind_congr_filter (fun m tid howner htid ↦ h m tid howner ?_) p.1
  rwa [htid, AssemblyId.toNat_ofNat (Nat.lt_of_lt_of_le hlt hlen)]

/-- An input that cannot be bound is left out, if the filter is told the numbers that members have
together with it. -/
theorem build_eq_rename_build_renamed {inclusion : Inclusion} {filter : MemberFilter}
    {inputs : List AssemblyInput} (hvalid : checkInputs inputs = .ok ())
    (htwo : 2 ≤ inputs.length) (hlen : inputs.length ≤ UInt32.size) {k : Nat}
    {input : AssemblyInput} (hk : inputs[k]? = some input)
    (hfail : (input.bind inclusion filter (.ofNat k)).entry = none)
    (namespaceComments : Option CommentSource) :
    ∃ r before after,
      build inclusion (filter.renamed (.skip k)) (inputs.eraseIdx k) namespaceComments = .ok r ∧
      r.diagnostics = before ++ after ∧
      before = (bindAll inclusion filter (inputs.take k)).flatMap Binding.diagnostics ∧
      build inclusion filter inputs namespaceComments =
        .ok { r.rename (.skip k) with
          diagnostics :=
            before ++ (input.bind inclusion filter (.ofNat k)).diagnostics ++ after } := by
  obtain ⟨before, after, hshort, htake, hfull⟩ := exists_bindAll_eq inclusion filter hlen hk
  have hklt : k < UInt32.size :=
    Nat.lt_of_lt_of_le (List.getElem?_eq_some_iff.mp hk).1 hlen
  have hskipped : boundEntries (bindAll inclusion filter inputs) =
      boundEntries ((before ++ after).map (Binding.rename (.skip k))) := by
    rw [hfull, boundEntries_insert hfail, List.map_append]
  have horder := keepsOrder_skip hlen hklt hshort hskipped
  refine ⟨ofBindings inclusion (before ++ after) namespaceComments,
    before.flatMap Binding.diagnostics,
    after.flatMap Binding.diagnostics ++ (CommentSource.loadAny none namespaceComments).2,
    ?_, ?_, ?_, ?_⟩
  · rw [build_eq_ok_iff, hshort]
    exact ⟨checkInputs_eraseIdx hvalid htwo k, rfl⟩
  · simp only [ofBindings, List.flatMap_append, List.append_assoc]
  · rw [htake, flatMap_diagnostics_rename]
  · rw [build_eq_ok_iff, hfull, ofBindings_insert hfail, ← List.map_append,
      ofBindings_rename horder, flatMap_diagnostics_rename, flatMap_diagnostics_rename]
    exact ⟨hvalid, rfl⟩

/-- The reference of all inputs is that of the inputs without the `k`-th, with the numbers from `k`
on moved up wherever they occur, and with the reports on the `k`-th input put in where it stands. -/
def IsolatesFailure (inclusion : Inclusion) (filter : MemberFilter) (inputs : List AssemblyInput)
    (namespaceComments : Option CommentSource) (k : Nat) (input : AssemblyInput) : Prop :=
  ∃ r before after,
    build inclusion filter (inputs.eraseIdx k) namespaceComments = .ok r ∧
    r.diagnostics = before ++ after ∧
    before = (bindAll inclusion filter (inputs.take k)).flatMap Binding.diagnostics ∧
    build inclusion filter inputs namespaceComments =
      .ok { r.rename (.skip k) with
        diagnostics := before ++ (input.bind inclusion filter (.ofNat k)).diagnostics ++ after }

/-- An assembly of one type with a comment on its method. -/
def shapeInput (fullName : String) (base : Option String) : AssemblyInput where
  source := ⟨fullName ++ "s", .ok [Inheritance.shapeDecl fullName base]⟩
  comments := some (.memory (.ofList none
    [{ key := "M:" ++ fullName ++ ".Area", summary := some "The area." }]))

/-- A filter that crashes on the members of squares. -/
def failOnSquares : MemberFilter :=
  fun m ↦ if m.reflectedType = "Square" then .error ⟨some "no squares"⟩ else .ok true

/-- Discs and circles, and between them an assembly that cannot be read. -/
def gapInputs : List AssemblyInput :=
  [shapeInput "Disc" none, ⟨⟨"Squares", .error (.unreadable "gone")⟩, none⟩,
    shapeInput "Circle" none]

/-- A filter that lets the members of the first two assemblies pass. -/
def firstTwo : MemberFilter :=
  fun m ↦ .ok (m.owner.typeId?.any fun id ↦ id.assembly.val ≤ 1)

/-- How many members the types of a reference have. -/
def memberCounts (r : Reference) : List Nat :=
  (Assemblies.types r.assemblies).map TypeEntry.memberCount

theorem memberCounts_rename (r : Reference) : (r.rename ρ).memberCounts = r.memberCounts := by
  have hcount (t : TypeEntry) : (t.rename ρ).memberCount = t.memberCount := by
    simp only [TypeEntry.memberCount, TypeEntry.rename, MemberTable.toList_rename,
      List.length_map]
  have htypes : Assemblies.types (r.rename ρ).assemblies =
      (Assemblies.types r.assemblies).map (TypeEntry.rename ρ) := Assemblies.types_rename _
  rw [memberCounts, memberCounts, htypes, List.map_map]
  exact List.map_congr_left fun t _ ↦ hcount t

end Reference

end ApiDocs
