import ApiDocs.Decl.Assemble
import ApiDocs.Proofs.Entry.Switches

/-!
# Comments that belong to no declaration

The comments on types and members that no declaration has the id of are reported. The report is made
from the ids of all that is declared, before anything is left out: methods behind properties, hidden
types and members that a filter rejects have ids as well. So it depends on the declarations and the
comments alone, and not on the switches or the filter.

## Main definitions

* `TypeDecl.IsDocId`: a text is the id of a declared type or member.
* `DocKind.OnDeclaration`: a text begins as the ids of types and members do.
* `Comments.strays`: the comments with certain tags that are on no declaration.
* `Comments.ReportsStrays`: what is reported about them.

## Main results

* `DocKind.ofKey?_eq_some_iff`: the kind of an id is told by its tag.
* `AssemblyEntry.mem_knownIds_iff`: the known ids are those of the declarations.
* `AssemblyEntry.unbound_eq_nil_iff`: when nothing is reported.
* `AssemblyEntry.reportsStrays_of_build`: the report of an assembly that was built.
-/

namespace ApiDocs

/-! ### Ids of declarations -/

/-- A text is the documentation id of a declared type, or of a member found on one. -/
def TypeDecl.IsDocId (declared : List TypeDecl) (key : String) : Prop :=
  ∃ d ∈ declared, key = TypeName.docId d.fullName ∨ ∃ m ∈ d.members, m.docId = .ok key

namespace AssemblyEntry

theorem mem_memberIds_iff {ms : List MemberDecl} {ids : List String} (h : memberIds ms = .ok ids)
    {key : String} : key ∈ ids ↔ ∃ m ∈ ms, m.docId = .ok key := by
  induction ms generalizing ids with
  | nil =>
    obtain rfl := Except.ok.inj h
    simp
  | cons m ms ih =>
    obtain ⟨id, hid, h⟩ := bind_eq_ok_iff.mp h
    obtain ⟨rest, hrest, h⟩ := bind_eq_ok_iff.mp h
    obtain rfl := Except.ok.inj h
    rw [List.mem_cons, List.exists_mem_cons_iff, ih hrest, hid, Except.ok.injEq, eq_comm]

/-- The known ids are those of the declarations. -/
theorem mem_knownIds_iff {ts : List TypeDecl} {ids : List String} (h : knownIds ts = .ok ids)
    {key : String} : key ∈ ids ↔ TypeDecl.IsDocId ts key := by
  unfold TypeDecl.IsDocId
  induction ts generalizing ids with
  | nil =>
    obtain rfl := Except.ok.inj h
    simp
  | cons t ts ih =>
    obtain ⟨own, hown, h⟩ := bind_eq_ok_iff.mp h
    obtain ⟨rest, hrest, h⟩ := bind_eq_ok_iff.mp h
    obtain rfl := Except.ok.inj h
    rw [List.mem_append, List.mem_cons, List.exists_mem_cons_iff, ih hrest, mem_memberIds_iff hown]

end AssemblyEntry

/-! ### Tags -/

namespace DocKind

/-- A text begins with one of some tags. -/
def Tagged (tags : List String) (key : String) : Prop :=
  ∃ tag ∈ tags, tag.toList <+: key.toList

/-- A text begins as the ids of types and members do. -/
def OnDeclaration (key : String) : Prop :=
  Tagged ["T:", "M:", "P:", "F:", "E:"] key

instance (tags : List String) (key : String) : Decidable (Tagged tags key) :=
  inferInstanceAs (Decidable (∃ tag ∈ tags, tag.toList <+: key.toList))

instance (key : String) : Decidable (OnDeclaration key) :=
  inferInstanceAs (Decidable (Tagged _ key))

/-- The kind of an id is told by its letter and the colon after it. -/
theorem ofKey?_eq_some_iff {key : String} {k : DocKind} :
    ofKey? key = some k ↔ k.tag.toList <+: key.toList := by
  rw [tag, String.toList_ofList]
  constructor
  · intro h
    unfold ofKey? at h
    split at h
    · rename_i c rest hkey
      have hletter := List.find?_some h
      rw [hkey, eq_of_beq hletter]
      exact ⟨rest, rfl⟩
    · cases h
  · rintro ⟨rest, hkey⟩
    unfold ofKey?
    rw [← hkey]
    cases k <;> rfl

/-- The ids of types and members are told by their tags. -/
theorem onDeclaration_iff {key : String} :
    OnDeclaration key ↔ Tagged ["T:"] key ∨ Tagged ["M:", "P:", "F:", "E:"] key := by
  rw [OnDeclaration, Tagged, List.exists_mem_cons_iff]
  simp only [Tagged, List.mem_singleton, exists_eq_left]

/-- A text that begins as the ids of types and members do begins with no other tag. -/
theorem OnDeclaration.not_tagged {key : String} (h : OnDeclaration key) :
    ¬ Tagged ["N:", "!:"] key := by
  rintro ⟨other, hother, hkey'⟩
  obtain ⟨tag, htag, hkey⟩ := h
  have hdiffer : ∀ tag ∈ ["T:", "M:", "P:", "F:", "E:"], ∀ other ∈ ["N:", "!:"],
      tag.toList.length = other.toList.length ∧ tag.toList ≠ other.toList := by
    decide
  obtain ⟨hlength, hne⟩ := hdiffer tag htag other hother
  exact hne ((List.prefix_of_prefix_length_le hkey hkey' hlength.le).eq_of_length hlength)

end DocKind

namespace AssemblyEntry

open DocKind

theorem isOnType_iff {c : Comment} : isOnType c = true ↔ Tagged ["T:"] c.key := by
  have htag : "T:" = DocKind.ofType.tag := by decide
  rw [isOnType, beq_iff_eq, Comment.kind?, ofKey?_eq_some_iff, Tagged, htag]
  simp only [List.mem_singleton, exists_eq_left]

theorem isOnMember_iff {c : Comment} :
    isOnMember c = true ↔ Tagged ["M:", "P:", "F:", "E:"] c.key := by
  have hkind (k : DocKind) : k.isMember = true ↔ k.tag ∈ ["M:", "P:", "F:", "E:"] := by
    cases k <;> decide
  have htag : ∀ tag ∈ ["M:", "P:", "F:", "E:"], ∃ k : DocKind, k.tag = tag := by
    simp only [List.forall_mem_cons, List.not_mem_nil, false_imp_iff, implies_true, and_true]
    exact ⟨⟨.ofMethod, by decide⟩, ⟨.ofProperty, by decide⟩, ⟨.ofField, by decide⟩,
      ⟨.ofEvent, by decide⟩⟩
  rw [isOnMember, Option.any_eq_true, Tagged]
  constructor
  · rintro ⟨k, hk, hmember⟩
    exact ⟨k.tag, (hkind k).mp hmember, ofKey?_eq_some_iff.mp hk⟩
  · rintro ⟨tag, hmem, hkey⟩
    obtain ⟨k, rfl⟩ := htag tag hmem
    exact ⟨k, ofKey?_eq_some_iff.mpr hkey, (hkind k).mpr hmem⟩

end AssemblyEntry

/-! ### The report -/

namespace Comments

open DocKind

open scoped Classical in
/-- The comments under ids with one of some tags that are on no declaration, in the order of the
file. -/
noncomputable def strays (comments : Comments) (declared : List TypeDecl) (tags : List String) :
    List Comment :=
  comments.entries.filter fun c ↦ Tagged tags c.key ∧ ¬ TypeDecl.IsDocId declared c.key

/-- What is reported about the comments that are on no declaration of an assembly. -/
structure ReportsStrays (comments : Comments) (declared : List TypeDecl) (assembly : String)
    (reports : List Diagnostic) : Prop where
  /-- Nothing is reported if all comments on types and members are on declarations. -/
  silent : (∀ c ∈ comments.entries, OnDeclaration c.key → TypeDecl.IsDocId declared c.key) →
    reports = []
  /-- Otherwise there is one report, on the comments on types and on those on members. -/
  single : (∃ c ∈ comments.entries, OnDeclaration c.key ∧ ¬ TypeDecl.IsDocId declared c.key) →
    reports = [.unboundEntries assembly (comments.strays declared ["T:"])
      (comments.strays declared ["M:", "P:", "F:", "E:"])]
  /-- No comment is reported twice. -/
  once : ∀ name types members, .unboundEntries name types members ∈ reports →
    (types.map Comment.key).Nodup ∧ (members.map Comment.key).Nodup
  /-- No comment on a namespace, on something unresolved or under an id without a tag is
  reported. -/
  tagged : ∀ name types members, .unboundEntries name types members ∈ reports →
    ∀ c ∈ types ++ members, OnDeclaration c.key ∧ ¬ Tagged ["N:", "!:"] c.key

variable {comments : Comments} {declared : List TypeDecl} {tags : List String}

theorem mem_strays {c : Comment} : c ∈ comments.strays declared tags ↔
    c ∈ comments.entries ∧ Tagged tags c.key ∧ ¬ TypeDecl.IsDocId declared c.key := by
  classical
  rw [strays, List.mem_filter, decide_eq_true_iff]

theorem nodup_strays : ((comments.strays declared tags).map Comment.key).Nodup :=
  comments.nodup_keys.sublist (List.filter_sublist.map _)

end Comments

namespace AssemblyEntry

open DocKind

variable {comments : Comments} {declared : List TypeDecl} {known : List String}

/-- Nothing is reported exactly if the ids of all comments on types and members are known. -/
theorem unbound_eq_nil_iff {assembly : String} :
    unbound assembly known comments = [] ↔
      ∀ c ∈ comments.entries, OnDeclaration c.key → c.key ∈ known := by
  have hnil (p : Comment → Bool) :
      ((comments.entries.filter fun c ↦ !known.contains c.key).filter p).isEmpty = true ↔
        ∀ c ∈ comments.entries, p c = true → c.key ∈ known := by
    simp only [List.isEmpty_iff, List.filter_eq_nil_iff, List.mem_filter, Bool.not_eq_true',
      List.contains_eq_mem, decide_eq_false_iff_not, and_imp]
    exact forall₂_congr fun c _ ↦ ⟨fun h hp ↦ not_not.mp fun hnew ↦ h hnew hp,
      fun h hnew hp ↦ hnew (h hp)⟩
  have hif : unbound assembly known comments = [] ↔
      (∀ c ∈ comments.entries, isOnType c = true → c.key ∈ known) ∧
        ∀ c ∈ comments.entries, isOnMember c = true → c.key ∈ known := by
    rw [← hnil, ← hnil, ← Bool.and_eq_true, unbound]
    simp only [ite_eq_left_iff, List.cons_ne_nil, imp_false, not_not]
  simp only [hif, isOnType_iff, isOnMember_iff, onDeclaration_iff, or_imp, forall_and]

/-- The comments of a kind whose ids are not known are those on no declaration. -/
theorem filter_strangers_eq_strays (hknown : knownIds declared = .ok known) {p : Comment → Bool}
    {tags : List String} (hp : ∀ c, p c = true ↔ Tagged tags c.key) :
    (comments.entries.filter fun c ↦ !known.contains c.key).filter p =
      comments.strays declared tags := by
  classical
  rw [List.filter_filter, Comments.strays]
  refine List.filter_congr fun c _ ↦ ?_
  rw [Bool.eq_iff_iff, Bool.and_eq_true, hp, Bool.not_eq_true', ← Bool.not_eq_true,
    List.contains_iff_mem, mem_knownIds_iff hknown, decide_eq_true_iff]

theorem unbound_of_not_nil (hknown : knownIds declared = .ok known) {assembly : String}
    (h : unbound assembly known comments ≠ []) :
    unbound assembly known comments = [.unboundEntries assembly (comments.strays declared ["T:"])
      (comments.strays declared ["M:", "P:", "F:", "E:"])] := by
  rw [unbound, filter_strangers_eq_strays hknown fun c ↦ isOnType_iff,
    filter_strangers_eq_strays hknown fun c ↦ isOnMember_iff] at h ⊢
  split_ifs at h ⊢
  · exact absurd rfl h
  · rfl

theorem reportsStrays_unbound (hknown : knownIds declared = .ok known) (assembly : String) :
    comments.ReportsStrays declared assembly (unbound assembly known comments) := by
  have hlists {name : String} {types members : List Comment}
      (h : .unboundEntries name types members ∈ unbound assembly known comments) :
      types = comments.strays declared ["T:"] ∧
        members = comments.strays declared ["M:", "P:", "F:", "E:"] := by
    rw [unbound_of_not_nil hknown (List.ne_nil_of_mem h), List.mem_singleton] at h
    cases h
    exact ⟨rfl, rfl⟩
  constructor
  · intro hall
    refine unbound_eq_nil_iff.mpr fun c hc htag ↦ ?_
    exact (mem_knownIds_iff hknown).mpr (hall c hc htag)
  · rintro ⟨c, hc, htag, hstray⟩
    refine unbound_of_not_nil hknown fun hnil ↦ hstray ?_
    exact (mem_knownIds_iff hknown).mp (unbound_eq_nil_iff.mp hnil c hc htag)
  · intro name types members h
    obtain ⟨rfl, rfl⟩ := hlists h
    exact ⟨Comments.nodup_strays, Comments.nodup_strays⟩
  · intro name types members h c hc
    obtain ⟨rfl, rfl⟩ := hlists h
    have htag : OnDeclaration c.key := by
      rw [onDeclaration_iff]
      rcases List.mem_append.mp hc with hc | hc
      · exact Or.inl (Comments.mem_strays.mp hc).2.1
      · exact Or.inr (Comments.mem_strays.mp hc).2.1
    exact ⟨htag, htag.not_tagged⟩

/-! ### The whole assembly -/

/-- **Comments left over are reported exactly, whatever is shown.** An assembly that is built has no
report if all comments on types and members are on declarations, and otherwise one report on the
others, those on types and those on members each in the order of the file. Under other switches and
with another filter the same is reported, and the assembly is built unless the filter crashes or a
member that is overridden has no documentation id. -/
theorem reportsStrays_of_build {inclusion : Inclusion} {filter : MemberFilter} {id : AssemblyId}
    {source : AssemblySource} {comments : Comments} {a : AssemblyEntry}
    (h : build inclusion filter id source comments = .ok a) :
    ∃ declared, source.load = .ok declared ∧
      comments.ReportsStrays declared source.name a.diagnostics ∧
      ∀ (inclusion' : Inclusion) (filter' : MemberFilter) (id' : AssemblyId),
        (∀ a', build inclusion' filter' id' source comments = .ok a' →
          a'.diagnostics = a.diagnostics) ∧
        ((∀ m, ∃ kept, filter' m = .ok kept) →
          (∀ d ∈ declared, ∀ m ∈ d.members, ∀ base ∈ m.overridden? d.fullName,
            ∃ key, base.docId = .ok key) →
          ∃ a', build inclusion' filter' id' source comments = .ok a') := by
  obtain ⟨declared, built, known, hload, -, -, hknown, ha⟩ := exists_of_build h
  have hreports : a.diagnostics = unbound source.name known comments := by rw [ha]
  refine ⟨declared, hload, hreports ▸ reportsStrays_unbound hknown source.name,
    fun inclusion' filter' id' ↦ ⟨fun a' h' ↦ ?_, fun htotal hlinks ↦ ?_⟩⟩
  · obtain ⟨declared', built', known', hload', -, -, hknown', rfl⟩ := exists_of_build h'
    obtain rfl := Except.ok.inj (hload.symm.trans hload')
    obtain rfl := Except.ok.inj (hknown.symm.trans hknown')
    exact hreports.symm
  · exact exists_build_of_build h hload hlinks inclusion' htotal id'

/-! ### A file with comments of every kind -/

/-- A quill with a method behind a property and a method that cannot be used from outside. -/
def quillDecls : List TypeDecl :=
  [((TypeDecl.classNamed "Quill").withMember
      (.operatorOf "Quill" "get_Ink" (.named "Ink" []))).withMember
    ((MemberDecl.methodOf "Quill" "Fill" .void).withAccess .owner)]

/-- Comments on the quill and its methods, on a type and a field that are not declared, on a
namespace and under ids of no kind. -/
def quillComments : Comments :=
  .ofList none
    [{ key := "F:Quill.Lost" }, { key := "T:Quill" }, { key := "M:Quill.get_Ink" },
      { key := "M:Quill.Fill" }, { key := "T:Gone" }, { key := "N:Quills" }, { key := "!:Odd" },
      { key := "Quills" }]

theorem reportsStrays_of_build_quillDecls :
    ∃ a, build {} .all ⟨0⟩ ⟨"Quills", .ok quillDecls⟩ quillComments = .ok a ∧
      a.diagnostics =
        [.unboundEntries "Quills" [{ key := "T:Gone" }] [{ key := "F:Quill.Lost" }]] ∧
      quillComments.ReportsStrays quillDecls "Quills" a.diagnostics ∧
      ∀ inclusion', ∃ a', build inclusion' .all ⟨0⟩ ⟨"Quills", .ok quillDecls⟩ quillComments =
        .ok a' ∧ a'.diagnostics = a.diagnostics := by
  obtain ⟨a, ha, hreports⟩ : ∃ a,
      build {} .all ⟨0⟩ ⟨"Quills", .ok quillDecls⟩ quillComments = .ok a ∧ a.diagnostics =
        [.unboundEntries "Quills" [{ key := "T:Gone" }] [{ key := "F:Quill.Lost" }]] :=
    ⟨_, rfl, by decide +kernel⟩
  obtain ⟨declared, hload, hstrays, hsame⟩ := reportsStrays_of_build ha
  obtain rfl := Except.ok.inj hload
  refine ⟨a, ha, hreports, hstrays, fun inclusion' ↦ ?_⟩
  have hnone : ∀ d ∈ quillDecls, ∀ m ∈ d.members, m.overridden? d.fullName = none := by
    decide +kernel
  obtain ⟨a', ha'⟩ := (hsame inclusion' .all ⟨0⟩).2 (fun m ↦ ⟨true, rfl⟩)
    fun d hd m hm base hbase ↦ by cases (hnone d hd m hm).symm.trans hbase
  exact ⟨a', ha', (hsame inclusion' .all ⟨0⟩).1 a' ha'⟩

end AssemblyEntry

end ApiDocs
