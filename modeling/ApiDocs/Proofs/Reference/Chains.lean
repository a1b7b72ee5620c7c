import ApiDocs.Proofs.Reference.Inheritance

/-!
# Chains of overrides

A member without a usable comment takes over that of the entry it overrides, as it stands at the
turn of the member's type. If the type of that entry had its turn before, the entry may have taken
over its comment in the same way, and so on. If it had not, the entry has no other comment than the
one in its documentation file, which is looked up in any case. So a comment is had exactly if a
chain of overrides, each leading to a type that has its turn earlier, ends at an id under which one
of the files has a usable comment.

No assumption is made on where overrides lead: they may lead to types of the same or of greater
depth, or back.

## Main definitions

* `Inheritance.Leads`: an override leads to an entry whose type has its turn earlier.
* `Inheritance.Draws`: a chain of overrides that ends at a usable comment.
* `Inheritance.CommentsFiled`: the comments of entries are in the files.

## Main results

* `Inheritance.isSome_inherited?_iff_draws`: an override finds a comment at the end of a chain.
* `Inheritance.isSome_comment_inheritMember_iff`: who has any comment after the sweep.
-/

namespace ApiDocs.Inheritance

open Assemblies

variable (index : TypeIndex) (files : List Comments) (as : List AssemblyEntry)

/-- An override of a member of a type leads to an entry: the first one with its documentation id on
the type for which the name of the declaring type stands. That type has its turn earlier. -/
structure Leads (t : TypeEntry) (base : BoundMember) (u : TypeEntry) (b : MemberEntry) : Prop where
  named : index.type? as base.decl.declaringType = some u
  first : (u.members.toList.find? fun m ↦ m.docId == base.docId) = some b
  earlier : Precedes index as u t

/-- An override of a member of a type leads to a usable comment: one of the files has one under its
documentation id, or it leads to an entry that overrides another one, and so on. -/
inductive Draws : TypeEntry → BoundMember → Prop
  | filed {t : TypeEntry} {base : BoundMember}
      (h : (filedComment? files base.docId).isSome = true) : Draws t base
  | link {t u : TypeEntry} {base next : BoundMember} {b : MemberEntry}
      (hlead : Leads index as t base u b) (hnext : b.overrides = some next) (h : Draws u next) :
      Draws t base

/-- The comments of members and of the stand-ins for what they override are in the files. -/
structure CommentsFiled : Prop where
  own : ∀ t ∈ types as, ∀ m ∈ t.members.toList, ∃ file ∈ files, m.comment = file.get? m.docId
  standIn : ∀ t ∈ types as, ∀ m ∈ t.members.toList, ∀ base ∈ m.overrides,
    ∃ file ∈ files, base.comment = file.get? base.docId

variable {index files as}

theorem wellFounded_precedes : WellFounded (Precedes index as) := by
  let rank (t : TypeEntry) : ℕ × ℕ × ℕ :=
    (baseDepth index as t, t.id.assembly.val.toNat, t.id.slot.toNat)
  refine Subrelation.wf (fun {u t} h ↦ ?_)
    (InvImage.wf rank (Prod.lex Nat.lt_wfRel (Prod.lex Nat.lt_wfRel Nat.lt_wfRel)).wf)
  rcases h with hdepth | ⟨hdepth, hassembly | ⟨hassembly, hslot⟩⟩
  · exact Prod.lex_def.mpr (Or.inl hdepth)
  · exact Prod.lex_def.mpr (Or.inr ⟨hdepth, Prod.lex_def.mpr
      (Or.inl (UInt32.lt_iff_toNat_lt.mp hassembly))⟩)
  · exact Prod.lex_def.mpr (Or.inr ⟨hdepth, Prod.lex_def.mpr
      (Or.inr ⟨congrArg (fun id ↦ id.val.toNat) hassembly, UInt32.lt_iff_toNat_lt.mp hslot⟩)⟩)

theorem Precedes.of_outline_eq {u t t₀ : TypeEntry} (h : Precedes index as u t)
    (heq : t₀.outline = t.outline) : Precedes index as u t₀ := by
  have hid : t₀.id = t.id := congrArg (fun t ↦ t.id) heq
  have hheader : t₀.header = t.header := congrArg (fun t ↦ t.header) heq
  have hdepth : baseDepth index as t₀ = baseDepth index as t := by
    rw [baseDepth, baseDepth, hheader]
  rw [Precedes, hid, hdepth]
  exact h

/-- An override leads to one entry at most. -/
theorem Leads.unique {t u v : TypeEntry} {base : BoundMember} {b c : MemberEntry}
    (h : Leads index as t base u b) (h' : Leads index as t base v c) : u = v ∧ b = c := by
  obtain rfl := Option.some.inj (h.named.symm.trans h'.named)
  exact ⟨rfl, Option.some.inj (h.first.symm.trans h'.first)⟩

/-- Where a chain of overrides leads depends on the outline of the type it starts from. -/
theorem Draws.of_outline_eq {t t₀ : TypeEntry} {base : BoundMember}
    (h : Draws index files as t base) (heq : t₀.outline = t.outline) :
    Draws index files as t₀ base := by
  cases h with
  | filed h => exact .filed h
  | link hlead hnext h =>
    exact .link ⟨hlead.named, hlead.first, hlead.earlier.of_outline_eq heq⟩ hnext h

/-! ### Usable comments -/

theorem isWanting_eq_false_iff {c : Option Comment} :
    isWanting c = false ↔ (c.filter isUsable).isSome = true := by
  cases c with
  | none => simp [isWanting]
  | some c => simp [isWanting, isUsable, Option.filter_some]

/-- A usable comment under an id in one of the files is found there, or another one is. -/
theorem isSome_filedComment?_iff {docId : String} :
    (filedComment? files docId).isSome = true ↔
      ∃ file ∈ files, isWanting (file.get? docId) = false := by
  simp only [filedComment?, List.find?_isSome, List.mem_filterMap, isWanting_eq_false_iff]
  constructor
  · rintro ⟨c, ⟨file, hfile, hc⟩, husable⟩
    exact ⟨file, hfile, by rw [hc, Option.filter_some, if_pos husable]; rfl⟩
  · rintro ⟨file, hfile, hsome⟩
    obtain ⟨c, hc⟩ := Option.isSome_iff_exists.mp hsome
    rw [Option.filter_eq_some_iff] at hc
    exact ⟨c, ⟨file, hfile, hc.1⟩, hc.2⟩

theorem isSome_inherited?_iff {base : BoundMember}
    (hfile : ∃ file ∈ files, base.comment = file.get? base.docId) :
    (inherited? index files as base).isSome = true ↔
      (∃ b, overridden? index as base = some b ∧ isWanting b.comment = false) ∨
        (filedComment? files base.docId).isSome = true := by
  rw [inherited?_eq_of_file hfile, Option.isSome_or, Bool.or_eq_true, ← isWanting_eq_false_iff,
    builtComment?_eq]
  refine or_congr_left ?_
  cases overridden? index as base with
  | none => simp [isWanting]
  | some b => simp

/-- A comment that is taken over is usable. -/
theorem isWanting_inherited? {base : BoundMember}
    (hfile : ∃ file ∈ files, base.comment = file.get? base.docId) {c : Comment}
    (h : inherited? index files as base = some c) : isWanting (some c) = false := by
  rw [inherited?_eq_of_file hfile, Option.or_eq_some_iff] at h
  rw [isWanting_eq_false_iff, Option.filter_some]
  rcases h with h | ⟨-, h⟩
  · rw [Option.filter_eq_some_iff] at h
    rw [if_pos h.2]
    rfl
  · rw [if_pos (List.find?_some h)]
    rfl

/-- The usable comment of an entry that a search by id finds is in one of the files. -/
theorem CommentsFiled.isSome_filedComment? (h : CommentsFiled files as) {u : TypeEntry}
    (hu : u ∈ types as) {docId : String} {b : MemberEntry}
    (hfirst : (u.members.toList.find? fun m ↦ m.docId == docId) = some b)
    (husable : isWanting b.comment = false) : (filedComment? files docId).isSome = true := by
  obtain ⟨file, hfile, heq⟩ := h.own u hu b (List.mem_of_find?_eq_some hfirst)
  have hid := List.find?_some hfirst
  rw [← eq_of_beq hid]
  exact isSome_filedComment?_iff.mpr ⟨file, hfile, heq ▸ husable⟩

/-- The comments of assemblies that were built are in the files they were built with. -/
theorem commentsFiled_of_built {bound : List (AssemblyEntry × Comments)}
    (h : ∀ p ∈ bound, ∃ inclusion filter source,
      AssemblyEntry.build inclusion filter p.1.id source p.2 = .ok p.1) :
    CommentsFiled (bound.map Prod.snd) (bound.map Prod.fst) := by
  refine ⟨fun t ht m hm ↦ ?_, fun t ht m hm base hbase ↦ ?_⟩ <;>
    obtain ⟨p, hp, d, hd⟩ := Reference.exists_build_of_mem_types h ht hm
  · exact ⟨p.2, List.mem_map_of_mem hp, (MemberEntry.comment_of_build hd).1⟩
  · exact ⟨p.2, List.mem_map_of_mem hp, (MemberEntry.comment_of_build hd).2 base hbase⟩

/-- The comments of bound assemblies are in their files. -/
theorem commentsFiled_of_isBound {bound : List (AssemblyEntry × Comments)}
    (h : Reference.IsBound bound) : CommentsFiled (bound.map Prod.snd) (bound.map Prod.fst) :=
  commentsFiled_of_built h.built

/-- The comments of the assemblies that binding any inputs leaves are in their files. -/
theorem commentsFiled_boundEntries {inclusion : Inclusion} {filter : MemberFilter}
    {inputs : List AssemblyInput} :
    CommentsFiled
      ((Reference.boundEntries (Reference.bindAll inclusion filter inputs)).map Prod.snd)
      ((Reference.boundEntries (Reference.bindAll inclusion filter inputs)).map Prod.fst) := by
  refine commentsFiled_of_built fun p hp ↦ ?_
  obtain ⟨i, input, -, hbuild⟩ := Reference.mem_boundEntries_bindAll hp
  refine ⟨inclusion, filter, input.source, ?_⟩
  rw [AssemblyEntry.id_of_build hbuild]
  exact hbuild

/-! ### The sweep -/

/-- Where an override leads in a state of the sweep, if the type it leads to is known. -/
theorem overridden?_eq_find? (haddr : Addressed as) {state : List AssemblyEntry}
    {base : BoundMember} {u v : TypeEntry}
    (hu : (TypeIndex.ofAssemblies as).type? as base.decl.declaringType = some u)
    (hv : type? state u.id = some v) :
    overridden? (TypeIndex.ofAssemblies as) state base =
      v.members.toList.find? fun m ↦ m.docId == base.docId := by
  obtain ⟨id, hid, htype⟩ := Option.bind_eq_some_iff.mp hu
  obtain ⟨-, rfl⟩ := haddr.type?_eq_some_iff.mp htype
  unfold overridden? TypeIndex.type?
  rw [hid, Option.bind_some, hv]
  rfl

/-- The type that an override leads to in a state of the sweep is known from the start. -/
theorem exists_type?_of_overridden? (haddr : Addressed as) {state : List AssemblyEntry}
    {base : BoundMember} {b : MemberEntry}
    (h : overridden? (TypeIndex.ofAssemblies as) state base = some b) :
    ∃ u ∈ types as, (TypeIndex.ofAssemblies as).type? as base.decl.declaringType = some u := by
  obtain ⟨v, hv, -⟩ := Option.bind_eq_some_iff.mp h
  obtain ⟨id, hid, -⟩ := Option.bind_eq_some_iff.mp hv
  obtain ⟨u, hu, -, hnamed⟩ := exists_type?_of_find? haddr hid
  exact ⟨u, hu, hnamed⟩

/-- A state of the sweep in which the types that precede a type are as they will be in the end, and
the others as they were. -/
def IsTurn (files : List Comments) (as state : List AssemblyEntry) (t : TypeEntry) : Prop :=
  ∀ u ∈ types as,
    (Precedes (TypeIndex.ofAssemblies as) as u t →
      type? state u.id = type? (propagate (TypeIndex.ofAssemblies as) files as) u.id) ∧
    (¬ Precedes (TypeIndex.ofAssemblies as) as u t → type? state u.id = some u)

theorem exists_isTurn (files : List Comments) (haddr : Addressed as) {t : TypeEntry}
    (ht : t ∈ types as) : ∃ state, IsTurn files as state t ∧
      type? (propagate (TypeIndex.ofAssemblies as) files as) t.id =
        some (inheritType (TypeIndex.ofAssemblies as) files state t) := by
  obtain ⟨state, hturn, hstate⟩ := exists_turn (TypeIndex.ofAssemblies as) files haddr ht
  exact ⟨state, hstate, hturn⟩

/-- Where an override leads to an earlier type, it finds the entry as that type's turn left it. -/
theorem overridden?_of_precedes (haddr : Addressed as) {state state' : List AssemblyEntry}
    {t u : TypeEntry} (hstate : IsTurn files as state t) {base : BoundMember}
    (hnamed : (TypeIndex.ofAssemblies as).type? as base.decl.declaringType = some u)
    (hu : u ∈ types as) (hprec : Precedes (TypeIndex.ofAssemblies as) as u t)
    (hturn : type? (propagate (TypeIndex.ofAssemblies as) files as) u.id =
      some (inheritType (TypeIndex.ofAssemblies as) files state' u)) :
    overridden? (TypeIndex.ofAssemblies as) state base =
      (u.members.toList.find? fun m ↦ m.docId == base.docId).map
        (inheritMember (TypeIndex.ofAssemblies as) files state') := by
  rw [overridden?_eq_find? haddr hnamed (((hstate u hu).1 hprec).trans hturn),
    toList_members_inheritType, List.find?_map]
  simp only [Function.comp_def, docId_inheritMember]

/-- A member has a usable comment after its turn if it had one before or takes one over. -/
theorem isWanting_inheritMember_iff {state : List AssemblyEntry} {m : MemberEntry}
    (hfile : ∀ base ∈ m.overrides, ∃ file ∈ files, base.comment = file.get? base.docId) :
    isWanting (inheritMember index files state m).comment = false ↔
      isWanting m.comment = false ∨
        ∃ base, m.overrides = some base ∧ (inherited? index files state base).isSome = true := by
  rw [comment_inheritMember]
  cases hw : isWanting m.comment with
  | false => simp [hw]
  | true =>
    rw [if_pos rfl]
    cases hbase : m.overrides with
    | none => simp [hw]
    | some base =>
      rw [Option.bind_some]
      cases hc : inherited? index files state base with
      | none => simp [hw, hc]
      | some c => simp [hc, isWanting_inherited? (hfile base hbase) hc]

/-- At the turn of a type, an override of one of its members finds a usable comment exactly if a
chain of overrides leads to one. -/
theorem isSome_inherited?_iff_draws (haddr : Addressed as) (hfiled : CommentsFiled files as)
    {t : TypeEntry} (ht : t ∈ types as) {state : List AssemblyEntry}
    (hstate : IsTurn files as state t) {m : MemberEntry} (hm : m ∈ t.members.toList)
    {base : BoundMember} (hbase : m.overrides = some base) :
    (inherited? (TypeIndex.ofAssemblies as) files state base).isSome = true ↔
      Draws (TypeIndex.ofAssemblies as) files as t base := by
  have hwf : WellFounded (Precedes (TypeIndex.ofAssemblies as) as) := wellFounded_precedes
  -- the types on a chain have their turns ever earlier
  induction t using hwf.induction generalizing state m base with
  | _ t ih =>
    rw [isSome_inherited?_iff (hfiled.standIn t ht m hm base hbase)]
    -- an entry of an earlier type has a usable comment at this turn if it had one, or by a chain
    have hentry {u : TypeEntry} (hu : u ∈ types as)
        (hprec : Precedes (TypeIndex.ofAssemblies as) as u t) {state' : List AssemblyEntry}
        (hstate' : IsTurn files as state' u) {b : MemberEntry} (hb : b ∈ u.members.toList) :
        isWanting (inheritMember (TypeIndex.ofAssemblies as) files state' b).comment = false ↔
          isWanting b.comment = false ∨ ∃ next, b.overrides = some next ∧
            Draws (TypeIndex.ofAssemblies as) files as u next := by
      rw [isWanting_inheritMember_iff (hfiled.standIn u hu b hb)]
      refine or_congr_right (exists_congr fun next ↦ and_congr_right fun hnext ↦ ?_)
      exact ih u hprec hu hstate' hb hnext
    constructor
    · rintro (⟨b', hover, husable⟩ | hfile)
      · obtain ⟨u, hu, hnamed⟩ := exists_type?_of_overridden? haddr hover
        by_cases hprec : Precedes (TypeIndex.ofAssemblies as) as u t
        · obtain ⟨state', hstate', hturn⟩ := exists_isTurn files haddr hu
          rw [overridden?_of_precedes haddr hstate hnamed hu hprec hturn] at hover
          obtain ⟨b, hfirst, rfl⟩ := Option.map_eq_some_iff.mp hover
          rcases (hentry hu hprec hstate' (List.mem_of_find?_eq_some hfirst)).mp husable with
            husable | ⟨next, hnext, hrest⟩
          · exact .filed (hfiled.isSome_filedComment? hu hfirst husable)
          · exact .link ⟨hnamed, hfirst, hprec⟩ hnext hrest
        · rw [overridden?_eq_find? haddr hnamed ((hstate u hu).2 hprec)] at hover
          exact .filed (hfiled.isSome_filedComment? hu hover husable)
      · exact .filed hfile
    · intro hdraws
      cases hdraws with
      | filed hfile => exact Or.inr hfile
      | @link _ u _ next b hlead hnext hrest =>
        obtain ⟨id, -, htype⟩ := Option.bind_eq_some_iff.mp hlead.named
        have hu : u ∈ types as := (haddr.type?_eq_some_iff.mp htype).1
        obtain ⟨state', hstate', hturn⟩ := exists_isTurn files haddr hu
        refine Or.inl ⟨_, ?_, (hentry hu hlead.earlier hstate'
          (List.mem_of_find?_eq_some hlead.first)).mpr (Or.inr ⟨next, hnext, hrest⟩)⟩
        rw [overridden?_of_precedes haddr hstate hlead.named hu hlead.earlier hturn, hlead.first,
          Option.map_some]

/-- After its turn a member has a comment exactly if it had one before or a chain of overrides leads
to a usable one. -/
theorem isSome_comment_inheritMember_iff (haddr : Addressed as) (hfiled : CommentsFiled files as)
    {t : TypeEntry} (ht : t ∈ types as) {state : List AssemblyEntry}
    (hstate : IsTurn files as state t) {m : MemberEntry} (hm : m ∈ t.members.toList) :
    (inheritMember (TypeIndex.ofAssemblies as) files state m).comment.isSome = true ↔
      m.comment.isSome = true ∨
        ∃ base, m.overrides = some base ∧ Draws (TypeIndex.ofAssemblies as) files as t base := by
  rw [comment_inheritMember]
  cases hw : isWanting m.comment with
  | false =>
    have hsome : m.comment.isSome = true := by
      cases hc : m.comment with
      | none => simp [hc, isWanting] at hw
      | some c => rfl
    simp [hsome]
  | true =>
    rw [if_pos rfl, Option.isSome_or, Bool.or_eq_true, or_comm]
    refine or_congr_right ?_
    cases hbase : m.overrides with
    | none => simp
    | some base =>
      rw [Option.bind_some, isSome_inherited?_iff_draws haddr hfiled ht hstate hm hbase]
      simp

end ApiDocs.Inheritance
