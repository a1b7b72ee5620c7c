import ApiDocs.Proofs.Comment.Reading
import ApiDocs.Proofs.Markup.TagPairs

/-!
# Elements without content in documentation files

An element without content may be written as a self-closing tag or as a pair of tags. Outside the
texts that are kept as they are written, which are those of sections and of the assembly's name, a
documentation file reads the same either way, with one exception: a pair that names the assembly
gives it the empty name, and a self-closing tag in its place gives it none.

The reader does not keep the names of all open elements, but its state and the tokens so far agree
on them. This tells from the open elements alone where the reader stands.

## Main definitions

* `Reader.IsRaw`: some element among the open ones keeps its text as it is written.
* `Reader.State.Stands`: the reader stands inside the elements of the given names.
* `Reader.State.named`: a state in which the assembly has another name.

## Main results

* `Reader.stands_foldlM_step`: the reader stands where the tokens have led it.
* `Reader.foldlM_step_pair`: the steps at a pair and at a self-closing tag.
* `Comments.read_pair`: pairs and self-closing tags read the same.
-/

namespace ApiDocs

open Markup

namespace Reader

/-! ### Where the reader stands -/

/-- Some element among those of the given names, innermost first, keeps its text as it is written:
a child of a member, or a name in an assembly. -/
def IsRaw : List String → Prop
  | name :: parent :: path =>
    parent = "member" ∨ (name = "name" ∧ parent = "assembly") ∨ IsRaw (parent :: path)
  | [_] | [] => False

theorem IsRaw.cons {path : List String} (h : IsRaw path) (name : String) :
    IsRaw (name :: path) := by
  match path, h with
  | _ :: _, h => exact .inr (.inr h)

theorem IsRaw.append {path : List String} (h : IsRaw path) (inner : List String) :
    IsRaw (inner ++ path) := by
  induction inner with
  | nil => exact h
  | cons name inner ih => exact ih.cons name

/-- The names of the elements around a section, given those outside members. -/
def SectionOwner.around (path : List String) : SectionOwner → List String
  | .header => path
  | .member _ => "member" :: path

/-- The reader stands inside the elements of the given names, innermost first. -/
def State.Stands (s : State) (opened : List String) : Prop :=
  match s.focus with
  | .outline => opened = s.path
  | .member _ => opened = "member" :: s.path
  | .inside owner tag depth _ => ∃ inner, inner.length = depth ∧
      opened = inner ++ tag.name :: owner.around s.path ∧
      IsRaw (tag.name :: owner.around s.path)

theorem stands_tokens {s s' : State} {opened : List String} (node : Node) (hs : s.Stands opened)
    (h : node.tokens.foldlM State.step s = .ok s') : s'.Stands opened := by
  obtain ⟨hasRoot, path, cs, focus⟩ := s
  match focus, path with
  | .outline, [] =>
    obtain ⟨hasRoot', -, hmap⟩ := bind_eq_ok_iff.mp (foldlM_step_top_node .. ▸ h)
    obtain ⟨cs', -, rfl⟩ := map_eq_ok_iff.mp hmap
    exact hs
  | .outline, parent :: path =>
    obtain ⟨cs', -, rfl⟩ := map_eq_ok_iff.mp (foldlM_step_outline .. ▸ h)
    exact hs
  | .member c, path =>
    obtain ⟨c', -, rfl⟩ := map_eq_ok_iff.mp (foldlM_step_member_node .. ▸ h)
    exact hs
  | .inside owner _ depth written, path =>
    obtain rfl := Except.ok.inj (foldlM_step_inside .. ▸ h)
    exact hs

theorem stands_step_start {s s' : State} {opened : List String} {tag : Tag} {source : List Char}
    (hs : s.Stands opened) (h : s.step ⟨.start tag, source⟩ = .ok s') :
    s'.Stands (tag.name :: opened) := by
  obtain ⟨hasRoot, path, cs, focus⟩ := s
  match focus, path with
  | .outline, [] =>
    obtain ⟨s₁, hroot, hs'⟩ := bind_eq_ok_iff.mp h
    rw [enterRoot_eq hasRoot cs tag source] at hroot
    obtain ⟨hasRoot', -, rfl⟩ := map_eq_ok_iff.mp hroot
    obtain rfl := Except.ok.inj hs'
    exact congrArg (tag.name :: ·) hs
  | .outline, parent :: path =>
    obtain rfl : opened = parent :: path := hs
    rw [step_start] at h
    split_ifs at h with hmember hname
    · obtain ⟨c, -, rfl⟩ := map_eq_ok_iff.mp h
      exact congrArg (· :: parent :: path) hmember
    · obtain rfl := Except.ok.inj h
      exact ⟨[], rfl, rfl, .inr (.inl hname)⟩
    · obtain rfl := Except.ok.inj h
      rfl
  | .member c, path =>
    obtain rfl : opened = "member" :: path := hs
    obtain rfl := Except.ok.inj h
    exact ⟨[], rfl, rfl, .inl rfl⟩
  | .inside owner inner depth written, path =>
    obtain ⟨names, hlength, rfl, hraw⟩ := hs
    obtain rfl := Except.ok.inj h
    exact ⟨tag.name :: names, congrArg (· + 1) hlength, rfl, hraw⟩

theorem stands_step_close {s s' : State} {name : String} {opened : List String}
    {source : List Char} (hs : s.Stands (name :: opened))
    (h : s.step ⟨.close, source⟩ = .ok s') : s'.Stands opened := by
  obtain ⟨hasRoot, path, cs, focus⟩ := s
  match focus with
  | .outline =>
    obtain rfl : name :: opened = path := hs
    obtain rfl := Except.ok.inj h
    rfl
  | .member c =>
    obtain rfl := Except.ok.inj h
    exact (List.cons.inj hs).2
  | .inside owner tag 0 written =>
    obtain ⟨names, hlength, hopened, -⟩ := hs
    obtain rfl := List.eq_nil_of_length_eq_zero hlength
    obtain ⟨-, rfl⟩ := List.cons.inj hopened
    cases owner with
    | header =>
      obtain rfl := Except.ok.inj h
      rfl
    | member c =>
      obtain ⟨c', -, rfl⟩ := map_eq_ok_iff.mp ((addSection_eq ..).symm.trans h)
      rfl
  | .inside owner tag (depth + 1) written =>
    obtain ⟨names, hlength, hopened, hraw⟩ := hs
    obtain ⟨top, names, rfl⟩ := List.exists_cons_of_length_eq_add_one hlength
    obtain rfl := Except.ok.inj h
    exact ⟨names, Nat.succ.inj hlength, (List.cons.inj hopened).2, hraw⟩

/-- A step leads the reader where its token does. -/
theorem stands_step {s s' : State} {opened opened' : List String} {t : Token}
    (hs : s.Stands opened) (hturn : t.turn opened = some opened') (hstep : s.step t = .ok s') :
    s'.Stands opened' := by
  obtain ⟨event, source⟩ := t
  have hleaf (node : Node) (hnode : node.tokens = [⟨event, source⟩]) : s'.Stands opened :=
    stands_tokens node hs (by rw [hnode, foldlM_singleton, hstep])
  cases event with
  | start tag => exact Option.some.inj hturn ▸ stands_step_start hs hstep
  | close =>
    cases opened with
    | nil => exact absurd hturn nofun
    | cons name opened => exact Option.some.inj hturn ▸ stands_step_close hs hstep
  | empty tag => exact Option.some.inj hturn ▸ hleaf (.single tag source) rfl
  | text => exact Option.some.inj hturn ▸ hleaf (.text source) rfl
  | cdata => exact Option.some.inj hturn ▸ hleaf (.cdata source) rfl
  | aside => exact Option.some.inj hturn ▸ hleaf (.aside source) rfl

/-- The reader stands where the tokens have led it. -/
theorem stands_foldlM_step {s s' : State} {opened opened' : List String} {ts : List Token}
    (hs : s.Stands opened) (hturn : ts.foldlM Token.turn opened = some opened')
    (hsteps : ts.foldlM State.step s = .ok s') : s'.Stands opened' := by
  induction ts generalizing s opened with
  | nil => exact Option.some.inj hturn ▸ Except.ok.inj hsteps ▸ hs
  | cons t ts ih =>
    obtain ⟨s₁, hstep, hsteps⟩ := bind_eq_ok_iff.mp hsteps
    obtain ⟨opened₁, hturn₁, hturn⟩ := Option.bind_eq_some_iff.mp hturn
    exact ih (stands_step hs hturn₁ hstep) hturn hsteps

/-! ### Pairs and self-closing tags -/

/-- The state in which the assembly has the given name. -/
def State.named (s : State) (name : String) : State :=
  { s with comments := { s.comments with assemblyName := some name } }

/-- Outside the texts that are kept, the steps at a pair are the step at a self-closing tag, unless
the element names the assembly. Then the pair names it and the self-closing tag does nothing. -/
theorem foldlM_step_pair {s : State} {opened : List String} (hs : s.Stands opened)
    (hraw : ¬IsRaw opened) (tag : Tag) (source : List Char) :
    tag.pairTokens.foldlM State.step s = s.step ⟨.empty tag, source⟩ ∨
      (tag.name = "name" ∧ opened.head? = some "assembly") ∧
        s.step ⟨.empty tag, source⟩ = .ok s ∧
        tag.pairTokens.foldlM State.step s = .ok (s.named "") := by
  have hpair : tag.pairTokens = (Node.element tag tag.opening [] tag.closing).tokens := rfl
  have hsingle : s.step ⟨.empty tag, source⟩ =
      (Node.single tag source).tokens.foldlM State.step s := (foldlM_singleton ..).symm
  rw [hpair, hsingle]
  obtain ⟨hasRoot, path, cs, focus⟩ := s
  match focus, path with
  | .outline, [] =>
    left
    rw [foldlM_step_top_node, foldlM_step_top_node]
    rfl
  | .outline, parent :: path =>
    obtain rfl : opened = parent :: path := hs
    rw [foldlM_step_outline, foldlM_step_outline, Node.items, Node.items]
    by_cases hmember : tag.name = "member"
    · left
      rw [if_pos hmember, if_pos hmember]
      rfl
    · rw [if_neg hmember, if_neg hmember]
      by_cases hname : tag.name = "name" ∧ parent = "assembly"
      · right
        rw [if_pos hname]
        exact ⟨⟨hname.1, congrArg some hname.2⟩, rfl, rfl⟩
      · left
        rw [if_neg hname]
        rfl
  | .member c, path =>
    left
    rw [foldlM_step_member_node, foldlM_step_member_node]
    rfl
  | .inside owner inner depth written, path =>
    obtain ⟨names, -, rfl, h⟩ := hs
    exact absurd (h.append names) hraw

/-! ### The name of the assembly -/

/-- A step outside members keeps the name of the assembly. -/
theorem step_outline_named (hasRoot : Bool) (path : List String) (cs : Comments) (name : String)
    (t : Token) :
    State.step (State.named ⟨hasRoot, path, cs, .outline⟩ name) t =
      (State.step ⟨hasRoot, path, cs, .outline⟩ t).map (State.named · name) := by
  obtain ⟨event, source⟩ := t
  match event, path with
  | .start tag, [] =>
    change (State.enterRoot ⟨hasRoot, [], { cs with assemblyName := some name }, .outline⟩
      tag.name >>= _) = ((State.enterRoot ⟨hasRoot, [], cs, .outline⟩ tag.name) >>= _).map _
    rw [enterRoot_eq hasRoot _ tag source, enterRoot_eq hasRoot cs tag source]
    cases topStep hasRoot (.single tag source) <;> rfl
  | .start tag, parent :: path =>
    rw [State.named, step_start, step_start]
    split_ifs
    · cases State.openComment tag <;> rfl
    · rfl
    · rfl
  | .empty tag, [] =>
    change State.enterRoot ⟨hasRoot, [], { cs with assemblyName := some name }, .outline⟩
      tag.name = (State.enterRoot ⟨hasRoot, [], cs, .outline⟩ tag.name).map _
    rw [enterRoot_eq hasRoot _ tag source, enterRoot_eq hasRoot cs tag source]
    cases topStep hasRoot (.single tag source) <;> rfl
  | .empty tag, parent :: path =>
    rw [State.named, step_empty, step_empty]
    split_ifs
    · cases State.openComment tag <;> rfl
    · rfl
  | .text, [] =>
    have hstep (cs : Comments) : State.step ⟨hasRoot, [], cs, .outline⟩ ⟨.text, source⟩ =
        if true = true ∧ (!source.all Text.isAsciiBlank) = true then .error .strayText
        else .ok ⟨hasRoot, [], cs, .outline⟩ := rfl
    rw [State.named, hstep, hstep]
    split_ifs <;> rfl
  | .text, _ :: _ | .cdata, [] | .cdata, _ :: _ | .close, _ | .aside, _ => rfl

theorem addSection_named (s : State) (name : String) (c : Comment) (tag : Tag) (text : List Char) :
    (s.named name).addSection c tag text = (s.addSection c tag text).map (State.named · name) := by
  simp only [State.addSection]
  cases (c.absorb tag (Text.normalize (String.ofList text))) <;> rfl

/-- A step does not depend on the name of the assembly, and keeps it or sets it. -/
theorem step_named (s : State) (name : String) (t : Token) :
    (s.named name).step t = s.step t ∨
      (s.named name).step t = (s.step t).map (State.named · name) := by
  obtain ⟨hasRoot, path, cs, focus⟩ := s
  obtain ⟨event, source⟩ := t
  match focus, event with
  | .outline, event => exact .inr (step_outline_named hasRoot path cs name ⟨event, source⟩)
  | .member c, .empty tag =>
    exact .inr (addSection_named ⟨hasRoot, path, cs, .member c⟩ name c tag [])
  | .member c, .start _ | .member c, .close | .member c, .text | .member c, .cdata
  | .member c, .aside => exact .inr rfl
  | .inside .header tag 0 written, .close => exact .inl rfl
  | .inside (.member c) tag 0 written, .close =>
    exact .inr (addSection_named ⟨hasRoot, path, cs, .inside (.member c) tag 0 written⟩ name c tag
      written)
  | .inside owner tag (depth + 1) written, .close => exact .inr rfl
  | .inside owner tag depth written, .start _ | .inside owner tag depth written, .empty _
  | .inside owner tag depth written, .text | .inside owner tag depth written, .cdata
  | .inside owner tag depth written, .aside => exact .inr rfl

/-- A name that the assembly has at the beginning of a run it has at the end, or it makes no
difference. -/
theorem foldlM_step_named {s s' : State} {ts : List Token} (name : String)
    (h : ts.foldlM State.step s = .ok s') :
    ts.foldlM State.step (s.named name) = .ok s' ∨
      ts.foldlM State.step (s.named name) = .ok (s'.named name) := by
  induction ts generalizing s with
  | nil => exact .inr (Except.ok.inj h ▸ rfl)
  | cons t ts ih =>
    obtain ⟨s₁, hstep, hsteps⟩ := bind_eq_ok_iff.mp h
    rw [List.foldlM_cons]
    rcases step_named s name t with hnamed | hnamed
    · left
      rw [hnamed, hstep]
      exact hsteps
    · rw [hnamed, hstep]
      exact ih hsteps

theorem finish_named {s : State} {cs : Comments} (h : s.finish = .ok cs) (name : String) :
    (s.named name).finish = .ok { cs with assemblyName := some name } := by
  obtain ⟨hasRoot, path, cs', focus⟩ := s
  match focus, path, hasRoot with
  | .outline, [], true =>
    obtain rfl := Except.ok.inj h
    rfl

end Reader

/-- A documentation file reads the same if one of its self-closing tags, outside the texts that are
kept as they are written, is written as a pair; only a pair that names the assembly may give it the
empty name. -/
theorem Comments.read_pair {text : String} {before after : List Char} {tag : Tag}
    {path : List String} {cs : Comments} (hplace : HoldsSingle text before tag after path)
    (hraw : ¬Reader.IsRaw path) (htag : tag.IsSeparable) (hread : Comments.read text = .ok cs) :
    Comments.read (String.ofList (before ++ (tag.pair ++ after))) = .ok cs ∨
      (tag.name = "name" ∧ path.head? = some "assembly") ∧
        Comments.read (String.ofList (before ++ (tag.pair ++ after))) =
          .ok { cs with assemblyName := some "" } := by
  obtain ⟨ts, us, ending, hpath, hscan, hscan'⟩ := hplace.exists_scan_pair htag
  rw [Comments.read, hscan] at hread
  obtain ⟨rfl, s', hsteps, hfinish⟩ := Reader.ofTokens_eq_ok_iff_finish.mp hread
  rw [List.foldlM_append] at hsteps
  obtain ⟨s, hbefore, hafter⟩ := bind_eq_ok_iff.mp hsteps
  obtain ⟨s₁, hsingle, hafter⟩ := bind_eq_ok_iff.mp hafter
  have hs : s.Stands path := Reader.stands_foldlM_step (s := {}) rfl hpath hbefore
  -- what is left to show of a state behind the pair
  have hrun {s₂ s₃ : Reader.State} {cs' : Comments}
      (hpair : tag.pairTokens.foldlM Reader.State.step s = .ok s₂)
      (hrest : us.foldlM Reader.State.step s₂ = .ok s₃) (hend : s₃.finish = .ok cs') :
      Comments.read (String.ofList (before ++ (tag.pair ++ after))) = .ok cs' := by
    rw [Comments.read, hscan']
    refine Reader.ofTokens_eq_ok_iff_finish.mpr ⟨rfl, s₃, ?_, hend⟩
    rw [List.foldlM_append]
    refine bind_eq_ok_iff.mpr ⟨s, hbefore, ?_⟩
    rw [List.foldlM_append]
    exact bind_eq_ok_iff.mpr ⟨s₂, hpair, hrest⟩
  rcases Reader.foldlM_step_pair hs hraw tag tag.single with hsame | ⟨hname, hstay, hnamed⟩
  · exact .inl (hrun (hsame.trans hsingle) hafter hfinish)
  · obtain rfl : s = s₁ := Except.ok.inj (hstay.symm.trans hsingle)
    rcases Reader.foldlM_step_named "" hafter with hrest | hrest
    · exact .inl (hrun hnamed hrest hfinish)
    · exact .inr ⟨hname, hrun hnamed hrest (Reader.finish_named hfinish "")⟩

/-- The text in front of a tag for a parameter without a text. -/
def paramBefore : List Char :=
  "\ufeff<doc><member name='T:Disc'><summary/>".toList

/-- The attribute of the tag, with an angle bracket for its value. -/
def paramAttributes : List Char :=
  [' '] ++ ("name".toList ++ ([] ++ '=' :: ([] ++ '"' :: (['>'] ++ '"' :: []))))

/-- The tag of the parameter. -/
def paramTag : Tag :=
  ⟨"param".toList ++ paramAttributes⟩

/-- The text behind the tag. -/
def paramAfter : List Char :=
  "</member></doc>\n".toList

/-- The comments of the file. -/
def paramComments : Comments :=
  .ofList none [{ key := "T:Disc", summary := some "", params := [⟨">", ""⟩] }]

theorem isSeparable_paramTag : paramTag.IsSeparable := by
  have hattributes : Attributes paramAttributes :=
    .cons (by simp) (by simp [isSpace]) (by decide) nofun nofun (.inl rfl) (by simp) (.blank nofun)
  have hname : isName "param".toList = true := by decide
  exact isSeparable_mk hname hattributes

theorem Comments.read_pair_paramTag :
    HoldsSingle (String.ofList (paramBefore ++ (paramTag.single ++ paramAfter))) paramBefore
        paramTag paramAfter ["member", "doc"] ∧
      Comments.read (String.ofList (paramBefore ++ (paramTag.single ++ paramAfter))) =
        .ok paramComments ∧
      Comments.read (String.ofList (paramBefore ++ (paramTag.pair ++ paramAfter))) =
        .ok paramComments := by
  have hplace : HoldsSingle (String.ofList (paramBefore ++ (paramTag.single ++ paramAfter)))
      paramBefore paramTag paramAfter ["member", "doc"] :=
    ⟨String.toList_ofList,
      [⟨.start ⟨"doc".toList⟩, "<doc>".toList⟩,
        ⟨.start ⟨"member name='T:Disc'".toList⟩, "<member name='T:Disc'>".toList⟩,
        ⟨.empty ⟨"summary".toList⟩, "<summary/>".toList⟩],
      [⟨.close, "</member>".toList⟩, ⟨.close, "</doc>".toList⟩, ⟨.text, "\n".toList⟩],
      by decide +kernel, by decide +kernel, by decide +kernel⟩
  have hread : Comments.read (String.ofList (paramBefore ++ (paramTag.single ++ paramAfter))) =
      .ok paramComments := by decide +kernel
  refine ⟨hplace, hread, ?_⟩
  exact (read_pair hplace (by simp [Reader.IsRaw]) isSeparable_paramTag hread).resolve_right
    fun h ↦ absurd h.1.1 (by decide)

/-- The self-closing tag of a name leaves the assembly without one, and the pair names it. -/
theorem Comments.read_pair_ne_of_header :
    HoldsSingle "<doc><assembly><name/></assembly></doc>" "<doc><assembly>".toList ⟨"name".toList⟩
        "</assembly></doc>".toList ["assembly", "doc"] ∧
      ¬Reader.IsRaw ["assembly", "doc"] ∧ Tag.IsSeparable ⟨"name".toList⟩ ∧
      Comments.read "<doc><assembly><name/></assembly></doc>" = .ok .empty ∧
      Comments.read "<doc><assembly><name></name></assembly></doc>" =
        .ok { Comments.empty with assemblyName := some "" } := by
  refine ⟨⟨by decide +kernel, ?_⟩, by simp [Reader.IsRaw], ⟨by decide +kernel, by decide +kernel⟩,
    by decide +kernel, by decide +kernel⟩
  exact ⟨[⟨.start ⟨"doc".toList⟩, "<doc>".toList⟩,
      ⟨.start ⟨"assembly".toList⟩, "<assembly>".toList⟩],
    [⟨.close, "</assembly>".toList⟩, ⟨.close, "</doc>".toList⟩], by decide +kernel,
    by decide +kernel, by decide +kernel⟩

end ApiDocs
