import ApiDocs.Proofs.Comment.Collection
import ApiDocs.Proofs.Comment.Sections
import ApiDocs.Proofs.Markup.Tree
import Mathlib.Tactic.SplitIfs

/-!
# Documentation files read as trees

A documentation file is read token by token, with a stack of names for the elements outside members
and a counter inside sections. What it reads can be told from the tree of the file: the walk through
the tree in document order meets members and the name of the assembly, and goes into neither.

## Main definitions

* `DocItem`: what a documentation file holds, a member or the name of the assembly.
* `Markup.Node.items`: the items that the walk through a tree meets.
* `Markup.Node.IsDocument`: trees of documentation files that can be read.

## Main results

* `Reader.foldlM_step_inside`, `Reader.foldlM_step_member`, `Reader.foldlM_step_outline`: what the
  reader makes of nodes inside a section, inside a member and outside members.
* `Reader.ofTokens_listTokens_eq_ok_iff`: what is read from the tokens of trees.
* `Comments.ofTokens_eq_ok_iff`: what is read from any matched tokens.
-/

namespace ApiDocs

open Markup

/-- What a documentation file holds. -/
inductive DocItem where
  /-- The name of the assembly. -/
  | header (name : String)
  /-- A member, with the tag of its element and its sections. -/
  | member (tag : Tag) (sections : List Section)

namespace DocItem

/-- The name of the assembly. -/
def name? : DocItem → Option String
  | header name => some name
  | member _ _ => none

/-- The comment of a member, under the trimmed name of its element. -/
def comment? : DocItem → Option Comment
  | header _ => none
  | member tag sections =>
    some (Section.comment (Text.trim ((tag.value? "name").getD "")) sections)

/-- A member has a name, and all attributes that are asked for can be read. -/
def IsReadable : DocItem → Prop
  | header _ => True
  | member tag sections =>
    (∃ key, tag.attribute? "name" = .ok (some key)) ∧ ∀ s ∈ sections, s.IsReadable

end DocItem

namespace Markup.Node

/-- The section that a child of a member's element is. -/
def section? : Node → Option Section
  | element tag _ children _ => some ⟨tag, Text.normalize (String.ofList (markup children))⟩
  | single tag _ => some ⟨tag, ""⟩
  | text _ | cdata _ | aside _ => none

/-- The sections that the children of a member's element are. -/
def sections (nodes : List Node) : List Section :=
  nodes.filterMap section?

mutual

/-- The items that the walk through a node meets, given the name of the element that the node
stands in. The walk goes into no member, and into no name directly inside an assembly. -/
def items (parent : String) : Node → List DocItem
  | element tag _ children _ =>
    if tag.name = "member" then
      [.member tag (sections children)]
    else if tag.name = "name" ∧ parent = "assembly" then
      [.header (Text.normalize (String.ofList (markup children)))]
    else
      listItems tag.name children
  | single tag _ => if tag.name = "member" then [.member tag []] else []
  | text _ | cdata _ | aside _ => []

/-- The items that the walk through nodes in one element meets. -/
def listItems (parent : String) : List Node → List DocItem
  | [] => []
  | node :: nodes => node.items parent ++ listItems parent nodes

end

/-- The items below an element at the top. -/
def innerItems : Node → List DocItem
  | element tag _ children _ => listItems tag.name children
  | single _ _ | text _ | cdata _ | aside _ => []

/-- The items of a documentation file. -/
def docItems (nodes : List Node) : List DocItem :=
  nodes.flatMap innerItems

/-- The node is no character data, and no text but ASCII blanks. -/
def IsQuiet : Node → Prop
  | text source => source.all Text.isAsciiBlank
  | cdata _ => False
  | element _ _ _ _ | single _ _ | aside _ => True

/-- Trees that form a documentation file: one element named `doc` at the top, no text beside it, and
items that can be read. -/
structure IsDocument (nodes : List Node) : Prop where
  exists_root : ∃ tag : Tag, nodes.filterMap tag? = [tag] ∧ tag.name = "doc"
  isQuiet : ∀ node ∈ nodes, node.IsQuiet
  isReadable : ∀ item ∈ docItems nodes, item.IsReadable

end Markup.Node

namespace Reader

open Node

/-- A computation followed by one that keeps the form of its result keeps the form. -/
theorem map_bind_eq_map {ε α β : Type} {f : α → β} {g : β → Except ε β} {g' : α → Except ε α}
    (h : ∀ a, g (f a) = (g' a).map f) (x : Except ε α) : (x.map f >>= g) = (x >>= g').map f := by
  cases x with
  | error e => rfl
  | ok a => exact h a

theorem foldlM_singleton {ε α β : Type} (f : α → β → Except ε α) (a : α) (b : β) :
    [b].foldlM f a = f a b :=
  bind_pure (f a b)

section

variable (hasRoot : Bool) (path : List String) (cs : Comments)

/-! ### Inside sections -/

mutual

/-- A node inside a section becomes part of the section's text. -/
theorem foldlM_step_inside (owner : SectionOwner) (tag : Tag) (depth : Nat) (text : List Char)
    (node : Node) :
    node.tokens.foldlM State.step ⟨hasRoot, path, cs, .inside owner tag depth text⟩ =
      .ok ⟨hasRoot, path, cs,
        .inside owner tag depth (text ++ node.tokens.flatMap Token.source)⟩ := by
  match node with
  | element inner opening children closing =>
    calc (element inner opening children closing).tokens.foldlM State.step
          ⟨hasRoot, path, cs, .inside owner tag depth text⟩
      _ = (listTokens children ++ [(⟨.close, closing⟩ : Token)]).foldlM State.step
            ⟨hasRoot, path, cs, .inside owner tag (depth + 1) (text ++ opening)⟩ := rfl
      _ = .ok ⟨hasRoot, path, cs,
            .inside owner tag depth (text ++ opening ++ markup children ++ closing)⟩ := by
        rw [List.foldlM_append, foldlM_step_inside_list owner tag (depth + 1) (text ++ opening)
          children]
        rfl
      _ = _ := by simp [Node.tokens, markup]
  | single _ source | .text source | cdata source | aside source =>
    rw [Node.tokens, List.flatMap_singleton]
    rfl

theorem foldlM_step_inside_list (owner : SectionOwner) (tag : Tag) (depth : Nat)
    (text : List Char) (nodes : List Node) :
    (listTokens nodes).foldlM State.step ⟨hasRoot, path, cs, .inside owner tag depth text⟩ =
      .ok ⟨hasRoot, path, cs, .inside owner tag depth (text ++ markup nodes)⟩ := by
  match nodes with
  | [] =>
    rw [markup_nil, List.append_nil]
    rfl
  | node :: nodes =>
    have hnodes := foldlM_step_inside_list owner tag depth
      (text ++ node.tokens.flatMap Token.source) nodes
    rw [listTokens, List.foldlM_append, foldlM_step_inside owner tag depth text node]
    rw [List.append_assoc] at hnodes
    rw [markup, listTokens, List.flatMap_append]
    exact hnodes

end

/-! ### Inside members -/

/-- Adds a section to a comment. -/
def takeSection (c : Comment) (s : Section) : Except ReadFault Comment :=
  (c.absorb s.tag s.text).mapError .lookup

theorem addSection_eq (c : Comment) (focus : Focus) (tag : Tag) (text : List Char) :
    State.addSection ⟨hasRoot, path, cs, focus⟩ c tag text =
      (takeSection c ⟨tag, Text.normalize (String.ofList text)⟩).map
        fun c ↦ ⟨hasRoot, path, cs, .member c⟩ := by
  rw [State.addSection, takeSection]
  cases (c.absorb tag (Text.normalize (String.ofList text))) <;> rfl

/-- A node among the sections of a member adds the section that it is, if it is one. -/
theorem foldlM_step_member_node (c : Comment) (node : Node) :
    node.tokens.foldlM State.step ⟨hasRoot, path, cs, .member c⟩ =
      (node.section?.toList.foldlM takeSection c).map
        fun c ↦ ⟨hasRoot, path, cs, .member c⟩ := by
  match node with
  | element tag opening children closing =>
    calc (element tag opening children closing).tokens.foldlM State.step
          ⟨hasRoot, path, cs, .member c⟩
      _ = (listTokens children ++ [(⟨.close, closing⟩ : Token)]).foldlM State.step
            ⟨hasRoot, path, cs, .inside (.member c) tag 0 []⟩ := rfl
      _ = (takeSection c ⟨tag, Text.normalize (String.ofList (markup children))⟩).map
            fun c ↦ ⟨hasRoot, path, cs, .member c⟩ := by
        rw [List.foldlM_append, foldlM_step_inside_list]
        exact (foldlM_singleton ..).trans (addSection_eq ..)
      _ = _ := by
        rw [section?, Option.toList_some, foldlM_singleton]
  | single tag source =>
    calc (single tag source).tokens.foldlM State.step ⟨hasRoot, path, cs, .member c⟩
      _ = State.addSection ⟨hasRoot, path, cs, .member c⟩ c tag [] := foldlM_singleton ..
      _ = (takeSection c ⟨tag, ""⟩).map fun c ↦ ⟨hasRoot, path, cs, .member c⟩ :=
        addSection_eq ..
      _ = _ := by
        rw [section?, Option.toList_some, foldlM_singleton]
  | .text _ | cdata _ | aside _ => rfl

/-- The nodes in a member add the sections that they are. -/
theorem foldlM_step_member (c : Comment) (nodes : List Node) :
    (listTokens nodes).foldlM State.step ⟨hasRoot, path, cs, .member c⟩ =
      ((sections nodes).foldlM takeSection c).map fun c ↦ ⟨hasRoot, path, cs, .member c⟩ := by
  induction nodes generalizing c with
  | nil => rfl
  | cons node nodes ih =>
    have hsections : sections (node :: nodes) = node.section?.toList ++ sections nodes := by
      rw [sections, List.filterMap_cons]
      cases node.section? <;> rfl
    rw [listTokens, List.foldlM_append, foldlM_step_member_node, hsections, List.foldlM_append]
    exact map_bind_eq_map ih _

end

/-! ### Outside members -/

/-- Adds an item to the comments of a file. -/
def takeItem (cs : Comments) : DocItem → Except ReadFault Comments
  | .header name => .ok { cs with assemblyName := some name }
  | .member tag sections => do
    let c ← State.openComment tag
    let c ← sections.foldlM takeSection c
    return cs.insert c

/-- The content of a member and its closing tag file the comment that has the sections. -/
theorem foldlM_step_memberContent (hasRoot : Bool) (path : List String) (cs : Comments)
    (c : Comment) (children : List Node) (closing : List Char) :
    (listTokens children ++ [(⟨.close, closing⟩ : Token)]).foldlM State.step
        ⟨hasRoot, path, cs, .member c⟩ =
      ((sections children).foldlM takeSection c).map
        fun c ↦ ⟨hasRoot, path, cs.insert c, .outline⟩ := by
  rw [List.foldlM_append, foldlM_step_member]
  cases (sections children).foldlM takeSection c <;> rfl

/-- The step at an opening tag inside the element at the top. -/
theorem step_start (hasRoot : Bool) (parent : String) (path : List String) (cs : Comments)
    (tag : Tag) (source : List Char) :
    State.step ⟨hasRoot, parent :: path, cs, .outline⟩ ⟨.start tag, source⟩ =
      if tag.name = "member" then
        (State.openComment tag).map fun c ↦ ⟨hasRoot, parent :: path, cs, .member c⟩
      else if tag.name = "name" ∧ parent = "assembly" then
        .ok ⟨hasRoot, parent :: path, cs, .inside .header tag 0 []⟩
      else
        .ok ⟨hasRoot, tag.name :: parent :: path, cs, .outline⟩ := by
  have hstep : State.step ⟨hasRoot, parent :: path, cs, .outline⟩ ⟨.start tag, source⟩ =
      if tag.name = "member" then do
        return ⟨hasRoot, parent :: path, cs, .member (← State.openComment tag)⟩
      else if tag.name = "name" ∧ some parent = some "assembly" then
        .ok ⟨hasRoot, parent :: path, cs, .inside .header tag 0 []⟩
      else
        .ok ⟨hasRoot, tag.name :: parent :: path, cs, .outline⟩ := rfl
  rw [hstep]
  simp only [Option.some.injEq]
  split_ifs
  · cases State.openComment tag <;> rfl
  · rfl
  · rfl

/-- The step at a self-closing tag inside the element at the top. -/
theorem step_empty (hasRoot : Bool) (parent : String) (path : List String) (cs : Comments)
    (tag : Tag) (source : List Char) :
    State.step ⟨hasRoot, parent :: path, cs, .outline⟩ ⟨.empty tag, source⟩ =
      if tag.name = "member" then
        (State.openComment tag).map fun c ↦ ⟨hasRoot, parent :: path, cs.insert c, .outline⟩
      else
        .ok ⟨hasRoot, parent :: path, cs, .outline⟩ := by
  have hstep : State.step ⟨hasRoot, parent :: path, cs, .outline⟩ ⟨.empty tag, source⟩ =
      if tag.name = "member" then do
        return ⟨hasRoot, parent :: path, cs.insert (← State.openComment tag), .outline⟩
      else
        .ok ⟨hasRoot, parent :: path, cs, .outline⟩ := rfl
  rw [hstep]
  split_ifs
  · cases State.openComment tag <;> rfl
  · rfl

mutual

/-- A node outside members adds the items that the walk through it meets. -/
theorem foldlM_step_outline (hasRoot : Bool) (parent : String) (path : List String)
    (cs : Comments) (node : Node) :
    node.tokens.foldlM State.step ⟨hasRoot, parent :: path, cs, .outline⟩ =
      ((node.items parent).foldlM takeItem cs).map
        fun cs ↦ ⟨hasRoot, parent :: path, cs, .outline⟩ := by
  match node with
  | element tag opening children closing =>
    rw [Node.tokens, List.foldlM_cons, step_start, items]
    split_ifs with hmember hname
    · rw [foldlM_singleton, takeItem]
      cases State.openComment tag with
      | error fault => rfl
      | ok c =>
        refine (foldlM_step_memberContent hasRoot (parent :: path) cs c children closing).trans ?_
        change _ = Except.map _ (do return cs.insert (← (sections children).foldlM takeSection c))
        cases (sections children).foldlM takeSection c <;> rfl
    · change (listTokens children ++ [(⟨.close, closing⟩ : Token)]).foldlM State.step
        ⟨hasRoot, parent :: path, cs, .inside .header tag 0 []⟩ = _
      rw [List.foldlM_append, foldlM_step_inside_list]
      rfl
    · change (listTokens children ++ [(⟨.close, closing⟩ : Token)]).foldlM State.step
        ⟨hasRoot, tag.name :: parent :: path, cs, .outline⟩ = _
      rw [List.foldlM_append,
        foldlM_step_outline_list hasRoot tag.name (parent :: path) cs children]
      cases (listItems tag.name children).foldlM takeItem cs <;> rfl
  | single tag source =>
    rw [Node.tokens, foldlM_singleton, step_empty, items]
    split_ifs with hmember
    · rw [foldlM_singleton, takeItem]
      cases State.openComment tag <;> rfl
    · rfl
  | .text _ | cdata _ | aside _ => rfl

theorem foldlM_step_outline_list (hasRoot : Bool) (parent : String) (path : List String)
    (cs : Comments) (nodes : List Node) :
    (listTokens nodes).foldlM State.step ⟨hasRoot, parent :: path, cs, .outline⟩ =
      ((listItems parent nodes).foldlM takeItem cs).map
        fun cs ↦ ⟨hasRoot, parent :: path, cs, .outline⟩ := by
  match nodes with
  | [] => rfl
  | node :: nodes =>
    rw [listTokens, List.foldlM_append, foldlM_step_outline hasRoot parent path cs node, listItems,
      List.foldlM_append]
    exact map_bind_eq_map (fun cs ↦ foldlM_step_outline_list hasRoot parent path cs nodes) _

end

/-! ### What the items add -/

theorem foldlM_takeSection (ss : List Section) (c : Comment) :
    ss.foldlM takeSection c =
      (ss.foldlM (fun (c : Comment) s ↦ c.absorb s.tag s.text) c).mapError .lookup := by
  induction ss generalizing c with
  | nil => rfl
  | cons s ss ih =>
    rw [List.foldlM_cons, List.foldlM_cons, takeSection]
    cases c.absorb s.tag s.text with
    | error fault => rfl
    | ok c => exact ih c

theorem openComment_eq_ok_iff {tag : Tag} {c : Comment} :
    State.openComment tag = .ok c ↔
      ∃ key, tag.attribute? "name" = .ok (some key) ∧ c = Section.comment (Text.trim key) [] := by
  rw [State.openComment, bind_eq_ok_iff]
  constructor
  · rintro ⟨value, hvalue, hc⟩
    rw [mapError_eq_ok_iff] at hvalue
    cases value with
    | none => exact absurd hc (fun h ↦ by cases h)
    | some key => exact ⟨key, hvalue, (Except.ok.inj hc).symm⟩
  · rintro ⟨key, hkey, rfl⟩
    exact ⟨some key, mapError_eq_ok_iff.mpr hkey, rfl⟩

theorem comments_ext {cs cs' : Comments} (hname : cs.assemblyName = cs'.assemblyName)
    (hentries : cs.entries = cs'.entries) : cs = cs' := by
  cases cs
  cases cs'
  rw [Comments.mk.injEq]
  exact ⟨hname, hentries⟩

/-- An item is taken up exactly if it can be read. -/
theorem takeItem_eq_ok_iff {cs cs' : Comments} {item : DocItem} :
    takeItem cs item = .ok cs' ↔
      item.IsReadable ∧ cs'.assemblyName = item.name?.or cs.assemblyName ∧
        cs'.entries = item.comment?.elim cs.entries (Comments.place · cs.entries) := by
  cases item with
  | header name =>
    rw [takeItem, Except.ok.injEq]
    constructor
    · rintro rfl
      exact ⟨trivial, rfl, rfl⟩
    · rintro ⟨-, hname, hentries⟩
      exact comments_ext hname.symm hentries.symm
  | member tag ss =>
    rw [takeItem, bind_eq_ok_iff]
    constructor
    · rintro ⟨opened, hopened, hrest⟩
      obtain ⟨key, hkey, rfl⟩ := openComment_eq_ok_iff.mp hopened
      obtain ⟨c, hc, hcs⟩ := bind_eq_ok_iff.mp hrest
      rw [foldlM_takeSection, mapError_eq_ok_iff, Section.foldlM_absorb_eq_ok_iff] at hc
      obtain ⟨hss, rfl⟩ := hc
      obtain rfl := Except.ok.inj hcs
      refine ⟨⟨⟨key, hkey⟩, hss⟩, rfl, ?_⟩
      rw [DocItem.comment?, Tag.value?_of_attribute? hkey]
      rfl
    · rintro ⟨⟨⟨key, hkey⟩, hss⟩, hname, hentries⟩
      refine ⟨_, openComment_eq_ok_iff.mpr ⟨key, hkey, rfl⟩, bind_eq_ok_iff.mpr
        ⟨Section.comment (Text.trim key) ss, ?_, ?_⟩⟩
      · rw [foldlM_takeSection, mapError_eq_ok_iff, Section.foldlM_absorb_eq_ok_iff]
        exact ⟨hss, rfl⟩
      · rw [DocItem.comment?, Tag.value?_of_attribute? hkey] at hentries
        exact congrArg Except.ok (comments_ext hname.symm hentries.symm)

theorem exists_takeItem (cs : Comments) {item : DocItem} (h : item.IsReadable) :
    ∃ cs', takeItem cs item = .ok cs' := by
  cases item with
  | header name => exact ⟨_, rfl⟩
  | member tag ss =>
    exact ⟨cs.insert (Section.comment (Text.trim ((tag.value? "name").getD "")) ss),
      takeItem_eq_ok_iff.mpr ⟨h, rfl, rfl⟩⟩

theorem exists_foldlM_takeItem (cs : Comments) {items : List DocItem}
    (h : ∀ item ∈ items, item.IsReadable) : ∃ cs', items.foldlM takeItem cs = .ok cs' := by
  induction items generalizing cs with
  | nil => exact ⟨cs, rfl⟩
  | cons item items ih =>
    obtain ⟨hitem, hitems⟩ := List.forall_mem_cons.mp h
    obtain ⟨cs', hcs'⟩ := exists_takeItem cs hitem
    rw [List.foldlM_cons, hcs']
    exact ih cs' hitems

/-- Items taken up one after another give the last name and the last comment of each id. -/
theorem foldlM_takeItem_eq_ok_iff {cs : Comments} {items : List DocItem} :
    items.foldlM takeItem .empty = .ok cs ↔
      (∀ item ∈ items, item.IsReadable) ∧
        cs.assemblyName = (items.filterMap DocItem.name?).getLast? ∧
        cs.entries = Comments.latest (items.filterMap DocItem.comment?) := by
  induction items using List.reverseRecOn generalizing cs with
  | nil =>
    constructor
    · intro h
      obtain rfl := Except.ok.inj h
      exact ⟨fun _ h ↦ absurd h List.not_mem_nil, rfl, rfl⟩
    · rintro ⟨-, hname, hentries⟩
      exact congrArg Except.ok (comments_ext hname.symm hentries.symm)
  | append_singleton items item ih =>
    have hnames (before : Option String)
        (h : before = (items.filterMap DocItem.name?).getLast?) :
        item.name?.or before = ((items ++ [item]).filterMap DocItem.name?).getLast? := by
      rw [List.filterMap_append, h]
      cases hname : item.name? <;> simp [hname]
    have hcomments (before : List Comment)
        (h : before = Comments.latest (items.filterMap DocItem.comment?)) :
        item.comment?.elim before (Comments.place · before) =
          Comments.latest ((items ++ [item]).filterMap DocItem.comment?) := by
      rw [List.filterMap_append, h]
      cases hcomment : item.comment? <;> simp [hcomment, Comments.place_latest]
    rw [List.foldlM_append, bind_eq_ok_iff, List.forall_mem_append, List.forall_mem_singleton]
    constructor
    · rintro ⟨before, hbefore, hlast⟩
      obtain ⟨hitems, hname, hentries⟩ := ih.mp hbefore
      obtain ⟨hitem, hname', hentries'⟩ := takeItem_eq_ok_iff.mp (foldlM_singleton .. ▸ hlast)
      exact ⟨⟨hitems, hitem⟩, hname'.trans (hnames _ hname),
        hentries'.trans (hcomments _ hentries)⟩
    · rintro ⟨⟨hitems, hitem⟩, hname', hentries'⟩
      obtain ⟨before, hbefore⟩ := exists_foldlM_takeItem .empty hitems
      obtain ⟨-, hname, hentries⟩ := ih.mp hbefore
      refine ⟨before, hbefore, (foldlM_singleton ..).trans (takeItem_eq_ok_iff.mpr ⟨hitem, ?_, ?_⟩)⟩
      · exact hname'.trans (hnames _ hname).symm
      · exact hentries'.trans (hcomments _ hentries).symm

/-! ### At the top -/

/-- Whether the element at the top has been opened after a node at the top, given whether it has
been before. -/
def topStep (hasRoot : Bool) : Node → Except ReadFault Bool
  | element tag _ _ _ | single tag _ =>
    if hasRoot then .error (.secondRoot tag.name)
    else if tag.name = "doc" then .ok true
    else .error (.wrongRoot tag.name)
  | .text source => if source.all Text.isAsciiBlank then .ok hasRoot else .error .strayText
  | cdata _ => .error .strayText
  | aside _ => .ok hasRoot

theorem enterRoot_eq (hasRoot : Bool) (cs : Comments) (tag : Tag) (source : List Char) :
    State.enterRoot ⟨hasRoot, [], cs, .outline⟩ tag.name =
      (topStep hasRoot (.single tag source)).map fun hasRoot ↦ ⟨hasRoot, [], cs, .outline⟩ := by
  rw [State.enterRoot, topStep]
  split_ifs <;> rfl

/-- A node at the top is checked, and adds the items below it. -/
theorem foldlM_step_top_node (hasRoot : Bool) (cs : Comments) (node : Node) :
    node.tokens.foldlM State.step ⟨hasRoot, [], cs, .outline⟩ =
      topStep hasRoot node >>= fun hasRoot ↦
        (node.innerItems.foldlM takeItem cs).map fun cs ↦ ⟨hasRoot, [], cs, .outline⟩ := by
  match node with
  | element tag opening children closing =>
    have hstep : State.step ⟨hasRoot, [], cs, .outline⟩ ⟨.start tag, opening⟩ =
        State.enterRoot ⟨hasRoot, [], cs, .outline⟩ tag.name >>= fun s ↦
          .ok { s with path := [tag.name] } := rfl
    have htop : topStep hasRoot (element tag opening children closing) =
        topStep hasRoot (.single tag opening) := rfl
    rw [Node.tokens, List.foldlM_cons, hstep, enterRoot_eq hasRoot cs tag opening, htop]
    cases topStep hasRoot (.single tag opening) with
    | error fault => rfl
    | ok hasRoot =>
      change (listTokens children ++ [(⟨.close, closing⟩ : Token)]).foldlM State.step
        ⟨hasRoot, [tag.name], cs, .outline⟩ =
          ((listItems tag.name children).foldlM takeItem cs).map _
      rw [List.foldlM_append, foldlM_step_outline_list]
      cases (listItems tag.name children).foldlM takeItem cs <;> rfl
  | single tag source =>
    have hstep : State.step ⟨hasRoot, [], cs, .outline⟩ ⟨.empty tag, source⟩ =
        State.enterRoot ⟨hasRoot, [], cs, .outline⟩ tag.name := rfl
    rw [Node.tokens, foldlM_singleton, hstep, enterRoot_eq hasRoot cs tag source]
    cases topStep hasRoot (.single tag source) <;> rfl
  | .text source =>
    have hstep : State.step ⟨hasRoot, [], cs, .outline⟩ ⟨.text, source⟩ =
        if true = true ∧ (!source.all Text.isAsciiBlank) = true then .error .strayText
        else .ok ⟨hasRoot, [], cs, .outline⟩ := rfl
    rw [Node.tokens, foldlM_singleton, hstep, topStep]
    cases source.all Text.isAsciiBlank <;> rfl
  | cdata _ | aside _ => rfl

/-- Nodes at the top are checked one after another, and add the items below them. -/
theorem foldlM_step_top_eq_ok_iff {hasRoot : Bool} {cs : Comments} {nodes : List Node}
    {s : State} :
    (listTokens nodes).foldlM State.step ⟨hasRoot, [], cs, .outline⟩ = .ok s ↔
      ∃ hasRoot' cs', nodes.foldlM topStep hasRoot = .ok hasRoot' ∧
        (docItems nodes).foldlM takeItem cs = .ok cs' ∧ s = ⟨hasRoot', [], cs', .outline⟩ := by
  induction nodes generalizing hasRoot cs with
  | nil =>
    constructor
    · intro h
      exact ⟨hasRoot, cs, rfl, rfl, (Except.ok.inj h).symm⟩
    · rintro ⟨_, _, hroot, hcs, rfl⟩
      obtain rfl := Except.ok.inj hroot
      obtain rfl := Except.ok.inj hcs
      rfl
  | cons node nodes ih =>
    have hitems : docItems (node :: nodes) = node.innerItems ++ docItems nodes :=
      List.flatMap_cons ..
    rw [listTokens, List.foldlM_append, foldlM_step_top_node, List.foldlM_cons, hitems,
      List.foldlM_append]
    simp only [bind_eq_ok_iff, map_eq_ok_iff]
    constructor
    · rintro ⟨_, ⟨root, hroot, cs₁, hcs₁, rfl⟩, hrest⟩
      obtain ⟨root', cs', hroot', hcs', rfl⟩ := ih.mp hrest
      exact ⟨root', cs', ⟨root, hroot, hroot'⟩, ⟨cs₁, hcs₁, hcs'⟩, rfl⟩
    · rintro ⟨root', cs', ⟨root, hroot, hroot'⟩, ⟨cs₁, hcs₁, hcs'⟩, rfl⟩
      exact ⟨_, ⟨root, hroot, cs₁, hcs₁, rfl⟩, ih.mpr ⟨root', cs', hroot', hcs', rfl⟩⟩

theorem topStep_eq_ok_iff {hasRoot hasRoot' : Bool} {node : Node} :
    topStep hasRoot node = .ok hasRoot' ↔
      node.IsQuiet ∧
        match node.tag? with
        | some tag => tag.name = "doc" ∧ hasRoot = false ∧ hasRoot' = true
        | none => hasRoot' = hasRoot := by
  have helement (tag : Tag) :
      (if hasRoot then .error (.secondRoot tag.name)
        else if tag.name = "doc" then .ok true
        else .error (.wrongRoot tag.name) : Except ReadFault Bool) = .ok hasRoot' ↔
      tag.name = "doc" ∧ hasRoot = false ∧ hasRoot' = true := by
    split_ifs <;> simp_all [eq_comm]
  match node with
  | element tag _ _ _ | single tag _ =>
    exact (helement tag).trans (and_iff_right trivial).symm
  | .text source =>
    rw [topStep, IsQuiet]
    split_ifs with hblank <;> simp [hblank, tag?, eq_comm]
  | cdata source => exact iff_of_false (fun h ↦ by cases h) And.left
  | aside _ =>
    rw [topStep, Except.ok.injEq, eq_comm]
    exact (and_iff_right trivial).symm

/-- The nodes at the top pass the check exactly if only one of them is an element and the others
are quiet. -/
theorem foldlM_topStep_eq_ok_iff {hasRoot hasRoot' : Bool} {nodes : List Node} :
    nodes.foldlM topStep hasRoot = .ok hasRoot' ↔
      (∀ node ∈ nodes, node.IsQuiet) ∧
        ((nodes.filterMap tag? = [] ∧ hasRoot' = hasRoot) ∨
          (hasRoot = false ∧ hasRoot' = true ∧
            ∃ tag : Tag, nodes.filterMap tag? = [tag] ∧ tag.name = "doc")) := by
  induction nodes generalizing hasRoot with
  | nil => simp [pure, Except.pure, eq_comm]
  | cons node nodes ih =>
    rw [List.foldlM_cons, bind_eq_ok_iff]
    simp only [topStep_eq_ok_iff, ih, List.filterMap_cons, List.forall_mem_cons]
    cases node.tag? with
    | none =>
      constructor
      · rintro ⟨_, ⟨hquiet, rfl⟩, hnodes, hroot⟩
        exact ⟨⟨hquiet, hnodes⟩, hroot⟩
      · rintro ⟨⟨hquiet, hnodes⟩, hroot⟩
        exact ⟨hasRoot, ⟨hquiet, rfl⟩, hnodes, hroot⟩
    | some tag =>
      constructor
      · rintro ⟨_, ⟨hquiet, hdoc, rfl, rfl⟩, hnodes, ⟨hnone, rfl⟩ | ⟨habsurd, -⟩⟩
        · exact ⟨⟨hquiet, hnodes⟩, .inr ⟨rfl, rfl, tag, congrArg (tag :: ·) hnone, hdoc⟩⟩
        · exact absurd habsurd nofun
      · rintro ⟨⟨hquiet, hnodes⟩, ⟨habsurd, -⟩ | ⟨rfl, rfl, root, hroot, hdoc⟩⟩
        · exact absurd habsurd nofun
        · obtain ⟨rfl, hnone⟩ := List.cons.inj hroot
          exact ⟨true, ⟨hquiet, hdoc, rfl, rfl⟩, hnodes, .inl ⟨hnone, rfl⟩⟩

/-! ### Whole files -/

/-- A run gives the state that its steps lead to. -/
theorem exists_run_eq_ok_iff {s s' : State} {position : Nat} {tokens : List Token} :
    (∃ position', s.run position tokens = .ok (s', position')) ↔
      tokens.foldlM State.step s = .ok s' := by
  induction tokens generalizing s position with
  | nil =>
    constructor
    · rintro ⟨position', h⟩
      exact congrArg Except.ok (Prod.mk.inj (Except.ok.inj h)).1
    · intro h
      obtain rfl := Except.ok.inj h
      exact ⟨position, rfl⟩
  | cons t ts ih =>
    rw [List.foldlM_cons, State.run]
    cases s.step t with
    | error fault => exact iff_of_false (fun ⟨_, h⟩ ↦ absurd h nofun) nofun
    | ok s => exact ih

/-- Comments are read from tokens that end with the text, if the steps lead to a state in which the
file may end. -/
theorem ofTokens_eq_ok_iff_finish {tokens : List Token} {ending : Ending} {cs : Comments} :
    Comments.ofTokens tokens ending = .ok cs ↔
      ending = .complete ∧
        ∃ s, tokens.foldlM State.step {} = .ok s ∧ s.finish = .ok cs := by
  rw [Comments.ofTokens, bind_eq_ok_iff]
  constructor
  · rintro ⟨⟨s, position⟩, hrun, hend⟩
    cases ending with
    | fault fault consumed => exact absurd hend nofun
    | complete =>
      exact ⟨rfl, s, exists_run_eq_ok_iff.mp ⟨position, hrun⟩, mapError_eq_ok_iff.mp hend⟩
  · rintro ⟨rfl, s, hsteps, hfinish⟩
    obtain ⟨position, hrun⟩ := exists_run_eq_ok_iff.mpr hsteps
    exact ⟨(s, position), hrun, mapError_eq_ok_iff.mpr hfinish⟩

/-- Comments are read from the tokens of trees exactly if the trees form a documentation file. -/
theorem ofTokens_listTokens_eq_ok_iff {nodes : List Node} {cs : Comments} :
    Comments.ofTokens (listTokens nodes) .complete = .ok cs ↔
      IsDocument nodes ∧
        cs.assemblyName = ((docItems nodes).filterMap DocItem.name?).getLast? ∧
        cs.entries = Comments.latest ((docItems nodes).filterMap DocItem.comment?) := by
  rw [ofTokens_eq_ok_iff_finish, and_iff_right rfl]
  constructor
  · rintro ⟨s, hsteps, hfinish⟩
    obtain ⟨hasRoot, cs', hroot, hitems, rfl⟩ := foldlM_step_top_eq_ok_iff.mp hsteps
    cases hasRoot with
    | false => exact absurd hfinish nofun
    | true =>
      obtain rfl := Except.ok.inj hfinish
      obtain ⟨hquiet, ⟨-, habsurd⟩ | ⟨-, -, hdoc⟩⟩ := foldlM_topStep_eq_ok_iff.mp hroot
      · exact absurd habsurd nofun
      · obtain ⟨hreadable, hname, hentries⟩ := foldlM_takeItem_eq_ok_iff.mp hitems
        exact ⟨⟨hdoc, hquiet, hreadable⟩, hname, hentries⟩
  · rintro ⟨⟨hdoc, hquiet, hreadable⟩, hname, hentries⟩
    have hroot := foldlM_topStep_eq_ok_iff.mpr ⟨hquiet, .inr ⟨rfl, rfl, hdoc⟩⟩
    have hitems := foldlM_takeItem_eq_ok_iff.mpr ⟨hreadable, hname, hentries⟩
    exact ⟨_, foldlM_step_top_eq_ok_iff.mpr ⟨true, cs, hroot, hitems, rfl⟩, rfl⟩

/-! ### Open elements -/

/-- The number of elements that are open where the reader stands, outside those of its path. -/
def Focus.opened : Focus → Nat
  | .outline => 0
  | .member _ => 1
  | .inside .header _ depth _ => depth + 1
  | .inside (.member _) _ depth _ => depth + 2

/-- The number of open elements in a state. -/
def State.opened (s : State) : Nat :=
  s.path.length + s.focus.opened

/-- After a whole node as many elements are open as before it. -/
theorem opened_tokens {s s' : State} (node : Node)
    (h : node.tokens.foldlM State.step s = .ok s') : s'.opened = s.opened := by
  obtain ⟨hasRoot, path, cs, focus⟩ := s
  match focus, path with
  | .outline, [] =>
    obtain ⟨hasRoot', -, hmap⟩ := bind_eq_ok_iff.mp (foldlM_step_top_node .. ▸ h)
    obtain ⟨cs', -, rfl⟩ := map_eq_ok_iff.mp hmap
    rfl
  | .outline, parent :: path =>
    obtain ⟨cs', -, rfl⟩ := map_eq_ok_iff.mp (foldlM_step_outline .. ▸ h)
    rfl
  | .member c, path =>
    obtain ⟨c', -, rfl⟩ := map_eq_ok_iff.mp (foldlM_step_member_node .. ▸ h)
    rfl
  | .inside owner _ depth written, path =>
    obtain rfl := Except.ok.inj (foldlM_step_inside .. ▸ h)
    cases owner <;> rfl

theorem opened_step_start {s s' : State} {tag : Tag} {source : List Char}
    (h : s.step ⟨.start tag, source⟩ = .ok s') : s'.opened = s.opened + 1 := by
  obtain ⟨hasRoot, path, cs, focus⟩ := s
  match focus, path with
  | .outline, [] =>
    obtain ⟨s₁, hroot, hs'⟩ := bind_eq_ok_iff.mp h
    rw [enterRoot_eq hasRoot cs tag source] at hroot
    obtain ⟨hasRoot', -, rfl⟩ := map_eq_ok_iff.mp hroot
    obtain rfl := Except.ok.inj hs'
    rfl
  | .outline, parent :: path =>
    rw [step_start] at h
    split_ifs at h with hmember hname
    · obtain ⟨c, -, rfl⟩ := map_eq_ok_iff.mp h
      rfl
    · obtain rfl := Except.ok.inj h
      rfl
    · obtain rfl := Except.ok.inj h
      rfl
  | .member c, path =>
    obtain rfl := Except.ok.inj h
    rfl
  | .inside owner _ depth written, path =>
    obtain rfl := Except.ok.inj h
    cases owner <;> rfl

theorem opened_step_close {s s' : State} {source : List Char} (hopened : s.opened ≠ 0)
    (h : s.step ⟨.close, source⟩ = .ok s') : s'.opened + 1 = s.opened := by
  obtain ⟨hasRoot, path, cs, focus⟩ := s
  match focus, path with
  | .outline, [] => exact absurd rfl hopened
  | .outline, parent :: path =>
    obtain rfl := Except.ok.inj h
    rfl
  | .member c, path =>
    obtain rfl := Except.ok.inj h
    rfl
  | .inside .header _ 0 written, path =>
    obtain rfl := Except.ok.inj h
    rfl
  | .inside (.member c) tag 0 written, path =>
    obtain ⟨c', -, rfl⟩ := map_eq_ok_iff.mp ((addSection_eq ..).symm.trans h)
    rfl
  | .inside owner _ (depth + 1) written, path =>
    obtain rfl := Except.ok.inj h
    cases owner <;> rfl

/-- A step opens and closes elements as its token does. -/
theorem opened_step {s s' : State} {t : Token} {n : Nat} (hlevel : t.level s.opened = some n)
    (hstep : s.step t = .ok s') : s'.opened = n := by
  obtain ⟨event, source⟩ := t
  have hleaf (node : Node) (hnode : node.tokens = [⟨event, source⟩]) : s'.opened = s.opened :=
    opened_tokens node (by rw [hnode, foldlM_singleton, hstep])
  cases event with
  | start tag =>
    obtain rfl := Option.some.inj hlevel
    exact opened_step_start hstep
  | close =>
    cases hopened : s.opened with
    | zero =>
      rw [hopened] at hlevel
      exact absurd hlevel nofun
    | succ m =>
      rw [hopened] at hlevel
      obtain rfl := Option.some.inj hlevel
      have hclose := opened_step_close (hopened ▸ Nat.succ_ne_zero m) hstep
      exact Nat.succ.inj (hclose.trans hopened)
  | empty tag => exact (hleaf (.single tag source) rfl).trans (Option.some.inj hlevel)
  | text => exact (hleaf (.text source) rfl).trans (Option.some.inj hlevel)
  | cdata => exact (hleaf (.cdata source) rfl).trans (Option.some.inj hlevel)
  | aside => exact (hleaf (.aside source) rfl).trans (Option.some.inj hlevel)

theorem opened_foldlM_step {s s' : State} {tokens : List Token} {n : Nat}
    (hlevel : tokens.foldlM Token.level s.opened = some n)
    (hsteps : tokens.foldlM State.step s = .ok s') : s'.opened = n := by
  induction tokens generalizing s with
  | nil => exact (Except.ok.inj hsteps) ▸ Option.some.inj hlevel
  | cons t ts ih =>
    obtain ⟨s₁, hstep, hsteps⟩ := bind_eq_ok_iff.mp hsteps
    obtain ⟨n₁, hlevel₁, hlevel⟩ := Option.bind_eq_some_iff.mp hlevel
    exact ih (opened_step hlevel₁ hstep ▸ hlevel) hsteps

theorem opened_of_finish {s : State} {cs : Comments} (h : s.finish = .ok cs) : s.opened = 0 := by
  obtain ⟨hasRoot, path, cs', focus⟩ := s
  cases focus with
  | outline =>
    cases path with
    | nil => rfl
    | cons tag path => exact absurd h nofun
  | member c => exact absurd h nofun
  | inside owner tag depth text => exact absurd h nofun

end Reader

/-- Comments are read from matched tokens exactly if the tokens end with the text and form the trees
of a documentation file. They are the comments of the members that the walk through the file meets,
a later one in the place of an earlier one under the same id, with the last name of the assembly. -/
theorem Comments.ofTokens_eq_ok_iff {tokens : List Token} (hmatched : Matched tokens)
    (ending : Ending) (cs : Comments) :
    Comments.ofTokens tokens ending = .ok cs ↔
      ending = .complete ∧ ∃ nodes, Node.listTokens nodes = tokens ∧ Node.IsDocument nodes ∧
        cs.assemblyName = ((Node.docItems nodes).filterMap DocItem.name?).getLast? ∧
        cs.entries = Comments.latest ((Node.docItems nodes).filterMap DocItem.comment?) := by
  constructor
  · intro h
    obtain ⟨rfl, s, hsteps, hfinish⟩ := Reader.ofTokens_eq_ok_iff_finish.mp h
    obtain ⟨n, hlevel⟩ := Option.isSome_iff_exists.mp hmatched
    have hopened : s.opened = n := Reader.opened_foldlM_step (s := {}) hlevel hsteps
    rw [← hopened, Reader.opened_of_finish hfinish] at hlevel
    obtain ⟨nodes, rfl⟩ := exists_listTokens_eq hlevel
    exact ⟨rfl, nodes, rfl, Reader.ofTokens_listTokens_eq_ok_iff.mp h⟩
  · rintro ⟨rfl, nodes, rfl, h⟩
    exact Reader.ofTokens_listTokens_eq_ok_iff.mpr h

/-- A documentation file that has a member twice, a section that holds an element with its own tag,
a self-closing member, and names that are not the name of the assembly. -/
def shapesFile : List Char :=
  ["<doc>", "<assembly>", "<name>", "Old", "</name>", "<name>", " Shapes ", "</name>", "<name/>",
    "</assembly>", "<name>", "Other", "</name>", "<member name=\"T:Box\">", "<summary>", "First",
    "</summary>", "</member>", "<group>", "<member name=\"T:Disc\">", "<para>", "a <para>",
    "b</para>", "\n  c", "</para>", "<param name=\" r \">", "2 &lt; 3", "</param>", "<param/>",
    "</member>", "</group>", "<member name=\" T:Box \"/>", "</doc>", "\n"].flatMap String.toList

/-- The comments of the file. -/
def shapesComments : Comments :=
  .ofList (some "Shapes")
    [{ key := "T:Box" },
      { key := "T:Disc"
        params := [⟨"r", "2 &lt; 3"⟩]
        other := [⟨"para", "a <para>b</para>\nc"⟩] }]

theorem Comments.ofTokens_eq_ok_iff_shapesFile :
    Matched (scanFrom [] shapesFile).1 ∧ (scanFrom [] shapesFile).2 = .complete ∧
      ∃ nodes, Node.listTokens nodes = (scanFrom [] shapesFile).1 ∧ Node.IsDocument nodes ∧
        some "Shapes" = ((Node.docItems nodes).filterMap DocItem.name?).getLast? ∧
        shapesComments.entries =
          Comments.latest ((Node.docItems nodes).filterMap DocItem.comment?) :=
  have hmatched : Matched (scanFrom [] shapesFile).1 := matched_scanFrom shapesFile
  ⟨hmatched, (ofTokens_eq_ok_iff hmatched _ shapesComments).mp (by decide +kernel)⟩

end ApiDocs
