import ApiDocs.Markup.Scanner

/-!
# Trees of markup

Tokens in which every element that is opened is closed again are the tokens of trees. Each node
keeps the characters it was read from, so that the trees hold the whole text.

## Main definitions

* `Markup.Node`, `Markup.Node.listTokens`: markup trees and their tokens.
* `Markup.Node.markup`: the text that nodes were read from.
* `Markup.Matched`: every closing tag stands where an element is open.
* `Markup.Token.turn`: the names of the open elements after a token.

## Main results

* `Markup.exists_listTokens_eq`: tokens after which no element is open form trees.
* `Markup.turn_of_next`: the names that the scanner holds open follow the tokens.
* `Markup.matched_scanFrom`: the tokens of every text are matched.
-/

namespace ApiDocs.Markup

/-- A node of a markup tree, with the characters it was read from. -/
inductive Node where
  /-- An element with its two tags and what stands between them. -/
  | element (tag : Tag) (opening : List Char) (children : List Node) (closing : List Char)
  /-- An element that is only a self-closing tag. -/
  | single (tag : Tag) (source : List Char)
  /-- Text between two tags. -/
  | text (source : List Char)
  /-- A character data section. -/
  | cdata (source : List Char)
  /-- A comment, declaration or processing instruction. -/
  | aside (source : List Char)

namespace Node

mutual

/-- The tokens of a node. -/
def tokens : Node → List Token
  | element tag opening children closing =>
    ⟨.start tag, opening⟩ :: (listTokens children ++ [⟨.close, closing⟩])
  | single tag source => [⟨.empty tag, source⟩]
  | text source => [⟨.text, source⟩]
  | cdata source => [⟨.cdata, source⟩]
  | aside source => [⟨.aside, source⟩]

/-- The tokens of nodes that stand one after another. -/
def listTokens : List Node → List Token
  | [] => []
  | node :: nodes => node.tokens ++ listTokens nodes

end

/-- The tag of an element. -/
def tag? : Node → Option Tag
  | element tag _ _ _ | single tag _ => some tag
  | text _ | cdata _ | aside _ => none

/-- The text that nodes were read from. -/
def markup (nodes : List Node) : List Char :=
  (listTokens nodes).flatMap Token.source

@[simp] theorem markup_nil : markup [] = [] := rfl

theorem listTokens_append (nodes nodes' : List Node) :
    listTokens (nodes ++ nodes') = listTokens nodes ++ listTokens nodes' := by
  induction nodes with
  | nil => rfl
  | cons node nodes ih => rw [List.cons_append, listTokens, listTokens, ih, List.append_assoc]

theorem markup_append (nodes nodes' : List Node) :
    markup (nodes ++ nodes') = markup nodes ++ markup nodes' := by
  rw [markup, listTokens_append, List.flatMap_append, ← markup, ← markup]

end Node

/-! ### Matched tags -/

/-- The number of open elements after a token, given the number before it; `none` if the token
closes an element where none is open. -/
def Token.level (opened : Nat) (t : Token) : Option Nat :=
  match t.event, opened with
  | .start _, n => some (n + 1)
  | .close, 0 => none
  | .close, n + 1 => some n
  | .empty _, n | .text, n | .cdata, n | .aside, n => some n

/-- Every closing tag stands where an element is open. -/
def Matched (tokens : List Token) : Prop :=
  (tokens.foldlM Token.level 0).isSome

/-- The tokens of nodes with the closing tag of an element around them in front. -/
def closedTokens (part : List Char × List Node) : List Token :=
  ⟨.close, part.1⟩ :: Node.listTokens part.2

/-- If no element is open at the end, then nodes stand before the closing tag of each element that
is open at the beginning, and after the last of these tags. -/
theorem exists_closedTokens_eq {tokens : List Token} {opened : Nat}
    (h : tokens.foldlM Token.level opened = some 0) :
    ∃ (nodes : List Node) (parts : List (List Char × List Node)), parts.length = opened ∧
      tokens = Node.listTokens nodes ++ parts.flatMap closedTokens := by
  induction tokens generalizing opened with
  | nil =>
    obtain rfl : opened = 0 := Option.some.inj h
    exact ⟨[], [], rfl, rfl⟩
  | cons t ts ih =>
    rw [List.foldlM_cons, Option.bind_eq_bind, Option.bind_eq_some_iff] at h
    obtain ⟨next, hlevel, hts⟩ := h
    obtain ⟨nodes, parts, hlength, rfl⟩ := ih hts
    obtain ⟨event, source⟩ := t
    -- a leaf goes before the nodes; an opening tag takes the nodes and the first closing tag
    cases event with
    | start tag =>
      obtain rfl : opened + 1 = next := Option.some.inj hlevel
      match parts, hlength with
      | (closing, after) :: parts, hlength =>
        refine ⟨.element tag source nodes closing :: after, parts, Nat.succ.inj hlength, ?_⟩
        simp [Node.listTokens, Node.tokens, closedTokens]
    | close =>
      cases opened with
      | zero => exact absurd hlevel (Option.some_ne_none _).symm
      | succ opened =>
        obtain rfl : opened = next := Option.some.inj hlevel
        exact ⟨[], (source, nodes) :: parts, congrArg Nat.succ hlength, rfl⟩
    | empty tag =>
      obtain rfl : opened = next := Option.some.inj hlevel
      exact ⟨.single tag source :: nodes, parts, hlength, rfl⟩
    | text =>
      obtain rfl : opened = next := Option.some.inj hlevel
      exact ⟨.text source :: nodes, parts, hlength, rfl⟩
    | cdata =>
      obtain rfl : opened = next := Option.some.inj hlevel
      exact ⟨.cdata source :: nodes, parts, hlength, rfl⟩
    | aside =>
      obtain rfl : opened = next := Option.some.inj hlevel
      exact ⟨.aside source :: nodes, parts, hlength, rfl⟩

/-- Tokens after which no element is open are the tokens of trees. -/
theorem exists_listTokens_eq {tokens : List Token} (h : tokens.foldlM Token.level 0 = some 0) :
    ∃ nodes, Node.listTokens nodes = tokens := by
  obtain ⟨nodes, parts, hlength, rfl⟩ := exists_closedTokens_eq h
  obtain rfl := List.eq_nil_of_length_eq_zero hlength
  exact ⟨nodes, (List.append_nil _).symm⟩

/-! ### Tokens of a text -/

/-- The names of the open elements after a token, innermost first, given those before it; `none` if
the token closes an element where none is open. -/
def Token.turn (opened : List String) (t : Token) : Option (List String) :=
  match t.event, opened with
  | .start tag, opened => some (tag.name :: opened)
  | .close, [] => none
  | .close, _ :: opened => some opened
  | .empty _, opened | .text, opened | .cdata, opened | .aside, opened => some opened

/-- The number of open elements is the number of their names. -/
theorem Token.level_length (opened : List String) (t : Token) :
    t.level opened.length = (t.turn opened).map List.length := by
  obtain ⟨event, source⟩ := t
  cases event with
  | close => cases opened <;> rfl
  | start tag | empty tag | text | cdata | aside => rfl

theorem turn_of_tagStep {opened opened' : List String} {content rest rest' : List Char} {t : Token}
    (h : tagStep opened content rest = .token t opened' rest') : t.turn opened = some opened' := by
  unfold tagStep at h
  simp only at h
  split at h
  · split at h
    · exact absurd h nofun
    · split at h
      · obtain ⟨rfl, rfl, -⟩ := Step.token.inj h
        rfl
      · exact absurd h nofun
  · split at h
    all_goals
      obtain ⟨rfl, rfl, -⟩ := Step.token.inj h
      rfl

theorem turn_of_markupStep {σ : Type} {m : Closing σ} {event : Event} {unclosed : Fault}
    {check : List Char → Except Fault Unit} {opened opened' : List String} {cs rest : List Char}
    {t : Token} (hevent : event = .cdata ∨ event = .aside)
    (h : markupStep m event unclosed check opened cs = .token t opened' rest) :
    t.turn opened = some opened' := by
  unfold markupStep at h
  split at h
  · exact absurd h nofun
  · simp only at h
    split at h
    · obtain ⟨rfl, rfl, -⟩ := Step.token.inj h
      rcases hevent with rfl | rfl <;> rfl
    · exact absurd h nofun

/-- The names that the scanner holds open follow the tokens. -/
theorem turn_of_next {opened opened' : List String} {cs rest : List Char} {t : Token}
    (h : next opened cs = .token t opened' rest) : t.turn opened = some opened' := by
  unfold next at h
  split at h
  · exact absurd h nofun
  · split at h
    · unfold bracketStep at h
      split at h
      case h_1 | h_6 => exact absurd h nofun
      case h_2 => exact turn_of_markupStep (.inl rfl) h
      case h_3 | h_4 | h_5 | h_7 => exact turn_of_markupStep (.inr rfl) h
      case h_8 =>
        split at h
        · exact absurd h nofun
        · exact turn_of_tagStep h
    · obtain ⟨rfl, rfl, -⟩ := Step.token.inj h
      rfl

theorem isSome_foldlM_level_scanFrom (opened : List String) (cs : List Char) :
    ((scanFrom opened cs).1.foldlM Token.level opened.length).isSome := by
  fun_induction scanFrom opened cs with
  | case1 => rfl
  | case2 => rfl
  | case3 opened cs t opened' rest hnext _ tokens ending hscan ih =>
    rw [hscan] at ih
    rw [List.foldlM_cons, Token.level_length, turn_of_next hnext]
    exact ih

/-- The tokens of every text are matched. -/
theorem matched_scanFrom (cs : List Char) : Matched (scanFrom [] cs).1 :=
  isSome_foldlM_level_scanFrom [] cs

end ApiDocs.Markup
