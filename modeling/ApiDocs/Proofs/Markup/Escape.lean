import ApiDocs.Markup.Attribute
import ApiDocs.Proofs.Markup.Content

/-!
# Written attributes

A value is written between quotes with the characters that have a meaning in markup as references.
Reading the attribute resolves the references and gives the value back.

## Main definitions

* `Markup.escape`: a value with references.
* `Markup.attributeText`: an attribute as it is written after the name in a tag.

## Main results

* `Markup.unescape_escape`: the references of a written value resolve to the value.
* `Markup.attribute?_attributeText`: the written attribute of a tag is read.
-/

namespace ApiDocs.Markup

/-! ### References -/

/-- The name by which a character with a meaning in markup is referred to. -/
def entityName? : Char → Option (List Char)
  | '<' => some "lt".toList
  | '>' => some "gt".toList
  | '&' => some "amp".toList
  | '\'' => some "apos".toList
  | '"' => some "quot".toList
  | _ => none

/-- A character in a value: itself, or a reference to it. -/
def escapeChar (c : Char) : List Char :=
  match entityName? c with
  | some name => '&' :: (name ++ [';'])
  | none => [c]

/-- A value with references. -/
def escape (cs : List Char) : List Char :=
  cs.flatMap escapeChar

/-- The name of a character refers to it. -/
theorem resolve_entityName? {c : Char} {name : List Char} (h : entityName? c = some name)
    (start : Nat) : resolve start name = .ok c := by
  unfold entityName? at h
  split at h
  case h_6 => exact absurd h nofun
  all_goals
    obtain rfl := Option.some.inj h
    rfl

theorem isLower_of_mem_entityName? {c d : Char} {name : List Char} (h : entityName? c = some name)
    (hd : d ∈ name) : d.isLower = true := by
  have hnames : ∀ name ∈ ["lt", "gt", "amp", "apos", "quot"],
      name.toList.all Char.isLower = true := by decide
  unfold entityName? at h
  split at h
  case h_6 => exact absurd h nofun
  all_goals
    obtain rfl := Option.some.inj h
    exact List.all_eq_true.mp (hnames _ (by decide)) d hd

/-- A character without a name has no meaning in values. -/
theorem notMem_of_entityName? {c : Char} (h : entityName? c = none) : c ∉ ['&', '"'] := by
  have hnames : ['&', '"'].all (fun c ↦ (entityName? c).isSome) = true := by decide
  intro hc
  have hsome := List.all_eq_true.mp hnames c hc
  rw [h] at hsome
  exact absurd hsome (by decide)

theorem unescapeFrom_reference {c : Char} {name : List Char} (h : entityName? c = some name)
    (total start : Nat) (rest : List Char) :
    unescapeFrom total start ('&' :: (name ++ ';' :: rest)) =
      (unescapeFrom total (start + Text.byteCount name + 2) rest).map (c :: ·) := by
  have hname (d : Char) (hd : d ∈ name) : (!endsReference d) = true := by
    have hlower := isLower_of_mem_entityName? h hd
    rw [endsReference, Bool.not_eq_true', Bool.or_eq_false_iff, beq_eq_false_iff_ne,
      beq_eq_false_iff_ne]
    constructor <;> (rintro rfl; exact absurd hlower (by decide))
  have htake : (name ++ ';' :: rest).takeWhile (fun c ↦ !endsReference c) = name := by
    rw [List.takeWhile_append_of_pos hname, List.takeWhile_cons_of_neg (by decide),
      List.append_nil]
  have hdrop : (name ++ ';' :: rest).dropWhile (fun c ↦ !endsReference c) = ';' :: rest := by
    rw [List.dropWhile_append_of_pos hname, List.dropWhile_cons_of_neg (by decide)]
  rw [unescapeFrom]
  simp only [htake, resolve_entityName? h]
  split
  · rename_i rest' heq
    obtain rfl : rest = rest' := (List.cons.inj (hdrop.symm.trans heq)).2
    cases unescapeFrom total (start + Text.byteCount name + 2) rest <;> rfl
  · rename_i hnone
    exact absurd hdrop (hnone rest)

theorem unescapeFrom_cons {c : Char} (h : c ≠ '&') (total start : Nat) (rest : List Char) :
    unescapeFrom total start (c :: rest) =
      (unescapeFrom total (start + c.utf8Size) rest).map (c :: ·) := by
  rw [unescapeFrom.eq_3 total start c rest h]
  cases unescapeFrom total (start + c.utf8Size) rest <;> rfl

theorem unescapeFrom_escape (total start : Nat) (cs : List Char) :
    unescapeFrom total start (escape cs) = .ok cs := by
  induction cs generalizing start with
  | nil => rw [escape, List.flatMap_nil, unescapeFrom]
  | cons c cs ih =>
    rw [escape, List.flatMap_cons, ← escape, escapeChar]
    cases h : entityName? c with
    | some name =>
      simp only [List.cons_append, List.append_assoc, List.nil_append]
      rw [unescapeFrom_reference h, ih]
      rfl
    | none =>
      have hc : c ≠ '&' := fun heq ↦ notMem_of_entityName? h (heq ▸ List.mem_cons_self)
      simp only [List.singleton_append]
      rw [unescapeFrom_cons hc, ih]
      rfl

/-- The references of a written value resolve to the value. -/
theorem unescape_escape (cs : List Char) : unescape (escape cs) = .ok cs :=
  unescapeFrom_escape _ _ cs

/-- A written value holds no quote. -/
theorem quote_notMem_escape (cs : List Char) : '"' ∉ escape cs := by
  rw [escape, List.mem_flatMap]
  rintro ⟨c, -, hc⟩
  rw [escapeChar] at hc
  cases h : entityName? c with
  | some name =>
    have hquote : '"' ∈ name := by simpa [h] using hc
    exact absurd (isLower_of_mem_entityName? h hquote) (by decide)
  | none =>
    rw [h, List.mem_singleton] at hc
    exact notMem_of_entityName? h (by simp [← hc])

/-! ### Attributes -/

/-- An attribute as it is written after the name in a tag. -/
def attributeText (key value : List Char) : List Char :=
  ' ' :: (key ++ '=' :: '"' :: (escape value ++ ['"']))

variable {name key : List Char}

theorem attributes_attributeText (hkey : isName key = true) (value : List Char) :
    Attributes (attributeText key value) := by
  have hblank : ∀ c ∈ ([] : List Char), isSpace c = true := nofun
  have hbefore : ∀ c ∈ [' '], isSpace c = true := List.forall_mem_singleton.mpr rfl
  exact .cons (List.cons_ne_nil ' ' []) hbefore hkey hblank hblank (.inl rfl)
    (quote_notMem_escape value) (.blank hblank)

theorem isKeyChar_of_isNameChar {c : Char} (h : isNameChar c = true) : isKeyChar c = true := by
  have hequals : c ≠ '=' := fun heq ↦ notMem_tagSigns h (heq ▸ by decide)
  rw [isKeyChar, isSpace_of_isNameChar h, bne_iff_ne.mpr hequals]
  rfl

theorem skipSpaces_cons {c : Char} (h : isSpace c = false) (place : Nat) (cs : List Char) :
    skipSpaces place (c :: cs) = (place, c :: cs) := by
  have hc : ¬isSpace c = true := by simp [h]
  rw [skipSpaces, List.takeWhile_cons_of_neg hc, List.dropWhile_cons_of_neg hc]
  rfl

theorem attributeValue_escape (place : Nat) (value : List Char) :
    ∃ stop, attributeValue place ('"' :: (escape value ++ ['"'])) =
      .ok (escape value, stop, []) := by
  have hchars (c : Char) (hc : c ∈ escape value) : (c != '"') = true :=
    bne_iff_ne.mpr fun heq ↦ quote_notMem_escape value (heq ▸ hc)
  have htake : (escape value ++ ['"']).takeWhile (· != '"') = escape value := by
    rw [List.takeWhile_append_of_pos hchars, List.takeWhile_cons_of_neg (by decide),
      List.append_nil]
  have hdrop : (escape value ++ ['"']).dropWhile (· != '"') = ['"'] := by
    rw [List.dropWhile_append_of_pos hchars, List.dropWhile_cons_of_neg (by decide)]
  rw [attributeValue, if_pos (.inl rfl)]
  simp only [htake, hdrop]
  exact ⟨_, rfl⟩

theorem attributeAt_escape {c : Char} {cs : List Char} (h : ∀ d ∈ cs, isNameChar d = true)
    (place : Nat) (value : List Char) :
    ∃ stop, attributeAt [] place c (cs ++ '=' :: '"' :: (escape value ++ ['"'])) =
      .ok (⟨c :: cs, place, escape value⟩, stop, []) := by
  have hchars (d : Char) (hd : d ∈ cs) := isKeyChar_of_isNameChar (h d hd)
  obtain ⟨stop, hvalue⟩ := attributeValue_escape (place + Text.byteCount (c :: cs) + 1) value
  refine ⟨stop, ?_⟩
  rw [attributeAt, List.takeWhile_append_of_pos hchars, List.dropWhile_append_of_pos hchars,
    List.takeWhile_cons_of_neg (by decide), List.dropWhile_cons_of_neg (by decide),
    List.append_nil, skipSpaces_cons (by decide)]
  simp only [List.find?_nil, skipSpaces_cons (show isSpace '"' = false by decide), hvalue]
  rfl

theorem attributesFrom_of_attributeAt {seen : List Attribute} {place stop : Nat}
    {cs tail rest : List Char} {c : Char} {a : Attribute} (h : cs.dropWhile isSpace = c :: tail)
    (h' : attributeAt seen (skipSpaces place cs).1 c tail = .ok (a, stop, rest)) :
    attributesFrom seen place cs =
      (a :: (attributesFrom (a :: seen) stop rest).1,
        (attributesFrom (a :: seen) stop rest).2) := by
  rw [attributesFrom]
  split
  case h_1 heq => cases h.symm.trans heq
  case h_2 heq =>
    obtain ⟨rfl, rfl⟩ := List.cons.inj (h.symm.trans heq)
    split
    case h_1 heq' => cases h'.symm.trans heq'
    case h_2 heq' =>
      cases h'.symm.trans heq'
      rfl

/-- The attributes of a tag with one written attribute. -/
theorem attributes_mk (hname : isName name = true) (hkey : isName key = true)
    (value : List Char) : ∃ place, (Tag.mk (name ++ attributeText key value)).attributes =
      ([⟨key, place, escape value⟩], none) := by
  have hchars (c : Char) (hc : c ∈ name) : (!isSpace c) = true := by
    rw [isSpace_of_isNameChar (isNameChar_of_mem hname hc), Bool.not_false]
  have hcontent : (name ++ attributeText key value).dropWhile (fun c ↦ !isSpace c) =
      attributeText key value := by
    rw [List.dropWhile_append_of_pos hchars, attributeText,
      List.dropWhile_cons_of_neg (by decide)]
  obtain ⟨c, cs, rfl, hc⟩ := exists_cons_of_isName hkey
  have hkeyStart : (attributeText (c :: cs) value).dropWhile isSpace =
      c :: (cs ++ '=' :: '"' :: (escape value ++ ['"'])) := by
    rw [attributeText, List.dropWhile_cons_of_pos (by decide), List.cons_append,
      List.dropWhile_cons_of_neg (by simp [isSpace_of_isNameChar hc])]
  have hcs (d : Char) (hd : d ∈ cs) : isNameChar d = true :=
    isNameChar_of_mem hkey (List.mem_cons_of_mem c hd)
  obtain ⟨stop, hfirst⟩ := attributeAt_escape hcs _ value
  rw [Tag.attributes, hcontent, attributesFrom_of_attributeAt hkeyStart hfirst, attributesFrom]
  exact ⟨_, rfl⟩

/-- The written attribute of a tag is read. -/
theorem attribute?_attributeText (hname : isName name = true) (hkey : isName key = true)
    (value : List Char) :
    (Tag.mk (name ++ attributeText key value)).attribute? (String.ofList key) =
      .ok (some (String.ofList value)) := by
  obtain ⟨place, hattributes⟩ := attributes_mk hname hkey value
  rw [Tag.attribute?, hattributes]
  simp only [String.toList_ofList, List.find?_cons, BEq.rfl, unescape_escape]
  rfl

end ApiDocs.Markup
