import ApiDocs.Text.Blank

/-!
# Lines of section text

The text of a documentation section is written with the indentation of the file it stands in.
Normalising it trims every line and leaves out the blank ones, so that a carriage return before a
line feed, as any other blank at a line's end, leaves no trace.

## Main definitions

* `Text.lines`: the lines of a text, divided at line feeds.
* `Text.normalize`: the trimmed lines that are not empty, joined again.
-/

namespace ApiDocs.Text

/-- Divides a list of characters at every `sep`; the parts hold no `sep`. -/
def divide (sep : Char) : List Char → List (List Char)
  | [] => [[]]
  | c :: cs =>
    if c = sep then
      [] :: divide sep cs
    else
      match divide sep cs with
      | [] => [[c]]
      | part :: parts => (c :: part) :: parts

/-- There is at least one part. -/
theorem exists_divide_eq (sep : Char) (cs : List Char) :
    ∃ part parts, divide sep cs = part :: parts := by
  cases cs with
  | nil => exact ⟨[], [], rfl⟩
  | cons c cs =>
    rw [divide]
    split
    · exact ⟨[], _, rfl⟩
    · cases divide sep cs with
      | nil => exact ⟨[c], [], rfl⟩
      | cons part parts => exact ⟨c :: part, parts, rfl⟩

theorem intercalate_cons_eq (sep part : List Char) (parts : List (List Char)) :
    List.intercalate sep (part :: parts) = part ++ parts.flatMap (sep ++ ·) := by
  induction parts generalizing part with
  | nil => simp
  | cons part' parts ih =>
    rw [List.intercalate_cons_cons, ih, List.flatMap_cons, List.append_assoc, List.append_assoc]

/-- The lines of a text, without the line feeds between them. -/
def lines (cs : List Char) : List (List Char) :=
  divide '\n' cs

/-- The trimmed lines that are not empty, with one line feed between two of them. -/
def normalizeChars (cs : List Char) : List Char :=
  List.intercalate ['\n'] (((lines cs).map trimChars).filter fun line ↦ !line.isEmpty)

/-- Section text without indentation, blank lines and blanks at the ends of lines. -/
def normalize (s : String) : String :=
  String.ofList (normalizeChars s.toList)

end ApiDocs.Text
