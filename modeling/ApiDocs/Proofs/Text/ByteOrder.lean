import Mathlib.Data.String.Basic

/-!
# The order of texts by bytes

Names and signatures are put in the order of their UTF-8 bytes. UTF-8 keeps the order of characters:
the form of a character is smaller, byte by byte, than that of a greater one, and it is never the
beginning of it. The order by bytes is therefore the order by characters.

## Main definitions

* `Text.bytes`: the UTF-8 bytes of a text.

## Main results

* `Text.bytes_lt_bytes_iff`, `Text.bytes_le_bytes_iff`: the order by bytes is the order of texts.
-/

namespace ApiDocs.Text

/-- The UTF-8 bytes of a text. -/
def bytes (s : String) : List UInt8 :=
  s.toUTF8.data.toList

theorem bytes_eq_flatMap (s : String) : bytes s = s.toList.flatMap String.utf8EncodeChar := by
  have hdata : s.toUTF8.data = (s.toList.flatMap String.utf8EncodeChar).toArray := by
    rw [← List.data_toByteArray]
    exact congrArg ByteArray.data String.utf8Encode_toList.symm
  rw [bytes, hdata, List.toList_toArray]

/-- The form of a character is smaller than that of a greater one, whatever follows them. -/
theorem utf8EncodeChar_append_lt {c d : Char} (h : c < d) (x y : List UInt8) :
    String.utf8EncodeChar c ++ x < String.utf8EncodeChar d ++ y := by
  have hlt : c.val.toNat < d.val.toNat := h
  have hd : d.val.toNat < 0x110000 := by
    have := d.valid
    unfold UInt32.isValidChar Nat.isValidChar at this
    omega
  unfold String.utf8EncodeChar
  simp only
  generalize c.val.toNat = v at *
  generalize d.val.toNat = w at *
  -- of the digits to base 64, the first that differ decide
  have hlow : v / 64 < w / 64 ∨ v / 64 = w / 64 ∧ v % 64 < w % 64 := by omega
  have hmiddle : v / 64 ≤ w / 64 → v / 4096 < w / 4096 ∨
      v / 4096 = w / 4096 ∧ (v / 64 % 64 < w / 64 % 64 ∨ v / 64 = w / 64) := by omega
  have hhigh : v / 4096 ≤ w / 4096 → v / 262144 < w / 262144 ∨
      v / 262144 = w / 262144 ∧ (v / 4096 % 64 < w / 4096 % 64 ∨ v / 4096 = w / 4096) := by omega
  split_ifs <;>
    simp only [List.cons_append, List.nil_append, List.cons_lt_cons_iff, UInt8.lt_iff_toNat_lt,
      ← UInt8.toNat_inj, UInt8.toNat_ofNat'] <;>
    simp (disch := omega) only [Nat.mod_eq_of_lt] <;> omega

theorem utf8EncodeChar_ne_nil (c : Char) : String.utf8EncodeChar c ≠ [] := by
  unfold String.utf8EncodeChar
  simp only
  split_ifs <;> exact List.cons_ne_nil _ _

theorem append_lt_append_left_iff (bs x y : List UInt8) : bs ++ x < bs ++ y ↔ x < y := by
  induction bs with
  | nil => rfl
  | cons b bs ih => simp [ih]

theorem flatMap_utf8EncodeChar_lt_iff (cs ds : List Char) :
    cs.flatMap String.utf8EncodeChar < ds.flatMap String.utf8EncodeChar ↔ cs < ds := by
  induction cs generalizing ds with
  | nil =>
    cases ds with
    | nil => simp
    | cons d ds =>
      obtain ⟨b, bs, hb⟩ := List.exists_cons_of_ne_nil (utf8EncodeChar_ne_nil d)
      simp [hb]
  | cons c cs ih =>
    cases ds with
    | nil => simp
    | cons d ds =>
      rw [List.flatMap_cons, List.flatMap_cons, List.cons_lt_cons_iff]
      rcases lt_trichotomy c d with hlt | rfl | hgt
      · exact iff_of_true (utf8EncodeChar_append_lt hlt _ _) (Or.inl hlt)
      · have hirrefl : ¬ c < c := lt_irrefl c
        rw [append_lt_append_left_iff, ih]
        simp only [hirrefl, true_and, false_or]
      · have hgt' := utf8EncodeChar_append_lt hgt (ds.flatMap String.utf8EncodeChar)
          (cs.flatMap String.utf8EncodeChar)
        refine iff_of_false (List.lt_asymm hgt') ?_
        rintro (hlt | ⟨rfl, -⟩)
        · exact lt_asymm hgt hlt
        · exact lt_irrefl c hgt

theorem bytes_lt_bytes_iff (s t : String) : bytes s < bytes t ↔ s < t := by
  rw [bytes_eq_flatMap, bytes_eq_flatMap, flatMap_utf8EncodeChar_lt_iff, String.lt_iff_toList_lt]

/-- The order by bytes is the order of texts. -/
theorem bytes_le_bytes_iff (s t : String) : bytes s ≤ bytes t ↔ s ≤ t := by
  rw [bytes_eq_flatMap, bytes_eq_flatMap, String.le_iff_toList_le, ← List.not_lt, ← not_lt,
    flatMap_utf8EncodeChar_lt_iff]

end ApiDocs.Text
