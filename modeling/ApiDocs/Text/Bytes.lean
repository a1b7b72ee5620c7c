/-!
# Characters in bytes

The UTF-8 form of characters is recognised in bytes that need not be UTF-8 throughout: a byte that
is part of no character stands for itself, and reading goes on after it.

## Main definitions

* `Text.units`: the characters in bytes, with `none` for each byte between them.

## Main results

* `Text.units_toUTF8`: the bytes of a text give its characters and nothing else.
-/

namespace ApiDocs.Text

/-- The characters in bytes from a position on, with `none` for each byte that is part of no
character. -/
def unitsFrom (data : ByteArray) (start : Nat) : List (Option Char) :=
  if start < data.size then
    match data.utf8DecodeChar? start with
    | some c => some c :: unitsFrom data (start + c.utf8Size)
    | none => none :: unitsFrom data (start + 1)
  else
    []
termination_by data.size - start
decreasing_by
  · have := c.utf8Size_pos
    omega
  · omega

/-- The characters in bytes, with `none` for each byte that is part of no character. -/
def units (data : ByteArray) : List (Option Char) :=
  unitsFrom data 0

/-- Bytes that end in the UTF-8 form of characters give these characters from there on. -/
theorem unitsFrom_eq_map_some (data : ByteArray) (cs : List Char) (start : Nat)
    (h : data.extract start data.size = cs.utf8Encode) : unitsFrom data start = cs.map some := by
  have hsize := congrArg ByteArray.size h
  rw [ByteArray.size_extract, Nat.min_self] at hsize
  induction cs generalizing start with
  | nil =>
    rw [List.utf8Encode_nil, ByteArray.size_empty] at hsize
    rw [unitsFrom, if_neg (by omega), List.map_nil]
  | cons c cs ih =>
    have hpos := c.utf8Size_pos
    have hc : [c].utf8Encode.size = c.utf8Size := by simp [List.utf8Encode_singleton]
    have hcons := List.utf8Encode_cons (c := c) (l := cs)
    rw [hcons, ByteArray.size_append, hc] at hsize
    have hread : data.utf8DecodeChar? start = some c := by
      rw [ByteArray.utf8DecodeChar?_eq_utf8DecodeChar?_extract, h,
        List.utf8DecodeChar?_utf8Encode_cons]
    have hrest : data.extract (start + c.utf8Size) data.size = cs.utf8Encode :=
      calc data.extract (start + c.utf8Size) data.size
          = (data.extract start data.size).extract c.utf8Size (data.size - start) := by
            rw [ByteArray.extract_extract, Nat.min_eq_right (by omega)]
        _ = cs.utf8Encode := by
            rw [h, hcons]
            exact ByteArray.extract_append_eq_right hc.symm (by omega)
    rw [unitsFrom, if_pos (by omega), hread]
    simp only [ih _ hrest (by omega), List.map_cons]

/-- The bytes of a text give its characters. -/
theorem units_toUTF8 (s : String) : units s.toUTF8 = s.toList.map some :=
  unitsFrom_eq_map_some _ _ 0 (ByteArray.extract_zero_size.trans String.utf8Encode_toList.symm)

end ApiDocs.Text
