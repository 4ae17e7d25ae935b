-- The order of texts by their characters is that of their bytes in UTF-8.

namespace Palette

variable {a b : String} {c d : Char} {cs ds : List Char} {rest rest' : List UInt8}

theorem char_toNat_lt (c : Char) : c.val.toNat < 0x110000 := by
  have h := c.valid
  simp only [UInt32.isValidChar, Nat.isValidChar] at h
  omega

-- A first byte tells how long an encoding is, and of two lengths the greater one has the greater
-- first bytes. In encodings of the same length the number of the character is spread over the bytes
-- from the greatest part of it to the least.
theorem utf8EncodeChar_append_lt (h : c < d) :
    String.utf8EncodeChar c ++ rest < String.utf8EncodeChar d ++ rest' := by
  have hv : c.val.toNat < d.val.toNat := h
  have hd := char_toNat_lt d
  -- Six bits at a time, as the bytes behind the first one have them.
  have sq k : k / 4096 = k / 64 / 64 := by omega
  have cube k : k / 262144 = k / 64 / 64 / 64 := by omega
  unfold String.utf8EncodeChar
  generalize c.val.toNat = m at hv
  generalize d.val.toNat = n at hv hd
  dsimp only
  repeat' split
  all_goals
    simp only [List.cons_append, List.nil_append, List.cons_lt_cons_iff, UInt8.lt_iff_toNat_lt,
      ← UInt8.toNat_inj, UInt8.toNat_ofNat', sq, cube]
    omega

theorem flatMap_utf8EncodeChar_lt (h : cs < ds) :
    cs.flatMap String.utf8EncodeChar < ds.flatMap String.utf8EncodeChar := by
  induction (h : List.Lex (· < ·) cs ds)
  case rel h    => exact utf8EncodeChar_append_lt h
  case cons ih  => exact List.append_left_lt ih
  case nil c ds =>
    cases he : (c :: ds).flatMap String.utf8EncodeChar
    case nil  => simp at he
    case cons => exact .nil

-- The bytes of a text.
def utf8Bytes (s : String) : List UInt8 :=
  s.toUTF8.data.toList

theorem utf8Bytes_eq (s : String) : utf8Bytes s = s.toList.flatMap String.utf8EncodeChar := by
  rw [utf8Bytes, String.toUTF8_eq_toByteArray, ← String.utf8Encode_toList, List.utf8Encode,
    List.data_toByteArray]

theorem utf8Bytes_lt (h : a < b) : utf8Bytes a < utf8Bytes b := by
  rw [utf8Bytes_eq, utf8Bytes_eq]
  exact flatMap_utf8EncodeChar_lt h

theorem utf8Bytes_le : utf8Bytes a ≤ utf8Bytes b ↔ a ≤ b := by
  constructor
  case mp  => exact fun h hl => h <| utf8Bytes_lt hl
  case mpr =>
    intro h
    by_cases hl : a < b
    · exact List.le_of_lt <| utf8Bytes_lt hl
    · rw [String.le_antisymm h <| String.not_lt.mp hl]
      exact List.le_refl _

end Palette
