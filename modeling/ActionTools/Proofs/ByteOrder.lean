/-!
# Texts in the order of their bytes

Texts are compared by the code points of their characters. File systems and other tools compare the
bytes that encode them. The two orders are the same, since the encoding of a character starts with
the larger byte the more bytes it has, and shows the digits of the code point, the greatest first
(`utf8EncodeChar_append_lt`). That what follows does not matter as soon as two characters differ
carries the comparison over to texts (`utf8Bytes_lt`).
-/

namespace ActionTools

/-- The bytes that encode a text. -/
def utf8Bytes (text : String) : List UInt8 := text.toUTF8.data.toList

/-- The bytes of a text are those of its characters, one after another. -/
theorem utf8Bytes_eq_flatMap (text : String) :
    utf8Bytes text = text.toList.flatMap String.utf8EncodeChar := by
  rw [utf8Bytes, String.toUTF8_eq_toByteArray, ← String.utf8Encode_toList]
  exact List.toList_data_toByteArray

/-! ### Characters -/

/-- The first bytes decide, unless they are the same. -/
theorem ofNat_cons_lt {a b : Nat} {s t : List UInt8} (hb : b < 256) (hab : a ≤ b)
    (h : a = b → s < t) : UInt8.ofNat a :: s < UInt8.ofNat b :: t := by
  rw [List.cons_lt_cons_iff]
  rcases Nat.lt_or_eq_of_le hab with hlt | rfl
  · refine .inl ?_
    rw [UInt8.lt_iff_toNat_lt, UInt8.toNat_ofNat_of_lt' (Nat.lt_of_le_of_lt hab hb),
      UInt8.toNat_ofNat_of_lt' hb]
    exact hlt
  · exact .inr ⟨rfl, h rfl⟩

/-- **The lesser character has the lesser bytes**, whatever follows. -/
theorem utf8EncodeChar_append_lt {c d : Char} (h : c < d) (s t : List UInt8) :
    String.utf8EncodeChar c ++ s < String.utf8EncodeChar d ++ t := by
  have hlt : c.val.toNat < d.val.toNat := UInt32.lt_iff_toNat_lt.1 h
  have hbound : d.val.toNat < 0x110000 := by
    have hvalid := d.valid
    simp only [UInt32.isValidChar, Nat.isValidChar] at hvalid
    omega
  simp only [String.utf8EncodeChar]
  generalize c.val.toNat = v at hlt
  generalize d.val.toNat = w at hlt hbound
  -- As soon as `w` has more bytes than `v` its first byte is larger. Else the digits decide.
  split
  case isTrue hv =>
    split
    case isTrue => exact ofNat_cons_lt (by omega) (by omega) (by omega)
    case isFalse =>
      split
      case isTrue => exact ofNat_cons_lt (by omega) (by omega) (by omega)
      case isFalse =>
        split
        case isTrue => exact ofNat_cons_lt (by omega) (by omega) (by omega)
        case isFalse => exact ofNat_cons_lt (by omega) (by omega) (by omega)
  case isFalse hv =>
    rw [if_neg (show ¬ w ≤ 0x7f by omega)]
    split
    case isTrue hv' =>
      split
      case isTrue =>
        refine ofNat_cons_lt (by omega) (by omega) fun hfirst ↦ ?_
        exact ofNat_cons_lt (by omega) (by omega) (by omega)
      case isFalse =>
        split
        case isTrue => exact ofNat_cons_lt (by omega) (by omega) (by omega)
        case isFalse => exact ofNat_cons_lt (by omega) (by omega) (by omega)
    case isFalse hv' =>
      rw [if_neg (show ¬ w ≤ 0x7ff by omega)]
      split
      case isTrue hv'' =>
        split
        case isTrue =>
          refine ofNat_cons_lt (by omega) (by omega) fun hfirst ↦ ?_
          refine ofNat_cons_lt (by omega) (by omega) fun hsecond ↦ ?_
          exact ofNat_cons_lt (by omega) (by omega) (by omega)
        case isFalse => exact ofNat_cons_lt (by omega) (by omega) (by omega)
      case isFalse hv'' =>
        rw [if_neg (show ¬ w ≤ 0xffff by omega)]
        refine ofNat_cons_lt (by omega) (by omega) fun hfirst ↦ ?_
        refine ofNat_cons_lt (by omega) (by omega) fun hsecond ↦ ?_
        refine ofNat_cons_lt (by omega) (by omega) fun hthird ↦ ?_
        exact ofNat_cons_lt (by omega) (by omega) (by omega)

/-! ### Texts -/

/-- **The bytes of texts are ordered as their characters are.** Texts that differ first in some
character differ there in their bytes, and in the same direction. -/
theorem flatMap_utf8EncodeChar_lt {cs ds : List Char} (h : cs < ds) :
    cs.flatMap String.utf8EncodeChar < ds.flatMap String.utf8EncodeChar := by
  induction ds generalizing cs with
  | nil => exact absurd h (List.not_lt_nil cs)
  | cons d ds ih =>
    rw [List.flatMap_cons]
    cases cs with
    | nil =>
      obtain ⟨byte, bytes, hbytes⟩ := List.exists_cons_of_ne_nil
        (String.utf8EncodeChar_ne_nil (c := d))
      rw [hbytes]
      exact List.nil_lt_cons _ _
    | cons c cs =>
      rw [List.flatMap_cons]
      rcases List.cons_lt_cons_iff.1 h with hlt | ⟨rfl, hrest⟩
      · exact utf8EncodeChar_append_lt hlt _ _
      · exact List.append_left_lt (ih hrest)

/-- **Texts are in the order of their bytes.** -/
theorem utf8Bytes_lt {a b : String} (h : a < b) : utf8Bytes a < utf8Bytes b := by
  rw [utf8Bytes_eq_flatMap, utf8Bytes_eq_flatMap]
  exact flatMap_utf8EncodeChar_lt h

end ActionTools
