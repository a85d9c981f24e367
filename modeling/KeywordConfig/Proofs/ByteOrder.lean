import Mathlib.Data.List.Basic
import Mathlib.Data.String.Basic

namespace KeywordConfig

def utf8 (s : String) : List UInt8 := s.toUTF8.data.toList

theorem utf8_flatMap (s : String) : utf8 s = s.toList.flatMap String.utf8EncodeChar := by
  unfold utf8
  rw [String.toUTF8_eq_toByteArray, ← String.utf8Encode_toList, List.utf8Encode, List.data_toByteArray]

theorem cons_less {a b : Nat} (small : b < 256) (most : a ≤ b) (later : a = b → front < back) :
    UInt8.ofNat a :: front < UInt8.ofNat b :: back := by
  rw [List.cons_lt_cons_iff]
  rcases Nat.lt_or_eq_of_le most with less | rfl
  · exact .inl ((UInt8.ofNat_lt_iff_lt (less.trans small) small).mpr less)
  · exact .inr ⟨rfl, later rfl⟩

theorem encoded_less {c d : Char} (less : c < d) (front back : List UInt8) :
    String.utf8EncodeChar c ++ front < String.utf8EncodeChar d ++ back := by
  have order : c.val.toNat < d.val.toNat := less
  have top : d.val.toNat < 0x110000 := by
    have valid := d.valid
    simp only [UInt32.isValidChar, Nat.isValidChar] at valid
    omega
  unfold String.utf8EncodeChar
  generalize c.val.toNat = v at order
  generalize d.val.toNat = w at order top
  dsimp only
  -- a longer encoding begins with a greater byte; of two that are as long, the first bytes that differ decide
  repeat' split
  all_goals
    simp only [List.cons_append, List.nil_append]
    repeat first | omega | refine cons_less (by omega) (by omega) fun _ => ?_

theorem encoded_filled (c : Char) (cs : List Char) : [] < (c :: cs).flatMap String.utf8EncodeChar := by
  rw [List.flatMap_cons]
  obtain ⟨byte, more, same⟩ := List.exists_cons_of_ne_nil (String.utf8EncodeChar_ne_nil (c := c))
  rw [same, List.cons_append]
  exact List.nil_lt_cons _ _

theorem chars_less {cs ds : List Char} (less : cs < ds) :
    cs.flatMap String.utf8EncodeChar < ds.flatMap String.utf8EncodeChar := by
  induction less with
  | nil => exact encoded_filled _ _
  | rel less =>
      rw [List.flatMap_cons, List.flatMap_cons]
      exact encoded_less less _ _
  | cons _ ih =>
      rw [List.flatMap_cons, List.flatMap_cons]
      exact List.append_left_lt ih

theorem less_bytes {s t : String} : s < t ↔ utf8 s < utf8 t := by
  have forth {s t : String} (less : s < t) : utf8 s < utf8 t := by
    rw [utf8_flatMap, utf8_flatMap]
    exact chars_less (String.lt_iff_toList_lt.mp less)
  refine ⟨forth, fun less => ?_⟩
  rcases lt_trichotomy s t with before | rfl | behind
  · exact before
  · exact absurd less (List.lt_irrefl _)
  · exact absurd less (List.lt_asymm (forth behind))

theorem le_bytes {s t : String} : s ≤ t ↔ utf8 s ≤ utf8 t := not_lt.symm.trans (not_congr less_bytes)

end KeywordConfig
