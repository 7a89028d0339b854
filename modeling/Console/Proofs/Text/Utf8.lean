import Console.Text.Lines
import Mathlib.Data.List.Basic

/-!
# UTF-8

Reading the bytes of a text gives the text. A line feed is a byte of its own, which is part of no
other character, so that bytes can be cut behind it.

* `decode_eq_some_iff`: the text of some bytes is the one that has these bytes;
* `mem_encodeChar`, `mem_encode_lineFeed`: a byte below 128 stands for its own character only;
* **`decode_append_lineFeed`**: a line feed at the end of some bytes makes no difference to what is
  before it.
-/

namespace Console.Text.Utf8

variable {s t : String} {bytes : List UInt8}

/-! ## Bytes and texts -/

theorem encode_eq_flatMap (s : String) : encode s = s.toList.flatMap String.utf8EncodeChar := by
  rw [encode, String.toUTF8_eq_toByteArray, ← String.utf8Encode_toList, List.utf8Encode,
    List.toList_data_toByteArray]

theorem encode_append (s t : String) : encode (s ++ t) = encode s ++ encode t := by
  simp only [encode_eq_flatMap, String.toList_append, List.flatMap_append]

theorem decode_eq_some_iff : decode bytes = some s ↔ bytes = encode s := by
  have harray : (⟨bytes.toArray⟩ : ByteArray) = s.toByteArray ↔ bytes = encode s := by
    rw [encode, String.toUTF8_eq_toByteArray]
    constructor
    · intro h
      rw [← h]
    · rintro rfl
      rfl
  rw [decode, String.fromUTF8?, ← harray]
  constructor
  · intro h
    split at h
    · cases h
      rfl
    · cases h
  · intro h
    rw [dif_pos (h ▸ s.isValidUTF8)]
    exact congrArg some (String.toByteArray_inj.mp h)

theorem decode_encode (s : String) : decode (encode s) = some s := decode_eq_some_iff.mpr rfl

/-! ## Line feeds -/

theorem mem_encodeChar {b : UInt8} {c : Char} (hb : b.toNat < 128) :
    b ∈ String.utf8EncodeChar c ↔ b.toNat = c.toNat := by
  rw [← Char.toNat_val]
  unfold String.utf8EncodeChar
  dsimp only
  split_ifs <;>
    simp only [List.mem_cons, List.not_mem_nil, or_false, ← UInt8.toNat_inj, UInt8.toNat_ofNat'] <;>
    omega

theorem mem_encodeChar_lineFeed {c : Char} : (10 : UInt8) ∈ String.utf8EncodeChar c ↔ c = '\n' := by
  rw [mem_encodeChar (by decide), show (10 : UInt8).toNat = '\n'.toNat from rfl, Char.toNat_inj,
    eq_comm]

theorem mem_encode_lineFeed : (10 : UInt8) ∈ encode s ↔ '\n' ∈ s.toList := by
  simp only [encode_eq_flatMap, List.mem_flatMap, mem_encodeChar_lineFeed, exists_eq_right]

/-- The bytes of a text end in that of a line feed only if the text ends in a line feed. -/
theorem exists_of_encode_append_lineFeed (h : encode t = bytes ++ [10]) :
    ∃ s, t = s ++ "\n" ∧ encode s = bytes := by
  rcases List.eq_nil_or_concat t.toList with hnil | ⟨cs, c, hconcat⟩
  · rw [encode_eq_flatMap, hnil] at h
    exact absurd h.symm (by simp)
  · have hbytes : cs.flatMap String.utf8EncodeChar ++ String.utf8EncodeChar c = bytes ++ [10] := by
      rw [← h, encode_eq_flatMap, hconcat, List.concat_eq_append, List.flatMap_append,
        List.flatMap_singleton]
    have hlast : (10 : UInt8) ∈ String.utf8EncodeChar c := by
      have hne : String.utf8EncodeChar c ≠ [] := String.utf8EncodeChar_ne_nil
      have hgetLast := congrArg List.getLast? hbytes
      rw [List.getLast?_append_of_ne_nil _ hne, List.getLast?_concat] at hgetLast
      exact List.mem_of_getLast? hgetLast
    obtain rfl : c = '\n' := mem_encodeChar_lineFeed.mp hlast
    refine ⟨String.ofList cs, ?_, ?_⟩
    · rw [← String.toList_inj, hconcat, String.toList_append, String.toList_ofList,
        List.concat_eq_append]
      rfl
    · rw [encode_eq_flatMap, String.toList_ofList]
      exact List.append_cancel_right hbytes

/-- **A line feed behind some bytes** makes no difference to what is before it. -/
theorem decode_append_lineFeed (bytes : List UInt8) :
    decode (bytes ++ [10]) = (decode bytes).map (· ++ "\n") := by
  cases hbytes : decode bytes with
  | some s =>
    rw [Option.map_some, decode_eq_some_iff, encode_append, ← decode_eq_some_iff.mp hbytes]
    rfl
  | none =>
    rw [Option.map_none, Option.eq_none_iff_forall_not_mem]
    intro t ht
    obtain ⟨s, -, hs⟩ := exists_of_encode_append_lineFeed (decode_eq_some_iff.mp ht).symm
    rw [← hs, decode_encode] at hbytes
    cases hbytes

end Console.Text.Utf8
