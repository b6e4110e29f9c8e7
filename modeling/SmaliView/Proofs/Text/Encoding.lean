import SmaliView.Text.Utf8
import Mathlib.Data.List.Basic
import Mathlib.Tactic.Common

/-!
# Text that is written and read again

A text that was written as UTF-8 is read back as it was (`decodeLossy_bytes`): the first byte of a
character announces how many bytes follow and which the next one may be, and the bytes that are
written for a character keep to that.
-/

namespace SmaliView.Text

/-- The bytes of a text are those of its characters. -/
theorem bytes_eq_flatMap (s : String) : bytes s = s.toList.flatMap String.utf8EncodeChar := by
  conv => lhs; rw [← String.ofList_toList (s := s)]
  rw [bytes, String.toUTF8_eq_toByteArray, String.toByteArray_ofList, List.utf8Encode,
    List.data_toByteArray, List.toList_toArray]

namespace Utf8State

theorem first_of_two {d : Nat} (hmin : 2 ≤ d) (hmax : d < 32) :
    first (d + 192) = some (none, .inside 0 0x80 0xBF d) := by
  rw [first, if_neg (by omega), if_neg (by omega), if_pos (by omega), Nat.add_sub_cancel]

/-- Three bytes: the second one is bounded below for the smallest, and above where there are no
characters. -/
theorem first_of_three {d : Nat} (h : d < 16) :
    first (d + 224) = some (none,
      .inside 1 (if d = 0 then 0xA0 else 0x80) (if d = 13 then 0x9F else 0xBF) d) := by
  rw [first, if_neg (by omega), if_neg (by omega), if_neg (by omega)]
  split
  · next hd =>
    obtain rfl : d = 0 := by omega
    rfl
  next hd =>
  rw [if_neg (show d ≠ 0 by omega)]
  split
  · next hd =>
    obtain rfl : d = 13 := by omega
    rfl
  next hd =>
  rw [if_neg (show d ≠ 13 by omega), if_pos (by omega), Nat.add_sub_cancel]

/-- Four bytes: the second one is bounded below for the smallest, and above at the last character.
-/
theorem first_of_four {d : Nat} (h : d < 5) :
    first (d + 240) = some (none,
      .inside 2 (if d = 0 then 0x90 else 0x80) (if d = 4 then 0x8F else 0xBF) d) := by
  rw [first, if_neg (by omega), if_neg (by omega), if_neg (by omega), if_neg (by omega),
    if_neg (by omega), if_neg (by omega)]
  split
  · next hd =>
    obtain rfl : d = 0 := by omega
    rfl
  next hd =>
  rw [if_neg (show d ≠ 0 by omega)]
  split
  · next hd => rw [if_neg (show d ≠ 4 by omega), Nat.add_sub_cancel]
  next hd =>
  obtain rfl : d = 4 := by omega
  rfl

end Utf8State

open Utf8State

section

variable {bs : Bytes} {acc : List Char} {n low high code : Nat}

theorem toNat_byte (h : n < 256) : (UInt8.ofNat n).toNat = n := by
  rw [UInt8.toNat_ofNat']
  exact Nat.mod_eq_of_lt h

/-- A first byte is read. -/
theorem decodeFrom_first {q : Utf8State} (hn : n < 256) (h : first n = some (none, q)) :
    decodeFrom .start (UInt8.ofNat n :: bs) acc = decodeFrom q bs acc := by
  rw [decodeFrom, toNat_byte hn, step, begin, h]
  rfl

/-- A byte is read after which others follow. -/
theorem decodeFrom_more {owed : Nat} (hn : n < 64) (hlow : low ≤ n + 128) (hhigh : n + 128 ≤ high) :
    decodeFrom (.inside (owed + 1) low high code) (UInt8.ofNat (n + 128) :: bs) acc =
      decodeFrom (.inside owed 0x80 0xBF (code * 64 + n)) bs acc := by
  rw [decodeFrom, toNat_byte (by omega), step, if_pos ⟨hlow, hhigh⟩, Nat.add_sub_cancel]
  rfl

/-- The last byte of a character is read. -/
theorem decodeFrom_last (hn : n < 64) (hlow : low ≤ n + 128) (hhigh : n + 128 ≤ high) :
    decodeFrom (.inside 0 low high code) (UInt8.ofNat (n + 128) :: bs) acc =
      decodeFrom .start bs (Char.ofNat (code * 64 + n) :: acc) := by
  rw [decodeFrom, toNat_byte (by omega), step, if_pos ⟨hlow, hhigh⟩, Nat.add_sub_cancel]
  rfl

/-- The bytes of a character are read as that character. -/
theorem decodeFrom_char (c : Char) :
    decodeFrom .start (String.utf8EncodeChar c ++ bs) acc = decodeFrom .start bs (c :: acc) := by
  have hvalid : c.toNat < 0xD800 ∨ 0xDFFF < c.toNat ∧ c.toNat < 0x110000 := c.valid
  have hback : Char.ofNat c.toNat = c := Char.ofNat_toNat c
  rw [String.utf8EncodeChar]
  -- From here on the character is a number, and `hvalid` bounds its second byte where it has one.
  generalize hv : c.val.toNat = v
  replace hv : c.toNat = v := hv
  rw [hv] at hvalid hback
  split
  · -- One byte.
    rw [List.singleton_append, decodeFrom, toNat_byte (by omega), step, begin, first,
      if_pos (by omega), hback]
    rfl
  split
  · -- Two bytes.
    rw [List.cons_append, decodeFrom_first (by omega) (first_of_two (by omega) (by omega)),
      List.singleton_append, decodeFrom_last (by omega) (by omega) (by omega)]
    have hsum : v / 64 % 32 * 64 + v % 64 = v := by omega
    rw [hsum, hback]
  split
  · -- Three bytes.
    rw [List.cons_append, decodeFrom_first (by omega) (first_of_three (by omega)),
      List.cons_append, decodeFrom_more (by omega) (by split <;> omega) (by split <;> omega),
      List.singleton_append, decodeFrom_last (by omega) (by omega) (by omega)]
    have hsum : (v / 4096 % 16 * 64 + v / 64 % 64) * 64 + v % 64 = v := by omega
    rw [hsum, hback]
  · -- Four bytes.
    rw [List.cons_append, decodeFrom_first (by omega) (first_of_four (by omega)),
      List.cons_append, decodeFrom_more (by omega) (by split <;> omega) (by split <;> omega),
      List.cons_append, decodeFrom_more (by omega) (by omega) (by omega),
      List.singleton_append, decodeFrom_last (by omega) (by omega) (by omega)]
    have hsum : ((v / 262144 % 8 * 64 + v / 4096 % 64) * 64 + v / 64 % 64) * 64 + v % 64 = v := by
      omega
    rw [hsum, hback]

end

/-- Text that was written is read back as it was. -/
theorem decodeLossy_bytes (s : String) : decodeLossy (bytes s) = s := by
  -- The characters read so far are kept in reverse.
  have hall (cs acc : List Char) :
      decodeFrom .start (cs.flatMap String.utf8EncodeChar) acc = acc.reverse ++ cs := by
    induction cs generalizing acc with
    | nil => simp [decodeFrom, finish]
    | cons c cs ih => rw [List.flatMap_cons, decodeFrom_char, ih, List.reverse_cons, List.append_assoc,
      List.singleton_append]
  rw [decodeLossy, bytes_eq_flatMap, hall, List.reverse_nil, List.nil_append, String.ofList_toList]

end SmaliView.Text
