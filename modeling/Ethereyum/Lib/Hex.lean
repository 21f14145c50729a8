/-
# `Lib.Hex` — bytes, texts and what lies between them

A text is its UTF-8 bytes, a byte string has a hexadecimal text with two digits for
each byte, and a list is cut into chunks of one size, of which the last may be
shorter.

    fromUtf8_eq_some_iff   reading a text back
    hexDecode_hexText      reading a byte string back
    drop_hexText           a cut between two bytes is a cut between two digits
    getLast?_chunks        the last chunk of a list that the size divides
-/
import Mathlib.Data.List.Range

namespace Hex

/-! ## Texts -/

/-- The UTF-8 bytes of a text. -/
def utf8 (cs : List Char) : List UInt8 := cs.flatMap String.utf8EncodeChar

/-- The text that has these bytes. -/
def fromUtf8 (bs : List UInt8) : Option String := String.fromUTF8? bs.toByteArray

theorem toByteArray_utf8 (s : String) : (utf8 s.toList).toByteArray = s.toByteArray :=
  String.utf8Encode_toList

theorem fromUtf8_eq_some_iff {bs : List UInt8} {s : String} :
    fromUtf8 bs = some s ↔ bs = utf8 s.toList := by
  constructor
  · intro h
    unfold fromUtf8 String.fromUTF8? at h
    split at h
    · obtain rfl := Option.some.inj h
      have hbytes := toByteArray_utf8 (String.fromUTF8 bs.toByteArray ‹_›)
      have hdata := congrArg ByteArray.data hbytes.symm
      simpa [String.fromUTF8] using hdata
    · cases h
  · rintro rfl
    rw [fromUtf8, toByteArray_utf8]
    exact dif_pos s.isValidUTF8

theorem length_utf8 (s : String) : (utf8 s.toList).length = s.utf8ByteSize := by
  rw [← String.size_toByteArray, ← toByteArray_utf8, List.size_toByteArray]

/-! ## Hexadecimal digits -/

/-- The digit of a number below 16. -/
def hexDigit (n : Nat) : Char := if n < 10 then Char.ofNat (48 + n) else Char.ofNat (87 + n)

/-- The hexadecimal text of a byte string. -/
def hexChars (bs : List UInt8) : List Char :=
  bs.flatMap fun b => [hexDigit (b.toNat / 16), hexDigit (b.toNat % 16)]

/-- The bytes of that text. -/
def hexText (bs : List UInt8) : List UInt8 := utf8 (hexChars bs)

/-- The number of a digit. -/
def hexValue (c : UInt8) : Option Nat :=
  if 48 ≤ c ∧ c ≤ 57 then some (c.toNat - 48)
  else if 97 ≤ c ∧ c ≤ 102 then some (c.toNat - 87)
  else none

/-- The byte string of a hexadecimal text. -/
def hexDecode : List UInt8 → Option (List UInt8)
  | [] => some []
  | [_] => none
  | hi :: lo :: rest =>
      match hexValue hi, hexValue lo with
      | some x, some y => (hexDecode rest).map (UInt8.ofNat (16 * x + y) :: ·)
      | _, _ => none

/-- The byte of a digit. -/
def digitByte (n : Nat) : UInt8 := (hexDigit n).val.toUInt8

theorem utf8_hexDigit : ∀ n < 16, String.utf8EncodeChar (hexDigit n) = [digitByte n] := by
  decide

theorem hexValue_digitByte : ∀ n < 16, hexValue (digitByte n) = some n := by
  decide

/-- Each byte has two digits. -/
theorem hexText_cons (b : UInt8) (bs : List UInt8) :
    ∃ hi lo, hexText (b :: bs) = hi :: lo :: hexText bs ∧
      hexValue hi = some (b.toNat / 16) ∧ hexValue lo = some (b.toNat % 16) := by
  have hhi : b.toNat / 16 < 16 := by
    have := b.toNat_lt
    omega
  have hlo : b.toNat % 16 < 16 := Nat.mod_lt _ (by decide)
  refine ⟨_, _, ?_, hexValue_digitByte _ hhi, hexValue_digitByte _ hlo⟩
  simp [hexText, hexChars, utf8, utf8_hexDigit _ hhi, utf8_hexDigit _ hlo]

theorem length_hexText (bs : List UInt8) : (hexText bs).length = 2 * bs.length := by
  induction bs with
  | nil => rfl
  | cons b bs ih =>
      obtain ⟨hi, lo, heq, _⟩ := hexText_cons b bs
      rw [heq, List.length_cons, List.length_cons, ih, List.length_cons]
      omega

/-- A cut between two bytes is a cut between two digits. -/
theorem drop_hexText (n : Nat) (bs : List UInt8) :
    (hexText bs).drop (2 * n) = hexText (bs.drop n) := by
  induction n generalizing bs with
  | zero => rfl
  | succ n ih =>
      cases bs with
      | nil => exact List.drop_nil
      | cons b bs =>
          obtain ⟨hi, lo, heq, _⟩ := hexText_cons b bs
          rw [heq, Nat.mul_succ, List.drop_succ_cons, List.drop_succ_cons, ih, List.drop_succ_cons]

/-- Reading the text of a byte string gives the byte string back. -/
theorem hexDecode_hexText (bs : List UInt8) : hexDecode (hexText bs) = some bs := by
  induction bs with
  | nil => rfl
  | cons b bs ih =>
      obtain ⟨hi, lo, heq, hhi, hlo⟩ := hexText_cons b bs
      have hbyte : UInt8.ofNat (16 * (b.toNat / 16) + b.toNat % 16) = b := by
        rw [Nat.div_add_mod]
        exact UInt8.ofNat_toNat
      rw [heq]
      simp only [hexDecode, hhi, hlo, ih, hbyte, Option.map_some]

/-! ## Chunks -/

/-- The chunks of `n` elements, the last one possibly shorter. -/
def chunks {α : Type*} (n : Nat) (l : List α) : List (List α) :=
  (List.range ((l.length + n - 1) / n)).map fun i => (l.drop (n * i)).take n

theorem getLast?_chunks {α : Type*} {n m : Nat} {l : List α} (hn : 0 < n)
    (hlen : l.length = n * (m + 1)) : (chunks n l).getLast? = some (l.drop (n * m)) := by
  have hcount : (l.length + n - 1) / n = m + 1 := by
    rw [hlen, Nat.add_sub_assoc hn, Nat.mul_add_div hn, Nat.div_eq_of_lt (by omega), Nat.add_zero]
  have hrest : (l.drop (n * m)).length = n := by
    rw [List.length_drop, hlen, Nat.mul_succ]
    omega
  rw [chunks, hcount, List.range_succ, List.map_append, List.map_singleton,
    List.getLast?_concat, List.take_of_length_le (Nat.le_of_eq hrest)]

end Hex
