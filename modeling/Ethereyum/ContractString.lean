/-
# `ContractString` — which strings `contract_string_var` reads back

A contract returns a string as the ABI encodes one: a word with the offset 32, a
word with the length, and the bytes of the string, filled up with zeros to whole
words.  `contract_string_var` looks at none of the first two words.  It takes the last
word of what was returned and drops the zeros, so it reads a string back that is
no longer than a word (`reads_back_iff`), and of a longer one its last bytes.

Hexadecimal text is decoded by a crate; `fromHex` stands for its decoder.
-/
import Ethereyum.Lib.Hex
import Ethereyum.Value

namespace Ethereyum

open Hex

/-! ## The decoder -/

/-- The error of `contract_string_var`. -/
def couldntParseString (s : String) : Error := .yumError ("Couldn't parse string: " ++ s)

/-- The function `op` of `OpSet::contract_string_var`. -/
def contractStringVar (fromHex : List UInt8 → Option (List UInt8)) (v : Value) :
    Except Error String :=
  (deString v).bind fun s =>
    match (chunks 64 (utf8 (clean0x s))).getLast?.bind fromHex with
    | none => .error (couldntParseString s)
    | some r =>
        match fromUtf8 (r.filter fun x => x ≠ 0) with
        | some t => .ok t
        | none => .error (couldntParseString s)

/-! ## The encoder -/

/-- A word of 32 bytes, the most significant one first. -/
def wordBytes (n : Nat) : List UInt8 :=
  (List.range 32).map fun i => UInt8.ofNat (n / 256 ^ (31 - i) % 256)

/-- Filled up with zeros to whole words. -/
def padded (bs : List UInt8) : List UInt8 := bs ++ List.replicate ((32 - bs.length % 32) % 32) 0

/-- What a contract returns that returns the string `s`. -/
def abiEncode (s : String) : List UInt8 :=
  wordBytes 32 ++ wordBytes (utf8 s.toList).length ++ padded (utf8 s.toList)

/-- The answer to `eth_call` that carries it. -/
def abiAnswer (s : String) : Value :=
  .string (String.ofList ('0' :: 'x' :: hexChars (abiEncode s)))

/-! ## The last word -/

section decode
variable {fromHex : List UInt8 → Option (List UInt8)} {s : String}

theorem length_padded (bs : List UInt8) : (padded bs).length = 32 * ((bs.length + 31) / 32) := by
  rw [padded, List.length_append, List.length_replicate]
  omega

theorem length_abiEncode (s : String) :
    (abiEncode s).length = 32 * (((utf8 s.toList).length + 31) / 32 + 1 + 1) := by
  simp only [abiEncode, List.length_append, length_padded, wordBytes, List.length_map,
    List.length_range]
  omega

/-- The decoder reads the last word. -/
theorem lastWord_eq (hfromHex : ∀ bs, fromHex (hexText bs) = some bs) :
    (chunks 64 (utf8 (hexChars (abiEncode s)))).getLast?.bind fromHex =
      some ((abiEncode s).drop (32 * (((utf8 s.toList).length + 31) / 32 + 1))) := by
  have hlen : (utf8 (hexChars (abiEncode s))).length =
      64 * (((utf8 s.toList).length + 31) / 32 + 1 + 1) := by
    rw [← hexText, length_hexText, length_abiEncode]
    omega
  rw [getLast?_chunks (by decide) hlen, Option.bind_some, ← hexText,
    show 64 * (((utf8 s.toList).length + 31) / 32 + 1) =
      2 * (32 * (((utf8 s.toList).length + 31) / 32 + 1)) by omega, drop_hexText, hfromHex]

theorem filter_nonzero {bs : List UInt8} (h : ∀ b ∈ bs, b ≠ 0) :
    bs.filter (fun x => x ≠ 0) = bs := by
  refine List.filter_eq_self.mpr ?_
  intro b hb
  exact decide_eq_true (h b hb)

/-- Without its zeros the last word is the part of the string that reaches into it. -/
theorem lastWord_nonzero (hnul : ∀ b ∈ utf8 s.toList, b ≠ 0) :
    ((abiEncode s).drop (32 * (((utf8 s.toList).length + 31) / 32 + 1))).filter (fun x => x ≠ 0) =
      (utf8 s.toList).drop (32 * (((utf8 s.toList).length - 1) / 32)) := by
  rw [abiEncode]
  generalize utf8 s.toList = bs at hnul ⊢
  have hhead : (wordBytes 32 ++ wordBytes bs.length).length = 64 := by simp [wordBytes]
  rcases Nat.eq_zero_or_pos bs.length with hnil | hpos
  · obtain rfl := List.length_eq_zero_iff.mp hnil
    decide
  · -- the last word is a word of the padded bytes
    have hwords : 32 * ((bs.length + 31) / 32 + 1) = 64 + 32 * ((bs.length - 1) / 32) := by omega
    have hle : 32 * ((bs.length - 1) / 32) ≤ bs.length := by omega
    have hdata : (wordBytes 32 ++ wordBytes bs.length ++ padded bs).drop
        (64 + 32 * ((bs.length - 1) / 32)) = (padded bs).drop (32 * ((bs.length - 1) / 32)) := by
      rw [← List.drop_drop, List.drop_left' hhead]
    rw [hwords, hdata, padded, List.drop_append_of_le_length hle, List.filter_append,
      filter_nonzero fun b hb => hnul b (List.mem_of_mem_drop hb)]
    simp

/-- What is read of a string is the part of it in its last word, if that is a text. -/
theorem reads_iff (hfromHex : ∀ bs, fromHex (hexText bs) = some bs)
    (hnul : ∀ b ∈ utf8 s.toList, b ≠ 0) {t : String} :
    contractStringVar fromHex (abiAnswer s) = .ok t ↔
      (utf8 s.toList).drop (32 * (((utf8 s.toList).length - 1) / 32)) = utf8 t.toList := by
  have hclean : clean0x (String.ofList ('0' :: 'x' :: hexChars (abiEncode s))) =
      hexChars (abiEncode s) := by
    simp [clean0x]
  rw [← fromUtf8_eq_some_iff, ← lastWord_nonzero hnul]
  simp only [contractStringVar, abiAnswer, deString, Except.bind, hclean, lastWord_eq hfromHex]
  cases fromUtf8 _ with
  | none => simp
  | some t => simp

/-- **A string is read back exactly when it has at most 32 bytes.** -/
theorem reads_back_iff (hfromHex : ∀ bs, fromHex (hexText bs) = some bs)
    (hnul : ∀ b ∈ utf8 s.toList, b ≠ 0) :
    contractStringVar fromHex (abiAnswer s) = .ok s ↔ s.utf8ByteSize ≤ 32 := by
  rw [reads_iff hfromHex hnul, ← length_utf8]
  constructor
  · intro hdrop
    have hlen := congrArg List.length hdrop
    rw [List.length_drop] at hlen
    omega
  · intro hle
    have hzero : ((utf8 s.toList).length - 1) / 32 = 0 := by omega
    rw [hzero, Nat.mul_zero, List.drop_zero]

end decode

/-- A short name is read back. -/
theorem short_name_reads_back : contractStringVar hexDecode (abiAnswer "Ether") = .ok "Ether" :=
  (reads_back_iff hexDecode_hexText (by decide +kernel)).mpr (by decide)

/-- Of a name of 33 bytes the last one is read. -/
theorem long_name_cut :
    contractStringVar hexDecode (abiAnswer "A token with a name of 33 letters") = .ok "s" :=
  (reads_iff hexDecode_hexText (by decide +kernel)).mpr (by decide +kernel)

end Ethereyum
