/-
# `Value` — JSON values, the errors of the library, and the decoders of `yum.rs`

`serde_json::Value` is a tree of which the modelled code only ever looks at
the strings; a number is kept as its literal.  `Error` has the kinds of
`error.rs` that the modelled functions build or pass on.  What `serde_json`
says about a value it rejects is its own text and is not modelled
(`Error.json`).
-/
import Mathlib.Algebra.Group.Int.Defs
import Mathlib.Algebra.Group.Nat.Defs
import Mathlib.Data.List.AList

namespace Ethereyum

/-- `serde_json::Value`. -/
inductive Value where
  | null
  | bool (b : Bool)
  | number (lit : String)
  | string (s : String)
  | array (vs : List Value)
  | object (fields : List (String × Value))
  deriving Repr

/-- The kinds of `error.rs` in use here. -/
inductive Error where
  | canceled
  | json
  | rpcError (e : String)
  | yumError (e : String)
  deriving DecidableEq, Repr

/-- A `HashMap` or `FnvHashMap`. -/
abbrev HashMap (κ ν : Type) := AList fun _ : κ => ν

/-- The number of values of a `usize` or a `u64`. -/
def word : Nat := 2 ^ 64

/-! ## Hexadecimal words -/

/-- `fixed_hash::clean_0x`. -/
def clean0x (s : String) : List Char :=
  match s.toList with
  | '0' :: 'x' :: rest => rest
  | cs => cs

/-- `char::to_digit(16)`. -/
def toDigit16 (c : Char) : Option Nat :=
  if '0' ≤ c ∧ c ≤ '9' then some (c.toNat - '0'.toNat)
  else if 'a' ≤ c ∧ c ≤ 'f' then some (c.toNat - 'a'.toNat + 10)
  else if 'A' ≤ c ∧ c ≤ 'F' then some (c.toNat - 'A'.toNat + 10)
  else none

/-- The digit loop of `from_str_radix`: `none` for a bad digit or an overflow. -/
def readDigits16 : Nat → List Char → Option Nat
  | acc, [] => some acc
  | acc, c :: cs =>
      match toDigit16 c with
      | none => none
      | some d => if acc * 16 + d < word then readDigits16 (acc * 16 + d) cs else none

/-- `usize::from_str_radix(_, 16)`: one leading `+` is allowed, no digits are not. -/
def usizeFromStrRadix16 (cs : List Char) : Option Nat :=
  match (match cs with | '+' :: rest => rest | _ => cs) with
  | [] => none
  | c :: rest => readDigits16 0 (c :: rest)

/-! ## `de` at the types the modelled code decodes to -/

/-- `de::<String>`. -/
def deString : Value → Except Error String
  | .string s => .ok s
  | _ => .error .json

/-- `de_usize`. -/
def deUsize (v : Value) : Except Error Nat :=
  (deString v).bind fun n =>
    match usizeFromStrRadix16 (clean0x n) with
    | some id => .ok id
    | none => .error (.yumError "Couldn't parse usize")

end Ethereyum
