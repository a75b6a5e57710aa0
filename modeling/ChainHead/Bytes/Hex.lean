/-
Reading a byte string of known length from hexadecimal digits, without
a leading `0x` and in either case.

A text is refused for the first of three causes that applies: an odd
number of bytes, a number of bytes other than two for each byte of the
string, a byte that is no digit. Lengths and positions count bytes of
the text in UTF-8, and the byte that is no digit is shown as the
character with its value.
-/
import ChainHead.Bytes
import ChainHead.Text.Quoted

namespace ChainHead.Bytes

/-- Why a text is not the hexadecimal form of a byte string. -/
inductive HexError where
  | oddLength
  | lengthMismatch
  | notADigit (byte : UInt8) (position : Nat)
  deriving DecidableEq, Repr

/-- The wording of a refusal. -/
def HexError.message : HexError → String
  | oddLength => "Odd number of digits"
  | lengthMismatch => "Invalid string length"
  | notADigit byte position =>
    let shown := Text.Quoted.char (Char.ofNat byte.toNat)
    s!"Invalid character {shown} at position {position}"

/-- The value of a hexadecimal digit given by its character code. -/
def digitValue? (byte : UInt8) : Option Nat :=
  let n := byte.toNat
  if 48 ≤ n ∧ n ≤ 57 then some (n - 48)
  else if 97 ≤ n ∧ n ≤ 102 then some (n - 87)
  else if 65 ≤ n ∧ n ≤ 70 then some (n - 55)
  else none

/-- The number that digits spell, read from position `position` on. -/
def readDigits (value position : Nat) : List UInt8 → Except HexError Nat
  | [] => .ok value
  | byte :: rest =>
    match digitValue? byte with
    | some digit => readDigits (value * 16 + digit) (position + 1) rest
    | none => .error (.notADigit byte position)

/-- The byte string with the given hexadecimal digits. -/
def ofHex (w : Nat) (digits : String) : Except HexError (BitVec w) := do
  let bytes := digits.toUTF8.toList
  if bytes.length % 2 = 1 then throw .oddLength
  if bytes.length ≠ 2 * (w / 8) then throw .lengthMismatch
  return BitVec.ofNat w (← readDigits 0 0 bytes)

end ChainHead.Bytes
