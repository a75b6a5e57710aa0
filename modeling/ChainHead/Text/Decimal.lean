/-
Whole numbers as they look after a passage through a 64-bit float: the
fewest digits that name the same float, filled up with zeros.

A float keeps 53 significant bits, so up to `2 ^ 53` nothing changes.
Above, `toFloat` is the nearest number that a float can hold, of two
equally near the one with the even significand; then the multiple of the
greatest power of ten that still rounds to it is shown.
-/

namespace ChainHead.Text.Decimal

/-- How many low bits of a number a float cannot keep. -/
def excess (n : Nat) : Nat := n.log2 - 52

/-- The significand of the nearest float, before its shift by the excess. -/
def significand (n : Nat) : Nat :=
  let unit := 1 <<< excess n
  let whole := n / unit
  let rest := n % unit
  if unit < 2 * rest ∨ (2 * rest = unit ∧ whole % 2 = 1) then whole + 1 else whole

/-- The nearest number that a float can hold. -/
def toFloat (n : Nat) : Nat := significand n <<< excess n

/-- The multiple of a power of ten that is nearest to a number, if it rounds to the same float. -/
def shortened? (value exponent : Nat) : Option Nat :=
  let unit := Nat.pow 10 exponent
  let nearest := (2 * value + unit) / (2 * unit) * unit
  if toFloat nearest = value then some nearest else none

/-- The shown number: the first that fits, from the given power of ten downwards. -/
def search (value : Nat) : (exponent : Nat) → Nat
  | 0 => value
  | exponent + 1 => (shortened? value exponent).getD (search value exponent)

/-- A number as a 64-bit float shows it. -/
def float (n : Nat) : String :=
  if n ≤ 1 <<< 53 then toString n else toString (search (toFloat n) (n.log2 / 3 + 1))

end ChainHead.Text.Decimal
