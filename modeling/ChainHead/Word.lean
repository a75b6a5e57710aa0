/-
Arithmetic on 64-bit words where the plain operations would wrap.

Slots, epochs, indices, balances and weights are unsigned words. Two
kinds of operation stand here: those that stop at the ends of the range
(`addSat`, `subSat`, `mulSat`), for windows of slots that reach past
them, and those that answer `none` when the exact result has no word
(`sub?`, `signed?`, `addSigned?`, `subSigned?`, `move?`), for sums of
balances that must be exact or refused.
-/

namespace ChainHead.Word

/-- The greatest word. -/
def top : UInt64 := UInt64.ofNat (UInt64.size - 1)

-- ============================================ stopping at the range

/-- The sum, or the greatest word when the sum is greater. -/
def addSat (a b : UInt64) : UInt64 :=
  if a.toNat + b.toNat < UInt64.size then a + b else top

/-- The difference, or zero when it is negative. -/
def subSat (a b : UInt64) : UInt64 :=
  if b ≤ a then a - b else 0

/-- The product, or the greatest word when the product is greater. -/
def mulSat (a b : UInt64) : UInt64 :=
  if a.toNat * b.toNat < UInt64.size then a * b else top

-- ================================================== exact or refused

/-- The difference, unless it is negative. -/
def sub? (a b : UInt64) : Option UInt64 :=
  if b ≤ a then some (a - b) else none

/-- The signed word with an exact value, if there is one. -/
def ofInt? (n : Int) : Option Int64 :=
  if Int64.minValue.toInt ≤ n ∧ n ≤ Int64.maxValue.toInt then some (Int64.ofInt n) else none

/-- A word as a signed one, unless it is too great. -/
def signed? (a : UInt64) : Option Int64 :=
  ofInt? a.toNat

/-- The exact sum of two signed words, if it is one. -/
def addSigned? (a b : Int64) : Option Int64 :=
  ofInt? (a.toInt + b.toInt)

/-- The exact difference of two signed words, if it is one. -/
def subSigned? (a b : Int64) : Option Int64 :=
  ofInt? (a.toInt - b.toInt)

/-- A word moved by a signed amount, unless that leaves the range. -/
def move? (a : UInt64) (by_ : Int64) : Option UInt64 :=
  let n := (a.toNat : Int) + by_.toInt
  if 0 ≤ n ∧ n < UInt64.size then some (UInt64.ofNat n.toNat) else none

end ChainHead.Word
