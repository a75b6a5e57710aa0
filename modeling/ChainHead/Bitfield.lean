/-
Bitfields: which members of a committee took part in an attestation.

# Bytes and bits

A bitfield has a length and the bytes that hold its bits, eight to a
byte, the first bit lowest. Comparisons run on whole bytes, which is
right as long as the bits of the last byte beyond the length are clear;
every operation here keeps them clear. `bits` is the view bit by bit.

# Lengths

A bitfield never exceeds the limit given when it is made. Two bitfields
are comparable only if they have one length, since a bit means a member
of one committee: `anyNotIn`, `anyInCommon` and `union` refuse others
with `Misaligned`, while `isSubsetOf` is then simply false.
-/

namespace ChainHead

/-- A row of bits, eight to a byte, the first bit lowest. -/
structure Bitfield where
  length : Nat := 0
  bytes : List UInt8 := []
  deriving DecidableEq, Repr, Inhabited

namespace Bitfield

/-- Why a bitfield cannot be made or changed. -/
inductive Error where
  | tooLong (limit actual : Nat)
  | indexOutOfBounds (index length : Nat)
  deriving DecidableEq, Repr

/-- The wording of a refusal. -/
def Error.message : Error → String
  | tooLong limit actual => s!"bit list is too long (maximum: {limit}, actual: {actual})"
  | indexOutOfBounds index length =>
    s!"bit index {index} is out of bounds for bit list of length {length}"

/-- Two bitfields of different lengths were combined. -/
inductive Misaligned where
  | mk (left right : Nat)
  deriving DecidableEq, Repr

-- ============================================================== bits

/-- The bit at an index; beyond the length it reads as clear. -/
def bit (a : Bitfield) (index : Nat) : Bool :=
  (a.bytes.getD (index / 8) 0).toNat.testBit (index % 8)

/-- All bits in order. -/
def bits (a : Bitfield) : List Bool :=
  (List.range a.length).map a.bit

/-- The number of bits that are set. -/
def count (a : Bitfield) : Nat :=
  a.bits.count true

/-- The indices of the bits that are set, in increasing order. -/
def ones (a : Bitfield) : List Nat :=
  (List.range a.length).filter a.bit

/-- A bitfield in messages: its digits, first bit first. -/
def text (a : Bitfield) : String :=
  "0b" ++ String.ofList (a.bits.map fun b => if b then '1' else '0')

-- ============================================================ making

/-- A bitfield of the given length with all bits clear. -/
def withLength (limit length : Nat) : Except Error Bitfield :=
  if limit < length then .error (.tooLong limit length)
  else .ok ⟨length, List.replicate ((length + 7) / 8) 0⟩

/-- A byte with one of its bits set or cleared. -/
def setInByte (byte : UInt8) (place : Nat) (value : Bool) : UInt8 :=
  let mask := (1 : UInt8) <<< UInt8.ofNat place
  if value then byte ||| mask else byte &&& ~~~mask

/-- The bitfield with one bit replaced, whatever its length. -/
def put (a : Bitfield) (index : Nat) (value : Bool) : Bitfield :=
  { a with bytes := a.bytes.modify (index / 8) fun byte => setInByte byte (index % 8) value }

/-- The bitfield with the bit at an index replaced. -/
def set (a : Bitfield) (index : Nat) (value : Bool) : Except Error Bitfield :=
  if a.length ≤ index then .error (.indexOutOfBounds index a.length)
  else .ok (a.put index value)

/-- A bitfield of the given length with one bit set. -/
def single (limit length index : Nat) : Except Error Bitfield := do
  (← withLength limit length).set index true

/-- The bitfield with the given bits. -/
def ofBools (limit : Nat) (values : List Bool) : Except Error Bitfield := do
  let empty ← withLength limit values.length
  return values.zipIdx.foldl (fun a (value, index) => a.put index value) empty

-- ========================================================= combining

/-- Whether a bit is set on the left and clear on the right. -/
def anyNotIn (a b : Bitfield) : Except Misaligned Bool :=
  if a.length ≠ b.length then .error ⟨a.length, b.length⟩
  else .ok ((a.bytes.zip b.bytes).any fun (x, y) => 0 < x &&& ~~~y)

/-- Whether a bit is set on both sides. -/
def anyInCommon (a b : Bitfield) : Except Misaligned Bool :=
  if a.length ≠ b.length then .error ⟨a.length, b.length⟩
  else .ok ((a.bytes.zip b.bytes).any fun (x, y) => 0 < x &&& y)

/-- The bitfield with the bits that are set on either side. -/
def union (a b : Bitfield) : Except Misaligned Bitfield :=
  if a.length ≠ b.length then .error ⟨a.length, b.length⟩
  else .ok { a with bytes := List.zipWith (· ||| ·) a.bytes b.bytes }

/-- Whether every bit set on the left is set on the right too; never across lengths. -/
def isSubsetOf (a b : Bitfield) : Bool :=
  match a.anyNotIn b with
  | .ok found => !found
  | .error _ => false

end Bitfield

end ChainHead
