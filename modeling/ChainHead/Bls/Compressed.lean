/-
Points in compressed form: the first coordinate and three flags.

The top bit says that the form is compressed, the next that the point is
infinity, the third that the second coordinate is the greater of the two
that fit the first. All three stand where a coordinate, which has 381
bits, leaves room. Over the quadratic field the imaginary part comes
first. Every other bit of infinity has to be clear, and a coordinate has
to be below the prime, so a point has one compressed form only.
-/
import ChainHead.Bls.Curve
import ChainHead.Bytes

namespace ChainHead.Bls

-- ===================================================== public keys

namespace G1

/-- The compressed form of a point. -/
def compress : G1 → PublicKeyBytes
  | .infinity => BitVec.ofNat 384 (3 <<< 382)
  | .at x y => BitVec.ofNat 384 ((1 <<< 383) + (if y.isLarge then 1 <<< 381 else 0) + x.val)

/-- The point with a first coordinate and a choice of the second. -/
def withX? (x : Nat) (large : Bool) : Option G1 :=
  if h : x < prime then
    (Fp.sqrt? (rightSide ⟨x, h⟩)).map fun y => .at ⟨x, h⟩ (if y.isLarge == large then y else -y)
  else none

/-- The point with a compressed form; it need not be in the group. -/
def decompress? (bytes : PublicKeyBytes) : Option G1 :=
  let n := bytes.toNat
  if !n.testBit 383 then none
  else if n.testBit 382 then
    if n = 3 <<< 382 then some .infinity else none
  else withX? (n % (1 <<< 381)) (n.testBit 381)

end G1

-- ====================================================== signatures

namespace G2

/-- The compressed form of a point. -/
def compress : G2 → SignatureBytes
  | .infinity => BitVec.ofNat 768 (3 <<< 766)
  | .at x y =>
    BitVec.ofNat 768
      ((1 <<< 767) + (if y.isLarge then 1 <<< 765 else 0) + (x.im.val <<< 384) + x.re.val)

/-- The point with a first coordinate and a choice of the second. -/
def withX? (re im : Nat) (large : Bool) : Option G2 :=
  if h : re < prime ∧ im < prime then
    let x : Fp2 := ⟨⟨re, h.1⟩, ⟨im, h.2⟩⟩
    (Fp2.sqrt? (rightSide x)).map fun y => .at x (if y.isLarge == large then y else -y)
  else none

/-- The point with a compressed form; it need not be in the group. -/
def decompress? (bytes : SignatureBytes) : Option G2 :=
  let n := bytes.toNat
  if !n.testBit 767 then none
  else if n.testBit 766 then
    if n = 3 <<< 766 then some .infinity else none
  else withX? (n % (1 <<< 384)) ((n >>> 384) % (1 <<< 381)) (n.testBit 765)

end G2

end ChainHead.Bls
