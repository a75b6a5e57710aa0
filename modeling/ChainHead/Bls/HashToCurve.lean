/-
Hashing a message to a point of the group of signatures.

A message is expanded to 256 bytes, which give two elements of the
quadratic field. Each is mapped to a point of an auxiliary curve
`y² = x³ + 240u x + 1012(1 + u)` and from there by rational functions of
degree three to the curve of signatures. The sum of the two points,
multiplied by the cofactor, is in the group of prime order.
-/
import ChainHead.Bls.Curve
import ChainHead.Sha256

namespace ChainHead.Bls.HashToCurve

-- ========================================================== expansion

/-- The name of the scheme, which keeps its hashes apart from those of others. -/
def separationTag : List UInt8 :=
  "BLS_SIG_BLS12381G2_XMD:SHA-256_SSWU_RO_POP_".toUTF8.toList

/-- The tag with its length behind it. -/
def tagWithLength : List UInt8 :=
  separationTag ++ [UInt8.ofNat separationTag.length]

/-- Further blocks of 32 bytes, numbered from `number` on. -/
def expandBlocks (seed : Root) : (blocks number : Nat) → (last : Root) → List UInt8
  | 0, _, _ => []
  | blocks + 1, number, last =>
    let next := Sha256.digest
      (Bytes.toList (seed ^^^ last) ++ [UInt8.ofNat number] ++ tagWithLength)
    Bytes.toList next ++ expandBlocks seed blocks (number + 1) next

/-- A message expanded to 256 bytes. -/
def expand (message : List UInt8) : List UInt8 :=
  let seed := Sha256.digest
    (List.replicate 64 0 ++ message ++ Bytes.ofNat 2 256 ++ [0] ++ tagWithLength)
  expandBlocks seed 8 1 0

/-- The field element in 64 bytes at an offset. -/
def elementAt (bytes : List UInt8) (offset : Nat) : Fp :=
  Fp.ofNat (Bytes.toNat ((bytes.drop offset).take 64))

-- ================================================= the auxiliary curve

/-- The factor of `x` in the equation of the auxiliary curve. -/
def auxA : Fp2 := ⟨0, 240⟩

/-- The constant in the equation of the auxiliary curve. -/
def auxB : Fp2 := ⟨1012, 1012⟩

/-- An element without a square root. -/
def nonSquare : Fp2 := ⟨-2, -1⟩

/-- The right side of the equation of the auxiliary curve. -/
def auxRightSide (x : Fp2) : Fp2 := (x * x + auxA) * x + auxB

/-- The point of the auxiliary curve for a field element. -/
def toAuxCurve (t : Fp2) : Fp2 × Fp2 :=
  let zt := nonSquare * (t * t)
  let denominator := zt * zt + zt
  let x1 :=
    if denominator == Fp2.zero then auxB * Fp2.inverse (nonSquare * auxA)
    else (-auxB) * Fp2.inverse auxA * (Fp2.one + Fp2.inverse denominator)
  let withSign (x y : Fp2) : Fp2 × Fp2 := (x, if y.isOdd == t.isOdd then y else -y)
  match (auxRightSide x1).sqrt? with
  | some y => withSign x1 y
  | none =>
    let x2 := zt * x1
    withSign x2 ((auxRightSide x2).sqrt?.getD Fp2.zero)

-- ================================================== to the curve itself

/-- The value of a polynomial, highest coefficient first. -/
def evaluate (coefficients : List Fp2) (x : Fp2) : Fp2 :=
  coefficients.foldl (fun acc c => acc * x + c) Fp2.zero

/-- An element of the quadratic field from two numbers. -/
def element (re im : Nat) : Fp2 := ⟨Fp.ofNat re, Fp.ofNat im⟩

/-- The numerator of the first coordinate. -/
def xNumerator : List Fp2 :=
  [element 0x171d6541fa38ccfaed6dea691f5fb614cb14b4e7f4e810aa22d6108f142b85757098e38d0f671c7188e2aaaaaaaa5ed1
      0,
    element 0x11560bf17baa99bc32126fced787c88f984f87adf7ae0c7f9a208c6b4f20a4181472aaa9cb8d555526a9ffffffffc71e
      0x8ab05f8bdd54cde190937e76bc3e447cc27c3d6fbd7063fcd104635a790520c0a395554e5c6aaaa9354ffffffffe38d,
    element 0
      0x11560bf17baa99bc32126fced787c88f984f87adf7ae0c7f9a208c6b4f20a4181472aaa9cb8d555526a9ffffffffc71a,
    element 0x5c759507e8e333ebb5b7a9a47d7ed8532c52d39fd3a042a88b58423c50ae15d5c2638e343d9c71c6238aaaaaaaa97d6
      0x5c759507e8e333ebb5b7a9a47d7ed8532c52d39fd3a042a88b58423c50ae15d5c2638e343d9c71c6238aaaaaaaa97d6]

/-- The denominator of the first coordinate. -/
def xDenominator : List Fp2 :=
  [element 1 0, ⟨12, -12⟩, ⟨0, -72⟩]

/-- The numerator of the second coordinate, without its factor. -/
def yNumerator : List Fp2 :=
  [element 0x124c9ad43b6cf79bfbf7043de3811ad0761b0f37a1e26286b0e977c69aa274524e79097a56dc4bd9e1b371c71c718b10
      0,
    element 0x11560bf17baa99bc32126fced787c88f984f87adf7ae0c7f9a208c6b4f20a4181472aaa9cb8d555526a9ffffffffc71c
      0x8ab05f8bdd54cde190937e76bc3e447cc27c3d6fbd7063fcd104635a790520c0a395554e5c6aaaa9354ffffffffe38f,
    element 0
      0x5c759507e8e333ebb5b7a9a47d7ed8532c52d39fd3a042a88b58423c50ae15d5c2638e343d9c71c6238aaaaaaaa97be,
    element 0x1530477c7ab4113b59a4c18b076d11930f7da5d4a07f649bf54439d87d27e500fc8c25ebf8c92f6812cfc71c71c6d706
      0x1530477c7ab4113b59a4c18b076d11930f7da5d4a07f649bf54439d87d27e500fc8c25ebf8c92f6812cfc71c71c6d706]

/-- The denominator of the second coordinate. -/
def yDenominator : List Fp2 :=
  [element 1 0, ⟨18, -18⟩, ⟨0, -216⟩, ⟨-432, -432⟩]

/-- The point of the curve for a point of the auxiliary curve. -/
def fromAuxCurve (p : Fp2 × Fp2) : G2 :=
  let (x, y) := p
  let dx := evaluate xDenominator x
  let dy := evaluate yDenominator x
  if dx == Fp2.zero || dy == Fp2.zero then .infinity
  else
    .at (evaluate xNumerator x * Fp2.inverse dx) (y * evaluate yNumerator x * Fp2.inverse dy)

/-- The number that takes every point of the curve into the group of prime order. -/
def cofactor : Nat :=
  0xbc69f08f2ee75b3584c6a0ea91b352888e2a8e9145ad7689986ff031508ffe1329c2f178731db956d82bf015d1212b02ec0ec69d7477c1ae954cbc06689f6a359894c0adebbf6b4e8020005aaa95551

/-- The point of the group of signatures that a message hashes to. -/
def hash (message : List UInt8) : G2 :=
  let bytes := expand message
  let point (offset : Nat) : G2 :=
    fromAuxCurve (toAuxCurve ⟨elementAt bytes offset, elementAt bytes (offset + 64)⟩)
  let sum := (Jacobian.ofPoint (point 0)).add (Jacobian.ofPoint (point 128))
  (sum.multiple cofactor).toPoint

end ChainHead.Bls.HashToCurve
