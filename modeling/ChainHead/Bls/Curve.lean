/-
Points of the curves `y² = x³ + b` over a field of coordinates.

A point is infinity or a pair of coordinates. Sums and multiples run
through Jacobian triples `(X, Y, Z)`, which stand for `(X/Z², Y/Z³)`, or
for infinity when `Z` is zero, so that only the step back to coordinates
divides. `G1` and `G2` name the two curves in use, over `Fp` and `Fp2`.
-/
import ChainHead.Bls.Field

namespace ChainHead.Bls

/-- A point: infinity or two coordinates. -/
inductive Point (F : Type) where
  | infinity
  | at (x y : F)
  deriving BEq, DecidableEq, Repr

/-- A point as `X/Z²` and `Y/Z³`, or infinity when `Z` is zero. -/
structure Jacobian (F : Type) where
  x : F
  y : F
  z : F

section

variable {F : Type} [BaseField F]

namespace Jacobian

/-- Infinity. -/
def infinity : Jacobian F := ⟨BaseField.one, BaseField.one, BaseField.zero⟩

/-- Whether a triple stands for infinity. -/
def isInfinity (p : Jacobian F) : Bool := p.z == BaseField.zero

/-- A point as a triple. -/
def ofPoint : Point F → Jacobian F
  | .infinity => infinity
  | .at x y => ⟨x, y, BaseField.one⟩

/-- The point that a triple stands for. -/
def toPoint (p : Jacobian F) : Point F :=
  if p.isInfinity then .infinity
  else
    let i := BaseField.inverse p.z
    let ii := i * i
    .at (p.x * ii) (p.y * (ii * i))

/-- The double. -/
@[specialize] def double (p : Jacobian F) : Jacobian F :=
  let a := p.x * p.x
  let b := p.y * p.y
  let c := b * b
  let t := p.x + b
  let d := t * t - (a + c)
  let d := d + d
  let e := a + a + a
  let x := e * e - (d + d)
  let c2 := c + c
  let c4 := c2 + c2
  let yz := p.y * p.z
  ⟨x, e * (d - x) - (c4 + c4), yz + yz⟩

/-- The sum. -/
@[specialize] def add (p q : Jacobian F) : Jacobian F :=
  if p.isInfinity then q
  else if q.isInfinity then p
  else
    let zz1 := p.z * p.z
    let zz2 := q.z * q.z
    let u1 := p.x * zz2
    let u2 := q.x * zz1
    let s1 := p.y * (zz2 * q.z)
    let s2 := q.y * (zz1 * p.z)
    if u1 == u2 then
      if s1 == s2 then p.double else infinity
    else
      let h := u2 - u1
      let r := s2 - s1
      let hh := h * h
      let hhh := hh * h
      let v := u1 * hh
      let x := r * r - (hhh + (v + v))
      ⟨x, r * (v - x) - s1 * hhh, p.z * q.z * h⟩

/-- The negative. -/
def neg (p : Jacobian F) : Jacobian F := { p with y := -p.y }

/-- The multiple by a natural number. -/
@[specialize] def multiple (p : Jacobian F) (k : Nat) : Jacobian F :=
  Nat.fold (k.log2 + 1) (fun i _ acc =>
    let twice := double acc
    if k.testBit (k.log2 - i) then add twice p else twice) infinity

end Jacobian

namespace Point

/-- The sum of two points. -/
@[specialize] def add (p q : Point F) : Point F :=
  ((Jacobian.ofPoint p).add (Jacobian.ofPoint q)).toPoint

/-- The negative of a point. -/
def neg : Point F → Point F
  | infinity => infinity
  | .at x y => .at x (-y)

/-- The multiple of a point by a natural number. -/
@[specialize] def multiple (p : Point F) (k : Nat) : Point F :=
  ((Jacobian.ofPoint p).multiple k).toPoint

end Point

end

-- ======================================================= the two curves

/-- The order of the two groups that a pairing is taken of. -/
def groupOrder : Nat :=
  0x73eda753299d7d483339d80809a1d80553bda402fffe5bfeffffffff00000001

/-- Points over the prime field, where public keys are. -/
abbrev G1 := Point Fp

/-- Points over the quadratic field, where signatures are. -/
abbrev G2 := Point Fp2

namespace G1

/-- The generator of the group of public keys. -/
def generator : G1 :=
  .at
    (Fp.ofNat 0x17f1d3a73197d7942695638c4fa9ac0fc3688c4f9774b905a14e3a3f171bac586c55e83ff97a1aeffb3af00adb22c6bb)
    (Fp.ofNat 0x08b3f481e3aaa0f1a09e30ed741d8ae4fcf5e095d5d00af600db18cb2c04b3edd03cc744a2888ae40caa232946c5e7e1)

/-- The right side of the curve's equation. -/
def rightSide (x : Fp) : Fp := x * x * x + 4

/-- Whether a point is in the group of prime order. -/
def inGroup (p : G1) : Bool :=
  (Jacobian.multiple (Jacobian.ofPoint p) groupOrder).isInfinity

end G1

namespace G2

/-- The right side of the curve's equation. -/
def rightSide (x : Fp2) : Fp2 := x * x * x + ⟨4, 4⟩

/-- Whether a point is in the group of prime order. -/
def inGroup (p : G2) : Bool :=
  (Jacobian.multiple (Jacobian.ofPoint p) groupOrder).isInfinity

end G2

end ChainHead.Bls
