/-
The fields of the curve BLS12-381.

`Fp` is the field of integers modulo a prime of 381 bits, `Fp2` adjoins
`u` with `u² = -1`, `Fp6` adjoins to that `v` with `v³ = 1 + u`, and
`Fp12` adjoins `w` with `w² = v`. Points of the two source groups have
coordinates in `Fp` and `Fp2`, pairings have values in `Fp12`.

`BaseField` is what the curve arithmetic asks of a field of coordinates.
Square roots are found by powers, since the prime is 3 modulo 4, and
checked by squaring.
-/

namespace ChainHead.Bls

-- =========================================================== classes

/-- The operations that curve arithmetic needs. -/
class BaseField (F : Type) extends Add F, Sub F, Mul F, Neg F, BEq F where
  zero : F
  one : F
  inverse : F → F

/-- A power by repeated squaring, highest bit of the exponent first. -/
@[specialize] def powerBy {α : Type} (mul : α → α → α) (one base : α) (exponent : Nat) : α :=
  Nat.fold (exponent.log2 + 1) (fun i _ acc =>
    let squared := mul acc acc
    if exponent.testBit (exponent.log2 - i) then mul squared base else squared) one

-- ==================================================== the prime field

/-- The prime that coordinates are taken modulo. -/
def prime : Nat :=
  0x1a0111ea397fe69a4b1ba7b6434bacd764774b84f38512bf6730d2a0f6b0f6241eabfffeb153ffffb9feffffffffaaab

instance : @NeZero Nat Zero.ofOfNat0 prime := ⟨by decide⟩

/-- The integers modulo the prime. -/
abbrev Fp := Fin prime

namespace Fp

/-- A number modulo the prime. -/
def ofNat (n : Nat) : Fp := Fin.ofNat prime n

/-- A power of an element. -/
def power (x : Fp) (exponent : Nat) : Fp :=
  powerBy (· * ·) 1 x exponent

/-- The inverse, where zero is its own. -/
def inverse (x : Fp) : Fp :=
  x.power (prime - 2)

/-- A square root, if there is one. -/
def sqrt? (x : Fp) : Option Fp :=
  let y := x.power ((prime + 1) / 4)
  if y * y = x then some y else none

/-- Whether an element is greater than its negative. -/
def isLarge (x : Fp) : Bool :=
  (prime - 1) / 2 < x.val

end Fp

instance : BaseField Fp where
  zero := 0
  one := 1
  inverse := Fp.inverse

-- ================================================ the quadratic field

/-- Sums `re + im * u` with `u² = -1`. -/
structure Fp2 where
  re : Fp
  im : Fp
  deriving BEq, DecidableEq, Repr

namespace Fp2

/-- Zero. -/
def zero : Fp2 := ⟨0, 0⟩

/-- One. -/
def one : Fp2 := ⟨1, 0⟩

/-- The sum. -/
def add (x y : Fp2) : Fp2 := ⟨x.re + y.re, x.im + y.im⟩

/-- The difference. -/
def sub (x y : Fp2) : Fp2 := ⟨x.re - y.re, x.im - y.im⟩

/-- The negative. -/
def neg (x : Fp2) : Fp2 := ⟨-x.re, -x.im⟩

/-- The product, with three products of coordinates. -/
def mul (x y : Fp2) : Fp2 :=
  let a := x.re * y.re
  let b := x.im * y.im
  ⟨a - b, (x.re + x.im) * (y.re + y.im) - (a + b)⟩

/-- The conjugate, which is also the power by the prime. -/
def conj (x : Fp2) : Fp2 := ⟨x.re, -x.im⟩

/-- The product with an element of the prime field. -/
def scale (x : Fp2) (k : Fp) : Fp2 := ⟨x.re * k, x.im * k⟩

/-- The product with `1 + u`. -/
def mulXi (x : Fp2) : Fp2 := ⟨x.re - x.im, x.re + x.im⟩

/-- The inverse, where zero is its own. -/
def inverse (x : Fp2) : Fp2 :=
  let n := Fp.inverse (x.re * x.re + x.im * x.im)
  ⟨x.re * n, -(x.im * n)⟩

/-- A power of an element. -/
def power (x : Fp2) (exponent : Nat) : Fp2 :=
  powerBy mul one x exponent

/-- A square root, if there is one: its real part is a root of half of `re` plus or minus the norm. -/
def sqrt? (x : Fp2) : Option Fp2 :=
  if x.im = 0 then
    match x.re.sqrt? with
    | some r => some ⟨r, 0⟩
    | none => (-x.re).sqrt?.map fun r => ⟨0, r⟩
  else do
    let norm ← (x.re * x.re + x.im * x.im).sqrt?
    let half := Fp.inverse 2
    let r ← ((x.re + norm) * half).sqrt? <|> ((x.re - norm) * half).sqrt?
    let y : Fp2 := ⟨r, x.im * Fp.inverse (2 * r)⟩
    if mul y y = x then some y else none

/-- Whether an element is greater than its negative, the imaginary parts deciding first. -/
def isLarge (x : Fp2) : Bool :=
  if x.im = 0 then x.re.isLarge else x.im.isLarge

/-- The parity of an element, which is that of the first part that is not zero. -/
def isOdd (x : Fp2) : Bool :=
  if x.re = 0 then x.im.val % 2 == 1 else x.re.val % 2 == 1

end Fp2

instance : BaseField Fp2 where
  add := Fp2.add
  sub := Fp2.sub
  mul := Fp2.mul
  neg := Fp2.neg
  zero := Fp2.zero
  one := Fp2.one
  inverse := Fp2.inverse

-- =================================================== the sextic field

/-- Sums `a + b * v + c * v²` with `v³ = 1 + u`. -/
structure Fp6 where
  a : Fp2
  b : Fp2
  c : Fp2
  deriving BEq, DecidableEq, Repr

namespace Fp6

/-- Zero. -/
def zero : Fp6 := ⟨.zero, .zero, .zero⟩

/-- One. -/
def one : Fp6 := ⟨.one, .zero, .zero⟩

/-- The sum. -/
def add (x y : Fp6) : Fp6 := ⟨x.a + y.a, x.b + y.b, x.c + y.c⟩

/-- The difference. -/
def sub (x y : Fp6) : Fp6 := ⟨x.a - y.a, x.b - y.b, x.c - y.c⟩

/-- The negative. -/
def neg (x : Fp6) : Fp6 := ⟨-x.a, -x.b, -x.c⟩

/-- The product, with six products in the quadratic field. -/
def mul (x y : Fp6) : Fp6 :=
  let aa := x.a * y.a
  let bb := x.b * y.b
  let cc := x.c * y.c
  let ab := (x.a + x.b) * (y.a + y.b) - (aa + bb)
  let ac := (x.a + x.c) * (y.a + y.c) - (aa + cc)
  let bc := (x.b + x.c) * (y.b + y.c) - (bb + cc)
  ⟨aa + bc.mulXi, ab + cc.mulXi, ac + bb⟩

/-- The product with `v`. -/
def mulV (x : Fp6) : Fp6 := ⟨x.c.mulXi, x.a, x.b⟩

/-- The inverse, where zero is its own. -/
def inverse (x : Fp6) : Fp6 :=
  let s := x.a * x.a - (x.b * x.c).mulXi
  let t := (x.c * x.c).mulXi - x.a * x.b
  let w := x.b * x.b - x.a * x.c
  let n := Fp2.inverse (x.a * s + (x.c * t + x.b * w).mulXi)
  ⟨s * n, t * n, w * n⟩

end Fp6

-- ================================================= the field of values

/-- Sums `a + b * w` with `w² = v`. -/
structure Fp12 where
  a : Fp6
  b : Fp6
  deriving BEq, DecidableEq, Repr

namespace Fp12

/-- One. -/
def one : Fp12 := ⟨.one, .zero⟩

/-- The product, with three products in the sextic field. -/
def mul (x y : Fp12) : Fp12 :=
  let aa := x.a.mul y.a
  let bb := x.b.mul y.b
  let ab := (x.a.add x.b).mul (y.a.add y.b)
  ⟨aa.add bb.mulV, ab.sub (aa.add bb)⟩

/-- The square, with two products in the sextic field. -/
def square (x : Fp12) : Fp12 :=
  let ab := x.a.mul x.b
  let s := (x.a.add x.b).mul (x.a.add x.b.mulV)
  ⟨s.sub (ab.add ab.mulV), ab.add ab⟩

/-- The conjugate, which is also the power by the sixth power of the prime. -/
def conj (x : Fp12) : Fp12 := ⟨x.a, x.b.neg⟩

/-- The inverse, where zero is its own. -/
def inverse (x : Fp12) : Fp12 :=
  let n := ((x.a.mul x.a).sub (x.b.mul x.b).mulV).inverse
  ⟨x.a.mul n, (x.b.mul n).neg⟩

/-- The power of `1 + u` by a sixth of the prime less one. -/
def frobeniusUnit : Fp2 :=
  Fp2.power ⟨1, 1⟩ ((prime - 1) / 6)

/-- The powers of that unit that go with the powers of `w`. -/
def frobeniusUnits : Fp2 × Fp2 × Fp2 × Fp2 × Fp2 :=
  let g := frobeniusUnit
  let g2 := g * g
  let g3 := g2 * g
  (g, g2, g3, g2 * g2, g2 * g3)

/-- The power by the prime. -/
def frobenius (x : Fp12) : Fp12 :=
  let (g1, g2, g3, g4, g5) := frobeniusUnits
  ⟨⟨x.a.a.conj, x.a.b.conj * g2, x.a.c.conj * g4⟩,
    ⟨x.b.a.conj * g1, x.b.b.conj * g3, x.b.c.conj * g5⟩⟩

end Fp12

end ChainHead.Bls
