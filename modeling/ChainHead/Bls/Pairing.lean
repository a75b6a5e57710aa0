/-
The pairing of a point of `G1` with a point of `G2`.

The Miller loop runs over the bits of the curve's parameter and keeps a
running multiple of the point of `G2` as a Jacobian triple. Each step
multiplies the value by the line through the points that it adds, taken
at the point of `G1`; factors that lie in a proper subfield are left out,
since the final power sends them to one.

Only the question whether a product of pairings is one is asked here, so
the final power is the cube of the usual one, which is easier to compute
and answers the same question.
-/
import ChainHead.Bls.Curve

namespace ChainHead.Bls.Pairing

/-- The absolute value of the parameter of the curve, which is negative. -/
def parameter : Nat := 0xd201000000010000

-- ============================================================== lines

/-- A line at a point, by its coefficients at `1`, `w²` and `w³`. -/
structure Line where
  c0 : Fp2
  c2 : Fp2
  c3 : Fp2

/-- A value multiplied by a line. -/
def mulLine (f : Fp12) (l : Line) : Fp12 :=
  let sparse (x : Fp6) : Fp6 :=
    let aa := x.a * l.c0
    let bb := x.b * l.c2
    ⟨aa + (x.c * l.c2).mulXi, (x.a + x.b) * (l.c0 + l.c2) - (aa + bb), x.c * l.c0 + bb⟩
  let aa := sparse f.a
  let shifted (x : Fp6) : Fp6 := ⟨(x.c * l.c3).mulXi, x.a * l.c3, x.b * l.c3⟩
  let bb := shifted f.b
  ⟨aa.add bb.mulV, (sparse f.b).add (shifted f.a)⟩

/-- The tangent at a triple, taken at the point `(x, y)`. -/
def tangent (t : Jacobian Fp2) (x y : Fp) : Line :=
  let xx := t.x * t.x
  let yy := t.y * t.y
  let zz := t.z * t.z
  let xx3 := xx + xx + xx
  let yz := t.y * t.z * zz
  ⟨xx3 * t.x - (yy + yy), (-(xx3 * zz)).scale x, (yz + yz).scale y⟩

/-- The line through a triple and a point with coordinates, taken at the point `(x, y)`. -/
def chord (t : Jacobian Fp2) (qx qy : Fp2) (x y : Fp) : Line :=
  let zz := t.z * t.z
  let n := t.y - qy * (zz * t.z)
  let d := t.z * (t.x - qx * zz)
  ⟨n * qx - d * qy, (-n).scale x, d.scale y⟩

-- ======================================================= Miller loop

/-- A pair of points on its way through the loop. -/
structure Runner where
  x : Fp
  y : Fp
  qx : Fp2
  qy : Fp2
  multiple : Jacobian Fp2

/-- Doubles the running multiple and multiplies the value by the tangent. -/
def stepDouble (f : Fp12) (r : Runner) : Fp12 × Runner :=
  (mulLine f (tangent r.multiple r.x r.y), { r with multiple := r.multiple.double })

/-- Adds the point to the running multiple and multiplies the value by the line. -/
def stepAdd (f : Fp12) (r : Runner) : Fp12 × Runner :=
  (mulLine f (chord r.multiple r.qx r.qy r.x r.y),
    { r with multiple := r.multiple.add ⟨r.qx, r.qy, Fp2.one⟩ })

/-- One step for all pairs, one after the other. -/
def stepAll (step : Fp12 → Runner → Fp12 × Runner) (f : Fp12) :
    List Runner → Fp12 × List Runner
  | [] => (f, [])
  | r :: rest =>
    let (f, r) := step f r
    let (f, rest) := stepAll step f rest
    (f, r :: rest)

/-- The pair of two points, unless one of them is infinity. -/
def runner? : G1 × G2 → Option Runner
  | (.at x y, .at qx qy) => some ⟨x, y, qx, qy, ⟨qx, qy, Fp2.one⟩⟩
  | _ => none

/-- The value of the loop for a list of pairs. -/
def miller (pairs : List (G1 × G2)) : Fp12 :=
  let runners := pairs.filterMap runner?
  let (f, _) := Nat.fold parameter.log2 (fun i _ (f, rs) =>
    let (f, rs) := stepAll stepDouble (f.square) rs
    if parameter.testBit (parameter.log2 - 1 - i) then stepAll stepAdd f rs else (f, rs))
    (Fp12.one, runners)
  f.conj

-- ======================================================== final power

/-- The power by the parameter of a value whose conjugate is its inverse. -/
def powerParameter (f : Fp12) : Fp12 :=
  let g := Nat.fold parameter.log2 (fun i _ acc =>
    let squared := acc.square
    if parameter.testBit (parameter.log2 - 1 - i) then squared.mul f else squared) f
  g.conj

/-- The power that leaves one exactly of the values that pairings identify with one. -/
def finalPower (f : Fp12) : Fp12 :=
  let f := f.conj.mul f.inverse
  let f := f.frobenius.frobenius.mul f
  let a := (powerParameter f).mul f.conj
  let b := (powerParameter a).mul a.conj
  let c := (powerParameter b).mul b.frobenius
  let d := ((powerParameter (powerParameter c)).mul c.frobenius.frobenius).mul c.conj
  d.mul (f.square.mul f)

/-- Whether the product of the pairings of all pairs is one. -/
def productIsOne (pairs : List (G1 × G2)) : Bool :=
  finalPower (miller pairs) == Fp12.one

end ChainHead.Bls.Pairing
