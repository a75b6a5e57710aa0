/-
SHA-256 of byte lists and of pairs of roots.

A message is padded to whole blocks of sixteen words; each block is
stretched to a schedule of 64 words and mixed into a state of eight.
`digest` hashes a list of bytes, `pair` hashes two roots side by side,
which is the only use a Merkle tree makes of the hash, and goes straight
from the roots to words.

A word is a natural number below `2 ^ 32`; every operation that could
leave that range ends by taking the remainder. The schedule is built
newest word first, so that the words it looks back on are at the front.
-/
import ChainHead.Bytes

namespace ChainHead.Sha256

-- ============================================================= words

/-- The number of different words. -/
@[inline] def wordCount : Nat := 4294967296

/-- The sum of two words. -/
@[inline] def add (x y : Nat) : Nat :=
  (x + y) % wordCount

/-- A word turned right by `k` places, given `2 ^ k`: its low `k` bits move to the top. -/
@[inline] def rotateRight (x scale : Nat) : Nat :=
  x / scale + x % scale * (wordCount / scale)

/-- A word with every bit turned over. -/
@[inline] def complement (x : Nat) : Nat :=
  wordCount - 1 - x

-- ========================================================= constants

/-- The round constants: fractions of the cube roots of the first primes. -/
def roundConstants : List Nat :=
  [0x428a2f98, 0x71374491, 0xb5c0fbcf, 0xe9b5dba5, 0x3956c25b, 0x59f111f1, 0x923f82a4, 0xab1c5ed5,
    0xd807aa98, 0x12835b01, 0x243185be, 0x550c7dc3, 0x72be5d74, 0x80deb1fe, 0x9bdc06a7, 0xc19bf174,
    0xe49b69c1, 0xefbe4786, 0x0fc19dc6, 0x240ca1cc, 0x2de92c6f, 0x4a7484aa, 0x5cb0a9dc, 0x76f988da,
    0x983e5152, 0xa831c66d, 0xb00327c8, 0xbf597fc7, 0xc6e00bf3, 0xd5a79147, 0x06ca6351, 0x14292967,
    0x27b70a85, 0x2e1b2138, 0x4d2c6dfc, 0x53380d13, 0x650a7354, 0x766a0abb, 0x81c2c92e, 0x92722c85,
    0xa2bfe8a1, 0xa81a664b, 0xc24b8b70, 0xc76c51a3, 0xd192e819, 0xd6990624, 0xf40e3585, 0x106aa070,
    0x19a4c116, 0x1e376c08, 0x2748774c, 0x34b0bcb5, 0x391c0cb3, 0x4ed8aa4a, 0x5b9cca4f, 0x682e6ff3,
    0x748f82ee, 0x78a5636f, 0x84c87814, 0x8cc70208, 0x90befffa, 0xa4506ceb, 0xbef9a3f7, 0xc67178f2]

/-- The eight words that are mixed. -/
structure State where
  a : Nat
  b : Nat
  c : Nat
  d : Nat
  e : Nat
  f : Nat
  g : Nat
  h : Nat
  deriving DecidableEq, Repr

/-- The state before the first block. -/
def State.initial : State :=
  ⟨0x6a09e667, 0xbb67ae85, 0x3c6ef372, 0xa54ff53a, 0x510e527f, 0x9b05688c, 0x1f83d9ab, 0x5be0cd19⟩

/-- The words of a state side by side. -/
def State.root (s : State) : Root :=
  BitVec.ofNat 256
    ([s.a, s.b, s.c, s.d, s.e, s.f, s.g, s.h].foldl (fun n w => n * wordCount + w) 0)

-- ============================================================ mixing

/-- The schedule that starts with the given words, longer by `count` words, newest first. -/
def stretch : (count : Nat) → List Nat → List Nat
  | 0, words => words
  | count + 1, words =>
    let x := words.getD 14 0
    let y := words.getD 1 0
    let s0 := rotateRight x (1 <<< 7) ^^^ rotateRight x (1 <<< 18) ^^^ (x >>> 3)
    let s1 := rotateRight y (1 <<< 17) ^^^ rotateRight y (1 <<< 19) ^^^ (y >>> 10)
    stretch count ((words.getD 15 0 + s0 + words.getD 6 0 + s1) % wordCount :: words)

/-- One round with its constant and its word of the schedule. -/
def State.round (s : State) (constant word : Nat) : State :=
  let s1 := rotateRight s.e (1 <<< 6) ^^^ rotateRight s.e (1 <<< 11) ^^^ rotateRight s.e (1 <<< 25)
  let choice := (s.e &&& s.f) ^^^ (complement s.e &&& s.g)
  let t1 := s.h + s1 + choice + constant + word
  let s0 := rotateRight s.a (1 <<< 2) ^^^ rotateRight s.a (1 <<< 13) ^^^ rotateRight s.a (1 <<< 22)
  let majority := (s.a &&& s.b) ^^^ (s.a &&& s.c) ^^^ (s.b &&& s.c)
  ⟨add t1 (s0 + majority), s.a, s.b, s.c, add s.d t1, s.e, s.f, s.g⟩

/-- The state after a block of sixteen words. -/
def State.absorb (s : State) (block : List Nat) : State :=
  let schedule := (stretch 48 block.reverse).reverse
  let t := (roundConstants.zip schedule).foldl (fun t (k, w) => t.round k w) s
  ⟨add s.a t.a, add s.b t.b, add s.c t.c, add s.d t.d, add s.e t.e, add s.f t.f, add s.g t.g,
    add s.h t.h⟩

-- ========================================================== messages

/-- A message with its padding: a one bit, zeros, and its length in bits. -/
def padded (message : List UInt8) : List UInt8 :=
  let zeros := (119 - message.length % 64) % 64
  message ++ 0x80 :: List.replicate zeros 0 ++ Bytes.ofNat 8 (8 * message.length)

/-- The state after bytes, block by block; bytes that fill no block are dropped. -/
def State.absorbBytes (s : State) : (block : List Nat) → List UInt8 → State
  | block, a :: b :: c :: d :: rest =>
    let word := ((a.toNat * 256 + b.toNat) * 256 + c.toNat) * 256 + d.toNat
    if block.length = 15 then (s.absorb (block ++ [word])).absorbBytes [] rest
    else s.absorbBytes (block ++ [word]) rest
  | _, _ => s

/-- The hash of a list of bytes. -/
def digest (message : List UInt8) : Root :=
  (State.initial.absorbBytes [] (padded message)).root

-- ============================================================= pairs

/-- The eight words of a root. -/
def rootWords (r : Root) : List Nat :=
  [224, 192, 160, 128, 96, 64, 32, 0].map fun places => (r.toNat >>> places) % wordCount

/-- The padding of a message of 64 bytes, which is a block of its own. -/
def pairPadding : List Nat :=
  [0x80000000, 0, 0, 0, 0, 0, 0, 0, 0, 0, 0, 0, 0, 0, 0, 512]

/-- The hash of two roots side by side. -/
def pair (left right : Root) : Root :=
  ((State.initial.absorb (rootWords left ++ rootWords right)).absorb pairPadding).root

end ChainHead.Sha256
