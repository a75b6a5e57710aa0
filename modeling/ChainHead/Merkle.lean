/-
Merkle trees over 32-byte chunks.

`merkleize` computes the root of the full binary tree whose leaves are
the given chunks, padded with zero chunks to the next power of two. It
never builds the padding: it pairs up one layer after the other, and a
layer of odd length is completed with the root of a zero tree of the
height reached so far.

The hash of two chunks is a parameter of every definition here, so that
what is said of the tree holds for any such function; the containers of
this library use SHA-256.
-/
import ChainHead.Bytes

namespace ChainHead

/-- A hash of two chunks. -/
abbrev PairHash := Root → Root → Root

namespace Merkle

-- ============================================================ chunks

/-- The bytes of a word, least significant first, as a string of 8 bytes. -/
def littleEndian (value : UInt64) : BitVec 64 :=
  Bytes.ofList 64 (Bytes.ofNat 8 value.toNat).reverse

/-- A word as a chunk: its bytes, least significant first, then zeros. -/
def uint64Chunk (value : UInt64) : Root :=
  littleEndian value ++ (0 : BitVec 192)

/-- A fork version as a chunk: its bytes, then zeros. -/
def versionChunk (version : Version) : Root :=
  version ++ (0 : BitVec 224)

-- ============================================================ layers

/-- The layer above, where `pad` completes a layer of odd length. -/
def pairUp (hash : PairHash) (pad : Root) : List Root → List Root
  | a :: b :: rest => hash a b :: pairUp hash pad rest
  | [a] => [hash a pad]
  | [] => []

/-- The root over a layer, given the zero root of its height and room for `steps` layers above. -/
def climb (hash : PairHash) : (steps : Nat) → (pad : Root) → List Root → Root
  | _, _, [] => 0
  | _, _, [chunk] => chunk
  | 0, _, chunk :: _ => chunk
  | steps + 1, pad, layer => climb hash steps (hash pad pad) (pairUp hash pad layer)

/-- The root of the tree over chunks; a layer of `n` chunks has fewer than `n` layers above it. -/
def merkleize (hash : PairHash) (chunks : List Root) : Root :=
  climb hash chunks.length 0 chunks

end Merkle

end ChainHead
