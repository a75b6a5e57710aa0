/-
Two lists of chunks with one root show where the hash collides.

A root is computed by hashing pairs: those of a layer, then the two zero
roots that make the next one, and so on up (`hashedFrom`). Two lists of
one length go up side by side, over layers of one length and with the
same zero roots. As long as two layers differ and the layers above are
not the same, the difference goes up with them; where the layers above
are the same, some pair of the one and the pair in its place in the other
are hashed to the same (`pairUp_collision`). At the root the layers are
the same.

Words are put into chunks by their bytes, least significant first, so
different words make different chunks (`uint64Chunk_injective`).
-/
import ChainHead.Proofs.Merkle

namespace ChainHead

-- ================================================================ bytes

namespace Bytes

/-- In a list that is spelled backwards, the first byte has the least
weight. -/
theorem toNat_reverse_cons (b : UInt8) (bytes : List UInt8) :
    toNat (b :: bytes).reverse = toNat bytes.reverse * 256 + b.toNat := by
  rw [toNat, List.reverse_cons, List.foldl_append]
  rfl

theorem toNat_reverse_lt (bytes : List UInt8) : toNat bytes.reverse < 256 ^ bytes.length := by
  induction bytes with
  | nil => decide
  | cons b bytes ih =>
      have hb := b.toNat_lt
      rw [toNat_reverse_cons, List.length_cons, Nat.pow_succ]
      omega

/-- Lists of one length that spell the same number are the same. -/
theorem eq_of_toNat_reverse_eq {bytes bytes' : List UInt8} (hlength : bytes.length = bytes'.length)
    (h : toNat bytes.reverse = toNat bytes'.reverse) : bytes = bytes' := by
  induction bytes generalizing bytes' with
  | nil => exact (List.length_eq_zero_iff.mp hlength.symm).symm
  | cons b bytes ih =>
      match bytes', hlength with
      | b' :: bytes', hlength =>
          have hb := b.toNat_lt
          have hb' := b'.toNat_lt
          rw [toNat_reverse_cons, toNat_reverse_cons] at h
          have hfirst : b = b' := UInt8.toNat_inj.mp (by omega)
          have hrest : bytes = bytes' := ih (Nat.succ.inj hlength) (by omega)
          rw [hfirst, hrest]

theorem length_ofNat (count n : Nat) : (ofNat count n).length = count := by
  induction count with
  | zero => rfl
  | succ count ih => rw [ofNat, List.length_cons, ih]

/-- A number is known by as many low bytes as it has. -/
theorem mod_eq_of_ofNat_eq {count n n' : Nat} (h : ofNat count n = ofNat count n') :
    n % 256 ^ count = n' % 256 ^ count := by
  induction count with
  | zero => rw [Nat.pow_zero, Nat.mod_one, Nat.mod_one]
  | succ count ih =>
      obtain ⟨hfirst, hrest⟩ := List.cons.inj h
      have hshift : (2 : Nat) ^ (8 * count) = 256 ^ count := by rw [Nat.pow_mul]
      have hbyte := congrArg UInt8.toNat hfirst
      rw [UInt8.toNat_ofNat', UInt8.toNat_ofNat', Nat.shiftRight_eq_div_pow,
        Nat.shiftRight_eq_div_pow, hshift] at hbyte
      rw [Nat.pow_succ, Nat.mod_mul, Nat.mod_mul (x := n'), ih hrest, hbyte]

end Bytes

namespace Merkle

theorem littleEndian_injective : Function.Injective littleEndian := by
  intro a b h
  have hnat := congrArg BitVec.toNat h
  unfold littleEndian Bytes.ofList at hnat
  rw [BitVec.toNat_ofNat, BitVec.toNat_ofNat] at hnat
  have hbound (value : UInt64) : Bytes.toNat (Bytes.ofNat 8 value.toNat).reverse < 2 ^ 64 := by
    have hlt := Bytes.toNat_reverse_lt (Bytes.ofNat 8 value.toNat)
    rw [Bytes.length_ofNat] at hlt
    exact hlt
  rw [Nat.mod_eq_of_lt (hbound a), Nat.mod_eq_of_lt (hbound b)] at hnat
  have hbytes := Bytes.eq_of_toNat_reverse_eq
    (by rw [Bytes.length_ofNat, Bytes.length_ofNat]) hnat
  have hmod := Bytes.mod_eq_of_ofNat_eq hbytes
  have ha := a.toNat_lt
  have hb := b.toNat_lt
  exact UInt64.toNat_inj.mp (by omega)

/-- Different words make different chunks. -/
theorem uint64Chunk_injective : Function.Injective uint64Chunk := by
  intro a b h
  have hfront := congrArg (BitVec.extractLsb' 192 64) h
  unfold uint64Chunk at hfront
  rw [BitVec.extractLsb'_append_eq_left, BitVec.extractLsb'_append_eq_left] at hfront
  exact littleEndian_injective hfront

-- ============================================== statement vocabulary

/-- The pairs of a layer that are hashed, where `pad` completes a layer of
odd length. -/
def pairsIn (pad : Root) : List Root → List (Root × Root)
  | a :: b :: rest => (a, b) :: pairsIn pad rest
  | [a] => [(a, pad)]
  | [] => []

/-- All pairs that are hashed on the way from a layer to the root: those
of the layer, twice the zero root of its height, and those further up. -/
def hashedFrom (hash : PairHash) : (steps : Nat) → (pad : Root) → List Root → List (Root × Root)
  | _, _, [] => []
  | _, _, [_] => []
  | 0, _, _ :: _ => []
  | steps + 1, pad, layer =>
    pairsIn pad layer ++ (pad, pad) :: hashedFrom hash steps (hash pad pad) (pairUp hash pad layer)

/-- All pairs that are hashed for the root over chunks, in order. -/
def hashed (hash : PairHash) (chunks : List Root) : List (Root × Root) :=
  hashedFrom hash chunks.length 0 chunks

/-- Whether a pair of one computation and a different pair of another are
hashed to the same. -/
def Collision (hash : PairHash) (pairs pairs' : List (Root × Root)) : Prop :=
  ∃ p ∈ pairs, ∃ p' ∈ pairs', p ≠ p' ∧ hash p.1 p.2 = hash p'.1 p'.2

variable {hash hash' : PairHash} {pad : Root} {layer layer' chunks chunks' : List Root}
variable {steps : Nat} {pairs pairs' all all' : List (Root × Root)}

-- ================================================ what roots are made of

/-- A layer is the hashes of the pairs below, in their order. -/
theorem pairUp_eq_map (hash : PairHash) (pad : Root) (layer : List Root) :
    pairUp hash pad layer = (pairsIn pad layer).map fun p => hash p.1 p.2 := by
  induction layer using pairUp.induct with
  | case1 a b rest ih => rw [pairUp, pairsIn, List.map_cons, ih]
  | case2 a => rfl
  | case3 => rfl

/-- There is nothing to hash above a single chunk, which is the root. -/
theorem eq_of_climb_eq (hfew : layer.length ≤ 1) (hlength : layer.length = layer'.length)
    (h : climb hash steps pad layer = climb hash steps pad layer') : layer = layer' := by
  match layer, layer', hlength with
  | [], [], _ => rfl
  | [chunk], [chunk'], _ =>
      rw [climb, climb] at h
      rw [h]

theorem climb_lap (h : 1 < layer.length) : climb hash (steps + 1) pad layer
    = climb hash steps (hash pad pad) (pairUp hash pad layer) := by
  match layer, h with
  | a :: b :: rest, _ =>
      rw [climb]
      · rintro ⟨⟩
      · rintro chunk ⟨⟩

theorem hashedFrom_lap (h : 1 < layer.length) : hashedFrom hash (steps + 1) pad layer
    = pairsIn pad layer
      ++ (pad, pad) :: hashedFrom hash steps (hash pad pad) (pairUp hash pad layer) := by
  match layer, h with
  | a :: b :: rest, _ =>
      rw [hashedFrom]
      · rintro ⟨⟩
      · rintro chunk ⟨⟩

/-- Another hash that does the same to these pairs leads to the same
root. -/
theorem climb_congr (h : ∀ p ∈ hashedFrom hash steps pad layer, hash' p.1 p.2 = hash p.1 p.2) :
    climb hash' steps pad layer = climb hash steps pad layer := by
  induction steps generalizing pad layer with
  | zero =>
      match layer with
      | [] => rfl
      | [chunk] => rfl
      | a :: b :: rest => rfl
  | succ steps ih =>
      rcases Nat.lt_or_ge 1 layer.length with hmore | hfew
      · rw [hashedFrom_lap hmore, List.forall_mem_append, List.forall_mem_cons] at h
        obtain ⟨hlayer, hpad, habove⟩ := h
        have hpairs : pairUp hash' pad layer = pairUp hash pad layer := by
          rw [pairUp_eq_map, pairUp_eq_map]
          exact List.map_congr_left hlayer
        rw [climb_lap hmore, climb_lap hmore, hpad, hpairs]
        exact ih habove
      · match layer, hfew with
        | [], _ => rfl
        | [chunk], _ => rfl

/-- A root depends on nothing but the hashes of the pairs that are hashed
for it. -/
theorem merkleize_congr (h : ∀ p ∈ hashed hash chunks, hash' p.1 p.2 = hash p.1 p.2) :
    merkleize hash' chunks = merkleize hash chunks :=
  climb_congr h

-- =========================================================== collisions

/-- A collision of some of the pairs is one of all. -/
theorem Collision.mono (h : Collision hash pairs pairs') (hpairs : pairs ⊆ all)
    (hpairs' : pairs' ⊆ all') : Collision hash all all' := by
  obtain ⟨p, hp, p', hp', hne, heq⟩ := h
  exact ⟨p, hpairs hp, p', hpairs' hp', hne, heq⟩

/-- Two layers of one length that differ have different layers above
them, unless two of their pairs collide. -/
theorem pairUp_collision (hlength : layer.length = layer'.length) (hne : layer ≠ layer')
    (h : pairUp hash pad layer = pairUp hash pad layer') :
    Collision hash (pairsIn pad layer) (pairsIn pad layer') := by
  induction layer using pairUp.induct generalizing layer' with
  | case1 a b rest ih =>
      obtain ⟨a', tail, rfl⟩ := List.exists_cons_of_length_eq_add_one hlength.symm
      obtain ⟨b', rest', rfl⟩ :=
        List.exists_cons_of_length_eq_add_one (Nat.succ.inj hlength.symm)
      rw [pairUp, pairUp] at h
      obtain ⟨hpair, habove⟩ := List.cons.inj h
      by_cases hsame : (a, b) = (a', b')
      · obtain ⟨rfl, rfl⟩ := Prod.mk.inj hsame
        have hrest : rest ≠ rest' := fun heq => hne (by rw [heq])
        have hlength' : rest.length = rest'.length := Nat.succ.inj (Nat.succ.inj hlength)
        exact (ih hlength' hrest habove).mono (List.subset_cons_self _ _)
          (List.subset_cons_self _ _)
      · exact ⟨_, List.mem_cons_self, _, List.mem_cons_self, hsame, hpair⟩
  | case2 a =>
      obtain ⟨a', rfl⟩ := List.length_eq_one_iff.mp hlength.symm
      have hpair : hash a pad = hash a' pad := List.singleton_inj.mp h
      refine ⟨_, List.mem_cons_self, _, List.mem_cons_self, fun hsame => hne ?_, hpair⟩
      rw [(Prod.mk.inj hsame).1]
  | case3 => exact absurd (List.length_eq_zero_iff.mp hlength.symm).symm hne

/-- Two layers of one length that differ have different roots, unless two
pairs collide on the way. -/
theorem climb_collision (hroom : layer.length ≤ steps + 1) (hlength : layer.length = layer'.length)
    (hne : layer ≠ layer') (h : climb hash steps pad layer = climb hash steps pad layer') :
    Collision hash (hashedFrom hash steps pad layer) (hashedFrom hash steps pad layer') := by
  induction steps generalizing pad layer layer' with
  | zero => exact absurd (eq_of_climb_eq hroom hlength h) hne
  | succ steps ih =>
      rcases Nat.lt_or_ge 1 layer.length with hmore | hfew
      · have hmore' : 1 < layer'.length := hlength ▸ hmore
        have habove := length_pairUp hash pad layer
        have habove' := length_pairUp hash pad layer'
        rw [climb_lap hmore, climb_lap hmore'] at h
        rw [hashedFrom_lap hmore, hashedFrom_lap hmore']
        by_cases hsame : pairUp hash pad layer = pairUp hash pad layer'
        · exact (pairUp_collision hlength hne hsame).mono (List.subset_append_left _ _)
            (List.subset_append_left _ _)
        · have hfurther := ih (by omega) (by rw [habove, habove', hlength]) hsame h
          refine hfurther.mono ?_ ?_
          · exact List.subset_append_of_subset_right _ (List.subset_cons_self _ _)
          · exact List.subset_append_of_subset_right _ (List.subset_cons_self _ _)
      · exact absurd (eq_of_climb_eq hfew hlength h) hne

/-- The same for the roots over chunks. -/
theorem merkleize_collision (hlength : chunks.length = chunks'.length) (hne : chunks ≠ chunks')
    (h : merkleize hash chunks = merkleize hash chunks') :
    Collision hash (hashed hash chunks) (hashed hash chunks') := by
  unfold merkleize hashed at *
  rw [← hlength] at h ⊢
  exact climb_collision (Nat.le_succ _) hlength hne h

end Merkle

end ChainHead
