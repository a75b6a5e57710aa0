/-
Bitfields bit by bit.

Bitfields are compared and joined byte by byte. That comes to the same
as bit by bit for those that are `Clean`: just the bytes that the bits
need, and nothing set beyond the length. Every way to make a bitfield
gives a clean one (`clean_zeros`, `Clean.set`, `clean_ofBools`,
`union_eq_ok`), so others are never met. For clean bitfields each
operation is then a statement about the positions in `ones`.
-/
import ChainHead.Bitfield
import Mathlib.Data.List.GetD
import Mathlib.Data.List.Nodup
import Mathlib.Data.List.Perm.Subperm

namespace ChainHead

/-- Two steps succeed together if the first does, and the second does
with what it gives. -/
theorem bind_eq_ok_iff {α β ε : Type} {x : Except ε α} {f : α → Except ε β} {b : β} :
    x >>= f = .ok b ↔ ∃ a, x = .ok a ∧ f a = .ok b := by
  cases x with
  | error e => simp [bind, Except.bind]
  | ok a => simp [bind, Except.bind]

namespace Bitfield

variable {a b c : Bitfield} {i : Nat}

-- ============================================== statement vocabulary

/-- Whether a bitfield has just the bytes that its bits need, with
nothing set beyond its length. -/
structure Clean (a : Bitfield) : Prop where
  bytes : a.bytes.length = (a.length + 7) / 8
  clear : ∀ i < 8 * a.bytes.length, a.length ≤ i → a.bit i = false

instance (a : Bitfield) : Decidable a.Clean :=
  decidable_of_iff (a.bytes.length = (a.length + 7) / 8
      ∧ ∀ i < 8 * a.bytes.length, a.length ≤ i → a.bit i = false)
    ⟨fun h => ⟨h.1, h.2⟩, fun h => ⟨h.bytes, h.clear⟩⟩

/-- A row of clear bits. -/
def zeros (length : Nat) : Bitfield :=
  ⟨length, List.replicate ((length + 7) / 8) 0⟩

-- ======================================================= single bytes

theorem testBit_and (x y : UInt8) (j : Nat) :
    (x &&& y).toNat.testBit j = (x.toNat.testBit j && y.toNat.testBit j) := by
  rw [UInt8.toNat_and, Nat.testBit_and]

theorem testBit_or (x y : UInt8) (j : Nat) :
    (x ||| y).toNat.testBit j = (x.toNat.testBit j || y.toNat.testBit j) := by
  rw [UInt8.toNat_or, Nat.testBit_or]

theorem testBit_not (x : UInt8) {j : Nat} (hj : j < 8) :
    (~~~x).toNat.testBit j = !x.toNat.testBit j := by
  have h : (~~~x.toBitVec).getLsbD j = !x.toBitVec.getLsbD j := by
    simp [hj]
  exact h

/-- A byte is zero unless one of its bits is set. -/
theorem pos_iff_testBit (x : UInt8) : 0 < x ↔ ∃ j < 8, x.toNat.testBit j = true := by
  rw [UInt8.lt_iff_toNat_lt]
  constructor
  · intro hpos
    obtain ⟨j, hj⟩ := Nat.exists_testBit_of_ne_zero (Nat.ne_of_gt hpos)
    refine ⟨j, ?_, hj⟩
    by_contra hge
    have hsmall : x.toNat < 2 ^ j :=
      Nat.lt_of_lt_of_le x.toNat_lt (Nat.pow_le_pow_right (by decide) (Nat.le_of_not_lt hge))
    rw [Nat.testBit_lt_two_pow hsmall] at hj
    cases hj
  · rintro ⟨j, -, hj⟩
    rcases Nat.eq_zero_or_pos x.toNat with hzero | hpos
    · rw [hzero, Nat.zero_testBit] at hj
      cases hj
    · exact hpos

theorem testBit_mask : ∀ place < 8, ∀ j < 8,
    ((1 : UInt8) <<< UInt8.ofNat place).toNat.testBit j = decide (j = place) := by
  decide

theorem testBit_setInByte (byte : UInt8) (value : Bool) {place j : Nat} (hplace : place < 8)
    (hj : j < 8) :
    (setInByte byte place value).toNat.testBit j
      = if j = place then value else byte.toNat.testBit j := by
  unfold setInByte
  cases value with
  | true =>
      rw [if_pos rfl, testBit_or, testBit_mask place hplace j hj]
      by_cases h : j = place
      · simp [h]
      · simp [h]
  | false =>
      rw [if_neg Bool.false_ne_true, testBit_and, testBit_not _ hj,
        testBit_mask place hplace j hj]
      by_cases h : j = place
      · simp [h]
      · simp [h]

-- ========================================================== positions

theorem bit_eq_false_of_bytes (h : 8 * a.bytes.length ≤ i) : a.bit i = false := by
  have hout : a.bytes.length ≤ i / 8 := by omega
  rw [bit, List.getD_eq_default _ _ hout]
  exact Nat.zero_testBit _

theorem Clean.bit_eq_false (h : a.Clean) (hi : a.length ≤ i) : a.bit i = false := by
  rcases Nat.lt_or_ge i (8 * a.bytes.length) with hin | hout
  · exact h.clear i hin hi
  · exact bit_eq_false_of_bytes hout

theorem mem_ones_iff : i ∈ a.ones ↔ i < a.length ∧ a.bit i = true := by
  rw [ones, List.mem_filter, List.mem_range]

/-- The bits up to the length of a clean bitfield are all that it has. -/
theorem Clean.mem_ones (h : a.Clean) : i ∈ a.ones ↔ a.bit i = true := by
  rw [mem_ones_iff]
  refine and_iff_right_of_imp fun hbit => ?_
  by_contra hout
  rw [h.bit_eq_false (Nat.le_of_not_lt hout)] at hbit
  cases hbit

theorem nodup_ones (a : Bitfield) : a.ones.Nodup :=
  List.nodup_range.filter _

theorem length_ones (a : Bitfield) : a.ones.length = a.count := by
  rw [ones, count, bits, List.count, List.countP_map, List.countP_eq_length_filter]
  congr 2
  funext i
  simp

theorem count_le_of_ones_subset (h : a.ones ⊆ b.ones) : a.count ≤ b.count := by
  rw [← length_ones, ← length_ones]
  exact (List.Nodup.subperm a.nodup_ones h).length_le

/-- Ones that are among others as many as they are those others. -/
theorem ones_subset_of_count_le (h : a.ones ⊆ b.ones) (hle : b.count ≤ a.count) :
    b.ones ⊆ a.ones := by
  rw [← length_ones, ← length_ones] at hle
  exact ((List.Nodup.subperm a.nodup_ones h).perm_of_length_le hle).symm.subset

theorem Clean.length_bytes_eq (ha : a.Clean) (hb : b.Clean) (h : a.length = b.length) :
    a.bytes.length = b.bytes.length := by
  rw [ha.bytes, hb.bytes, h]

-- ============================================================= making

theorem bit_zeros (length i : Nat) : (zeros length).bit i = false := by
  unfold zeros bit
  rw [List.getD_eq_getElem?_getD, List.getElem?_replicate]
  split
  case isTrue => exact Nat.zero_testBit _
  case isFalse => exact Nat.zero_testBit _

theorem clean_zeros (length : Nat) : (zeros length).Clean where
  bytes := List.length_replicate
  clear _ _ _ := bit_zeros length _

theorem ones_zeros (length : Nat) : (zeros length).ones = [] := by
  refine List.filter_eq_nil_iff.mpr fun i _ => ?_
  rw [bit_zeros]
  exact Bool.false_ne_true

theorem withLength_eq_ok {limit length : Nat} (h : withLength limit length = .ok a) :
    a = zeros length := by
  unfold withLength at h
  split at h
  case isTrue => cases h
  case isFalse =>
    injection h with h
    exact h.symm

/-- To put a bit changes that bit only. -/
theorem bit_put (a : Bitfield) (index : Nat) (value : Bool) :
    (a.put index value).bit i
      = if i = index ∧ index < 8 * a.bytes.length then value else a.bit i := by
  have hplace : index % 8 < 8 := Nat.mod_lt _ (by decide)
  have hj : i % 8 < 8 := Nat.mod_lt _ (by decide)
  unfold put bit
  rw [List.getD_eq_getElem?_getD, List.getD_eq_getElem?_getD, List.getElem?_modify]
  cases hget : a.bytes[i / 8]? with
  | none =>
      have hout := List.getElem?_eq_none_iff.mp hget
      rw [if_neg (by omega)]
      rfl
  | some byte =>
      obtain ⟨hin, -⟩ := List.getElem?_eq_some_iff.mp hget
      rw [Option.map_eq_map, Option.map_some, Option.getD_some, Option.getD_some]
      by_cases hbyte : index / 8 = i / 8
      · have hsame : (i = index ∧ index < 8 * a.bytes.length) = (i % 8 = index % 8) := by
          rw [eq_iff_iff]
          omega
        rw [if_pos hbyte, testBit_setInByte byte value hplace hj]
        simp only [hsame]
      · rw [if_neg hbyte, if_neg (by omega)]

theorem Clean.put (h : a.Clean) {index : Nat} (hindex : index < a.length) (value : Bool) :
    (a.put index value).Clean where
  bytes := by
    rw [Bitfield.put, List.length_modify]
    exact h.bytes
  clear := by
    intro i _ hi
    have hi' : a.length ≤ i := hi
    rw [bit_put, if_neg (by omega)]
    exact h.bit_eq_false hi'

theorem Clean.set (h : a.Clean) {index : Nat} {value : Bool} (hset : a.set index value = .ok b) :
    b.Clean := by
  unfold Bitfield.set at hset
  split at hset
  case isTrue => cases hset
  case isFalse hindex =>
    injection hset with hset
    rw [← hset]
    exact h.put (Nat.lt_of_not_le hindex) value

/-- To put bits within the length, one after the other, leaves the rest
clear. -/
theorem Clean.foldl_put {entries : List (Bool × Nat)} (h : a.Clean)
    (hall : ∀ entry ∈ entries, entry.2 < a.length) :
    (entries.foldl (fun a entry => a.put entry.2 entry.1) a).Clean := by
  induction entries generalizing a with
  | nil => exact h
  | cons entry entries ih =>
      obtain ⟨hone, hrest⟩ := List.forall_mem_cons.mp hall
      exact ih (h.put hone entry.1) hrest

theorem clean_ofBools {limit : Nat} {values : List Bool} (h : ofBools limit values = .ok a) :
    a.Clean := by
  obtain ⟨empty, hempty, hput⟩ := bind_eq_ok_iff.mp h
  rw [withLength_eq_ok hempty] at hput
  injection hput with hput
  rw [← hput]
  exact (clean_zeros _).foldl_put fun entry hentry => List.snd_lt_of_mem_zipIdx hentry

-- ========================================================== combining

/-- A test of whole bytes is a test of their bits. -/
theorem any_zip_iff {f : UInt8 → UInt8 → UInt8} {g : Bool → Bool → Bool}
    (hf : ∀ x y j, j < 8 →
      (f x y).toNat.testBit j = g (x.toNat.testBit j) (y.toNat.testBit j))
    (h : a.bytes.length = b.bytes.length) :
    ((a.bytes.zip b.bytes).any fun (x, y) => 0 < f x y) = true
      ↔ ∃ i < 8 * a.bytes.length, g (a.bit i) (b.bit i) = true := by
  rw [List.any_eq_true]
  constructor
  · rintro ⟨⟨x, y⟩, hmem, hpos⟩
    obtain ⟨k, hk, hxy⟩ := List.mem_iff_getElem.mp hmem
    rw [List.length_zip, ← h, Nat.min_self] at hk
    obtain ⟨j, hj, hbit⟩ := (pos_iff_testBit _).mp (of_decide_eq_true hpos)
    rw [List.getElem_zip, Prod.mk.injEq] at hxy
    have hdiv : (8 * k + j) / 8 = k := by omega
    have hmod : (8 * k + j) % 8 = j := by omega
    refine ⟨8 * k + j, by omega, ?_⟩
    rw [bit, bit, hdiv, hmod, List.getD_eq_getElem _ _ hk, List.getD_eq_getElem _ _ (h ▸ hk),
      hxy.1, hxy.2, ← hf x y j hj]
    exact hbit
  · rintro ⟨i, hi, hbit⟩
    have hk : i / 8 < a.bytes.length := by omega
    have hj : i % 8 < 8 := Nat.mod_lt _ (by decide)
    have hzip : i / 8 < (a.bytes.zip b.bytes).length := by
      rw [List.length_zip, ← h, Nat.min_self]
      exact hk
    refine ⟨(a.bytes.zip b.bytes)[i / 8], List.getElem_mem hzip, ?_⟩
    rw [List.getElem_zip]
    refine decide_eq_true ((pos_iff_testBit _).mpr ⟨i % 8, hj, ?_⟩)
    rw [bit, bit, List.getD_eq_getElem _ _ hk, List.getD_eq_getElem _ _ (h ▸ hk)] at hbit
    rw [hf _ _ _ hj]
    exact hbit

theorem anyNotIn_eq_ok (ha : a.Clean) (hb : b.Clean) (h : a.length = b.length) :
    ∃ found, a.anyNotIn b = .ok found ∧ (found = true ↔ ¬a.ones ⊆ b.ones) := by
  unfold anyNotIn
  rw [if_neg (not_not.mpr h)]
  refine ⟨_, rfl, ?_⟩
  rw [any_zip_iff (f := fun x y => x &&& ~~~y) (g := fun x y => x && !y)
    (fun x y j hj => by rw [testBit_and, testBit_not y hj]) (ha.length_bytes_eq hb h)]
  simp only [List.subset_def, ha.mem_ones, hb.mem_ones, not_forall, Bool.and_eq_true,
    Bool.not_eq_true', Bool.not_eq_true, exists_prop]
  refine exists_congr fun i => and_iff_right_of_imp fun hbit => ?_
  by_contra hout
  rw [bit_eq_false_of_bytes (Nat.le_of_not_lt hout)] at hbit
  cases hbit.1

theorem anyInCommon_eq_ok (ha : a.Clean) (hb : b.Clean) (h : a.length = b.length) :
    ∃ found, a.anyInCommon b = .ok found ∧ (found = true ↔ ∃ i ∈ a.ones, i ∈ b.ones) := by
  unfold anyInCommon
  rw [if_neg (not_not.mpr h)]
  refine ⟨_, rfl, ?_⟩
  rw [any_zip_iff (f := fun x y => x &&& y) (g := fun x y => x && y)
    (fun x y j _ => testBit_and x y j) (ha.length_bytes_eq hb h)]
  simp only [ha.mem_ones, hb.mem_ones, Bool.and_eq_true]
  refine exists_congr fun i => and_iff_right_of_imp fun hbit => ?_
  by_contra hout
  rw [bit_eq_false_of_bytes (Nat.le_of_not_lt hout)] at hbit
  cases hbit.1

/-- One bitfield is part of another of its length if its ones are. -/
theorem isSubsetOf_iff (ha : a.Clean) (hb : b.Clean) :
    a.isSubsetOf b = true ↔ a.length = b.length ∧ a.ones ⊆ b.ones := by
  unfold isSubsetOf
  by_cases h : a.length = b.length
  · obtain ⟨found, heq, hfound⟩ := anyNotIn_eq_ok ha hb h
    rw [heq]
    cases found with
    | true =>
        have hnot := hfound.mp rfl
        simp [hnot]
    | false =>
        have hsub : a.ones ⊆ b.ones := by
          by_contra hnot
          exact Bool.false_ne_true (hfound.mpr hnot)
        simp [h, hsub]
  · rw [anyNotIn, if_pos h]
    simp [h]

theorem isSubsetOf_self (a : Bitfield) : a.isSubsetOf a = true := by
  have hnone : ((a.bytes.zip a.bytes).any fun (x, y) => decide (0 < x &&& ~~~y)) = false := by
    rw [List.any_eq_false]
    intro ⟨x, y⟩ hmem
    obtain ⟨i, hi, heq⟩ := List.getElem_of_mem hmem
    rw [List.getElem_zip, Prod.mk.injEq] at heq
    rw [← heq.1, ← heq.2]
    simp
  unfold isSubsetOf anyNotIn
  rw [if_neg (not_not.mpr rfl)]
  simp [hnone]

/-- Two clean bitfields of one length can be joined. -/
theorem union_eq_ok (ha : a.Clean) (hb : b.Clean) (h : a.length = b.length) :
    ∃ c, a.union b = .ok c ∧ c.Clean ∧ c.length = a.length
      ∧ ∀ i, i ∈ c.ones ↔ i ∈ a.ones ∨ i ∈ b.ones := by
  have hbytes := ha.length_bytes_eq hb h
  have hbit : ∀ i, bit ⟨a.length, List.zipWith (· ||| ·) a.bytes b.bytes⟩ i
      = (a.bit i || b.bit i) := by
    intro i
    rw [bit, bit, bit, List.getD_eq_getElem?_getD, List.getElem?_zipWith]
    rcases Nat.lt_or_ge (i / 8) a.bytes.length with hin | hout
    · rw [List.getElem?_eq_getElem hin, List.getElem?_eq_getElem (hbytes ▸ hin),
        List.getD_eq_getElem _ _ hin, List.getD_eq_getElem _ _ (hbytes ▸ hin)]
      exact testBit_or _ _ _
    · rw [List.getElem?_eq_none hout, List.getD_eq_default _ _ hout,
        List.getD_eq_default _ _ (hbytes ▸ hout)]
      exact (Bool.or_self _).symm
  have hclean : Clean ⟨a.length, List.zipWith (· ||| ·) a.bytes b.bytes⟩ := by
    refine ⟨?_, fun i _ hi => ?_⟩
    · rw [List.length_zipWith, ← hbytes, Nat.min_self]
      exact ha.bytes
    · have hi' : a.length ≤ i := hi
      rw [hbit, ha.bit_eq_false hi', hb.bit_eq_false (h ▸ hi')]
      rfl
  refine ⟨_, ?_, hclean, rfl, fun i => ?_⟩
  · rw [union, if_neg (not_not.mpr h)]
  · rw [hclean.mem_ones, ha.mem_ones, hb.mem_ones, hbit, Bool.or_eq_true]

end Bitfield

end ChainHead
