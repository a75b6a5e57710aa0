/-
Bitfields that are made and changed in any number of steps.

A run is a list of calls, newest first, on bitfields in numbered places;
`after` replays it. A call that is refused changes nothing. What can be
in a place after a run is `Obtainable`, and that is every clean bitfield
within the limit and nothing else (`obtainable_iff`): each call keeps
both (`fits_after`), and a clean bitfield is made from its own bits
(`Fits.ofBools_bits`).

Clean bitfields of one length and with the same bits are the same
(`Clean.eq_of_bit_eq`). So for all that are obtainable the tests of whole
bytes come to tests of the bits (`Bitwise`), to be a subset is a partial
order, and the union is the least of those that contain both (`Joins`).
-/
import ChainHead.Proofs.Bitfield
import Mathlib.Logic.Function.Basic
import Mathlib.Order.Defs.Unbundled

namespace ChainHead.Bitfield

-- ================================================================ runs

/-- What can be asked for: a new bitfield in a place, or another in place
of the one that is there. -/
inductive Call where
  | withLength (place length : Nat)
  | single (place length index : Nat)
  | ofBools (place : Nat) (values : List Bool)
  | set (place index : Nat) (value : Bool)
  | union (place other : Nat)

/-- Puts a bitfield in a place, unless it was refused. -/
def keep {ε : Type} (places : Nat → Bitfield) (place : Nat) : Except ε Bitfield → Nat → Bitfield
  | .ok a => Function.update places place a
  | .error _ => places

/-- The bitfields after one call. -/
def call (limit : Nat) (places : Nat → Bitfield) : Call → Nat → Bitfield
  | .withLength place length => keep places place (withLength limit length)
  | .single place length index => keep places place (single limit length index)
  | .ofBools place values => keep places place (ofBools limit values)
  | .set place index value => keep places place ((places place).set index value)
  | .union place other => keep places place ((places place).union (places other))

/-- The bitfields after a run, given newest call first. All are empty in
the beginning. -/
def after (limit : Nat) : List Call → Nat → Bitfield
  | [] => fun _ => {}
  | c :: earlier => call limit (after limit earlier) c

/-- Whether a bitfield can be in some place after some run. -/
def Obtainable (limit : Nat) (a : Bitfield) : Prop :=
  ∃ calls place, after limit calls place = a

-- ============================================== statement vocabulary

/-- Whether a bitfield is clean and within a limit. -/
structure Fits (limit : Nat) (a : Bitfield) : Prop where
  length : a.length ≤ limit
  clean : a.Clean

/-- Whether the tests of two bitfields say what their bits say. -/
structure Bitwise (a b : Bitfield) : Prop where
  notIn : a.anyNotIn b = .ok (decide (∃ i < a.length, a.bit i = true ∧ b.bit i = false))
  inCommon : a.anyInCommon b = .ok (decide (∃ i < a.length, a.bit i = true ∧ b.bit i = true))
  subset : a.isSubsetOf b = decide (∀ i < a.length, a.bit i = true → b.bit i = true)

/-- Whether a bitfield is the least obtainable one that contains two
others, and has as many bits as these without those that they share. -/
structure Joins (limit : Nat) (a b c : Bitfield) : Prop where
  obtainable : Obtainable limit c
  left : a.isSubsetOf c = true
  right : b.isSubsetOf c = true
  least : ∀ d, Obtainable limit d → a.isSubsetOf d = true → b.isSubsetOf d = true →
    c.isSubsetOf d = true
  count : c.count + ((List.range a.length).filter fun i => a.bit i && b.bit i).length
    = a.count + b.count

variable {limit : Nat} {a b c : Bitfield} {i : Nat}

-- ======================================================= what calls give

theorem fits_of_withLength {length : Nat} (h : withLength limit length = .ok a) :
    Fits limit a ∧ a.length = length := by
  have hzeros := withLength_eq_ok h
  unfold withLength at h
  split at h
  case isTrue => cases h
  case isFalse hle =>
    rw [hzeros]
    exact ⟨⟨Nat.le_of_not_lt hle, clean_zeros length⟩, rfl⟩

theorem length_of_set {index : Nat} {value : Bool} (h : a.set index value = .ok b) :
    b.length = a.length := by
  unfold set at h
  split at h
  case isTrue => cases h
  case isFalse =>
    cases h
    rfl

theorem Fits.set (h : Fits limit a) {index : Nat} {value : Bool}
    (hset : a.set index value = .ok b) : Fits limit b :=
  ⟨length_of_set hset ▸ h.length, h.clean.set hset⟩

theorem fits_of_single {length index : Nat} (h : single limit length index = .ok a) :
    Fits limit a := by
  obtain ⟨empty, hempty, hset⟩ := bind_eq_ok_iff.mp h
  exact (fits_of_withLength hempty).1.set hset

theorem length_foldl_put (entries : List (Bool × Nat)) (a : Bitfield) :
    (entries.foldl (fun a (value, index) => a.put index value) a).length = a.length := by
  induction entries generalizing a with
  | nil => rfl
  | cons entry entries ih => exact ih _

theorem fits_of_ofBools {values : List Bool} (h : ofBools limit values = .ok a) :
    Fits limit a := by
  obtain ⟨empty, hempty, hput⟩ := bind_eq_ok_iff.mp h
  refine ⟨?_, clean_ofBools h⟩
  cases hput
  rw [length_foldl_put]
  exact (fits_of_withLength hempty).1.length

theorem length_eq_of_union (h : a.union b = .ok c) : a.length = b.length := by
  unfold Bitfield.union at h
  split at h
  case isTrue => cases h
  case isFalse hlength => exact not_not.mp hlength

theorem Fits.union (ha : Fits limit a) (hb : Fits limit b) (h : a.union b = .ok c) :
    Fits limit c := by
  obtain ⟨c', hunion, hclean, hlength, -⟩ :=
    union_eq_ok ha.clean hb.clean (length_eq_of_union h)
  obtain rfl : c' = c := Except.ok.inj (hunion.symm.trans h)
  exact ⟨hlength ▸ ha.length, hclean⟩

-- ======================================================= what runs keep

/-- What fits everywhere still does if what is put in a place fits. -/
theorem fits_keep {ε : Type} {places : Nat → Bitfield} {place : Nat} {result : Except ε Bitfield}
    (h : ∀ other, Fits limit (places other)) (hresult : ∀ a, result = .ok a → Fits limit a)
    (other : Nat) : Fits limit (keep places place result other) := by
  cases result with
  | error e => exact h other
  | ok a =>
      rw [keep, Function.update_apply]
      split
      case isTrue => exact hresult a rfl
      case isFalse => exact h other

theorem fits_call {places : Nat → Bitfield} (h : ∀ place, Fits limit (places place)) (c : Call)
    (place : Nat) : Fits limit (call limit places c place) := by
  cases c with
  | withLength place length => exact fits_keep h (fun a ha => (fits_of_withLength ha).1) _
  | single place length index => exact fits_keep h (fun a ha => fits_of_single ha) _
  | ofBools place values => exact fits_keep h (fun a ha => fits_of_ofBools ha) _
  | set place index value => exact fits_keep h (fun a ha => (h place).set ha) _
  | union place other => exact fits_keep h (fun a ha => (h place).union (h other) ha) _

/-- In any run, every place has a clean bitfield within the limit. -/
theorem fits_after (limit : Nat) (calls : List Call) (place : Nat) :
    Fits limit (after limit calls place) := by
  induction calls generalizing place with
  | nil => exact ⟨Nat.zero_le _, clean_zeros 0⟩
  | cons c earlier ih => exact fits_call ih c place

-- ======================================================== bits and bytes

/-- Clean bitfields of one length are the same if their bits are. -/
theorem Clean.eq_of_bit_eq (ha : a.Clean) (hb : b.Clean) (hlength : a.length = b.length)
    (hbit : ∀ i < a.length, a.bit i = b.bit i) : a = b := by
  have hall : ∀ i, a.bit i = b.bit i := fun i => by
    rcases Nat.lt_or_ge i a.length with hin | hout
    · exact hbit i hin
    · rw [ha.bit_eq_false hout, hb.bit_eq_false (hlength ▸ hout)]
  have hbytes : a.bytes = b.bytes := by
    refine List.ext_getElem (ha.length_bytes_eq hb hlength) fun k hk hk' => ?_
    refine UInt8.toNat_inj.mp (Nat.eq_of_testBit_eq fun j => ?_)
    rcases Nat.lt_or_ge j 8 with hj | hj
    · have hdiv : (8 * k + j) / 8 = k := by omega
      have hmod : (8 * k + j) % 8 = j := by omega
      have hsame := hall (8 * k + j)
      rw [bit, bit, hdiv, hmod, List.getD_eq_getElem _ _ hk, List.getD_eq_getElem _ _ hk'] at hsame
      exact hsame
    · have hsmall : ∀ byte : UInt8, byte.toNat < 2 ^ j := fun byte =>
        Nat.lt_of_lt_of_le byte.toNat_lt (Nat.pow_le_pow_right (by decide) hj)
      rw [Nat.testBit_lt_two_pow (hsmall _), Nat.testBit_lt_two_pow (hsmall _)]
  cases a
  cases b
  cases hlength
  cases hbytes
  rfl

/-- To put values in a row changes the bits from the first to the last. -/
theorem bit_foldl_put (values : List Bool) (start : Nat) (a : Bitfield)
    (hroom : start + values.length ≤ 8 * a.bytes.length) :
    ((values.zipIdx start).foldl (fun a (value, index) => a.put index value) a).bit i
      = if start ≤ i ∧ i < start + values.length then values.getD (i - start) false
        else a.bit i := by
  induction values generalizing start a with
  | nil =>
      rw [if_neg (by rw [List.length_nil]; omega)]
      rfl
  | cons value values ih =>
      rw [List.length_cons] at hroom ⊢
      have hbytes : (a.put start value).bytes.length = a.bytes.length := List.length_modify _ _ _
      rw [List.zipIdx_cons, List.foldl_cons, ih _ _ (by rw [hbytes]; omega), bit_put]
      rcases Nat.lt_trichotomy i start with hbefore | rfl | hbehind
      · rw [if_neg (by omega), if_neg (by omega), if_neg (by omega)]
      · rw [if_neg (by omega), if_pos (by omega), if_pos (by omega), Nat.sub_self]
        rfl
      · have hnext : i - start = i - (start + 1) + 1 := by omega
        rw [if_neg (c := i = start ∧ _) (by omega), hnext, List.getD_cons_succ]
        exact if_congr (by omega) rfl rfl

/-- A clean bitfield within the limit is made from its own bits. -/
theorem Fits.ofBools_bits (h : Fits limit a) : ofBools limit a.bits = .ok a := by
  have hbits : a.bits.length = a.length := by
    rw [bits, List.length_map, List.length_range]
  have hempty : withLength limit a.bits.length = .ok (zeros a.length) := by
    rw [withLength, hbits, if_neg (Nat.not_lt.mpr h.length), zeros]
  have hmade : ofBools limit a.bits
      = .ok (a.bits.zipIdx.foldl (fun a (value, index) => a.put index value) (zeros a.length)) := by
    rw [ofBools, hempty]
    rfl
  rw [hmade]
  refine congrArg Except.ok
    ((clean_ofBools hmade).eq_of_bit_eq h.clean (length_foldl_put _ _) fun i hi => ?_)
  have hlt : i < a.length := (length_foldl_put _ (zeros a.length)) ▸ hi
  have hroom : 0 + a.bits.length ≤ 8 * (zeros a.length).bytes.length := by
    rw [hbits, (clean_zeros a.length).bytes]
    show 0 + a.length ≤ 8 * ((a.length + 7) / 8)
    omega
  rw [bit_foldl_put _ _ _ hroom, if_pos (by omega), Nat.sub_zero, bits]
  simp [hlt]

/-- Every clean bitfield within the limit can be obtained, and no other. -/
theorem obtainable_iff : Obtainable limit a ↔ Fits limit a := by
  constructor
  · rintro ⟨calls, place, rfl⟩
    exact fits_after limit calls place
  · intro h
    refine ⟨[.ofBools 0 a.bits], 0, ?_⟩
    rw [after, call, h.ofBools_bits]
    rfl

-- ============================================================== meaning

theorem bitwise (ha : a.Clean) (hb : b.Clean) (h : a.length = b.length) : Bitwise a b := by
  have hsubset : a.ones ⊆ b.ones ↔ ∀ i < a.length, a.bit i = true → b.bit i = true := by
    simp only [List.subset_def, mem_ones_iff, ← h]
    exact ⟨fun hsub i hi hbit => (hsub ⟨hi, hbit⟩).2, fun hall i ⟨hi, hbit⟩ => ⟨hi, hall i hi hbit⟩⟩
  obtain ⟨found, hnotIn, hfound⟩ := anyNotIn_eq_ok ha hb h
  obtain ⟨shared, hinCommon, hshared⟩ := anyInCommon_eq_ok ha hb h
  refine ⟨hnotIn.trans (congrArg _ ?_), hinCommon.trans (congrArg _ ?_), ?_⟩
  · rw [Bool.eq_iff_iff, hfound, hsubset, decide_eq_true_iff]
    simp
  · rw [Bool.eq_iff_iff, hshared, decide_eq_true_iff]
    simp only [mem_ones_iff, ← h]
    exact exists_congr fun i => ⟨fun ⟨hin, hin'⟩ => ⟨hin.1, hin.2, hin'.2⟩,
      fun ⟨hi, hbit, hbit'⟩ => ⟨⟨hi, hbit⟩, hi, hbit'⟩⟩
  · rw [Bool.eq_iff_iff, isSubsetOf_iff ha hb, hsubset, decide_eq_true_iff]
    exact and_iff_right h

/-- To be a subset is an order of clean bitfields. -/
theorem Clean.isSubsetOf_antisymm (ha : a.Clean) (hb : b.Clean) (h : a.isSubsetOf b = true)
    (h' : b.isSubsetOf a = true) : a = b := by
  obtain ⟨hlength, hsub⟩ := (isSubsetOf_iff ha hb).mp h
  obtain ⟨-, hsub'⟩ := (isSubsetOf_iff hb ha).mp h'
  refine ha.eq_of_bit_eq hb hlength fun i _ => ?_
  rw [Bool.eq_iff_iff, ← ha.mem_ones, ← hb.mem_ones]
  exact ⟨fun hi => hsub hi, fun hi => hsub' hi⟩

theorem Clean.isSubsetOf_trans (ha : a.Clean) (hb : b.Clean) (hc : c.Clean)
    (h : a.isSubsetOf b = true) (h' : b.isSubsetOf c = true) : a.isSubsetOf c = true := by
  obtain ⟨hlength, hsub⟩ := (isSubsetOf_iff ha hb).mp h
  obtain ⟨hlength', hsub'⟩ := (isSubsetOf_iff hb hc).mp h'
  exact (isSubsetOf_iff ha hc).mpr ⟨hlength.trans hlength', fun _ hi => hsub' (hsub hi)⟩

theorem isPartialOrder_isSubsetOf (limit : Nat) :
    IsPartialOrder {a // Obtainable limit a} fun a b => a.1.isSubsetOf b.1 = true where
  refl a := isSubsetOf_self a.1
  trans a b c h h' := (obtainable_iff.mp a.2).clean.isSubsetOf_trans
    (obtainable_iff.mp b.2).clean (obtainable_iff.mp c.2).clean h h'
  antisymm a b h h' := Subtype.ext
    ((obtainable_iff.mp a.2).clean.isSubsetOf_antisymm (obtainable_iff.mp b.2).clean h h')

/-- What is true of either and what is true of both are together as many
as what is true of the one and of the other. -/
theorem countP_or_add_countP_and {α : Type} (p q : α → Bool) (l : List α) :
    l.countP (fun x => p x || q x) + l.countP (fun x => p x && q x) = l.countP p + l.countP q := by
  induction l with
  | nil => rfl
  | cons x l ih =>
      simp only [List.countP_cons]
      cases p x <;> cases q x <;> simp <;> omega

theorem count_eq_countP (a : Bitfield) : a.count = (List.range a.length).countP a.bit := by
  rw [← length_ones, ones, List.countP_eq_length_filter]

theorem joins_union (ha : Fits limit a) (hb : Fits limit b) (h : a.length = b.length) :
    ∃ c, a.union b = .ok c ∧ Joins limit a b c := by
  obtain ⟨c, hunion, hclean, hlength, hones⟩ := union_eq_ok ha.clean hb.clean h
  refine ⟨c, hunion, obtainable_iff.mpr (ha.union hb hunion), ?_, ?_, fun d hd had hbd => ?_, ?_⟩
  · exact (isSubsetOf_iff ha.clean hclean).mpr
      ⟨hlength.symm, fun i hi => (hones i).mpr (Or.inl hi)⟩
  · exact (isSubsetOf_iff hb.clean hclean).mpr
      ⟨h.symm.trans hlength.symm, fun i hi => (hones i).mpr (Or.inr hi)⟩
  · have hdclean := (obtainable_iff.mp hd).clean
    obtain ⟨hlength', hsub⟩ := (isSubsetOf_iff ha.clean hdclean).mp had
    obtain ⟨-, hsub'⟩ := (isSubsetOf_iff hb.clean hdclean).mp hbd
    exact (isSubsetOf_iff hclean hdclean).mpr ⟨hlength.trans hlength',
      fun i hi => ((hones i).mp hi).elim (fun hi => hsub hi) fun hi => hsub' hi⟩
  · have hbit : c.bit = fun i => a.bit i || b.bit i := funext fun i => by
      rw [Bool.eq_iff_iff, Bool.or_eq_true, ← hclean.mem_ones, hones, ha.clean.mem_ones,
        hb.clean.mem_ones]
    rw [count_eq_countP, count_eq_countP, count_eq_countP, ← h, hlength, hbit,
      ← List.countP_eq_length_filter, countP_or_add_countP_and]

/-- What can be obtained is within the limit and has no bit set beyond its
length. For any two of one length the tests of bytes say what the bits
say, and the union is the least that contains both. To be a subset is a
partial order. -/
theorem obtainable_bitwise (limit : Nat) :
    (∀ a, Obtainable limit a ↔ a.length ≤ limit ∧ a.Clean)
      ∧ (∀ a b, Obtainable limit a → Obtainable limit b → a.length = b.length →
        Bitwise a b ∧ ∃ c, a.union b = .ok c ∧ Joins limit a b c)
      ∧ IsPartialOrder {a // Obtainable limit a} fun a b => a.1.isSubsetOf b.1 = true := by
  refine ⟨fun a => ?_, fun a b ha hb h => ?_, isPartialOrder_isSubsetOf limit⟩
  · rw [obtainable_iff]
    exact ⟨fun h => ⟨h.length, h.clean⟩, fun h => ⟨h.1, h.2⟩⟩
  · have ha := obtainable_iff.mp ha
    have hb := obtainable_iff.mp hb
    exact ⟨bitwise ha.clean hb.clean h, joins_union ha hb h⟩

/-- Nine bits take two bytes. After refused calls among others, two
bitfields share one bit, and neither is a subset of the other. -/
theorem obtainable_bitwise_nine :
    let a : Bitfield := ⟨9, [0b11, 0b1]⟩
    let b : Bitfield := ⟨9, [0b110, 0]⟩
    (Obtainable 9 a ∧ Obtainable 9 b ∧ a.length = b.length)
      ∧ Bitwise a b ∧ ∃ c, a.union b = .ok c ∧ Joins 9 a b c := by
  intro a b
  have ha : Obtainable 9 a :=
    ⟨[.set 0 8 true, .union 0 2, .set 0 9 true, .set 0 1 true, .single 0 10 0, .single 0 9 0], 0,
      by decide +kernel⟩
  have hb : Obtainable 9 b :=
    ⟨[.union 0 1, .ofBools 1 [false, false, true, false, false, false, false, false, false],
      .single 0 9 1], 0, by decide +kernel⟩
  exact ⟨⟨ha, hb, rfl⟩, (obtainable_bitwise 9).2.1 a b ha hb rfl⟩

end ChainHead.Bitfield
