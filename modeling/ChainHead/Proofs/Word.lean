/-
Exact results, as statements about integers.

An operation that answers at all answers with the exact result, and it
answers whenever that result has a word. So each is characterized by the
value of its answer, and the range enters only where there is none. The
operations that stop at the ends of the range are characterized by where
they stop.
-/
import ChainHead.Word
import Mathlib.Algebra.Group.Int.Defs
import Mathlib.Algebra.Group.Nat.Defs

namespace ChainHead.Word

theorem toNat_top : top.toNat = 2 ^ 64 - 1 := by
  decide

/-- The sum, as far as words reach. -/
theorem toNat_addSat (a b : UInt64) :
    (addSat a b).toNat = min (a.toNat + b.toNat) (2 ^ 64 - 1) := by
  have hsize : UInt64.size = 2 ^ 64 := rfl
  unfold addSat
  split
  case isTrue h =>
    rw [UInt64.toNat_add]
    omega
  case isFalse h =>
    rw [toNat_top]
    omega

/-- The product, as far as words reach. -/
theorem toNat_mulSat (a b : UInt64) :
    (mulSat a b).toNat = min (a.toNat * b.toNat) (2 ^ 64 - 1) := by
  have hsize : UInt64.size = 2 ^ 64 := rfl
  unfold mulSat
  split
  case isTrue h =>
    rw [UInt64.toNat_mul]
    omega
  case isFalse h =>
    rw [toNat_top]
    omega

/-- The difference, as far as words reach. -/
theorem toNat_subSat (a b : UInt64) : (subSat a b).toNat = a.toNat - b.toNat := by
  unfold subSat
  split
  case isTrue h => exact UInt64.toNat_sub_of_le a b h
  case isFalse h =>
    rw [UInt64.le_iff_toNat_le] at h
    show 0 = _
    omega

/-- The difference is what is to be added. -/
theorem sub?_eq_some_iff {a b d : UInt64} :
    sub? a b = some d ↔ b.toNat + d.toNat = a.toNat := by
  unfold sub?
  split
  case isTrue h =>
    have hd := UInt64.toNat_sub_of_le a b h
    rw [UInt64.le_iff_toNat_le] at h
    rw [Option.some.injEq, ← UInt64.toNat_inj, hd]
    omega
  case isFalse h =>
    rw [UInt64.le_iff_toNat_le] at h
    simp only [reduceCtorEq, false_iff]
    omega

theorem sub?_eq_none_iff {a b : UInt64} : sub? a b = none ↔ a.toNat < b.toNat := by
  unfold sub?
  split
  case isTrue h =>
    rw [UInt64.le_iff_toNat_le] at h
    simp only [reduceCtorEq, false_iff]
    omega
  case isFalse h =>
    rw [UInt64.le_iff_toNat_le] at h
    simp only [true_iff]
    omega

/-- The range of a signed word. -/
theorem ofInt?_eq_ite (n : Int) :
    ofInt? n = if -2 ^ 63 ≤ n ∧ n < 2 ^ 63 then some (Int64.ofInt n) else none := by
  unfold ofInt?
  rw [Int64.toInt_minValue, Int64.toInt_maxValue]
  congr 1
  rw [eq_iff_iff]
  omega

theorem ofInt?_eq_none_iff {n : Int} :
    ofInt? n = none ↔ ¬(-2 ^ 63 ≤ n ∧ n < 2 ^ 63) := by
  rw [ofInt?_eq_ite]
  simp

/-- The signed word with an exact value is the one that has it. -/
theorem ofInt?_eq_some_iff {n : Int} {d : Int64} : ofInt? n = some d ↔ d.toInt = n := by
  constructor
  · intro h
    rw [ofInt?_eq_ite] at h
    split at h
    case isFalse => cases h
    case isTrue hn =>
      injection h with h
      rw [← h]
      exact Int64.toInt_ofInt_of_le (by omega) (by omega)
  · intro h
    have hlo := Int64.le_toInt d
    have hhi := Int64.toInt_lt d
    rw [ofInt?_eq_ite, if_pos (by omega), ← h, Int64.ofInt_toInt]

theorem signed?_eq_some_iff {a : UInt64} {d : Int64} :
    signed? a = some d ↔ d.toInt = a.toNat :=
  ofInt?_eq_some_iff

theorem addSigned?_eq_some_iff {a b d : Int64} :
    addSigned? a b = some d ↔ d.toInt = a.toInt + b.toInt :=
  ofInt?_eq_some_iff

/-- The range of a word. -/
theorem move?_eq_ite (a : UInt64) (d : Int64) :
    move? a d = if 0 ≤ (a.toNat : Int) + d.toInt ∧ (a.toNat : Int) + d.toInt < 2 ^ 64 then
      some (UInt64.ofNat ((a.toNat : Int) + d.toInt).toNat) else none := by
  have hsize : ((UInt64.size : Nat) : Int) = 2 ^ 64 := rfl
  unfold move?
  rw [hsize]

theorem move?_eq_none_iff {a : UInt64} {d : Int64} :
    move? a d = none ↔ ¬(0 ≤ (a.toNat : Int) + d.toInt ∧ (a.toNat : Int) + d.toInt < 2 ^ 64) := by
  rw [move?_eq_ite]
  simp

/-- A moved word is the one with the exact value. -/
theorem move?_eq_some_iff {a w : UInt64} {d : Int64} :
    move? a d = some w ↔ (w.toNat : Int) = a.toNat + d.toInt := by
  have hw := w.toNat_lt
  constructor
  · intro h
    rw [move?_eq_ite] at h
    split at h
    case isFalse => cases h
    case isTrue hn =>
      injection h with h
      have hlt : ((a.toNat : Int) + d.toInt).toNat < 2 ^ 64 := by omega
      rw [← h, UInt64.toNat_ofNat_of_lt' hlt]
      exact Int.toNat_of_nonneg hn.1
  · intro h
    have hn : 0 ≤ (a.toNat : Int) + d.toInt ∧ (a.toNat : Int) + d.toInt < 2 ^ 64 := by omega
    rw [move?_eq_ite, if_pos hn, ← h, Int.toNat_natCast, UInt64.ofNat_toNat]

end ChainHead.Word
