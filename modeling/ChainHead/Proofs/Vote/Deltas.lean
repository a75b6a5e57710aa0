/-
What the deltas of a table of votes are: exact sums whenever there are
any, and always there if no list of balances sums to more than a delta
can hold.

# Effects

A validator that never voted is passed over; any other takes its old
balance from one position and gives its new balance to another
(`effect`). Every operation on the way answers with the exact result or
refuses with an overflow, so a part of the table does too
(`partDeltas_cases`), whatever the balances. To pass a validator over makes a difference only
if there is a block with the zero root (`netEffect_eq_netChange`).

# Budgets

After some of the validators no position is lower than what the old
balances of those sum to, nor higher than what the new ones do. Deltas
that have room for what is still to come, below and above (`Room`),
overflow nowhere: each validator uses up its own share.

# Sums of deltas

The passes over the tree add deltas up. A sum over any set of positions
is again at most one balance given and one taken for each validator
(`sum_effect_bounds`), so it has the same bounds as a single delta.
-/
import ChainHead.Proofs.Tree.Settle
import ChainHead.Proofs.Vote.Tracked
import Mathlib.Algebra.BigOperators.Ring.Finset

namespace ChainHead.VoteTable

open ChainHead.Tree (Error deltaAt deltaAt_replicate Contained)
open Finset (range)

variable {positions : Std.ExtTreeMap Root Nat} {deltas : Array Delta} {root : Root}
variable {amount old new : Gwei} {v : Tracker} {t : VoteTable} {x p : Nat}

-- ============================================== statement vocabulary

/-- What an amount for a root adds at a position. -/
def credit (positions : Std.ExtTreeMap Root Nat) (root : Root) (amount : Gwei) (x : Nat) : Int :=
  if positions[root]? = some x then amount.toNat else 0

/-- What a validator changes at a position. -/
def change (positions : Std.ExtTreeMap Root Nat) (v : Tracker) (old new : Gwei) (x : Nat) : Int :=
  credit positions v.next new x - credit positions v.current old x

/-- What all validators change at a position. -/
def netChange (positions : Std.ExtTreeMap Root Nat) (t : VoteTable) (old new : Balances)
    (x : Nat) : Int :=
  ∑ v ∈ range t.trackers.size,
    change positions (t.tracker v) (old.getD v 0) (new.getD v 0) x

/-- What a validator adds and takes at a position, if it ever voted. -/
def effect (positions : Std.ExtTreeMap Root Nat) (v : Tracker) (old new : Gwei) (x : Nat) : Int :=
  if v.current = 0 ∧ v.next = 0 then 0 else change positions v old new x

/-- What all validators add and take at a position. -/
def netEffect (positions : Std.ExtTreeMap Root Nat) (t : VoteTable) (old new : Balances)
    (x : Nat) : Int :=
  ∑ v ∈ range t.trackers.size,
    effect positions (t.tracker v) (old.getD v 0) (new.getD v 0) x

/-- What the validators of a part of the table add and take at a
position, the first of which has the given index. -/
def spanEffect (positions : Std.ExtTreeMap Root Nat) (old new : Balances) (first : Nat)
    (trackers : List Tracker) (x : Nat) : Int :=
  ∑ i ∈ range trackers.length, effect positions (trackers.getD i {})
    (old.getD (first + i) 0) (new.getD (first + i) 0) x

/-- Whether any position has room for an amount to be taken and for
another to be given. -/
def Room (deltas : Array Delta) (taken given : Int) : Prop :=
  ∀ x, -2 ^ 63 ≤ deltaAt deltas x - taken ∧ deltaAt deltas x + given < 2 ^ 63

theorem credit_nonneg (positions : Std.ExtTreeMap Root Nat) (root : Root) (amount : Gwei)
    (x : Nat) : 0 ≤ credit positions root amount x := by
  unfold credit
  split <;> omega

theorem credit_le (positions : Std.ExtTreeMap Root Nat) (root : Root) (amount : Gwei)
    (x : Nat) : credit positions root amount x ≤ amount.toNat := by
  unfold credit
  split <;> omega

theorem effect_bounds (positions : Std.ExtTreeMap Root Nat) (v : Tracker) (old new : Gwei)
    (x : Nat) : -(old.toNat : Int) ≤ effect positions v old new x
      ∧ effect positions v old new x ≤ new.toNat := by
  have h1 := credit_nonneg positions v.next new x
  have h2 := credit_le positions v.next new x
  have h3 := credit_nonneg positions v.current old x
  have h4 := credit_le positions v.current old x
  unfold effect change
  split <;> omega

-- ======================================================= one validator

theorem deltaAt_setIfInBounds (hp : p < deltas.size) (e : Delta) (x : Nat) :
    deltaAt (deltas.setIfInBounds p e) x = if p = x then e.toInt else deltaAt deltas x := by
  unfold deltaAt
  rw [Array.getD_eq_getD_getElem?, Array.getD_eq_getD_getElem?]
  by_cases hpx : p = x
  · subst hpx
    rw [Array.getElem?_setIfInBounds_self, if_pos hp, if_pos rfl]
    rfl
  · rw [Array.getElem?_setIfInBounds_ne hpx, if_neg hpx]

/-- An amount is added or taken exactly, or there is no room for it; the
sign `s` says which of the two. -/
theorem shiftAt_cases {apply : Delta → Delta → Option Delta} (amount : Gwei) (s : Int)
    (happly : ∀ a b, apply a b = Word.ofInt? (a.toInt + s * b.toInt))
    (hrange : ∀ p, positions[root]? = some p → p < deltas.size) :
    (∃ p, shiftAt apply positions deltas root amount = .error (.overflow p)
        ∧ (amount.toNat < 2 ^ 63 → ¬(-2 ^ 63 ≤ deltaAt deltas p + s * amount.toNat
          ∧ deltaAt deltas p + s * amount.toNat < 2 ^ 63)))
      ∨ ∃ deltas', shiftAt apply positions deltas root amount = .ok deltas'
        ∧ deltas'.size = deltas.size
        ∧ ∀ x, deltaAt deltas' x = deltaAt deltas x + s * credit positions root amount x := by
  unfold shiftAt credit
  cases hpos : positions[root]? with
  | none => exact Or.inr ⟨deltas, rfl, rfl, fun x => by simp⟩
  | some p =>
      have hp := hrange p hpos
      have hget := Array.getElem?_eq_getElem hp
      have hval : deltaAt deltas p = deltas[p].toInt := by
        rw [deltaAt, Array.getD_eq_getD_getElem?, hget]
        rfl
      simp only [shiftDelta, hget]
      cases hsigned : Word.signed? amount with
      | none =>
          have hrange := Word.ofInt?_eq_none_iff.mp hsigned
          exact Or.inl ⟨p, rfl, fun hamount => by omega⟩
      | some signed =>
          have hsignedVal := Word.signed?_eq_some_iff.mp hsigned
          cases he : apply deltas[p] signed with
          | none =>
              simp only [he]
              rw [happly, hsignedVal, ← hval] at he
              exact Or.inl ⟨p, rfl, fun _ => Word.ofInt?_eq_none_iff.mp he⟩
          | some e =>
              simp only [he]
              rw [happly, hsignedVal, ← hval] at he
              have heVal := Word.ofInt?_eq_some_iff.mp he
              refine Or.inr ⟨_, rfl, Array.size_setIfInBounds, fun x => ?_⟩
              rw [deltaAt_setIfInBounds hp]
              by_cases hpx : p = x
              · subst hpx
                rw [if_pos rfl, if_pos rfl, heVal]
              · rw [if_neg hpx, if_neg (fun h => hpx (Option.some.inj h))]
                omega

/-- One validator is taken into account exactly, or there is no room for
its balances. -/
theorem countVote_cases (v : Tracker) (old new : Gwei)
    (hrange : ∀ (root : Root) p, positions[root]? = some p → p < deltas.size) :
    (∃ p, countVote positions deltas v old new = .error (.overflow p)
        ∧ (old.toNat < 2 ^ 63 → new.toNat < 2 ^ 63 → ¬ Room deltas old.toNat new.toNat))
      ∨ ∃ deltas', countVote positions deltas v old new = .ok deltas'
        ∧ deltas'.size = deltas.size
        ∧ ∀ x, deltaAt deltas' x = deltaAt deltas x + effect positions v old new x := by
  unfold countVote
  by_cases hidle : isIdle v old new = true
  · rw [if_pos hidle]
    refine Or.inr ⟨deltas, rfl, rfl, fun x => ?_⟩
    unfold isIdle at hidle
    simp only [Bool.or_eq_true, Bool.and_eq_true, decide_eq_true_eq] at hidle
    unfold effect change
    cases hidle with
    | inl hnever =>
        rw [if_pos hnever]
        omega
    | inr hsame =>
        rw [hsame.1, hsame.2]
        split <;> omega
  · rw [if_neg hidle]
    have hvoted : ¬(v.current = 0 ∧ v.next = 0) := by
      intro hnever
      apply hidle
      simp [isIdle, hnever]
    have hsub : ∀ a b, Word.subSigned? a b = Word.ofInt? (a.toInt + -1 * b.toInt) := by
      intro a b
      rw [Word.subSigned?, Int.neg_one_mul, Int.sub_eq_add_neg]
    have hadd : ∀ a b, Word.addSigned? a b = Word.ofInt? (a.toInt + 1 * b.toInt) := by
      intro a b
      rw [Word.addSigned?, Int.one_mul]
    rcases shiftAt_cases old (-1) hsub (hrange v.current) with
      ⟨p, herror, hroom⟩ | ⟨d, hd, hdsize, hdval⟩
    · simp only [herror]
      refine Or.inl ⟨p, rfl, fun hold _ h => hroom hold ?_⟩
      have := h p
      omega
    · simp only [hd]
      rcases shiftAt_cases new 1 hadd
          (fun p hp => hdsize ▸ hrange v.next p hp) with
        ⟨p, herror, hroom⟩ | ⟨d', hd', hdsize', hdval'⟩
      · refine Or.inl ⟨p, herror, fun _ hnew h => hroom hnew ?_⟩
        have hp := h p
        have hlo := credit_nonneg positions v.current old p
        have hhi := credit_le positions v.current old p
        rw [hdval]
        omega
      · refine Or.inr ⟨d', hd', hdsize'.trans hdsize, fun x => ?_⟩
        rw [hdval', hdval]
        unfold effect change
        rw [if_neg hvoted]
        omega

-- ====================================================== all validators

theorem sum_range_add_succ {M : Type} [AddCommMonoid M] (f : Nat → M) (start k : Nat) :
    ∑ i ∈ range (k + 1), f (start + i) = f start + ∑ i ∈ range k, f (start + 1 + i) := by
  rw [Finset.sum_range_succ', Nat.add_zero, add_comm]
  congr 1
  refine Finset.sum_congr rfl fun i _ => ?_
  rw [Nat.add_assoc, Nat.add_comm 1]

theorem balance_lt {balances : Balances} (h : total balances < 2 ^ 63) (v : Nat) :
    (balances.getD v 0).toNat < 2 ^ 63 := by
  have hle := sum_range_le_total balances (v + 1)
  rw [Finset.sum_range_succ] at hle
  omega

/-- No run of neighbouring validators owns more than all together. -/
theorem sum_span_le_total (balances : Balances) (first k : Nat) :
    ∑ i ∈ range k, ((balances.getD (first + i) 0).toNat : Int) ≤ total balances := by
  have hle := sum_range_le_total balances (first + k)
  rw [Finset.sum_range_add] at hle
  rw [← Nat.cast_sum]
  omega

theorem spanEffect_cons (positions : Std.ExtTreeMap Root Nat) (old new : Balances) (first : Nat)
    (v : Tracker) (rest : List Tracker) (x : Nat) :
    spanEffect positions old new first (v :: rest) x
      = effect positions v (old.getD first 0) (new.getD first 0) x
        + spanEffect positions old new (first + 1) rest x := by
  unfold spanEffect
  rw [List.length_cons, Finset.sum_range_succ', Nat.add_zero, add_comm]
  congr 1
  refine Finset.sum_congr rfl fun i _ => ?_
  rw [List.getD_cons_succ, Nat.add_assoc, Nat.add_comm 1]

/-- The whole table is a part of itself. -/
theorem spanEffect_trackers (positions : Std.ExtTreeMap Root Nat) (t : VoteTable)
    (old new : Balances) (x : Nat) :
    spanEffect positions old new 0 t.trackers.toList x = netEffect positions t old new x := by
  unfold spanEffect netEffect
  rw [Array.length_toList]
  refine Finset.sum_congr rfl fun i _ => ?_
  have htracker : t.trackers.toList.getD i {} = t.tracker i := by
    rw [List.getD_eq_getElem?_getD, Array.getElem?_toList, tracker, Array.getD_eq_getD_getElem?]
  rw [Nat.zero_add, htracker]

/-- A part of the table is worked off exactly, or there is no room for
the balances of its validators. -/
theorem partDeltas_cases (old new : Balances) :
    ∀ (trackers : List Tracker) (start : Nat) (deltas : Array Delta),
      (∀ (root : Root) p, positions[root]? = some p → p < deltas.size) →
      (∃ p, partDeltas positions old new deltas start trackers = .error (.overflow p)
          ∧ ((∀ v, (old.getD v 0).toNat < 2 ^ 63) → (∀ v, (new.getD v 0).toNat < 2 ^ 63) →
            ¬ Room deltas
              (∑ i ∈ range trackers.length, ((old.getD (start + i) 0).toNat : Int))
              (∑ i ∈ range trackers.length, ((new.getD (start + i) 0).toNat : Int))))
        ∨ ∃ deltas', partDeltas positions old new deltas start trackers = .ok deltas'
          ∧ deltas'.size = deltas.size
          ∧ ∀ x, deltaAt deltas' x
            = deltaAt deltas x + spanEffect positions old new start trackers x := by
  intro trackers
  induction trackers with
  | nil =>
      intro start deltas _
      exact Or.inr ⟨deltas, rfl, rfl, fun x => by simp [spanEffect]⟩
  | cons v rest ih =>
      intro start deltas hrange
      have hrest : ∀ balances : Balances,
          0 ≤ ∑ i ∈ range rest.length, ((balances.getD (start + 1 + i) 0).toNat : Int) :=
        fun balances => Finset.sum_nonneg fun i _ => Int.natCast_nonneg _
      have hrestOld := hrest old
      have hrestNew := hrest new
      simp only [partDeltas, List.length_cons,
        sum_range_add_succ (fun v => ((old.getD v 0).toNat : Int)),
        sum_range_add_succ (fun v => ((new.getD v 0).toNat : Int))]
      rcases countVote_cases v (old.getD start 0) (new.getD start 0) hrange with
        ⟨p, herror, hroom⟩ | ⟨d, hd, hdsize, hdval⟩
      · simp only [herror]
        refine Or.inl ⟨p, rfl, fun hold hnew h => hroom (hold start) (hnew start) fun x => ?_⟩
        have := h x
        omega
      · simp only [hd]
        rcases ih (start + 1) d (fun root p hp => hdsize ▸ hrange root p hp) with
          ⟨p, herror, hroom⟩ | ⟨d', hd', hdsize', hdval'⟩
        · refine Or.inl ⟨p, herror, fun hold hnew h => hroom hold hnew fun x => ?_⟩
          have hx := h x
          have heffect := effect_bounds positions v (old.getD start 0) (new.getD start 0) x
          rw [hdval]
          omega
        · refine Or.inr ⟨d', hd', hdsize'.trans hdsize, fun x => ?_⟩
          rw [hdval', hdval, spanEffect_cons, add_assoc]

/-- Without deltas to start from, a part of the table is worked off
exactly, or some list of balances sums to more than a delta can hold. -/
theorem partDeltas_replicate_cases (old new : Balances)
    (hrange : ∀ (root : Root) p, positions[root]? = some p → p < positions.size)
    (trackers : List Tracker) (first : Nat) :
    (∃ p, partDeltas positions old new (Array.replicate positions.size 0) first trackers
          = .error (.overflow p)
        ∧ (total old < 2 ^ 63 → ¬ total new < 2 ^ 63))
      ∨ ∃ deltas, partDeltas positions old new (Array.replicate positions.size 0) first trackers
          = .ok deltas
        ∧ deltas.size = positions.size
        ∧ ∀ x, deltaAt deltas x = spanEffect positions old new first trackers x := by
  rcases partDeltas_cases old new trackers first (Array.replicate positions.size 0)
      (by simpa using hrange) with
    ⟨p, herror, hroom⟩ | ⟨deltas, hok, hsize, hexact⟩
  · refine Or.inl ⟨p, herror, fun hold hnew => ?_⟩
    have htaken := sum_span_le_total old first trackers.length
    have hgiven := sum_span_le_total new first trackers.length
    refine hroom (balance_lt hold) (balance_lt hnew) fun x => ?_
    rw [deltaAt_replicate]
    omega
  · refine Or.inr ⟨deltas, hok, by simpa using hsize, fun x => ?_⟩
    rw [hexact, deltaAt_replicate, zero_add]

/-- The effects at a position depend on nothing but which roots are found
there. -/
theorem netEffect_congr {positions' : Std.ExtTreeMap Root Nat} {y : Nat}
    (hsame : ∀ root : Root, positions'[root]? = some y ↔ positions[root]? = some x)
    (t : VoteTable) (old new : Balances) :
    netEffect positions' t old new y = netEffect positions t old new x := by
  refine Finset.sum_congr rfl fun v _ => ?_
  unfold effect change credit
  simp only [hsame]

/-- Nor does it matter how far the table reaches. -/
theorem netEffect_eq_of_tracker {t' : VoteTable} (hsame : ∀ v, t'.tracker v = t.tracker v)
    (old new : Balances) :
    netEffect positions t' old new = netEffect positions t old new := by
  have hblank : ∀ (t : VoteTable) x v, t.trackers.size ≤ v →
      effect positions (t.tracker v) (old.getD v 0) (new.getD v 0) x = 0 := by
    intro t x v hv
    rw [tracker_of_size_le hv, effect, if_pos ⟨rfl, rfl⟩]
  funext x
  unfold netEffect
  rw [sum_range_eq (hblank t' x) fun v hv => (hsame v).symm ▸ hblank t x v hv]
  exact Finset.sum_congr rfl fun v _ => by rw [hsame]

/-- Without a block under the zero root, a validator that never voted
would have no effect anyway. -/
theorem netEffect_eq_netChange (hzero : positions[(0 : Root)]? = none) (t : VoteTable)
    (old new : Balances) :
    netEffect positions t old new = netChange positions t old new := by
  funext x
  refine Finset.sum_congr rfl fun v _ => ?_
  unfold effect
  split
  case isTrue hnever =>
    unfold change credit
    rw [hnever.1, hnever.2, hzero]
    simp
  case isFalse => rfl

-- ====================================================== sums of deltas

/-- What an amount for a root adds to a set of positions. -/
theorem sum_credit (S : Finset Nat) :
    ∑ x ∈ S, credit positions root amount x
      = if ∃ x ∈ S, positions[root]? = some x then (amount.toNat : Int) else 0 := by
  unfold credit
  cases hpos : positions[root]? with
  | none => simp
  | some p =>
      simp only [Option.some.injEq, Finset.sum_ite_eq]
      by_cases hp : p ∈ S
      · rw [if_pos hp, if_pos ⟨p, hp, rfl⟩]
      · rw [if_neg hp, if_neg fun ⟨x, hx, heq⟩ => hp (heq ▸ hx)]

/-- What all validators change on a set of positions, validator by
validator. -/
theorem sum_netChange (old new : Balances) (S : Finset Nat) :
    ∑ x ∈ S, netChange positions t old new x
      = ∑ v ∈ range t.trackers.size,
          (∑ x ∈ S, credit positions (t.tracker v).next (new.getD v 0) x)
        - ∑ v ∈ range t.trackers.size,
          (∑ x ∈ S, credit positions (t.tracker v).current (old.getD v 0) x) := by
  unfold netChange change
  rw [Finset.sum_comm, ← Finset.sum_sub_distrib]
  exact Finset.sum_congr rfl fun v _ => Finset.sum_sub_distrib _ _

/-- What a validator does to a set of positions is at most to take its
old balance and to give its new one. -/
theorem sum_effect_bounds (positions : Std.ExtTreeMap Root Nat) (v : Tracker) (old new : Gwei)
    (S : Finset Nat) :
    -(old.toNat : Int) ≤ ∑ x ∈ S, effect positions v old new x
      ∧ ∑ x ∈ S, effect positions v old new x ≤ new.toNat := by
  unfold effect
  by_cases hnever : v.current = 0 ∧ v.next = 0
  · simp [hnever]
  · simp only [if_neg hnever, change, Finset.sum_sub_distrib, sum_credit]
    split <;> split <;> omega

/-- No sum of deltas of a table overflows. -/
theorem contained_netEffect {nodes : Array Node} {old new : Balances}
    (hold : total old < 2 ^ 63) (hnew : total new < 2 ^ 63) :
    Contained nodes (netEffect positions t old new) := by
  intro S _
  have hbounds := fun v => sum_effect_bounds positions (t.tracker v) (old.getD v 0)
    (new.getD v 0) S
  have hlow := Finset.sum_le_sum fun v (_ : v ∈ range t.trackers.size) => (hbounds v).1
  have hhigh := Finset.sum_le_sum fun v (_ : v ∈ range t.trackers.size) => (hbounds v).2
  have htaken := sum_range_le_total old t.trackers.size
  have hgiven := sum_range_le_total new t.trackers.size
  rw [Finset.sum_neg_distrib, ← Nat.cast_sum] at hlow
  rw [← Nat.cast_sum] at hhigh
  unfold netEffect
  rw [Finset.sum_comm]
  omega

end ChainHead.VoteTable
