/-
However the table is divided among workers, the deltas are the same.

A worker knows only its own validators, so on the way to the sum there
are deltas that nobody asked for: those of a part, and those of some
parts together. Each is what a run of neighbouring validators adds and
takes (`spanEffect`), which is never more than all balances are worth
(`spanEffect_bounds`); so none of them overflows unless the balances do,
and sums of parts are parts (`spanEffect_append`). What is left at the
end does not depend on the division, because it is exact.
-/
import ChainHead.Vote.Division
import ChainHead.Proofs.Vote.Deltas
import ChainHead.Proofs.Tree.Run
import Mathlib.Data.List.GetD

namespace ChainHead

open ChainHead.Tree (Error deltaAt deltaAt_replicate)
open VoteTable
open Finset (range)

variable {positions : Std.ExtTreeMap Root Nat} {old new : Balances} {n x : Nat}

namespace VoteTable

-- ============================================== statement vocabulary

/-- Whether roots are numbered from zero on, without gaps, and the zero
root has no number. -/
structure Numbering (positions : Std.ExtTreeMap Root Nat) (n : Nat) : Prop where
  zero : positions[(0 : Root)]? = none
  lt : ∀ (root : Root) i, positions[root]? = some i → i < n
  onto : ∀ i < n, ∃ root : Root, positions[root]? = some i
  injective : ∀ (root root' : Root) i,
    positions[root]? = some i → positions[root']? = some i → root = root'

/-- As many roots are numbered as there are numbers. -/
theorem Numbering.size (h : Numbering positions n) : positions.size = n := by
  have hmem : ∀ root i, (root, i) ∈ positions.toList ↔ positions[root]? = some i :=
    fun root i => Std.ExtTreeMap.mem_toList_iff_getElem?_eq_some
  have hnodup : (positions.toList.map Prod.snd).Nodup := by
    refine List.Nodup.map_on ?_ (Map.nodup_toList positions)
    rintro ⟨root, i⟩ hi ⟨root', j⟩ hj (hij : i = j)
    rw [hmem] at hi hj
    rw [hij] at hi ⊢
    rw [h.injective root root' j hi hj]
  have hperm : (positions.toList.map Prod.snd).Perm (List.range n) := by
    rw [List.perm_ext_iff_of_nodup hnodup List.nodup_range]
    intro i
    rw [List.mem_range, List.mem_map]
    constructor
    · rintro ⟨⟨root, j⟩, hj, rfl⟩
      exact h.lt root j ((hmem root j).mp hj)
    · intro hi
      obtain ⟨root, hroot⟩ := h.onto i hi
      exact ⟨(root, i), (hmem root i).mpr hroot, rfl⟩
  rw [← Std.ExtTreeMap.length_toList, ← List.length_map (f := Prod.snd), hperm.length_eq,
    List.length_range]

/-- The blocks of a tree are numbered, unless there is one with the zero
root. -/
theorem numbering_of_sound {t : Tree} (h : Tree.Sound t) (hzero : t.position? 0 = none) :
    Numbering t.positions t.size where
  zero := hzero
  lt := fun _ _ hroot => h.lt_size_of_position hroot
  onto := fun i hi =>
    ⟨t.nodes[i].root, (h.position _ i).mpr ⟨_, Array.getElem?_eq_getElem hi, rfl⟩⟩
  injective := by
    intro root root' i hroot hroot'
    obtain ⟨n, hn, rfl⟩ := (h.position root i).mp hroot
    obtain ⟨n', hn', rfl⟩ := (h.position root' i).mp hroot'
    rw [hn] at hn'
    injection hn' with hn'
    rw [hn']

-- ==================================================== parts of the table

theorem spanEffect_append (first : Nat) (left right : List Tracker) (x : Nat) :
    spanEffect positions old new first (left ++ right) x
      = spanEffect positions old new first left x
        + spanEffect positions old new (first + left.length) right x := by
  unfold spanEffect
  rw [List.length_append, Finset.sum_range_add]
  congr 1
  · refine Finset.sum_congr rfl fun i hi => ?_
    rw [List.getD_append _ _ _ _ (Finset.mem_range.mp hi)]
  · refine Finset.sum_congr rfl fun i _ => ?_
    rw [List.getD_append_right _ _ _ _ (Nat.le_add_right _ i), Nat.add_sub_cancel_left,
      Nat.add_assoc]

theorem spanEffect_bounds (first : Nat) (trackers : List Tracker) (x : Nat) :
    -(total old : Int) ≤ spanEffect positions old new first trackers x
      ∧ spanEffect positions old new first trackers x ≤ total new := by
  have hbounds := fun i => effect_bounds positions (trackers.getD i {})
    (old.getD (first + i) 0) (new.getD (first + i) 0) x
  have hlow := Finset.sum_le_sum fun i (_ : i ∈ range trackers.length) => (hbounds i).1
  have hhigh := Finset.sum_le_sum fun i (_ : i ∈ range trackers.length) => (hbounds i).2
  have htaken := sum_span_le_total old first trackers.length
  have hgiven := sum_span_le_total new first trackers.length
  rw [Finset.sum_neg_distrib] at hlow
  unfold spanEffect
  omega

/-- Whatever part of the table is summed, a delta can hold it. -/
theorem spanEffect_fits (hold : total old < 2 ^ 63) (hnew : total new < 2 ^ 63)
    (first : Nat) (trackers : List Tracker) (x : Nat) :
    -2 ^ 63 ≤ spanEffect positions old new first trackers x
      ∧ spanEffect positions old new first trackers x < 2 ^ 63 := by
  obtain ⟨hlow, hhigh⟩ : -(total old : Int) ≤ spanEffect positions old new first trackers x
      ∧ spanEffect positions old new first trackers x ≤ total new :=
    spanEffect_bounds first trackers x
  omega

-- ====================================================== sums of two parts

theorem deltaAt_eq_getD (deltas : Array Delta) (x : Nat) :
    deltaAt deltas x = (deltas.toList.getD x 0).toInt := by
  rw [deltaAt, Array.getD_eq_getD_getElem?, ← Array.getElem?_toList, List.getD_eq_getElem?_getD]

/-- Two lists of deltas are summed exactly, or some sum does not fit. -/
theorem sumDeltas_cases (left right : List Delta) (hlen : left.length = right.length) :
    ∀ first, (∃ i, sumDeltas first left right = .error (.overflow (first + i))
        ∧ ¬(-2 ^ 63 ≤ (left.getD i 0).toInt + (right.getD i 0).toInt
          ∧ (left.getD i 0).toInt + (right.getD i 0).toInt < 2 ^ 63))
      ∨ ∃ sums, sumDeltas first left right = .ok sums ∧ sums.length = left.length
        ∧ ∀ i, (sums.getD i 0).toInt = (left.getD i 0).toInt + (right.getD i 0).toInt := by
  induction left generalizing right with
  | nil =>
      intro first
      rw [List.length_nil, eq_comm, List.length_eq_zero_iff] at hlen
      subst hlen
      exact Or.inr ⟨[], rfl, rfl, fun _ => rfl⟩
  | cons a as ih =>
      intro first
      obtain ⟨b, bs, rfl⟩ := List.exists_cons_of_length_eq_add_one hlen.symm
      simp only [sumDeltas]
      cases hsum : Word.addSigned? a b with
      | none => exact Or.inl ⟨0, rfl, Word.ofInt?_eq_none_iff.mp hsum⟩
      | some sum =>
          rcases ih bs (Nat.succ.inj hlen) (first + 1) with
            ⟨i, herror, hrange⟩ | ⟨sums, hsums, hsumsLen, hexact⟩
          · refine Or.inl ⟨i + 1, ?_, hrange⟩
            rw [herror, Nat.add_assoc, Nat.add_comm 1]
            rfl
          · refine Or.inr ⟨sum :: sums, by rw [hsums]; rfl, by simp [hsumsLen], fun i => ?_⟩
            cases i with
            | zero => exact Word.addSigned?_eq_some_iff.mp hsum
            | succ i => exact hexact i

/-- Lists of deltas with the same exact values are the same. -/
theorem deltas_ext {a b : Array Delta} (hsize : a.size = b.size)
    (hvalue : ∀ x, deltaAt a x = deltaAt b x) : a = b := by
  refine Array.ext hsize fun i hi hi' => Int64.toInt_inj.mp ?_
  have hget := hvalue i
  simp only [deltaAt, Array.getD_eq_getD_getElem?, Array.getElem?_eq_getElem hi,
    Array.getElem?_eq_getElem hi', Option.getD_some] at hget
  exact hget

end VoteTable

-- ========================================================== divisions

namespace Division

/-- Workers come to the exact deltas of the trackers they are given, or
some list of balances sums to more than a delta can hold. -/
theorem deltas_cases (old new : Balances)
    (hrange : ∀ (root : Root) p, positions[root]? = some p → p < positions.size)
    (division : Division) : ∀ first,
      (∃ p, division.deltas positions old new first = .error (.overflow p)
        ∧ (total old < 2 ^ 63 → ¬ total new < 2 ^ 63))
      ∨ ∃ deltas, division.deltas positions old new first = .ok deltas
        ∧ deltas.size = positions.size
        ∧ ∀ x, deltaAt deltas x
          = spanEffect positions old new first division.trackers x := by
  induction division with
  | part trackers =>
      intro first
      exact partDeltas_replicate_cases old new hrange trackers first
  | join left right ihLeft ihRight =>
      intro first
      simp only [deltas]
      rcases ihLeft first with ⟨p, herror, hgreat⟩ | ⟨ls, hls, hlsSize, hlsExact⟩
      · rw [herror]
        exact Or.inl ⟨p, rfl, hgreat⟩
      rcases ihRight (first + left.trackers.length) with
        ⟨p, herror, hgreat⟩ | ⟨rs, hrs, hrsSize, hrsExact⟩
      · rw [hls, herror]
        exact Or.inl ⟨p, rfl, hgreat⟩
      have hsum : ∀ i, (ls.toList.getD i 0).toInt + (rs.toList.getD i 0).toInt
          = spanEffect positions old new first (join left right).trackers i := by
        intro i
        rw [← deltaAt_eq_getD, ← deltaAt_eq_getD, hlsExact, hrsExact, trackers,
          spanEffect_append]
      rw [hls, hrs]
      rcases sumDeltas_cases ls.toList rs.toList (by simp [hlsSize, hrsSize]) 0 with
        ⟨i, herror, hnofit⟩ | ⟨sums, hsums, hsumsLen, hexact⟩
      · refine Or.inl ⟨0 + i, by simp only [Bind.bind, Except.bind, herror], fun hold hnew => ?_⟩
        rw [hsum] at hnofit
        exact hnofit (spanEffect_fits hold hnew first (join left right).trackers i)
      · refine Or.inr ⟨sums.toArray, by simp only [Bind.bind, Except.bind, hsums]; rfl,
          by simpa [hlsSize] using hsumsLen, fun x => ?_⟩
        rw [deltaAt_eq_getD, hexact, hsum]

/-- Workers that share a table come to the net change at each position,
if balances sum to what a delta can hold. -/
theorem deltas_eq_ok (hnumbered : Numbering positions n) (hold : total old < 2 ^ 63)
    (hnew : total new < 2 ^ 63) {t : VoteTable} {division : Division}
    (htrackers : division.trackers = t.trackers.toList) :
    ∃ deltas, division.deltas positions old new 0 = .ok deltas ∧ deltas.size = n
      ∧ ∀ x, deltaAt deltas x = netChange positions t old new x := by
  rcases division.deltas_cases old new (hnumbered.size.symm ▸ hnumbered.lt) 0 with
    ⟨-, -, hgreat⟩ | ⟨deltas, hok, hsize, hexact⟩
  · exact absurd hnew (hgreat hold)
  · refine ⟨deltas, hok, hsize.trans hnumbered.size, fun x => ?_⟩
    rw [hexact, htrackers, spanEffect_trackers, netEffect_eq_netChange hnumbered.zero]

end Division

namespace Sharing

variable (sharing resharing : Sharing) {t : VoteTable} {deltas deltas' : Array Delta}

/-- However a table is shared, its deltas are exact, or some list of
balances sums to more than a delta can hold. -/
theorem deltas_cases (t : VoteTable) (old new : Balances)
    (hrange : ∀ (root : Root) p, positions[root]? = some p → p < positions.size) :
    (∃ p, sharing.deltas t positions old new = .error (.overflow p)
        ∧ (total old < 2 ^ 63 → ¬ total new < 2 ^ 63))
      ∨ ∃ deltas, sharing.deltas t positions old new = .ok deltas
        ∧ deltas.size = positions.size
        ∧ ∀ x, deltaAt deltas x = netEffect positions t old new x := by
  have hcases := (sharing.divide t.trackers.toList).deltas_cases old new hrange 0
  simp only [sharing.trackers_divide, spanEffect_trackers] at hcases
  unfold deltas
  rcases hcases with ⟨p, herror, hgreat⟩ | ⟨deltas, hok, hexact⟩
  · -- the workers that are called off may come across another position
    rcases ((sharing.divide t.trackers.toList).calledOff sharing.missed 0).deltas_cases old new
      hrange 0 with ⟨told, htold, -⟩ | ⟨_, hmissed, -⟩
    · exact Or.inl ⟨told, by simp only [herror, htold], hgreat⟩
    · exact Or.inl ⟨p, by simp only [herror, hmissed], hgreat⟩
  · exact Or.inr ⟨deltas, by simp only [hok], hexact⟩

/-- Whoever comes to deltas at all comes to the same. -/
theorem deltas_unique
    (hrange : ∀ (root : Root) p, positions[root]? = some p → p < positions.size)
    (h : sharing.deltas t positions old new = .ok deltas)
    (h' : resharing.deltas t positions old new = .ok deltas') : deltas' = deltas := by
  rcases sharing.deltas_cases t old new hrange with
    ⟨p, herror, -⟩ | ⟨exact, hok, hsize, hvalue⟩
  · rw [herror] at h
    cases h
  rcases resharing.deltas_cases t old new hrange with
    ⟨p, herror, -⟩ | ⟨exact', hok', hsize', hvalue'⟩
  · rw [herror] at h'
    cases h'
  rw [hok, Except.ok.injEq] at h
  rw [hok', Except.ok.injEq] at h'
  rw [← h, ← h']
  exact deltas_ext (hsize'.trans hsize.symm) fun x => (hvalue' x).trans (hvalue x).symm

end Sharing

namespace VoteTable

-- ============================================================ exactness

/-- What voters give a position, less what they are to give back. -/
theorem netChange_eq (t : VoteTable) (old new : Balances) (x : Nat) :
    netChange positions t old new x
      = ∑ v ∈ range t.trackers.size with positions[(t.tracker v).next]? = some x,
          ((new.getD v 0).toNat : Int)
        - ∑ v ∈ range t.trackers.size with positions[(t.tracker v).current]? = some x,
          ((old.getD v 0).toNat : Int) := by
  unfold netChange change credit
  rw [Finset.sum_sub_distrib, Finset.sum_filter, Finset.sum_filter]

/-- Once all votes are counted, only balances can change anything. -/
theorem netChange_commit (t : VoteTable) (balances : Balances) (x : Nat) :
    netChange positions t.commit balances balances x = 0 := by
  refine Finset.sum_eq_zero fun v _ => ?_
  rw [tracker_commit]
  exact Int.sub_self _

/-- If no list of balances sums to more than a delta can hold, then there
are deltas, the same however the table is divided: each is, exactly, the
new balances of those who vote for the block, less the old balances of
those who are counted towards it. Once these votes are counted, there is
nothing left to change, again however the table is divided. -/
theorem computeDeltas_exact (hnumbered : Numbering positions n) (t : VoteTable)
    (hold : total old < 2 ^ 63) (hnew : total new < 2 ^ 63) :
    ∃ deltas, t.computeDeltas positions old new = .ok deltas ∧ deltas.size = n
      ∧ (∀ i < n, deltaAt deltas i
          = ∑ v ∈ range t.trackers.size with positions[(t.tracker v).next]? = some i,
              ((new.getD v 0).toNat : Int)
            - ∑ v ∈ range t.trackers.size with positions[(t.tracker v).current]? = some i,
              ((old.getD v 0).toNat : Int))
      ∧ (∀ division : Division, division.trackers = t.trackers.toList →
          division.deltas positions old new 0 = .ok deltas)
      ∧ t.commit.computeDeltas positions new new = .ok (Array.replicate n 0)
      ∧ ∀ division : Division, division.trackers = t.commit.trackers.toList →
          division.deltas positions new new 0 = .ok (Array.replicate n 0) := by
  -- the undivided table is one part
  have hwhole : (Division.part t.trackers.toList).trackers = t.trackers.toList := rfl
  obtain ⟨deltas, hok, hsize, hexact⟩ := Division.deltas_eq_ok hnumbered hold hnew hwhole
  have hcommit : ∀ division : Division, division.trackers = t.commit.trackers.toList →
      division.deltas positions new new 0 = .ok (Array.replicate n 0) := by
    intro division htrackers
    obtain ⟨deltas', hok', hsize', hexact'⟩ :=
      Division.deltas_eq_ok hnumbered hnew hnew htrackers
    rw [hok']
    refine congrArg Except.ok (deltas_ext (by simpa using hsize') fun x => ?_)
    rw [hexact', netChange_commit, deltaAt_replicate]
  refine ⟨deltas, hok, hsize, fun i _ => ?_, fun division htrackers => ?_,
    hcommit (.part _) rfl, hcommit⟩
  · rw [hexact, netChange_eq]
  · obtain ⟨deltas', hok', hsize', hexact'⟩ :=
      Division.deltas_eq_ok hnumbered hold hnew htrackers
    rw [hok']
    refine congrArg Except.ok (deltas_ext (hsize'.trans hsize.symm) fun x => ?_)
    rw [hexact', hexact]

/-- Three validators: one that moves, one that votes for the first time
and one that turns to a block nobody knows; the balance of the last is
missing from the old list. -/
def movers : VoteTable :=
  ⟨#[⟨1, 2, 3⟩, ⟨0, 1, 2⟩, ⟨2, 9, 3⟩]⟩

/-- The same three, shared by two workers and one without work. -/
def sharedMovers : Division :=
  .join (.part [⟨1, 2, 3⟩]) (.join (.part []) (.part [⟨0, 1, 2⟩, ⟨2, 9, 3⟩]))

/-- A tree numbers its three blocks. -/
theorem numbering_reversal :
    Numbering ((Tree.empty 1 1 0).after Tree.reversal).positions 3 := by
  have hsize : ((Tree.empty 1 1 0).after Tree.reversal).size = 3 := by decide +kernel
  rw [← hsize]
  exact numbering_of_sound ((Tree.sound_empty 1 1 0).after Tree.reversal) (by decide +kernel)

theorem computeDeltas_exact_movers :
    let positions := ((Tree.empty 1 1 0).after Tree.reversal).positions
    (total #[10, 5] < 2 ^ 63 ∧ total #[20, 6, 7, 100] < 2 ^ 63)
      ∧ sharedMovers.deltas positions #[10, 5] #[20, 6, 7, 100] 0 = .ok #[-4, 20, 0]
      ∧ movers.commit.computeDeltas positions #[20, 6, 7, 100] #[20, 6, 7, 100]
        = .ok #[0, 0, 0] := by
  intro positions
  have hold : total #[10, 5] < 2 ^ 63 := by decide +kernel
  have hnew : total #[20, 6, 7, 100] < 2 ^ 63 := by decide +kernel
  obtain ⟨deltas, hok, -, -, hdivided, hcommit, -⟩ :=
    computeDeltas_exact numbering_reversal movers hold hnew
  refine ⟨⟨hold, hnew⟩, ?_, hcommit⟩
  rw [hdivided sharedMovers rfl, ← hok]
  decide +kernel

end VoteTable

end ChainHead
