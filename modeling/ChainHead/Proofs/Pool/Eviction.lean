/-
Eviction and selection: what a pool drops when a slot begins is nothing
that could still be selected.

# Two windows

A pool keeps data for `retentionEpochs` epochs after their slot, the rule
of the chain accepts them for one epoch. Both windows are reckoned with
words that stop at the greatest slot, and yet both are exact
(`lt_firstKept_iff`, `Inclusion.le_of_check`). So as long as a pool keeps
data for an epoch at all, what it drops at a slot is refused on every
state of that slot or a later one (`not_accepts_of_evicted`).

# One list

A selection goes through the roots of the index, one after the other.
Eviction leaves some of them out and changes no group at the others
(`Tidy.rootsNewestFirst_evicted`), and a root at which no group is
accepted is passed over without using up room (`select_filter`).
-/
import ChainHead.Proofs.Inclusion
import ChainHead.Proofs.Pool.Packing
import ChainHead.Proofs.Word

namespace ChainHead.Pool

open Bitfield (Misaligned)

variable {p p' : Pool} {preset : Preset} {sel : Selection} {state : BeaconState}
variable {root : Root} {g : Group} {slot first : Slot}

-- ========================================================= the windows

/-- The length of the window of a pool, as far as words reach. -/
theorem firstKeptSlot?_eq_some_iff :
    p.firstKeptSlot? preset slot = some first
      ↔ (Word.mulSat preset.slotsPerEpoch p.retentionEpochs).toNat < slot.toNat
        ∧ first.toNat + (Word.mulSat preset.slotsPerEpoch p.retentionEpochs).toNat
          = slot.toNat := by
  unfold firstKeptSlot?
  dsimp only
  split
  case isTrue h =>
    rw [UInt64.le_iff_toNat_le] at h
    simp only [reduceCtorEq, false_iff]
    omega
  case isFalse h =>
    rw [UInt64.not_le] at h
    have hsub := UInt64.toNat_sub_of_le _ _ (UInt64.le_of_lt h)
    rw [UInt64.lt_iff_toNat_lt] at h
    rw [Option.some.injEq, ← UInt64.toNat_inj, hsub]
    omega

/-- Data come before the first slot that is kept if their window has
passed. -/
theorem lt_firstKept_iff {d : Slot} :
    (∃ first, p.firstKeptSlot? preset slot = some first ∧ d < first)
      ↔ d.toNat + preset.slotsPerEpoch.toNat * p.retentionEpochs.toNat < slot.toNat := by
  have hslot := slot.toNat_lt
  have hwindow := Word.toNat_mulSat preset.slotsPerEpoch p.retentionEpochs
  constructor
  · intro ⟨first, hfirst, hd⟩
    rw [firstKeptSlot?_eq_some_iff] at hfirst
    rw [UInt64.lt_iff_toNat_lt] at hd
    omega
  · intro h
    -- the first slot that is kept is what is left of the slot
    have hlt : Word.mulSat preset.slotsPerEpoch p.retentionEpochs < slot := by
      rw [UInt64.lt_iff_toNat_lt]
      omega
    have hsub := UInt64.toNat_sub_of_le _ _ (UInt64.le_of_lt hlt)
    refine ⟨slot - Word.mulSat preset.slotsPerEpoch p.retentionEpochs, ?_, ?_⟩
    · rw [firstKeptSlot?_eq_some_iff]
      omega
    · rw [UInt64.lt_iff_toNat_lt]
      omega

/-- What a pool drops at a slot is refused on any state of that slot or a
later one, if it is kept for an epoch at all. -/
theorem not_accepts_of_evicted (hretention : 1 ≤ p.retentionEpochs)
    (hrule : sel.rule = Inclusion.check preset) (hslot : slot ≤ state.slot)
    (hfirst : p.firstKeptSlot? preset slot = some first) (hold : g.data.slot < first) :
    ¬sel.Accepts state g := by
  intro haccepts
  have hpassed := lt_firstKept_iff.mp ⟨first, hfirst, hold⟩
  have hchecked := haccepts.rule
  rw [hrule] at hchecked
  have hyoung := Inclusion.le_of_check hchecked
  rw [UInt64.le_iff_toNat_le, Word.toNat_addSat] at hyoung
  rw [UInt64.le_iff_toNat_le] at hretention hslot
  have hwindow : preset.slotsPerEpoch.toNat
      ≤ preset.slotsPerEpoch.toNat * p.retentionEpochs.toNat :=
    Nat.le_mul_of_pos_right _ hretention
  omega

-- ====================================================== what is passed over

theorem select_zero (sel : Selection) (p : Pool) (state : BeaconState) (roots : List Root) :
    select sel p state 0 roots = pure (.ok []) := by
  cases roots with
  | nil => rfl
  | cons root rest => rfl

/-- A group that cannot be aggregated ends the selection. -/
theorem select_of_misaligned {e : Misaligned} (hg : p.groups[root]? = some g)
    (haccepts : sel.Accepts state g) (he : g.aggregates sel.scheme = .error e) (room : Nat)
    (rest : List Root) :
    (select sel p state (room + 1) (root :: rest)).value = .error e := by
  rw [select, hg]
  dsimp only
  rw [haccepts.rule]
  dsimp only
  rw [haccepts.fork, he]
  rfl

/-- Roots at which no group is accepted can be left out, and the others
matter only by their groups. -/
theorem select_filter {keep : Root → Bool} {roots : List Root}
    (hsame : ∀ root ∈ roots, keep root = true → p'.groups[root]? = p.groups[root]?)
    (hrefused : ∀ root ∈ roots, keep root = false → ∀ g : Group, p.groups[root]? = some g →
      ¬sel.Accepts state g) (room : Nat) :
    (select sel p' state room (roots.filter keep)).value
      = (select sel p state room roots).value := by
  induction roots generalizing room with
  | nil => rfl
  | cons root rest ih =>
      obtain ⟨hroot, hrest⟩ := List.forall_mem_cons.mp hsame
      obtain ⟨hnone, hothers⟩ := List.forall_mem_cons.mp hrefused
      have hnext := ih hrest hothers
      cases room with
      | zero => rw [select_zero, select_zero]
      | succ room =>
          cases hkeep : keep root with
          | false =>
              rw [List.filter_cons_of_neg (by simp [hkeep]), select_of_refused (hnone hkeep)]
              exact hnext (room + 1)
          | true =>
              rw [List.filter_cons_of_pos hkeep]
              have hgroup := hroot hkeep
              by_cases hsome : ∃ g : Group, p.groups[root]? = some g ∧ sel.Accepts state g
              · obtain ⟨g, hg, haccepts⟩ := hsome
                have hg' := hgroup.trans hg
                cases hitems : g.aggregates sel.scheme with
                | error e =>
                    rw [select_of_misaligned hg haccepts hitems,
                      select_of_misaligned hg' haccepts hitems]
                | ok items =>
                    rw [select_of_accepts hg haccepts hitems,
                      select_of_accepts hg' haccepts hitems, hnext]
              · have hnot : ∀ g : Group, p.groups[root]? = some g → ¬sel.Accepts state g :=
                  fun g hg haccepts => hsome ⟨g, hg, haccepts⟩
                rw [select_of_refused hnot, select_of_refused (hgroup ▸ hnot)]
                exact hnext (room + 1)

/-- A selection depends on the groups alone. -/
theorem select_congr (sel : Selection) (state : BeaconState) (h : p'.groups = p.groups)
    (room : Nat) (roots : List Root) :
    (select sel p' state room roots).value = (select sel p state room roots).value := by
  have hall : (select sel p' state room (roots.filter fun _ => true)).value
      = (select sel p state room roots).value :=
    select_filter (fun root _ _ => by rw [h]) (fun _ _ hdrop => by cases hdrop) room
  rwa [List.filter_true] at hall

/-- What is selected for a block is found by going through the index. -/
theorem attestationsForBlock_value (p : Pool) (preset : Preset) (sel : Selection)
    (state : BeaconState) :
    (p.attestationsForBlock preset sel state).value.2
      = (select sel p state preset.maxAttestations p.rootsNewestFirst).value := by
  -- counting the call changes neither the groups nor the index
  have hgroups : ({ p with metrics := p.metrics.countPacking } : Pool).groups = p.groups := rfl
  have hroots : p.rootsNewestFirst
      = ({ p with metrics := p.metrics.countPacking } : Pool).rootsNewestFirst := rfl
  rw [hroots, ← select_congr sel state hgroups]
  unfold attestationsForBlock
  dsimp only
  rw [Logged.value_bind]
  cases (select sel { p with metrics := p.metrics.countPacking } state preset.maxAttestations
    ({ p with metrics := p.metrics.countPacking } : Pool).rootsNewestFirst).value with
  | error e => rfl
  | ok items => rfl

-- ======================================================= what is left

/-- What is left to go through are the roots that are listed from the
first slot on. -/
theorem Tidy.rootsNewestFirst_evicted (h : p.Tidy) (first : Slot) :
    (p.evicted first).rootsNewestFirst
      = p.rootsNewestFirst.filter fun root => root ∉ rootsBefore p.slots first := by
  unfold rootsNewestFirst
  change ((p.slots.filter fun slot _ => first ≤ slot).toList.reverse.flatMap _) = _
  rw [Std.ExtTreeMap.toList_filter, ← List.filter_reverse]
  refine flatMap_filter fun ⟨slot, roots⟩ hentry root hroot => ?_
  rw [List.mem_reverse, Std.ExtTreeMap.mem_toList_iff_getElem?_eq_some] at hentry
  have hlisted : root ∈ p.rootsAt slot :=
    mem_rootsIn.mpr ⟨roots, hentry, Std.ExtTreeSet.mem_toList.mp hroot⟩
  -- no root is listed at two slots, so this is the one that counts
  have hbefore : root ∈ rootsBefore p.slots first ↔ slot < first := by
    rw [mem_rootsBefore]
    constructor
    · intro ⟨slot', hlt, hlisted'⟩
      rwa [h.slot_unique hlisted hlisted']
    · intro hlt
      exact ⟨slot, hlt, hlisted⟩
  simp only [hbefore, UInt64.not_lt]

theorem getElem?_evicted (hroot : root ∉ rootsBefore p.slots first) :
    (p.evicted first).groups[root]? = p.groups[root]? := by
  rw [evicted, Map.getElem?_foldl_erase, if_neg hroot]

/-- If no evicted group would be accepted, the same is selected after
eviction. -/
theorem Tidy.attestationsForBlock_evicted (h : p.Tidy) (preset : Preset)
    (hrefused : ∀ (root : Root) (g : Group), p.groups[root]? = some g → g.data.slot < first →
      ¬sel.Accepts state g) :
    ((p.evicted first).attestationsForBlock preset sel state).value.2
      = (p.attestationsForBlock preset sel state).value.2 := by
  rw [attestationsForBlock_value, attestationsForBlock_value, h.rootsNewestFirst_evicted]
  refine select_filter (fun root _ hkeep => ?_) (fun root _ hdrop g hg => ?_) _
  · exact getElem?_evicted (of_decide_eq_true hkeep)
  · obtain ⟨g', hg', hold⟩ := h.mem_rootsBefore_iff.mp
      (Decidable.not_not.mp (of_decide_eq_false hdrop))
    rw [hg, Option.some.injEq] at hg'
    exact hrefused root g hg (hg' ▸ hold)

-- ================================================================ runs

theorem retentionEpochs_removeEqual (p : Pool) (a : Attestation) :
    (p.removeEqual a).retentionEpochs = p.retentionEpochs := by
  rcases p.removeEqual_cases a with ⟨-, heq⟩ | ⟨g, -, ⟨-, heq⟩ | ⟨-, heq⟩⟩
  · rw [heq]
  · rw [heq]
  · rw [heq]

/-- How long attestations are kept never changes. -/
theorem retentionEpochs_call (p : Pool) (preset : Preset) (c : Call) :
    (p.call preset c).retentionEpochs = p.retentionEpochs := by
  cases c with
  | add s facts =>
      rcases p.add_cases s facts with ⟨-, hadd⟩
        | ⟨seed, result, -, hadd, ⟨hvalue, -⟩ | ⟨members, hvalue, -⟩⟩
      · simp only [Pool.call, hadd]
      · simp only [Pool.call, hadd, hvalue]
        rfl
      · simp only [Pool.call, hadd, hvalue]
        rfl
  | remove a => exact p.retentionEpochs_removeEqual a
  | removeAll as =>
      show (as.foldl removeEqual p).retentionEpochs = p.retentionEpochs
      induction as generalizing p with
      | nil => rfl
      | cons a as ih => exact (ih (p.removeEqual a)).trans (p.retentionEpochs_removeEqual a)
  | slot slot =>
      simp only [Pool.call]
      rw [onSlot_value]
      cases p.firstKeptSlot? preset slot with
      | none => rfl
      | some first => rfl

theorem retentionEpochs_after (preset : Preset) (start : Pool) (calls : List Call) :
    (after preset start calls).retentionEpochs = start.retentionEpochs := by
  induction calls with
  | nil => rfl
  | cons c earlier ih => exact (retentionEpochs_call _ preset c).trans ih

/-- After any run in which data are told apart by their roots, a slot
that begins changes nothing about what is selected for a block on any
state of that slot or a later one, if the rule is that of the chain and
attestations are kept for at least an epoch. -/
theorem attestationsForBlock_onSlot (preset : Preset) (retentionEpochs : UInt64)
    (calls : List Call) (sel : Selection) (state : BeaconState) (slot : Slot)
    (hdistinct : Distinct calls) (hretention : 1 ≤ retentionEpochs)
    (hrule : sel.rule = Inclusion.check preset) (hslot : slot ≤ state.slot) :
    let p := after preset { retentionEpochs } calls
    ((p.onSlot preset slot).value.attestationsForBlock preset sel state).value.2
      = (p.attestationsForBlock preset sel state).value.2 := by
  intro p
  obtain ⟨htidy, -⟩ := tidy_run preset retentionEpochs hdistinct
  have hkept : p.retentionEpochs = retentionEpochs := retentionEpochs_after preset _ calls
  rw [onSlot_value]
  cases hfirst : p.firstKeptSlot? preset slot with
  | none => rfl
  | some first =>
      have hrefused : ∀ (root : Root) (g : Group), p.groups[root]? = some g →
          g.data.slot < first → ¬sel.Accepts state g := fun root g _ hold =>
        not_accepts_of_evicted (hkept ▸ hretention) hrule hslot hfirst hold
      show ((p.evicted first).updateMetrics.attestationsForBlock preset sel state).value.2 = _
      rw [← htidy.attestationsForBlock_evicted preset hrefused]
      have hgroups : (p.evicted first).updateMetrics.groups = (p.evicted first).groups := rfl
      rw [attestationsForBlock_value, attestationsForBlock_value]
      exact select_congr sel state hgroups _ _

/-- What the rule of the chain and the seed of a state accept, as signed
numbers. -/
def chainRule (preset : Preset) (state : BeaconState) : Selection :=
  { sameSeed state with rule := Inclusion.check preset }

/-- Votes on a slot that becomes too old for a block, and on a later one
of the same epoch. -/
def harvest : List Call :=
  [.add (paper 2 0b110 7 0) { seed := some 0 },
    .add (paper 1 0b001 1 0) { seed := some 0 }]

/-- In the next epoch the first vote is dropped, which could no longer be
selected anyway; the other one is selected as before. -/
theorem attestationsForBlock_onSlot_harvest :
    let p := after .minimal { retentionEpochs := 1 } harvest
    let state := bareState 10 0
    let sel := chainRule .minimal state
    (Distinct harvest ∧ (1 : UInt64) ≤ 1 ∧ (10 : Slot) ≤ state.slot
        ∧ p.size = 2
        ∧ (p.onSlot .minimal 10).value.size = 1
        ∧ (p.attestationsForBlock .minimal sel state).value.2
          = .ok [(paper 2 0b110 7 0).attestation])
      ∧ ((p.onSlot .minimal 10).value.attestationsForBlock .minimal sel state).value.2
        = (p.attestationsForBlock .minimal sel state).value.2 := by
  refine (and_iff_left_of_imp fun hseen => attestationsForBlock_onSlot .minimal 1 harvest _ _ 10
    hseen.1 hseen.2.1 rfl hseen.2.2.1).mpr ?_
  decide +kernel

end ChainHead.Pool
