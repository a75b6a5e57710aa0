/-
Steps of a pool that can be interchanged.

When a slot begins, a pool drops the groups of slots that are too old.
What is not too old is added to the same group with the same result,
whether the others are still there or not. So the two steps can be
interchanged, and not even the gauges tell in which order they were
taken (`Tidy.add_slot`). The pool has to be tidy, since the size is
reckoned with in one order and counted out in the other.
-/
import ChainHead.Proofs.Pool.Eviction

namespace ChainHead.Pool

variable {p q : Pool} {preset : Preset} {s : Submission} {facts : Facts} {seed : Root}
variable {slot first : Slot}

-- ============================================================ one step

theorem call_add (preset : Preset) (p : Pool) (s : Submission) (hseed : facts.seed = some seed) :
    p.call preset (.add s facts)
      = (p.filed s ((p.joined s seed).add s).value.1
        (if ((p.joined s seed).add s).value.2 then p.size + 1 else p.size)).updateMetrics := by
  obtain ⟨result, hadd, hvalue⟩ := p.add_value s hseed
  unfold call
  dsimp only
  rw [hadd]
  exact congrArg Prod.fst hvalue

theorem call_add_unseeded (preset : Preset) (p : Pool) (s : Submission)
    (hseed : facts.seed = none) : p.call preset (.add s facts) = p := by
  have hadd : p.add s facts = .error (.seedMissing s.dataRoot) := by
    unfold add
    rw [hseed]
  unfold call
  dsimp only
  rw [hadd]

theorem call_slot (preset : Preset) (p : Pool) (slot : Slot) :
    p.call preset (.slot slot) = match p.firstKeptSlot? preset slot with
      | none => p
      | some first => (p.evicted first).updateMetrics :=
  onSlot_value preset p slot

/-- What is listed at a slot that is kept stays. -/
theorem rootsIn_filter {slots : Std.ExtTreeMap Slot (Std.ExtTreeSet Root)} (hle : first ≤ slot) :
    rootsIn (slots.filter fun slot _ => first ≤ slot) slot = rootsIn slots slot := by
  unfold rootsIn
  rw [Std.ExtTreeMap.getD_eq_getD_getElem?, Std.ExtTreeMap.getD_eq_getD_getElem?,
    Std.ExtTreeMap.getElem?_filter']
  cases slots[slot]? with
  | none => rfl
  | some roots => rw [Option.filter_some, decide_eq_true hle, if_pos rfl]

/-- A pool that was just brought up to date shows what it holds. -/
theorem updateMetrics_congr (hretention : p.retentionEpochs = q.retentionEpochs)
    (hgroups : p.groups = q.groups) (hslots : p.slots = q.slots) (hsize : p.size = q.size)
    (hpackings : p.metrics.packings = q.metrics.packings) :
    p.updateMetrics = q.updateMetrics := by
  unfold updateMetrics groupCount PoolMetrics.setSize PoolMetrics.setGroups
  rw [hretention, hgroups, hslots, hsize, hpackings]

-- ======================================================== two steps

namespace Tidy

theorem call_add (h : p.Tidy)
    (hsame : ∀ g : Group, p.groups[s.dataRoot]? = some g → g.data = s.data) (preset : Preset)
    (facts : Facts) : (p.call preset (.add s facts)).Tidy := by
  refine (h.call preset (.add s facts) fun s' facts' heq => ?_).1
  obtain ⟨rfl, -⟩ := Call.add.inj heq
  exact hsame

/-- A group that a submission of a later slot joins is not evicted. -/
theorem joined_evicted (h : p.Tidy)
    (hsame : ∀ g : Group, p.groups[s.dataRoot]? = some g → g.data = s.data)
    (hkept : first ≤ s.data.slot) (seed : Root) :
    (p.evicted first).updateMetrics.joined s seed = p.joined s seed := by
  have hgroup : (p.evicted first).groups[s.dataRoot]? = p.groups[s.dataRoot]? := by
    rw [h.groups_evicted, Std.ExtTreeMap.getElem?_filter']
    cases hg : p.groups[s.dataRoot]? with
    | none => rfl
    | some g => rw [Option.filter_some, hsame g hg, decide_eq_true hkept, if_pos rfl]
  unfold Pool.joined
  rw [Std.ExtTreeMap.getD_eq_getD_getElem?, Std.ExtTreeMap.getD_eq_getD_getElem?]
  exact congrArg (fun g : Option Group => g.getD _) hgroup

/-- The group that a submission joined has its data. -/
theorem data_joined_add (h : p.Tidy)
    (hsame : ∀ g : Group, p.groups[s.dataRoot]? = some g → g.data = s.data) (seed : Root) :
    ((p.joined s seed).add s).value.1.data = s.data := by
  have hdata := (h.joined hsame seed).2.1
  rcases (p.joined s seed).add_cases s with ⟨heq, -⟩ | ⟨members, heq, -⟩
  · rw [heq]
    exact hdata
  · rw [heq]
    exact hdata

/-- Unless it is too old, a submission may be added before a slot begins
or after. -/
theorem add_slot (h : p.Tidy)
    (hsame : ∀ g : Group, p.groups[s.dataRoot]? = some g → g.data = s.data)
    (hkept : ∀ first, p.firstKeptSlot? preset slot = some first → first ≤ s.data.slot)
    (facts : Facts) :
    (p.call preset (.add s facts)).call preset (.slot slot)
      = (p.call preset (.slot slot)).call preset (.add s facts) := by
  cases hseed : facts.seed with
  | none => rw [call_add_unseeded _ _ _ hseed, call_add_unseeded _ _ _ hseed]
  | some seed =>
      have hadded := h.call_add hsame preset facts
      have hadd := Pool.call_add preset p s hseed
      have hfirst : (p.call preset (.add s facts)).firstKeptSlot? preset slot
          = p.firstKeptSlot? preset slot := by
        rw [hadd]
        rfl
      rw [call_slot, call_slot, hfirst]
      cases hslot : p.firstKeptSlot? preset slot with
      | none => rfl
      | some first =>
          dsimp only
          have hle := hkept first hslot
          have hsame' : ∀ g : Group,
              (p.evicted first).updateMetrics.groups[s.dataRoot]? = some g → g.data = s.data := by
            intro g hg
            change (p.evicted first).groups[s.dataRoot]? = some g at hg
            rw [h.groups_evicted, Map.getElem?_filter_eq_some] at hg
            exact hsame g hg.1
          have hadd' := Pool.call_add preset (p.evicted first).updateMetrics s hseed
          have hlate := (h.evicted first).1.updateMetrics.call_add hsame' preset facts
          have hearly := (hadded.evicted first).1
          have hgroups := hadded.groups_evicted first
          have hgroups' := h.groups_evicted first
          rw [hadd] at hearly hgroups ⊢
          rw [hadd', h.joined_evicted hsame hle] at hlate ⊢
          -- the groups are the same, and so is what they hold
          have hmembers : (p.groups.insert s.dataRoot ((p.joined s seed).add s).value.1).filter
                (fun _ g => first ≤ g.data.slot)
              = (p.evicted first).groups.insert s.dataRoot ((p.joined s seed).add s).value.1 := by
            rw [hgroups', Map.filter_insert]
            rw [h.data_joined_add hsame seed]
            exact decide_eq_true hle
          refine updateMetrics_congr rfl (hgroups.trans hmembers) ?_ ?_ rfl
          · show (p.slots.insert s.data.slot
                ((rootsIn p.slots s.data.slot).insert s.dataRoot)).filter _
              = (p.slots.filter fun slot _ => first ≤ slot).insert s.data.slot
                ((rootsIn (p.slots.filter fun slot _ => first ≤ slot) s.data.slot).insert
                  s.dataRoot)
            rw [Map.filter_insert (p := fun slot _ => decide (first ≤ slot)) (decide_eq_true hle),
              rootsIn_filter hle]
          · refine hearly.size.trans (Eq.trans ?_ hlate.size.symm)
            exact congrArg (fun groups => (storedIn groups).length) (hgroups.trans hmembers)

end Tidy

end ChainHead.Pool
