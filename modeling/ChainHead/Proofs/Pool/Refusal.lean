/-
What a pool refuses.

A group refuses an attestation if its members have another number of
bits, for which the first stands, or if one of them has all its votes.
Additions take no member away, and none of another length comes first.
So what a group refuses it goes on refusing, and it refuses what it was
just given (`Group.Refuses.add`, `Group.refuses_add`). A slot takes
groups of earlier slots away. That leaves the calls that take out what
is asked for: as long as there are none, an attestation that was handed
in once is refused from then on.

A pool that refuses a submission is not changed by it
(`Tidy.call_add_refused`). This goes for the gauges as well, which every
call leaves as they should be (`updateMetrics_after`).
-/
import ChainHead.Proofs.Pool.Interchange
import ChainHead.Proofs.Pool.Members

namespace ChainHead

-- =============================================================== groups

namespace Group

variable {g : Group} {a : Attestation} {s m : Submission}

/-- Whether a group would not take in an attestation. -/
def Refuses (g : Group) (a : Attestation) : Prop :=
  ∃ first, g.members.head? = some first
    ∧ (first.bits.length = a.bits.length → ∃ m ∈ g.members, a.bits.isSubsetOf m.bits = true)

theorem refuses_iff : g.Refuses s.attestation ↔ (g.add s).value = (g, false) := by
  unfold Refuses add
  cases g.members.head? with
  | none =>
      refine iff_of_false (fun ⟨first, hnone, _⟩ => by cases hnone) fun h => ?_
      exact Bool.noConfusion (congrArg Prod.snd h)
  | some first =>
      dsimp only
      split
      case isTrue hother => exact iff_of_true ⟨first, rfl, fun hsame => absurd hsame hother⟩ rfl
      case isFalse hsame =>
        split
        case isTrue hcovered =>
          exact iff_of_true ⟨first, rfl, fun _ => List.any_eq_true.mp hcovered⟩ rfl
        case isFalse hnew =>
          refine iff_of_false (fun ⟨first', heq, hcovered⟩ => ?_) fun h => ?_
          · injection heq with heq
            subst heq
            exact hnew (List.any_eq_true.mpr (hcovered (not_not.mp hsame)))
          · exact Bool.noConfusion (congrArg Prod.snd h)

theorem refuses_of_mem (hm : m ∈ g.members) : g.Refuses m.attestation := by
  obtain ⟨first, rest, hmembers⟩ := List.exists_cons_of_ne_nil (List.ne_nil_of_mem hm)
  exact ⟨first, by rw [hmembers, List.head?_cons], fun _ => ⟨m, hm, Bitfield.isSubsetOf_self _⟩⟩

/-- A newcomer is placed first, or the first stays. -/
theorem head?_place (s : Submission) (members : List Submission) :
    (place s members).head? = some s ∨ (place s members).head? = members.head? := by
  unfold place
  dsimp only
  cases members with
  | nil => exact .inl rfl
  | cons first rest =>
      rw [List.takeWhile_cons, List.dropWhile_cons]
      split
      case isTrue => exact .inr rfl
      case isFalse => exact .inl rfl

/-- A group goes on refusing when it takes in others. -/
theorem Refuses.add (h : g.Refuses a) (s : Submission) : (g.add s).value.1.Refuses a := by
  have hrefuses := h
  obtain ⟨first, hfirst, hcovered⟩ := h
  unfold Group.add
  rw [hfirst]
  dsimp only
  split
  case isTrue => exact hrefuses
  case isFalse hsame =>
    split
    case isTrue => exact hrefuses
    case isFalse =>
      -- the members are still there, and the first has as many bits
      have hstill : (∃ m ∈ g.members, a.bits.isSubsetOf m.bits = true) →
          ∃ m ∈ place s g.members, a.bits.isSubsetOf m.bits = true := fun ⟨m, hm, hsub⟩ =>
        ⟨m, (place_perm s g.members).mem_iff.mpr (List.mem_cons_of_mem s hm), hsub⟩
      rcases head?_place s g.members with hnew | hold
      · exact ⟨s, hnew, fun hlength => hstill (hcovered ((not_not.mp hsame).trans hlength))⟩
      · exact ⟨first, hold.trans hfirst, fun hlength => hstill (hcovered hlength)⟩

/-- Whether it was taken in or not, it is refused afterwards. -/
theorem refuses_add (g : Group) (s : Submission) :
    (g.add s).value.1.Refuses s.attestation := by
  rcases g.add_outcome s with ⟨heq, -⟩ | ⟨members, heq, hperm, -⟩
  · have hrefuses := refuses_iff.mpr heq
    rw [heq]
    exact hrefuses
  · rw [heq]
    exact refuses_of_mem (hperm.mem_iff.mpr List.mem_cons_self)

end Group

namespace Pool

variable {p : Pool} {preset : Preset} {a : Attestation} {s m : Submission} {facts : Facts}
variable {slot : Slot}

-- ========================================================== the gauges

/-- The gauges are right after a call if they were before. -/
theorem updateMetrics_call (h : p.updateMetrics = p) (preset : Preset) (c : Call) :
    (p.call preset c).updateMetrics = p.call preset c := by
  cases c with
  | add s facts =>
      cases hseed : facts.seed with
      | none =>
          rw [call_add_unseeded _ _ _ hseed]
          exact h
      | some seed =>
          rw [call_add _ _ _ hseed]
          rfl
  | remove a => rfl
  | removeAll as => rfl
  | slot slot =>
      rw [call_slot]
      split
      case h_1 => exact h
      case h_2 => rfl

theorem updateMetrics_after (preset : Preset) (retentionEpochs : UInt64) (calls : List Call) :
    (after preset { retentionEpochs } calls).updateMetrics
      = after preset { retentionEpochs } calls := by
  induction calls with
  | nil => rfl
  | cons c earlier ih => exact updateMetrics_call ih preset c

-- ============================================================= refusals

/-- Whether a pool would not take in an attestation, given any seed. -/
def Refuses (p : Pool) (a : Attestation) : Prop :=
  ∃ g : Group, p.groups[a.data.hashTreeRoot]? = some g ∧ g.Refuses a

theorem refuses_of_stored (h : p.Tidy) (hm : m ∈ p.stored) : p.Refuses m.attestation := by
  obtain ⟨g, hg, hmember, -⟩ := h.group_of_mem hm
  exact ⟨g, hg, Group.refuses_of_mem hmember⟩

theorem refuses_call_add (preset : Preset) (p : Pool) (s : Submission) {seed : Root}
    (hseed : facts.seed = some seed) : (p.call preset (.add s facts)).Refuses s.attestation := by
  rw [call_add _ _ _ hseed]
  exact ⟨_, Std.ExtTreeMap.getElem?_insert_self, (p.joined s seed).refuses_add s⟩

/-- A pool goes on refusing when it takes in others. -/
theorem Refuses.call_add (h : p.Refuses a) (preset : Preset) (s : Submission) (facts : Facts) :
    (p.call preset (.add s facts)).Refuses a := by
  cases hseed : facts.seed with
  | none =>
      rw [call_add_unseeded _ _ _ hseed]
      exact h
  | some seed =>
      obtain ⟨g, hg, hrefuses⟩ := h
      rw [Pool.call_add _ _ _ hseed]
      by_cases hroot : s.dataRoot = a.data.hashTreeRoot
      · have hjoined : p.joined s seed = g := by
          unfold joined
          rw [Std.ExtTreeMap.getD_eq_getD_getElem?, hroot, hg]
          rfl
        refine ⟨((p.joined s seed).add s).value.1, ?_, ?_⟩
        · rw [← hroot]
          exact Std.ExtTreeMap.getElem?_insert_self
        · rw [hjoined]
          exact hrefuses.add s
      · refine ⟨g, ?_, hrefuses⟩
        show (p.groups.insert s.dataRoot _)[a.data.hashTreeRoot]? = some g
        rw [Std.ExtTreeMap.getElem?_insert, if_neg, hg]
        exact fun heq => hroot (Std.LawfulEqOrd.compare_eq_iff_eq.mp heq)

namespace Tidy

/-- When a slot begins a pool goes on refusing what is from that slot or
a later one. -/
theorem refuses_call_slot (h : p.Tidy) (hrefuses : p.Refuses a)
    (hsame : ∀ g : Group, p.groups[a.data.hashTreeRoot]? = some g → g.data = a.data)
    (hle : slot ≤ a.data.slot) : (p.call preset (.slot slot)).Refuses a := by
  obtain ⟨g, hg, hgroup⟩ := hrefuses
  rw [Pool.call_slot]
  cases hfirst : p.firstKeptSlot? preset slot with
  | none => exact ⟨g, hg, hgroup⟩
  | some first =>
      refine ⟨g, ?_, hgroup⟩
      show (p.evicted first).groups[a.data.hashTreeRoot]? = some g
      rw [h.groups_evicted, Map.getElem?_filter_eq_some]
      refine ⟨hg, decide_eq_true ?_⟩
      rw [hsame g hg]
      have hbegan := (firstKeptSlot?_eq_some_iff.mp hfirst).2
      rw [UInt64.le_iff_toNat_le] at hle ⊢
      omega

/-- What is refused changes nothing. -/
theorem call_add_refused (h : p.Tidy) (hgauges : p.updateMetrics = p)
    (hsame : ∀ g : Group, p.groups[s.dataRoot]? = some g → g.data = s.data)
    (hrefuses : p.Refuses s.attestation) (preset : Preset) (facts : Facts) :
    p.call preset (.add s facts) = p := by
  cases hseed : facts.seed with
  | none => exact call_add_unseeded preset p s hseed
  | some seed =>
      obtain ⟨g, hg, hgroup⟩ := hrefuses
      change p.groups[s.dataRoot]? = some g at hg
      have hjoined : p.joined s seed = g := by
        unfold Pool.joined
        rw [Std.ExtTreeMap.getD_eq_getD_getElem?, hg]
        rfl
      have hlisted : s.dataRoot ∈ rootsIn p.slots s.data.slot :=
        (h.index s.data.slot s.dataRoot).mpr ⟨g, hg, by rw [hsame g hg]⟩
      have hslots : p.slots.insert s.data.slot
          ((rootsIn p.slots s.data.slot).insert s.dataRoot) = p.slots := Map.insert_setAt hlisted
      rw [Pool.call_add preset p s hseed, hjoined, Group.refuses_iff.mp hgroup]
      unfold Pool.filed
      rw [hslots, Map.insert_of_getElem? hg]
      exact hgauges

end Tidy

end Pool

end ChainHead
