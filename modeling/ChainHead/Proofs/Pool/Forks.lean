/-
Which forks the selected attestations are from.

A group is compared with a state by one seed, which is that of the
submission it was founded with: as long as the group stands it keeps
that seed, whatever joins it and even if the founder is taken out
(`founded_after`). So what is selected is of the fork of a state if all
submissions of one group were recorded with one seed, and need not be
otherwise (`mixed_after_feud`), although data can be the same on forks
with different committees.
-/
import ChainHead.Proofs.Pool.Packing

namespace ChainHead

theorem Group.seed_add (g : Group) (s : Submission) : (g.add s).value.1.seed = g.seed := by
  rcases g.add_cases s with ⟨heq, -⟩ | ⟨members, heq, -⟩
  · rw [heq]
  · rw [heq]

namespace Pool

variable {p : Pool} {preset : Preset} {sel : Selection} {state : BeaconState}
variable {root seed : Root} {g g' : Group}

-- ============================================== statement vocabulary

/-- Whether a seed is that of the submission with which the group at a
root was founded, since when the group was never gone. -/
def Founded (preset : Preset) (start : Pool) (calls : List Call) (root seed : Root) : Prop :=
  ∃ later s facts earlier, calls = later ++ .add s facts :: earlier
    ∧ s.dataRoot = root ∧ facts.seed = some seed
    ∧ (after preset start earlier).groups[root]? = none
    ∧ ∀ recent, recent <:+ later →
      (after preset start (recent ++ .add s facts :: earlier)).groups[root]? ≠ none

/-- Whether submissions that are handed in with the same data are
recorded with the same seed. -/
def Agreed (calls : List Call) : Prop :=
  ∀ x ∈ handedIn calls, ∀ y ∈ handedIn calls, x.1.data = y.1.data → x.2.seed = y.2.seed

instance (calls : List Call) : Decidable (Agreed calls) :=
  inferInstanceAs (Decidable (∀ x ∈ handedIn calls, ∀ y ∈ handedIn calls,
    x.1.data = y.1.data → x.2.seed = y.2.seed))

/-- Whether attestations are made only of stored submissions that were
recorded with the seed of a state for their target. -/
def Unmixed (scheme : SignatureScheme) (calls : List Call) (p : Pool) (state : BeaconState)
    (items : List Attestation) : Prop :=
  ∀ a ∈ items, ∃ parts, (∀ m ∈ parts, m ∈ p.stored) ∧ Group.MadeOf scheme a.data parts a
    ∧ ∀ m ∈ parts, ∃ facts, (m, facts) ∈ handedIn calls
      ∧ facts.seed = some (state.shufflingSeed m.data.target.epoch)

-- ============================================================== seeds

theorem mem_handedIn_singleton {c : Call} {s : Submission} {facts : Facts} :
    (s, facts) ∈ handedIn [c] ↔ c = .add s facts := by
  cases c with
  | add s' facts' =>
      change _ ∈ [(s', facts')] ↔ _
      simp [eq_comm]
  | remove a => simp [handedIn]
  | removeAll as => simp [handedIn]
  | slot slot => simp [handedIn]

/-- No call changes the seed of a group. -/
theorem seed_call {c : Call} (hg : p.groups[root]? = some g)
    (hg' : (p.call preset c).groups[root]? = some g') : g'.seed = g.seed := by
  have hold : p.Everywhere fun r g' => r = root → g'.seed = g.seed := by
    rintro r g₁ hg₁ rfl
    rw [hg, Option.some.injEq] at hg₁
    rw [hg₁]
  refine hold.call ?_ ?_ ?_ root g' hg' rfl
  · rintro s facts seed - - habsent rfl
    rw [hg] at habsent
    cases habsent
  · intro s facts g₁ _ _ hsame hroot
    rw [g₁.seed_add, hsame hroot]
  · exact fun _ _ _ hsame hroot => hsame hroot

/-- A group that was not there has the seed of the submission just handed
in. -/
theorem founder_of_call {c : Call} (habsent : p.groups[root]? = none)
    (hg : (p.call preset c).groups[root]? = some g) :
    ∃ s facts, c = .add s facts ∧ s.dataRoot = root ∧ facts.seed = some g.seed := by
  have hold : p.Everywhere fun r g => r = root →
      ∃ s facts, c = .add s facts ∧ s.dataRoot = root ∧ facts.seed = some g.seed := by
    rintro r g₁ hg₁ rfl
    rw [habsent] at hg₁
    cases hg₁
  refine hold.call ?_ ?_ ?_ root g hg rfl
  · intro s facts seed hs hseed _ hroot
    exact ⟨s, facts, mem_handedIn_singleton.mp hs, hroot, hseed⟩
  · intro s facts g₁ _ _ hfounder hroot
    rw [g₁.seed_add]
    exact hfounder hroot
  · exact fun _ _ _ hfounder hroot => hfounder hroot

/-- As long as a group stands, it keeps the seed of its founder. -/
theorem founded_after (preset : Preset) (retentionEpochs : UInt64) {calls : List Call}
    (hg : (after preset { retentionEpochs } calls).groups[root]? = some g) :
    Founded preset { retentionEpochs } calls root g.seed := by
  induction calls generalizing g with
  | nil => simp [after] at hg
  | cons c earlier ih =>
      cases hbefore : (after preset { retentionEpochs } earlier).groups[root]? with
      | none =>
          obtain ⟨s, facts, rfl, hroot, hseed⟩ := founder_of_call hbefore hg
          refine ⟨[], s, facts, earlier, rfl, hroot, hseed, hbefore, fun recent hrecent => ?_⟩
          rw [List.suffix_nil.mp hrecent, List.nil_append, hg]
          exact Option.some_ne_none g
      | some g₀ =>
          obtain ⟨later, s, facts, first, heq, hroot, hseed, habsent, hstood⟩ := ih hbefore
          rw [← seed_call hbefore hg] at hseed
          refine ⟨c :: later, s, facts, first, ?_, hroot, hseed, habsent, fun recent hrecent => ?_⟩
          · rw [heq, List.cons_append]
          · rcases List.suffix_cons_iff.mp hrecent with rfl | hrecent
            · rw [List.cons_append, ← heq, hg]
              exact Option.some_ne_none g
            · exact hstood recent hrecent

-- ============================================================== forks

/-- All members of groups were handed in. -/
theorem members_handedIn (preset : Preset) (retentionEpochs : UInt64) (calls : List Call) :
    (after preset { retentionEpochs } calls).Everywhere fun _ g =>
      ∀ m ∈ g.members, ∃ facts, (m, facts) ∈ handedIn calls := by
  refine everywhere_after preset retentionEpochs ?_ ?_ ?_
  · intro s facts seed _ _ m hm
    cases hm
  · intro s facts g hs _ hg m hm
    rcases Group.mem_of_mem_add hm with rfl | hm
    · exact ⟨facts, hs⟩
    · exact hg m hm
  · exact fun _ _ _ hg m hm => hg m (List.mem_of_mem_filter hm)

theorem mem_offered_of_handedIn {calls : List Call} {s : Submission} {facts : Facts}
    (h : (s, facts) ∈ handedIn calls) : s.data ∈ offered calls := by
  obtain ⟨c, hc, hsome⟩ := List.mem_filterMap.mp h
  refine List.mem_filterMap.mpr ⟨c, hc, ?_⟩
  cases c with
  | add s' facts' =>
      injection hsome with hsame
      injection hsame with hs _
      rw [hs]
  | remove a => cases hsome
  | removeAll as => cases hsome
  | slot slot => cases hsome

/-- Where data agree on their seeds, the members of a group have the seed
that it was founded with. -/
theorem Founded.seed_of_agreed {start : Pool} {calls : List Call} {m : Submission} {facts : Facts}
    (h : Founded preset start calls m.dataRoot seed) (hdistinct : Distinct calls)
    (hagreed : Agreed calls) (hm : (m, facts) ∈ handedIn calls) : facts.seed = some seed := by
  obtain ⟨later, s, facts', earlier, heq, hroot, hseed, -, -⟩ := h
  have hs : (s, facts') ∈ handedIn calls :=
    List.mem_filterMap.mpr ⟨.add s facts', heq ▸ by simp, rfl⟩
  -- the founder was handed in under the same root, and so with the same data
  have hdata : m.data = s.data :=
    hdistinct _ (mem_offered_of_handedIn hm) _ (mem_offered_of_handedIn hs) hroot.symm
  rw [← hseed]
  exact hagreed _ hm _ hs hdata

/-- If forks are compared by seeds, all that is selected for a block is
made of members of one group, of which the founder was recorded with the
seed of the state; and of such submissions only, if submissions with the
same data are recorded with the same seed. -/
theorem forks_after (preset : Preset) (retentionEpochs : UInt64) (calls : List Call)
    (sel : Selection) (state : BeaconState) (hdistinct : Distinct calls)
    (hclean : ∀ x ∈ handedIn calls, x.1.bits.Clean)
    (hfork : ∀ g, sel.sameFork g = Inclusion.sameShuffling state g.seed g.data) :
    let p := after preset { retentionEpochs } calls
    ∃ items, (p.attestationsForBlock preset sel state).value.2 = .ok items
      ∧ (∀ a ∈ items, ∃ (root : Root) (g : Group) (parts : List Submission),
        p.groups[root]? = some g ∧ parts.Sublist g.members ∧ Group.MadeOf sel.scheme g.data parts a
          ∧ Founded preset { retentionEpochs } calls root
            (state.shufflingSeed g.data.target.epoch))
      ∧ (Agreed calls → Unmixed sel.scheme calls p state items) := by
  intro p
  obtain ⟨htidy, -⟩ := tidy_run preset retentionEpochs hdistinct
  have haligned := aligned_after preset retentionEpochs hclean
  have hmade : ∀ root, ∀ a ∈ p.offers sel state root, ∃ (g : Group) (parts : List Submission),
      p.groups[root]? = some g ∧ a.data = g.data ∧ parts.Sublist g.members
        ∧ Group.MadeOf sel.scheme g.data parts a
        ∧ Founded preset { retentionEpochs } calls root
          (state.shufflingSeed g.data.target.epoch) := by
    intro root a ha
    obtain ⟨g, hg, haccepts, hcovers, hdata⟩ := htidy.covers_of_mem_offers haligned ha
    obtain ⟨parts, hparts, hmade⟩ := hcovers.made a ha
    have hsame := haccepts.fork
    rw [hfork, Inclusion.sameShuffling, beq_iff_eq] at hsame
    exact ⟨g, parts, hg, hdata, hparts, hmade, hsame ▸ founded_after preset retentionEpochs hg⟩
  refine ⟨_, attestationsForBlock_eq_ok fun root g hg => ?_, fun a ha => ?_,
    fun hagreed a ha => ?_⟩
  · obtain ⟨items, hitems, -⟩ := (haligned root g hg).aggregates_eq_ok sel.scheme
    exact ⟨items, hitems⟩
  · obtain ⟨root, -, ha⟩ := List.mem_flatMap.mp (List.mem_of_mem_take ha)
    obtain ⟨g, parts, hg, -, hrest⟩ := hmade root a ha
    exact ⟨root, g, parts, hg, hrest⟩
  · obtain ⟨root, -, ha⟩ := List.mem_flatMap.mp (List.mem_of_mem_take ha)
    obtain ⟨g, parts, hg, hdata, hparts, hmade, hfounded⟩ := hmade root a ha
    refine ⟨parts, fun m hm => mem_storedIn.mpr ⟨root, g, hg, hparts.subset hm⟩,
      hdata ▸ hmade, fun m hm => ?_⟩
    have hmember := hparts.subset hm
    have hsame : m.data = g.data := (htidy.group root g hg).data m hmember
    have hroot : m.dataRoot = root := by
      rw [Submission.dataRoot, hsame, (htidy.group root g hg).root]
    obtain ⟨facts, hfacts⟩ := members_handedIn preset retentionEpochs calls root g hg m hmember
    rw [← hroot, ← hsame] at hfounded
    exact ⟨facts, hfacts, hfounded.seed_of_agreed hdistinct hagreed hfacts⟩

/-- Two members of a committee vote for the same data, each on a fork of
its own, and the first vote is taken out. -/
def feud : List Call :=
  [.remove (paper 1 0b001 5 0).attestation,
    .add (paper 2 0b010 5 0) { seed := some 2 },
    .add (paper 1 0b001 5 0) { seed := some 1 }]

/-- The vote that is left is selected on the fork of the other. -/
theorem after_feud :
    let p := after .minimal { retentionEpochs := 2 } feud
    p.stored = [paper 2 0b010 5 0]
      ∧ (p.attestationsForBlock .minimal (sameSeed (bareState 6 1)) (bareState 6 1)).value.2
        = .ok [(paper 2 0b010 5 0).attestation] := by
  decide +kernel

/-- It is the only member of a group that was founded with the other. -/
theorem forks_after_feud :
    let p := after .minimal { retentionEpochs := 2 } feud
    let state := bareState 6 1
    let sel := sameSeed state
    (Distinct feud ∧ (∀ x ∈ handedIn feud, x.1.bits.Clean))
      ∧ ∃ items, (p.attestationsForBlock .minimal sel state).value.2 = .ok items
        ∧ (∀ a ∈ items, ∃ (root : Root) (g : Group) (parts : List Submission),
          p.groups[root]? = some g ∧ parts.Sublist g.members
            ∧ Group.MadeOf sel.scheme g.data parts a
            ∧ Founded .minimal { retentionEpochs := 2 } feud root
              (state.shufflingSeed g.data.target.epoch))
        ∧ (Agreed feud → Unmixed sel.scheme feud p state items) := by
  have hsame : ∀ d ∈ offered feud, ∀ d' ∈ offered feud, d = d' := by decide +kernel
  refine (and_iff_left_of_imp fun hseen =>
    forks_after .minimal 2 feud _ _ hseen.1 hseen.2 fun _ => rfl).mpr ⟨?_, by decide +kernel⟩
  exact fun d hd d' hd' _ => hsame d hd d' hd'

/-- What is selected there was recorded with another seed. -/
theorem mixed_after_feud :
    let p := after .minimal { retentionEpochs := 2 } feud
    let state := bareState 6 1
    ∃ items, (p.attestationsForBlock .minimal (sameSeed state) state).value.2 = .ok items
      ∧ ¬Unmixed .product feud p state items := by
  obtain ⟨hstored, hselected⟩ := after_feud
  refine ⟨_, hselected, fun hunmixed => ?_⟩
  obtain ⟨parts, hparts, hmade, hseeds⟩ := hunmixed _ List.mem_cons_self
  obtain ⟨m, hm⟩ : ∃ m, m ∈ parts := by
    rcases hmade with ⟨m, rfl, -⟩ | hjoined
    · exact ⟨m, List.mem_singleton_self m⟩
    · exact List.exists_mem_of_length_pos (Nat.lt_of_lt_of_le Nat.zero_lt_two hjoined.several)
  have hother : ∀ x ∈ handedIn feud, x.1 = paper 2 0b010 5 0 → x.2.seed = some 2 := by
    decide +kernel
  obtain ⟨facts, hfacts, hseed⟩ := hseeds m hm
  have hsame : m = paper 2 0b010 5 0 := List.mem_singleton.mp (hstored ▸ hparts m hm)
  have heq : (2 : Root) = 1 := Option.some.inj ((hother _ hfacts hsame).symm.trans hseed)
  exact absurd heq (by decide)

end Pool

end ChainHead
