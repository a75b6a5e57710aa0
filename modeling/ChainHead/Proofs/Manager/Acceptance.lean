/-
What a judge accepts, said without the order in which it checks.

A judge goes through about ten checks, with arithmetic that stops at the
ends of the range, a search along parent links and voters that are looked
up once. `Acceptable` says what all of them come to together, in plain
numbers and by descent in the tree: the attestation is timely, its
target is the checkpoint of its head (`Linked`), and it is signed by the
members of its committee who voted (`Backed`). Nothing is lost on the
way, in either direction (`verdict_iff`): what is acceptable is applied
or saved, depending on the clock alone; what is timely and misses a
block is told which one; everything else is rejected.

No target of a timely attestation starts beyond the last slot, so the
start of its epoch is exact (`Timely.toNat_startSlot`).
-/
import ChainHead.Proofs.Manager.Tick
import ChainHead.Proofs.Store.Tally
import ChainHead.Proofs.Tree.Ancestry
import ChainHead.Proofs.Voters

namespace ChainHead.Judge

open Verification (Lists Signed lists_dropRepeats indexed_eq_ok_iff checkIndexed_iff
  isIncreasing_of_pairwise)

-- ============================================== statement vocabulary

/-- Whether somebody voted, for a target in the epoch of the slot, which
is not too far ahead of the clock nor before the previous epoch. -/
structure Timely (c : JudgeConfig) (now : Slot) (a : Attestation) : Prop where
  epoch : a.data.target.epoch.toNat = a.data.slot.toNat / c.preset.slotsPerEpoch.toNat
  voted : ∃ i < a.bits.length, a.bits.bit i = true
  near : a.data.slot.toNat ≤ now.toNat + c.maxFutureSlots.toNat
  recent : now.toNat / c.preset.slotsPerEpoch.toNat - 1 ≤ a.data.target.epoch.toNat

/-- Whether a block is the first of the target and the head that is not
in a tree. -/
def FirstMissing (t : Tree) (d : AttestationData) (root : Root) : Prop :=
  root = d.target.root ∧ d.target.root ∉ t.roots
    ∨ root = d.beaconBlockRoot ∧ d.target.root ∈ t.roots ∧ d.beaconBlockRoot ∉ t.roots

/-- Whether the head is not later than the slot, and the target the first
block on the way up from it that the target epoch may start with. -/
def Linked (preset : Preset) (t : Tree) (d : AttestationData) : Prop :=
  ∃ i a head target, t.nodes[i]? = some head ∧ head.root = d.beaconBlockRoot
    ∧ head.slot.toNat ≤ d.slot.toNat
    ∧ t.nodes[a]? = some target ∧ target.root = d.target.root
    ∧ Tree.FirstUpTo t.nodes (d.target.epoch.toNat * preset.slotsPerEpoch.toNat) i a

/-- Whether the signature of a submission is taken on trust. -/
def Trusted (features : Features) (s : Submission) : Prop :=
  s.origin = .ownValidator ∧ features.has .trustOwnAttestationSignatures = true

/-- Whether the state at the target has a committee as long as the
bitfield, and the members who voted signed together. -/
def Backed (c : JudgeConfig) (features : Features) (s : Submission) : Prop :=
  ∃ state members voters, c.stateAt s.data.target = .ok state
    ∧ state.committee s.data.slot s.data.index = some members
    ∧ members.length = s.bits.length ∧ Lists members s.bits voters
    ∧ (Trusted features s ∨ ∃ signature, c.scheme.decode s.attestation.signature = .ok signature
      ∧ Signed c.scheme state s.data signature voters)

/-- Whether a submission may count for the choice of a head. -/
structure Acceptable (c : JudgeConfig) (features : Features) (t : Tree) (now : Slot)
    (s : Submission) : Prop where
  timely : Timely c now s.attestation
  linked : Linked c.preset t s.data
  backed : Backed c features s

variable {c : JudgeConfig} {features : Features} {j : Judge} {s : Submission} {a : Attestation}
variable {preset : Preset} {t : Tree} {store : Store} {d : AttestationData}
variable {now : Slot} {root : Root}

-- =============================================================== clock

theorem count_ne_zero_iff {bits : Bitfield} :
    bits.count ≠ 0 ↔ ∃ i < bits.length, bits.bit i = true := by
  unfold Bitfield.count Bitfield.bits
  rw [← Nat.pos_iff_ne_zero, List.count_pos_iff]
  simp

theorem checkTime_eq_ok_iff : checkTime c now a = .ok () ↔ Timely c now a := by
  have hslot := a.data.slot.toNat_lt
  have hepoch : a.data.target.epoch = Epoch.ofSlot c.preset a.data.slot
      ↔ a.data.target.epoch.toNat = a.data.slot.toNat / c.preset.slotsPerEpoch.toNat := by
    rw [← UInt64.toNat_inj, Epoch.ofSlot, UInt64.toNat_div]
  have hnear : ¬Word.addSat now c.maxFutureSlots < a.data.slot
      ↔ a.data.slot.toNat ≤ now.toNat + c.maxFutureSlots.toNat := by
    rw [UInt64.lt_iff_toNat_lt, Word.toNat_addSat]
    omega
  have hrecent : ¬a.data.target.epoch < Word.subSat (Epoch.ofSlot c.preset now) 1
      ↔ now.toNat / c.preset.slotsPerEpoch.toNat - 1 ≤ a.data.target.epoch.toNat := by
    rw [UInt64.lt_iff_toNat_lt, Word.toNat_subSat, Epoch.ofSlot, UInt64.toNat_div, Nat.not_lt]
    rfl
  rw [checkTime_eq]
  constructor
  · intro h
    split_ifs at h with h1 h2 h3 h4
    exact ⟨hepoch.mp (not_not.mp h1), count_ne_zero_iff.mp h2, hnear.mp h3, hrecent.mp h4⟩
  · intro h
    rw [if_neg (not_not.mpr (hepoch.mpr h.epoch)), if_neg (count_ne_zero_iff.mpr h.voted),
      if_neg (hnear.mpr h.near), if_neg (hrecent.mpr h.recent)]

/-- The epoch of a slot starts at a slot. -/
theorem Timely.toNat_startSlot (h : Timely c now a) :
    (Epoch.startSlot c.preset a.data.target.epoch).toNat
      = a.data.target.epoch.toNat * c.preset.slotsPerEpoch.toNat := by
  have hle := Nat.div_mul_le_self a.data.slot.toNat c.preset.slotsPerEpoch.toNat
  have hslot := a.data.slot.toNat_lt
  rw [← h.epoch] at hle
  rw [Epoch.startSlot, Word.toNat_mulSat]
  omega

-- ============================================================== blocks

theorem missingBlock?_eq_some_iff (h : Tree.Sound store.tree) :
    missingBlock? store d = some root ↔ FirstMissing store.tree d root := by
  rw [missingBlock?_eq, FirstMissing, ← h.contains_iff_mem_roots, ← h.contains_iff_mem_roots]
  cases store.tree.contains d.target.root with
  | false =>
      simp only [Bool.false_eq_true, if_false, Option.some.injEq, not_false_iff, and_true,
        false_and, and_false, or_false]
      exact eq_comm
  | true =>
      cases store.tree.contains d.beaconBlockRoot with
      | false =>
          simp only [Bool.false_eq_true, if_true, if_false, Option.some.injEq, not_true,
            not_false_iff, and_true, and_false, false_or]
          exact eq_comm
      | true => simp

/-- Head and target belong together if the tree finds the one from the
other, as long as the start of the epoch is a slot. -/
theorem linked_iff (h : Tree.Sound t)
    (hstart : (Epoch.startSlot preset d.target.epoch).toNat
      = d.target.epoch.toNat * preset.slotsPerEpoch.toNat) :
    Linked preset t d ↔ ∃ headSlot, t.slot? d.beaconBlockRoot = some headSlot ∧ headSlot ≤ d.slot
      ∧ t.ancestorAtSlot? d.beaconBlockRoot (Epoch.startSlot preset d.target.epoch)
        = some d.target.root := by
  unfold Linked
  simp only [h.slot?_eq_some_iff, h.ancestorAtSlot?_eq_some_iff, hstart]
  constructor
  · rintro ⟨i, a, head, target, hhead, hroot, hle, htarget, htroot, hfirst⟩
    exact ⟨head.slot, ⟨i, head, hhead, hroot, rfl⟩, UInt64.le_iff_toNat_le.mpr hle,
      i, a, head, target, hhead, hroot, htarget, htroot, hfirst⟩
  · rintro ⟨-, ⟨i', head', hhead', hroot', rfl⟩, hle, i, a, head, target, hhead, hroot, hrest⟩
    -- both were found under one root
    have hsame : i' = i := h.root_injective hhead' hhead (hroot'.trans hroot.symm)
    rw [hsame, hhead, Option.some.injEq] at hhead'
    exact ⟨i, a, head, target, hhead, hroot, hhead' ▸ UInt64.le_iff_toNat_le.mp hle, hrest⟩

/-- The checks of the blocks are passed if head and target are there and
belong together. -/
theorem checkBlocks_eq_ok_iff (h : Tree.Sound store.tree)
    (hstart : (Epoch.startSlot c.preset d.target.epoch).toNat
      = d.target.epoch.toNat * c.preset.slotsPerEpoch.toNat) :
    checkBlocks c store d = .ok () ↔ Linked c.preset store.tree d := by
  rw [linked_iff h hstart]
  unfold checkBlocks
  cases store.tree.slot? d.beaconBlockRoot with
  | none => simp [throw, throwThe, MonadExceptOf.throw]
  | some headSlot =>
      by_cases hlate : d.slot < headSlot
      · simp [hlate, throw, throwThe, MonadExceptOf.throw, bind, Except.bind]
      · by_cases htarget : store.tree.ancestorAtSlot? d.beaconBlockRoot
            (Epoch.startSlot c.preset d.target.epoch) = some d.target.root
        · simp [hlate, htarget, UInt64.not_lt.mp hlate, pure, Except.pure]
        · simp [hlate, htarget, throw, throwThe, MonadExceptOf.throw]

-- ============================================================== voters

theorem signatureCheck_eq_waived_iff :
    signatureCheck features s = .waived ↔ Trusted features s := by
  unfold signatureCheck Trusted Submission.isOwn
  split
  case isTrue h => simpa using h
  case isFalse h => simpa using h

/-- The voters of a submission of which nothing is known pass the checks
if they are members of the committee and signed. -/
theorem checkVoters_fresh_iff (hvoted : ∃ i < s.bits.length, s.bits.bit i = true) :
    (∃ facts, checkVoters c features s {} = (facts, .ok ())) ↔ Backed c features s := by
  simp only [checkVoters_eq_ok]
  constructor
  · rintro ⟨_, state, x, learned, hstate, hrecord, hcheck, rfl⟩
    obtain ⟨-, hknown | ⟨-, hfound⟩⟩ := Facts.recordIndexed_eq_ok hrecord
    · cases hknown
    obtain ⟨members, hcommittee, hlength, rfl⟩ := indexed_eq_ok_iff.mp hfound
    obtain ⟨-, -, hsigned⟩ := checkIndexed_iff.mp hcheck
    rw [signatureCheck_eq_waived_iff] at hsigned
    exact ⟨state, members, _, hstate, hcommittee, hlength, lists_dropRepeats hlength, hsigned⟩
  · rintro ⟨state, members, voters, hstate, hcommittee, hlength, hlists, hsigned⟩
    have hindexed : state.indexed s.attestation = .ok ⟨voters, s.data, s.attestation.signature⟩ :=
      indexed_eq_ok_iff.mpr ⟨members, hcommittee, hlength, by
        rw [hlists.unique (lists_dropRepeats hlength)]; rfl⟩
    have hne : voters ≠ [] := (hlists.ne_nil_iff hlength).mpr hvoted
    refine ⟨_, state, _, _, hstate, by rw [hindexed]; rfl, ?_, rfl⟩
    refine checkIndexed_iff.mpr ⟨hne, isIncreasing_of_pairwise hlists.increasing, ?_⟩
    rw [signatureCheck_eq_waived_iff]
    exact hsigned

-- ============================================================ verdicts

/-- A submission of which nothing is known passes all checks if it is
acceptable. -/
theorem examine_fresh_iff (h : Tree.Sound j.store.tree) :
    (examine c features j s {}).2 = .ok ()
      ↔ Acceptable c features j.store.tree j.currentSlot s := by
  have hpassed : (examine c features j s {}).2 = .ok ()
      ↔ ∃ facts, examine c features j s {} = (facts, .ok ()) :=
    ⟨fun hok => ⟨_, Prod.ext rfl hok⟩, fun ⟨_, hok⟩ => congrArg Prod.snd hok⟩
  simp only [hpassed, examine_eq_ok, exists_and_left, checkTime_eq_ok_iff]
  constructor
  · rintro ⟨htimely, -, hblocks, hvoters⟩
    exact ⟨htimely, (checkBlocks_eq_ok_iff h htimely.toNat_startSlot).mp hblocks,
      (checkVoters_fresh_iff htimely.voted).mp hvoters⟩
  · intro hacceptable
    refine ⟨hacceptable.timely, ?_,
      (checkBlocks_eq_ok_iff h hacceptable.timely.toNat_startSlot).mpr hacceptable.linked,
      (checkVoters_fresh_iff hacceptable.timely.voted).mpr hacceptable.backed⟩
    -- both blocks are there, or they would not be linked
    obtain ⟨i, a, head, target, hhead, hroot, -, htarget, htroot, -⟩ := hacceptable.linked
    rw [missingBlock?_eq, if_pos (Tree.contains_iff.mpr ⟨a, htroot ▸ h.position_root htarget⟩),
      if_pos (Tree.contains_iff.mpr ⟨i, hroot ▸ h.position_root hhead⟩)]

theorem examine_missing_iff {facts : Facts} :
    (examine c features j s facts).2 = .error (.missing root)
      ↔ checkTime c j.currentSlot s.attestation = .ok ()
        ∧ missingBlock? j.store s.data = some root := by
  constructor
  · intro h
    refine ⟨?_, (examine_missing h).1⟩
    unfold examine at h
    cases htime : checkTime c j.currentSlot s.attestation with
    | ok u => rfl
    | error reason =>
        rw [htime] at h
        cases h
  · rintro ⟨htime, hmissing⟩
    unfold examine
    rw [htime, hmissing]

/-- What passes all checks is applied or saved, as the clock says. -/
theorem process_accepted_iff {facts : Facts} :
    ((process c features j s facts).value.2.2 = .successful
        ↔ (examine c features j s facts).2 = .ok () ∧ s.data.slot < j.currentSlot)
      ∧ ((process c features j s facts).value.2.2 = .savedForFuture
        ↔ (examine c features j s facts).2 = .ok () ∧ j.currentSlot ≤ s.data.slot) := by
  rw [process_value]
  rcases examine c features j s facts with ⟨facts', (missing | reason) | u⟩
  · simp
  · simp
  · dsimp only
    by_cases hearly : j.currentSlot ≤ s.data.slot
    · simp [hearly]
    · simp [hearly, UInt64.not_le.mp hearly]

/-- There are no other verdicts. -/
theorem exists_invalid_iff (verdict : Verdict) :
    (∃ reason, verdict = .invalid reason) ↔ verdict ≠ .successful ∧ verdict ≠ .savedForFuture
      ∧ ∀ root, verdict ≠ .unknownBlock root := by
  cases verdict with
  | successful => simp
  | savedForFuture => simp
  | unknownBlock root => simp
  | invalid reason => simp

/-- After any run of a store, at any time and whatever states are known:
a submission of which nothing is known is told that a block is missing
if it is timely and this is the first one that is; it is applied or saved
if it is acceptable, applied if its slot is over and saved otherwise; and
it is rejected in all other cases. -/
theorem verdict_iff (c : JudgeConfig) (features : Features) (justified finalized : Checkpoint)
    (pruneThreshold : Nat) (calls : List Store.Call) (now : Slot) (s : Submission) :
    let store := (Store.empty justified finalized pruneThreshold).after calls
    let verdict := (process c features { store, currentSlot := now } s {}).value.2.2
    let acceptable := Acceptable c features store.tree now s
    (∀ root, verdict = .unknownBlock root
        ↔ Timely c now s.attestation ∧ FirstMissing store.tree s.data root)
      ∧ (verdict = .successful ↔ acceptable ∧ s.data.slot < now)
      ∧ (verdict = .savedForFuture ↔ acceptable ∧ now ≤ s.data.slot)
      ∧ ((∃ reason, verdict = .invalid reason) ↔ ¬acceptable
        ∧ ∀ root, ¬(Timely c now s.attestation ∧ FirstMissing store.tree s.data root)) := by
  intro store verdict acceptable
  have h : Tree.Sound store.tree := Store.sound_run justified finalized pruneThreshold calls
  have hunknown : ∀ root, verdict = .unknownBlock root
      ↔ Timely c now s.attestation ∧ FirstMissing store.tree s.data root := by
    intro root
    rw [← checkTime_eq_ok_iff, ← missingBlock?_eq_some_iff h]
    exact process_unknownBlock_iff.trans examine_missing_iff
  have hexamine : (examine c features { store, currentSlot := now } s {}).2 = .ok ()
      ↔ acceptable := examine_fresh_iff h
  obtain ⟨hsuccessful, hsaved⟩ : (verdict = .successful ↔ acceptable ∧ s.data.slot < now)
      ∧ (verdict = .savedForFuture ↔ acceptable ∧ now ≤ s.data.slot) := by
    rw [← hexamine]
    exact process_accepted_iff
  refine ⟨hunknown, hsuccessful, hsaved, ?_⟩
  have hclock : s.data.slot < now ∨ now ≤ s.data.slot := UInt64.lt_or_le _ _
  rw [exists_invalid_iff, ne_eq, ne_eq, hsuccessful, hsaved]
  simp only [ne_eq, hunknown]
  constructor
  · rintro ⟨hnotOver, hnotEarly, hnone⟩
    refine ⟨fun hacceptable => ?_, hnone⟩
    rcases hclock with hover | hearly
    · exact hnotOver ⟨hacceptable, hover⟩
    · exact hnotEarly ⟨hacceptable, hearly⟩
  · rintro ⟨hnot, hnone⟩
    exact ⟨fun h => hnot h.1, fun h => hnot h.1, hnone⟩

/-- A vote for the first block that nobody signed. -/
def forgedVote (origin : Origin) : Submission :=
  let vote := Manager.plainVote 0 1 Manager.firstBlock.hashTreeRoot
  { vote with origin, attestation := { vote.attestation with signature := BitVec.cons true 1 } }

/-- It is acceptable if it is the own vote of a node that trusts itself,
and not if it came from the network. -/
theorem verdict_iff_forgedVote :
    let trusting : Features := ⟨[.trustOwnAttestationSignatures]⟩
    let store := (Store.empty {} {} 256).after [.block Manager.firstBlock {} {}]
    ¬Acceptable Manager.plainJudge trusting store.tree 2 (forgedVote .network)
      ∧ Acceptable Manager.plainJudge trusting store.tree 2 (forgedVote .ownValidator) := by
  intro trusting store
  have hverdict := verdict_iff Manager.plainJudge trusting {} {} 256
    [.block Manager.firstBlock {} {}] 2
  obtain ⟨-, -, -, hinvalid⟩ := hverdict (forgedVote .network)
  obtain ⟨-, hsuccessful, -, -⟩ := hverdict (forgedVote .ownValidator)
  exact ⟨(hinvalid.mp ⟨.check (.signatureInvalid .attestation), by decide +kernel⟩).1,
    (hsuccessful.mp (by decide +kernel)).1⟩

end ChainHead.Judge
