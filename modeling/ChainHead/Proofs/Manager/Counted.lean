/-
Where the votes come from that a judge counts.

Votes are recorded on three ways: at once, when a block that was waited
for has arrived, and when a slot is over. On each of them the voters are
those that were recorded when the submission was checked, be it on an
earlier visit; and a visit that accepts it has checked the signature of
just these voters (`Vouched`). So the tracker of a validator is blank, or
it shows the head and the target of a submission that was accepted, has
the validator among its voters, and is from a slot that is over
(`Backed`).

This takes that nobody else records votes in the store or the time of the
judge, and that facts are recorded by nobody but the judge.
-/
import ChainHead.Proofs.Manager.Answers
import ChainHead.Proofs.Manager.Saved

namespace ChainHead.Manager

variable {c : JudgeConfig} {S : Submission → Prop} {m : Manager (Journal Judge)}
variable {v : ValidatorIndex} {s : Submission}

-- ============================================== statement vocabulary

/-- Whether somebody else records votes in the store with a call. -/
def Call.votes : Call Store.Call → Bool
  | .meanwhile (.attestation _) => true
  | _ => false

/-- Whether a submission was accepted: applied at once, or saved. -/
def AcceptedWith (features : Features) (past : List Request) (s : Submission) : Prop :=
  ∃ verdict, .process features s verdict ∈ past
    ∧ (verdict = .successful ∨ Saves features verdict)

/-- Whether recorded voters are those of a submission, according to the
state at its target. -/
def Named (c : JudgeConfig) (s : Submission) (a : IndexedAttestation) : Prop :=
  ∃ state, c.stateAt s.data.target = .ok state ∧ state.indexed s.attestation = .ok a

/-- Whether the voters of a submission are recorded and passed the checks
of a visit with some switches on. -/
def Vouched (c : JudgeConfig) (ledger : Ledger) (features : Features) (s : Submission) : Prop :=
  ∃ state a, c.stateAt s.data.target = .ok state ∧ state.indexed s.attestation = .ok a
    ∧ (ledger.get s).indexed = some a
    ∧ Verification.checkIndexed c.scheme state (Judge.signatureCheck features s) true a = .ok ()

/-- Whether a submission accounts for the vote of a validator that a
tracker shows. -/
structure Backed (past : List Request) (ledger : Ledger) (clock : Slot) (v : ValidatorIndex)
    (t : Tracker) (s : Submission) : Prop where
  accepted : ∃ features, AcceptedWith features past s
  voter : ∃ a, (ledger.get s).indexed = some a ∧ v ∈ a.indices
  head : s.data.beaconBlockRoot = t.next
  target : s.data.target.epoch = t.nextEpoch
  elapsed : s.data.slot < clock

/-- Whether every vote that is counted has a submission that accounts for
it. -/
structure Counted (c : JudgeConfig) (S : Submission → Prop) (m : Manager (Journal Judge)) :
    Prop where
  filed : Filed m
  sourced : Sourced S m
  named : ∀ s a, S s → (m.ledger.get s).indexed = some a → Named c s a
  vouched : ∀ features s, AcceptedWith features m.processor.requests s →
    Vouched c m.ledger features s
  backed : ∀ v : ValidatorIndex, m.processor.state.store.votes.tracker v.toNat ≠ {} →
    ∃ s, Backed m.processor.requests m.ledger m.processor.state.currentSlot v
      (m.processor.state.store.votes.tracker v.toNat) s

-- =============================================================== trackers

/-- What accounts for a vote does so later, if nothing is forgotten. -/
theorem Backed.mono {past past' : List Request} {ledger ledger' : Ledger} {clock clock' : Slot}
    {t t' : Tracker} (h : Backed past ledger clock v t s) (hpast : ∀ r ∈ past, r ∈ past')
    (hledger : ledger.Grows ledger') (hclock : clock ≤ clock') (hnext : t'.next = t.next)
    (hepoch : t'.nextEpoch = t.nextEpoch) : Backed past' ledger' clock' v t' s where
  accepted := by
    obtain ⟨features, verdict, hin, haccepted⟩ := h.accepted
    exact ⟨features, verdict, hpast _ hin, haccepted⟩
  voter := by
    obtain ⟨a, ha, hv⟩ := h.voter
    exact ⟨a, (hledger s).indexed a ha, hv⟩
  head := h.head.trans hnext.symm
  target := h.target.trans hepoch.symm
  elapsed := UInt64.lt_of_lt_of_le h.elapsed hclock

/-- An attestation leaves a tracker as it is, or shows in it. -/
theorem tracker_onAttestation (store : Store) (a : IndexedAttestation) (v : ValidatorIndex) :
    let t := store.votes.tracker v.toNat
    let t' := (store.onAttestation a).value.votes.tracker v.toNat
    t' = t ∨ v ∈ a.indices ∧ t' = { t with
      next := a.data.beaconBlockRoot, nextEpoch := a.data.target.epoch } := by
  intro t t'
  have ht' : t' = if v.toNat ∈ a.indices.map (·.toNat)
      then (t.record a.data.beaconBlockRoot a.data.target.epoch).1 else t :=
    VoteTable.tracker_recordAll store.votes _ _ a.indices v.toNat
  split at ht'
  case isTrue hin =>
    obtain ⟨v', hv', heq⟩ := List.mem_map.mp hin
    obtain rfl := UInt64.toNat_inj.mp heq
    rw [ht']
    exact (t.record_cases _ _).imp_right fun hrecorded => ⟨hv', hrecorded⟩
  case isFalse => exact .inl ht'

/-- So does everything that is due. -/
theorem tracker_applied (c : JudgeConfig) (ledger : Ledger) (j : Judge) (due : List Submission)
    (v : ValidatorIndex) :
    let t := j.store.votes.tracker v.toNat
    let t' := (applied (Judge.processor c) ledger j due).store.votes.tracker v.toNat
    t' = t ∨ ∃ s ∈ due, ∃ a, (ledger.get s).indexed = some a ∧ v ∈ a.indices
      ∧ t'.next = a.data.beaconBlockRoot ∧ t'.nextEpoch = a.data.target.epoch := by
  induction due generalizing j with
  | nil => exact .inl rfl
  | cons s rest ih =>
      unfold applied
      cases hindexed : (ledger.get s).indexed with
      | none =>
          rcases ih j with hsame | ⟨s', hs', hrest⟩
          · exact .inl hsame
          · exact .inr ⟨s', List.mem_cons_of_mem _ hs', hrest⟩
      | some a =>
          dsimp only
          have hvalue : ((Judge.processor c).apply j a).value.store
              = (j.store.onAttestation a).value := rfl
          rcases ih ((Judge.processor c).apply j a).value with hsame | ⟨s', hs', hrest⟩
          · rcases tracker_onAttestation j.store a v with hfirst | ⟨hv, hrecorded⟩
            · exact .inl (hsame.trans hfirst)
            · rw [hsame, hvalue, hrecorded]
              exact .inr ⟨s, List.mem_cons_self, a, hindexed, hv, rfl, rfl⟩
          · exact .inr ⟨s', List.mem_cons_of_mem _ hs', hrest⟩

/-- A verdict leaves a tracker as it is, or applies a vote from a slot that
is over. -/
theorem tracker_process {features : Features} {j j' : Judge} {facts facts' : Facts}
    {verdict : Verdict}
    (h : (Judge.process c features j s facts).value = (j', facts', verdict)) (v : ValidatorIndex) :
    let t := j.store.votes.tracker v.toNat
    let t' := j'.store.votes.tracker v.toNat
    t' = t ∨ verdict = .successful ∧ s.data.slot < j.currentSlot
      ∧ ∃ a, facts'.indexed = some a ∧ v ∈ a.indices
        ∧ t'.next = a.data.beaconBlockRoot ∧ t'.nextEpoch = a.data.target.epoch := by
  by_cases hsuccessful : verdict = .successful
  · subst hsuccessful
    obtain ⟨a, ha, -, rfl⟩ := Judge.applied_process h
    obtain ⟨-, -, hover, -⟩ := Judge.process_successful (congrArg (·.2.2) h)
    rcases tracker_onAttestation j.store a v with hsame | ⟨hvoter, hrecorded⟩
    · exact .inl hsame
    · exact .inr ⟨rfl, hover, a, ha, hvoter, congrArg Tracker.next hrecorded,
        congrArg Tracker.nextEpoch hrecorded⟩
  · have hstate : (Judge.process c features j s facts).value.1 = j :=
      Judge.process_state (by rwa [h])
    rw [h] at hstate
    exact .inl (congrArg (fun j : Judge => j.store.votes.tracker v.toNat) hstate)

-- =============================================================== verdicts

/-- Who accepts a submission has checked the voters that are recorded then. -/
theorem vouched_process {features : Features} {j j' : Judge} {facts facts' : Facts} {v : Verdict}
    (h : (Judge.process c features j s facts).value = (j', facts', v)) (hv : v.Accepts)
    (hknown : ∀ a, facts.indexed = some a → Named c s a) :
    ∃ state a, c.stateAt s.data.target = .ok state ∧ state.indexed s.attestation = .ok a
      ∧ facts'.indexed = some a
      ∧ Verification.checkIndexed c.scheme state (Judge.signatureCheck features s) true a
        = .ok () := by
  have hverdict := congrArg (·.2.2) h
  have hexamine : Judge.examine c features j s facts = (facts', .ok ()) := by
    rcases hv with rfl | rfl
    · obtain ⟨learned, hexamine, -, hvalue⟩ := Judge.process_successful hverdict
      rw [hexamine, show facts' = learned from congrArg (·.2.1) (h.symm.trans hvalue)]
    · obtain ⟨learned, hexamine, -, hvalue⟩ := Judge.process_savedForFuture hverdict
      rw [hexamine, show facts' = learned from congrArg (·.2.1) (h.symm.trans hvalue)]
  obtain ⟨state, a, learned, hstate, hrecord, hcheck, rfl⟩ :=
    Judge.checkVoters_eq_ok.mp (Judge.examine_eq_ok.mp hexamine).2.2.2
  obtain ⟨rfl, hindexed⟩ := Facts.recordIndexed_eq_ok hrecord
  refine ⟨state, a, hstate, ?_, by rw [Facts.recordSeed_eq], hcheck⟩
  rcases hindexed with hcached | ⟨-, hfound⟩
  · -- what was recorded on an earlier visit is from the same state
    obtain ⟨state', hstate', hfound⟩ := hknown a hcached
    obtain rfl := Except.ok.inj (hstate.symm.trans hstate')
    exact hfound
  · exact hfound

/-- Once recorded, the voters that were vouched for stay the same. -/
theorem Vouched.mono {ledger ledger' : Ledger} {features : Features}
    (h : Vouched c ledger features s) (hgrows : ledger.Grows ledger') :
    Vouched c ledger' features s := by
  obtain ⟨state, a, hstate, hfound, hrecorded, hcheck⟩ := h
  exact ⟨state, a, hstate, hfound, (hgrows s).indexed a hrecorded, hcheck⟩

/-- The recorded voters vote for what the submission votes for. So it
accounts for the vote of each of them, once it is accepted. -/
theorem Vouched.backed {past : List Request} {ledger : Ledger} {features : Features} {clock : Slot}
    {t : Tracker} {a : IndexedAttestation} (h : Vouched c ledger features s)
    (haccepted : AcceptedWith features past s) (ha : (ledger.get s).indexed = some a)
    (hvoter : v ∈ a.indices) (hnext : t.next = a.data.beaconBlockRoot)
    (hepoch : t.nextEpoch = a.data.target.epoch) (hover : s.data.slot < clock) :
    Backed past ledger clock v t s := by
  obtain ⟨state, a', -, hfound, hrecorded, -⟩ := h
  obtain rfl := Option.some.inj (ha.symm.trans hrecorded)
  have hdata : a.data = s.data := (Verification.of_indexed_eq_ok hfound).1
  rw [hdata] at hnext hepoch
  exact ⟨⟨features, haccepted⟩, ⟨a, ha, hvoter⟩, hnext.symm, hepoch.symm, hover⟩

theorem AcceptedWith.cons_iff {features features' : Features} {verdict : Verdict}
    {past : List Request} {s' : Submission} :
    AcceptedWith features' (.process features s verdict :: past) s'
      ↔ AcceptedWith features' past s'
        ∨ features' = features ∧ s' = s ∧ (verdict = .successful ∨ Saves features verdict) := by
  constructor
  · intro ⟨verdict', hin, haccepted⟩
    rcases List.mem_cons.mp hin with heq | hold
    · injection heq with hfeatures hs hverdict
      subst hfeatures hs hverdict
      exact .inr ⟨rfl, rfl, haccepted⟩
    · exact .inl ⟨verdict', hold, haccepted⟩
  · rintro (⟨verdict', hin, haccepted⟩ | ⟨rfl, rfl, haccepted⟩)
    · exact ⟨verdict', List.mem_cons_of_mem _ hin, haccepted⟩
    · exact ⟨verdict, List.mem_cons_self, haccepted⟩

/-- A slot accepts nothing. -/
theorem acceptedWith_slot {features : Features} {past : List Request} {slot : Slot}
    (applied : List IndexedAttestation) :
    AcceptedWith features ((applied.map .apply).reverse ++ .slot slot :: past) s
      ↔ AcceptedWith features past s := by
  unfold AcceptedWith
  simp

-- ============================================================== one step

theorem Counted.attestation (h : Counted c S m) (features : Features)
    (hids : ∀ s s', S s → S s' → s.id = s'.id → s = s') (hs : S s) :
    Counted c S (m.onAttestation (Judge.processor c).journaled features s).value.1 := by
  have hfiled := (keeps_filed (Judge.setting c)).attestation features m s trivial h.filed
  have hsourced := (keeps_sourced (Judge.setting c) S).attestation features m s
    (fun s' heq => Option.some.inj heq ▸ hs) h.sourced
  have hgrows := (onAttestation_complete c features m.forget s).1
  rw [← forget_onAttestation] at hgrows
  change Filed (m.onAttestation (Judge.processor c).journaled features s).value.1 at hfiled
  change Sourced S (m.onAttestation (Judge.processor c).journaled features s).value.1 at hsourced
  change m.ledger.Grows (m.onAttestation (Judge.processor c).journaled features s).value.1.ledger
    at hgrows
  rcases journaled_cases (Judge.processor c) features m s c.preset with
    heq | ⟨j, facts, verdict, metrics, hprocess, heq⟩
  · rw [heq]
    exact h
  · rw [heq] at hfiled hsourced hgrows ⊢
    change (Judge.process c features m.processor.state s (m.ledger.get s)).value = _ at hprocess
    have hlearns := Judge.learns_process c features m.processor.state s (m.ledger.get s)
    rw [hprocess] at hlearns
    have hknown := fun a => h.named s a hs
    have hown : ((networkAfter s (m.ledger.put s facts) m.outbox verdict).1.get s).indexed
        = facts.indexed := by
      rw [get_networkAfter, Ledger.get_put, if_pos rfl]
    have hvouched (haccepted : verdict = .successful ∨ Saves features verdict) :
        Vouched c (networkAfter s (m.ledger.put s facts) m.outbox verdict).1 features s := by
      obtain ⟨state, a, hstate, hfound, hrecorded, hcheck⟩ :=
        vouched_process hprocess (haccepted.imp_right And.left) hknown
      exact ⟨state, a, hstate, hfound, hown.trans hrecorded, hcheck⟩
    refine ⟨hfiled, hsourced, fun s' a hs' ha => ?_, fun features' s' haccepted => ?_,
      fun v hv => ?_⟩
    · rw [get_networkAfter, Ledger.get_put] at ha
      split at ha
      case isTrue hid =>
        obtain rfl := hids s s' hs hs' hid
        rcases hlearns.indexed with hsame | ⟨-, state, a', hstate, hfound, hrecorded⟩
        · exact hknown a (hsame ▸ ha)
        · obtain rfl := Option.some.inj (ha.symm.trans hrecorded)
          exact ⟨state, hstate, hfound⟩
      case isFalse => exact h.named s' a hs' ha
    · rcases AcceptedWith.cons_iff.mp haccepted with hold | ⟨rfl, rfl, hnew⟩
      · exact (h.vouched features' s' hold).mono hgrows
      · exact hvouched hnew
    · change j.store.votes.tracker v.toNat ≠ {} at hv
      have hkept : ∀ r ∈ m.processor.requests,
          r ∈ Request.process features s verdict :: m.processor.requests :=
        fun r hr => List.mem_cons_of_mem _ hr
      have hclock : m.processor.state.currentSlot = j.currentSlot := by
        rw [← Judge.currentSlot_process c features m.processor.state s (m.ledger.get s), hprocess]
      rcases tracker_process hprocess v with hsame | ⟨rfl, hover, a, ha, hvoter, hnext, hepoch⟩
      · obtain ⟨s', hbacked⟩ := h.backed v (hsame ▸ hv)
        exact ⟨s', hbacked.mono hkept hgrows (hclock ▸ UInt64.le_refl _)
          (congrArg Tracker.next hsame) (congrArg Tracker.nextEpoch hsame)⟩
      · have haccepted : AcceptedWith features
            (.process features s .successful :: m.processor.requests) s :=
          ⟨.successful, List.mem_cons_self, .inl rfl⟩
        exact ⟨s, (hvouched (.inl rfl)).backed haccepted (hown.trans ha) hvoter hnext hepoch
          (hclock ▸ hover)⟩

/-- A slot counts the votes of what is due, which was saved before. -/
theorem Counted.slot (h : Counted c S m) (slot : Slot) :
    Counted c S (m.onSlot c.preset (Judge.processor c).journaled slot).value := by
  let w := Judge.setting c
  have hfiled := (keeps_filed w).slot m slot trivial h.filed
  have hsourced := (keeps_sourced w S).slot m slot (fun s heq => nomatch heq) h.sourced
  change Filed (m.onSlot c.preset (Judge.processor c).journaled slot).value at hfiled
  change Sourced S (m.onSlot c.preset (Judge.processor c).journaled slot).value at hsourced
  have hgrows := grows_allHandedOver m.ledger m.outbox (m.untilSlot.takeDue slot).2
  have hdue : ∀ s ∈ (m.untilSlot.takeDue slot).2, s.data.slot < slot
      ∧ ∃ features, AcceptedWith features m.processor.requests s := by
    intro s hin
    rw [h.filed.takeDue] at hin
    obtain ⟨⟨number, s'⟩, hover, rfl⟩ := List.mem_map.mp hin
    obtain ⟨⟨later, features, verdict, earlier, heq, -, hsaves, -⟩, hlt⟩ := mem_overIn.mp hover
    refine ⟨hlt, features, verdict, ?_, .inr hsaves⟩
    rw [heq]
    exact List.mem_append_right _ List.mem_cons_self
  obtain ⟨metrics, hvalue⟩ := m.onSlot_value (Judge.processor c).journaled c.preset slot
  rw [hvalue, applied_journaled] at hfiled hsourced ⊢
  refine ⟨hfiled, hsourced, fun s a hs ha => ?_, fun features s haccepted => ?_, fun v hv => ?_⟩
  · rw [get_allHandedOver] at ha
    exact h.named s a hs ha
  · exact (h.vouched features s ((acceptedWith_slot _).mp haccepted)).mono hgrows
  · let begun : Judge := m.processor.state.onSlot slot
    have hclock := Judge.currentSlot_applied c m.ledger begun (m.untilSlot.takeDue slot).2
    have hkept : ∀ r ∈ m.processor.requests, r ∈ (((m.untilSlot.takeDue slot).2.filterMap
        fun s => (m.ledger.get s).indexed).map Request.apply).reverse
          ++ .slot slot :: m.processor.requests :=
      fun r hr => List.mem_append_right _ (List.mem_cons_of_mem _ hr)
    have hlater := m.processor.state.le_onSlot slot
    rcases tracker_applied c m.ledger begun (m.untilSlot.takeDue slot).2 v with
      hsame | ⟨s, hs, a, ha, hvoter, hnext, hepoch⟩
    · change VoteTable.tracker _ _ = m.processor.state.store.votes.tracker _ at hsame
      obtain ⟨s, hbacked⟩ := h.backed v (hsame ▸ hv)
      exact ⟨s, hbacked.mono hkept hgrows (hclock ▸ hlater.1) (congrArg Tracker.next hsame)
        (congrArg Tracker.nextEpoch hsame)⟩
    · obtain ⟨hover, features, haccepted⟩ := hdue s hs
      have hvouched := (h.vouched features s haccepted).mono hgrows
      exact ⟨s, hvouched.backed ((acceptedWith_slot _).mpr haccepted) ((hgrows s).indexed a ha)
        hvoter hnext hepoch (UInt64.lt_of_lt_of_le hover (hclock ▸ hlater.2))⟩

theorem keeps_counted (c : JudgeConfig) (hids : ∀ s s', S s → S s' → s.id = s'.id → s = s') :
    Keeps (Judge.setting c).journaled
      (fun call => (∀ s, call.submission? = some s → S s) ∧ call.votes = false) (Counted c S) where
  attestation features m s hcall h := h.attestation features hids (hcall.1 s rfl)
  taken m root h := by
    obtain ⟨hs, hsourced⟩ := (keeps_sourced (Judge.setting c) S).taken m root h.sourced
    obtain ⟨-, hfiled⟩ := (keeps_filed (Judge.setting c)).taken m root h.filed
    exact ⟨fun s hin features => ⟨hs s hin features, rfl⟩, hfiled, hsourced, h.named, h.vouched,
      h.backed⟩
  slot m slot _ h := h.slot slot
  pool m call hcall h := ⟨(keeps_filed (Judge.setting c)).pool m call trivial h.filed,
    (keeps_sourced (Judge.setting c) S).pool m call hcall.1 h.sourced, h.named, h.vouched, h.backed⟩
  meanwhile m e hcall h := by
    refine ⟨(keeps_filed (Judge.setting c)).meanwhile m e trivial h.filed,
      (keeps_sourced (Judge.setting c) S).meanwhile m e hcall.1 h.sourced, h.named, h.vouched,
      fun v hv => ?_⟩
    have hvotes : ∀ a, e ≠ .attestation a := fun a heq => by
      subst heq
      exact nomatch hcall.2
    change (m.processor.state.store.call e).votes.tracker v.toNat ≠ {} at hv
    rcases Store.votes_call (s := m.processor.state.store) hvotes with hsame | hcommitted
    · rw [hsame] at hv
      obtain ⟨s, hbacked⟩ := h.backed v hv
      exact ⟨s, hbacked.mono (fun _ hr => hr) (fun s => .refl _) (UInt64.le_refl _)
        (congrArg (fun t => (VoteTable.tracker t v.toNat).next) hsame)
        (congrArg (fun t => (VoteTable.tracker t v.toNat).nextEpoch) hsame)⟩
    · -- to commit a vote does not change it, and a blank tracker stays blank
      have htracker := (congrArg (VoteTable.tracker · v.toNat) hcommitted).trans
        (VoteTable.tracker_commit _ _)
      have hbefore : m.processor.state.store.votes.tracker v.toNat ≠ {} := by
        intro hblank
        refine hv (htracker.trans ?_)
        rw [hblank]
        rfl
      obtain ⟨s, hbacked⟩ := h.backed v hbefore
      have hnext := congrArg Tracker.next htracker
      have hepoch := congrArg Tracker.nextEpoch htracker
      exact ⟨s, hbacked.mono (fun _ hr => hr) (fun s => .refl _) (UInt64.le_refl _) hnext hepoch⟩

-- ================================================================= runs

theorem Fresh.counted {start : Manager Judge} (h : Fresh start)
    (hunknown : ∀ s, (start.ledger.get s).indexed = none) (c : JudgeConfig)
    (S : Submission → Prop) : Counted c S start.journaled := by
  obtain ⟨justified, finalized, pruneThreshold, hstore⟩ := h.store
  obtain ⟨capacity, retention, hqueue⟩ := h.untilBlock
  refine ⟨filed_journaled h.untilSlot, sourced_journaled hqueue S, fun s a _ ha => ?_,
    fun features s haccepted => ?_, fun v hv => ?_⟩
  · change (start.ledger.get s).indexed = some a at ha
    rw [hunknown s] at ha
    cases ha
  · obtain ⟨verdict, hin, -⟩ := haccepted
    exact absurd hin List.not_mem_nil
  · change start.processor.store.votes.tracker v.toNat ≠ {} at hv
    rw [hstore] at hv
    exact absurd rfl hv

/-- Every vote that is counted was cast. A submission that was handed in
and accepted votes for its head in the epoch of its target; the validator
is a member of the committee of its slot and index, according to the state
at its target, at a one of its bitfield; it stands up to that state,
unless it was made by a validator of this node and these are trusted; and
its slot is over. -/
theorem counted_validated (c : JudgeConfig) (start : Manager Judge) (hstart : Fresh start)
    (hunknown : ∀ s, (start.ledger.get s).indexed = none) (calls : List (Call Store.Call))
    (hvotes : ∀ call ∈ calls, call.votes = false) (hids : Identified calls) :
    let w := Judge.setting c
    let m := after w start calls
    ∀ (v : ValidatorIndex) (root : Root) (epoch : Epoch),
      m.processor.store.votes.latestMessage? v = some (root, epoch) →
      ∃ s ∈ submitted calls, s.data.beaconBlockRoot = root ∧ s.data.target.epoch = epoch
        ∧ (∃ features, AcceptedWith features (requests w start calls) s
          ∧ ∃ state, c.stateAt s.data.target = .ok state
            ∧ (∃ members i, state.committee s.data.slot s.data.index = some members
              ∧ s.bits.bit i = true ∧ members[i]? = some v)
            ∧ (Verification.Stands c.scheme state s.attestation
              ∨ s.isOwn = true ∧ features.has .trustOwnAttestationSignatures = true))
        ∧ s.data.slot < m.processor.currentSlot := by
  intro w m v root epoch hlatest
  have hm : (after w.journaled start.journaled calls).forget = m := after_journaled w start calls
  have hcounted : Counted c (· ∈ submitted calls) (after w.journaled start.journaled calls) := by
    refine (keeps_counted c fun s s' hs hs' => hids s hs s' hs').after
      (hstart.counted hunknown c _) fun call hcall => ⟨fun s hs => ?_, hvotes call hcall⟩
    exact List.mem_filterMap.mpr ⟨call, hcall, hs⟩
  rw [← hm] at hlatest ⊢
  obtain ⟨htracker, hmessage⟩ := VoteTable.latestMessage?_eq_some.mp hlatest
  obtain ⟨s, hbacked⟩ := hcounted.backed v htracker
  obtain ⟨rfl, rfl⟩ := Prod.mk.inj hmessage
  obtain ⟨features, haccepted⟩ := hbacked.accepted
  obtain ⟨verdict, hin, -⟩ := id haccepted
  obtain ⟨state, a, hstate, hfound, hrecorded, hcheck⟩ := hcounted.vouched features s haccepted
  obtain ⟨a', ha', hvoter⟩ := hbacked.voter
  obtain rfl := Option.some.inj (ha'.symm.trans hrecorded)
  obtain ⟨-, members, hcommittee, -, hmember⟩ := Verification.of_indexed_eq_ok hfound
  obtain ⟨i, hbit, hi⟩ := hmember v hvoter
  refine ⟨s, hcounted.sourced.processed features s verdict hin, hbacked.head, hbacked.target,
    ⟨features, haccepted, state, hstate, ⟨members, i, hcommittee, hbit, hi⟩, ?_⟩, hbacked.elapsed⟩
  unfold Judge.signatureCheck at hcheck
  split at hcheck
  case isTrue htrusted => exact .inr (Bool.and_eq_true_iff.mp htrusted)
  case isFalse => exact .inl ⟨a', hfound, hcheck⟩

/-- A vote is saved, and its slot passes. -/
def savedVote : List (Call Store.Call) :=
  [.slot 3, .attestation {} (plainVote 0 2 firstBlock.hashTreeRoot)] ++ opening

/-- The vote counts from then on. -/
theorem counted_validated_savedVote :
    let w := Judge.setting plainJudge
    let m := after w plainStart savedVote
    ((∀ call ∈ savedVote, call.votes = false) ∧ Identified savedVote
        ∧ m.processor.store.votes.latestMessage? 0 = some (firstBlock.hashTreeRoot, 0))
      ∧ ∃ s ∈ submitted savedVote, s.data.beaconBlockRoot = firstBlock.hashTreeRoot
        ∧ s.data.target.epoch = 0
        ∧ (∃ features, AcceptedWith features (requests w plainStart savedVote) s
          ∧ ∃ state, plainJudge.stateAt s.data.target = .ok state
            ∧ (∃ members i, state.committee s.data.slot s.data.index = some members
              ∧ s.bits.bit i = true ∧ members[i]? = some 0)
            ∧ (Verification.Stands plainJudge.scheme state s.attestation
              ∨ s.isOwn = true ∧ features.has .trustOwnAttestationSignatures = true))
        ∧ s.data.slot < m.processor.currentSlot := by
  refine (and_iff_left_of_imp fun ⟨hvotes, hids, hlatest⟩ => ?_).mpr (by decide +kernel)
  refine counted_validated plainJudge plainStart fresh_plainStart (fun s => ?_) savedVote hvotes
    hids 0 firstBlock.hashTreeRoot 0 hlatest
  show (({} : Ledger).get s).indexed = none
  simp [Ledger.get]

end ChainHead.Manager
