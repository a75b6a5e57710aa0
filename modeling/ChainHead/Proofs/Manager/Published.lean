/-
What is handed to the network.

A submission may be handed in many times, and it may wait in the queue
for slots while it is applied at once. It is handed to the network when
it is applied for the first time, or when it was saved and its slot is
over (`Accepted`), whatever comes first. The mark in its facts makes that
the only time (`Marks`): as long as nobody else marks submissions, those
that are marked are those that were handed over.

Facts are kept under the number of a submission. So two submissions must
not share one (`Identified`), or one would be held back for the other.
-/
import ChainHead.Proofs.Manager.Saved

namespace ChainHead

/-- The submission that a message publishes. -/
def Message.submission : Message → Submission
  | .attestation s | .aggregate s => s

theorem Message.submission_publish (s : Submission) : (publish s).submission = s := by
  unfold publish
  split
  case isTrue => rfl
  case isFalse => rfl

theorem Message.publish_inj {s s' : Submission} (h : publish s = publish s') : s = s' := by
  rw [← submission_publish s, h, submission_publish]

/-- Whether a processor leaves the marks alone that say what was handed to
the network. -/
def Processor.Discreet {σ : Type} (p : Processor σ) : Prop :=
  ∀ features state s facts, (p.process features state s facts).value.2.1.gossiped = facts.gossiped

namespace Manager

variable {σ ε : Type} {S : Submission → Prop} {ledger : Ledger} {outbox : List Message}
variable {past : List Request} {s s' : Submission}

-- ============================================================ acceptance

/-- Whether a submission was applied at once, or saved and its slot is
over since. -/
def Accepted (past : List Request) (s : Submission) : Prop :=
  (∃ features, .process features s .successful ∈ past)
    ∨ ∃ later features v earlier slot, past = later ++ .process features s v :: earlier
      ∧ Saves features v ∧ .slot slot ∈ later ∧ s.data.slot < slot

/-- One more request accepts what it applies at once, or what waits for the
slot that begins. -/
theorem accepted_cons {r : Request} : Accepted (r :: past) s ↔ Accepted past s
    ∨ (∃ features, r = .process features s .successful)
    ∨ ∃ slot number, r = .slot slot ∧ Waits past number s ∧ s.data.slot < slot := by
  constructor
  · rintro (⟨features, hin⟩ | ⟨later, features, v, earlier, slot, heq, hsaves, hslot, hover⟩)
    · rcases List.mem_cons.mp hin with hnew | hold
      · exact .inr (.inl ⟨features, hnew.symm⟩)
      · exact .inl (.inl ⟨features, hold⟩)
    · cases later with
      | nil => exact absurd hslot List.not_mem_nil
      | cons r' later =>
          injection heq with hr hpast
          subst hr
          -- if a slot in between was past its own, it was accepted then
          by_cases hbefore : ∃ slot, .slot slot ∈ later ∧ s.data.slot < slot
          · obtain ⟨slot', hin, hpassed⟩ := hbefore
            exact .inl (.inr ⟨later, features, v, earlier, slot', hpast, hsaves, hin, hpassed⟩)
          · rcases List.mem_cons.mp hslot with hnew | hold
            · refine .inr (.inr ⟨slot, earlier.length, hnew.symm, ⟨later, features, v, earlier,
                hpast, rfl, hsaves, fun slot' hin => ?_⟩, hover⟩)
              exact UInt64.not_lt.mp fun hpassed => hbefore ⟨slot', hin, hpassed⟩
            · exact absurd ⟨slot, hold, hover⟩ hbefore
  · rintro ((⟨features, hin⟩ | ⟨later, features, v, earlier, slot, rfl, hsaves, hslot, hover⟩)
      | ⟨features, rfl⟩
      | ⟨slot, number, rfl, ⟨later, features, v, earlier, rfl, -, hsaves, -⟩, hover⟩)
    · exact .inl ⟨features, List.mem_cons_of_mem _ hin⟩
    · exact .inr ⟨r :: later, features, v, earlier, slot, rfl, hsaves,
        List.mem_cons_of_mem _ hslot, hover⟩
    · exact .inl ⟨features, List.mem_cons_self⟩
    · exact .inr ⟨.slot slot :: later, features, v, earlier, slot, rfl, hsaves,
        List.mem_cons_self, hover⟩

/-- A decision accepts nothing but the submission it applies. -/
theorem accepted_process {features : Features} {v : Verdict} :
    Accepted (.process features s v :: past) s'
      ↔ Accepted past s' ∨ v = .successful ∧ s' = s := by
  simp [accepted_cons, and_comm, eq_comm]

/-- A slot accepts what waits for it to be over. -/
theorem accepted_slot {slot : Slot} : Accepted (.slot slot :: past) s
    ↔ Accepted past s ∨ ∃ number, Waits past number s ∧ s.data.slot < slot := by
  simp [accepted_cons]

theorem accepted_apply {a : IndexedAttestation} :
    Accepted (.apply a :: past) s ↔ Accepted past s := by
  simp [accepted_cons]

theorem accepted_applied (applied : List IndexedAttestation) :
    Accepted ((applied.map .apply).reverse ++ past) s ↔ Accepted past s := by
  rw [← List.map_reverse]
  induction applied.reverse with
  | nil => exact .rfl
  | cons a rest ih => exact accepted_apply.trans ih

-- ================================================================ marks

/-- Whether the marked submissions are those that were handed over, each in
one message that says what it is. -/
structure Marks (S : Submission → Prop) (ledger : Ledger) (outbox : List Message) : Prop where
  published : ∀ message ∈ outbox, S message.submission ∧ message = .publish message.submission
  distinct : (outbox.map (·.submission.id)).Nodup
  marked : ∀ s, S s → ((ledger.get s).gossiped = true ↔ .publish s ∈ outbox)

/-- What a processor learns does not matter, if it leaves the marks alone. -/
theorem Marks.put (h : Marks S ledger outbox) {facts : Facts}
    (hfacts : facts.gossiped = (ledger.get s).gossiped) : Marks S (ledger.put s facts) outbox where
  published := h.published
  distinct := h.distinct
  marked s' hs' := by
    rw [← h.marked s' hs', Ledger.get_put]
    split
    case isTrue hid =>
      unfold Ledger.get at hfacts ⊢
      rw [hfacts, hid]
    case isFalse => rfl

/-- One submission is handed over unless it was before. -/
theorem Marks.handedOver (h : Marks S ledger outbox)
    (hids : ∀ s s', S s → S s' → s.id = s'.id → s = s') (hs : S s) :
    Marks S (handedOver s ledger outbox).1 (handedOver s ledger outbox).2
      ∧ ∀ s', .publish s' ∈ (handedOver s ledger outbox).2 ↔ .publish s' ∈ outbox ∨ s' = s := by
  have hmember : ∀ s', .publish s' ∈ (Manager.handedOver s ledger outbox).2
      ↔ .publish s' ∈ outbox ∨ s' = s := by
    intro s'
    unfold Manager.handedOver
    dsimp only
    split
    case isTrue hmark =>
      refine ⟨.inl, fun hin => ?_⟩
      rcases hin with hin | rfl
      · exact hin
      · exact (h.marked s' hs).mp hmark
    case isFalse =>
      rw [List.mem_append, List.mem_singleton]
      exact or_congr_right ⟨Message.publish_inj, congrArg Message.publish⟩
  refine ⟨⟨?_, ?_, fun s' hs' => ?_⟩, hmember⟩
  · unfold Manager.handedOver
    dsimp only
    split
    case isTrue => exact h.published
    case isFalse =>
      intro message hin
      rcases List.mem_append.mp hin with hold | hnew
      · exact h.published message hold
      · rw [List.mem_singleton.mp hnew, Message.submission_publish]
        exact ⟨hs, rfl⟩
  · unfold Manager.handedOver
    dsimp only
    split
    case isTrue => exact h.distinct
    case isFalse hmark =>
      rw [List.map_append, List.map_singleton, Message.submission_publish]
      refine List.nodup_append.mpr ⟨h.distinct, List.nodup_singleton _, fun x hx y hy => ?_⟩
      rw [List.mem_singleton.mp hy]
      rintro rfl
      -- whatever has the number is the submission, which is not marked
      obtain ⟨message, hin, hid⟩ := List.mem_map.mp hx
      obtain ⟨hsource, hpublish⟩ := h.published message hin
      rw [hids _ s hsource hs hid] at hpublish
      exact hmark ((h.marked s hs).mpr (hpublish ▸ hin))
  · rw [hmember, ← h.marked s' hs', get_handedOver]
    dsimp only
    rw [Bool.or_eq_true, decide_eq_true_iff, or_comm]
    exact or_congr_right ⟨fun hid => (hids s s' hs hs' hid).symm, fun heq => heq ▸ rfl⟩

theorem Marks.allHandedOver (h : Marks S ledger outbox)
    (hids : ∀ s s', S s → S s' → s.id = s'.id → s = s') {due : List Submission}
    (hdue : ∀ s ∈ due, S s) :
    Marks S (allHandedOver ledger outbox due).1 (allHandedOver ledger outbox due).2
      ∧ ∀ s', .publish s' ∈ (allHandedOver ledger outbox due).2
        ↔ .publish s' ∈ outbox ∨ s' ∈ due := by
  induction due generalizing ledger outbox with
  | nil => exact ⟨h, fun s' => by simp [Manager.allHandedOver]⟩
  | cons s rest ih =>
      obtain ⟨hs, hrest⟩ := List.forall_mem_cons.mp hdue
      obtain ⟨hmarks, hmember⟩ := h.handedOver hids hs
      obtain ⟨hall, hmembers⟩ := ih hmarks hrest
      refine ⟨hall, fun s' => (hmembers s').trans ?_⟩
      rw [hmember, List.mem_cons, or_assoc]

-- ============================================================== one step

/-- Whether what was handed over is what was accepted. -/
structure Sent (S : Submission → Prop) (m : Manager (Journal σ)) : Prop where
  filed : Filed m
  sourced : Sourced S m
  marks : Marks S m.ledger m.outbox
  accepted : ∀ s, .publish s ∈ m.outbox ↔ Accepted m.processor.requests s

/-- What is due was put before the processor. -/
theorem Sent.due {m : Manager (Journal σ)} (h : Sent S m) (slot : Slot) (s : Submission) :
    s ∈ (m.untilSlot.takeDue slot).2
      ↔ ∃ number, Waits m.processor.requests number s ∧ s.data.slot < slot := by
  rw [h.filed.takeDue, List.mem_map]
  constructor
  · rintro ⟨⟨number, s'⟩, hin, rfl⟩
    exact ⟨number, mem_overIn.mp hin⟩
  · intro ⟨number, hwaits⟩
    exact ⟨(number, s), mem_overIn.mpr hwaits, rfl⟩

theorem keeps_sent (w : Setting σ ε) (hw : w.processor.Discreet)
    (hids : ∀ s s', S s → S s' → s.id = s'.id → s = s') :
    Keeps w.journaled (fun c => ∀ s, c.submission? = some s → S s) (Sent S) where
  attestation features m s hs h := by
    have hfiled := (keeps_filed w).attestation features m s trivial h.filed
    have hsourced := (keeps_sourced w S).attestation features m s hs h.sourced
    change Filed (m.onAttestation w.processor.journaled features s).value.1 at hfiled
    change Sourced S (m.onAttestation w.processor.journaled features s).value.1 at hsourced
    show Sent S (m.onAttestation w.processor.journaled features s).value.1
    rcases journaled_cases w.processor features m s w.preset with
      heq | ⟨state, facts, v, metrics, hprocess, heq⟩
    · rw [heq]
      exact h
    · have hfacts := hw features m.processor.state s (m.ledger.get s)
      rw [hprocess] at hfacts
      have hput : Marks S (m.ledger.put s facts) m.outbox := h.marks.put hfacts
      rw [heq] at hfiled hsourced ⊢
      have hsame (hv : v ≠ .successful) (s' : Submission) : .publish s' ∈ m.outbox
          ↔ Accepted (.process features s v :: m.processor.requests) s' := by
        rw [accepted_process, h.accepted]
        exact (or_iff_left fun hnew => hv hnew.1).symm
      cases v with
      | successful =>
          obtain ⟨hmarks, hmember⟩ := hput.handedOver hids (hs s rfl)
          refine ⟨hfiled, hsourced, hmarks, fun s' => (hmember s').trans ?_⟩
          rw [accepted_process, h.accepted]
          exact or_congr_right (and_iff_right rfl).symm
      | unknownBlock root => exact ⟨hfiled, hsourced, hput, hsame (fun hv => nomatch hv)⟩
      | savedForFuture => exact ⟨hfiled, hsourced, hput, hsame (fun hv => nomatch hv)⟩
      | invalid reason => exact ⟨hfiled, hsourced, hput, hsame (fun hv => nomatch hv)⟩
  taken m root h := by
    obtain ⟨hs, hsourced⟩ := (keeps_sourced w S).taken m root h.sourced
    exact ⟨hs, ((keeps_filed w).taken m root h.filed).2, hsourced, h.marks, h.accepted⟩
  slot m slot hslot h := by
    have hfiled := (keeps_filed w).slot m slot trivial h.filed
    have hsourced := (keeps_sourced w S).slot m slot hslot h.sourced
    change Filed (m.onSlot w.preset w.processor.journaled slot).value at hfiled
    change Sourced S (m.onSlot w.preset w.processor.journaled slot).value at hsourced
    show Sent S (m.onSlot w.preset w.processor.journaled slot).value
    have hrequests := journaled_slot w m slot
    obtain ⟨metrics, hvalue⟩ := m.onSlot_value w.processor.journaled w.preset slot
    rw [hvalue] at hfiled hsourced hrequests ⊢
    have hdue : ∀ s ∈ (m.untilSlot.takeDue slot).2, S s := by
      intro s hin
      obtain ⟨number, ⟨later, features, v, earlier, heq, -⟩, -⟩ := (h.due slot s).mp hin
      refine h.sourced.processed features s v ?_
      rw [heq]
      exact List.mem_append_right _ List.mem_cons_self
    obtain ⟨hmarks, hmember⟩ := h.marks.allHandedOver hids hdue
    refine ⟨hfiled, hsourced, hmarks, fun s => (hmember s).trans ?_⟩
    rw [hrequests, accepted_applied, accepted_slot, h.accepted, h.due]
  pool m c hc h := ⟨(keeps_filed w).pool m c trivial h.filed,
    (keeps_sourced w S).pool m c hc h.sourced, h.marks, h.accepted⟩
  meanwhile m e he h := ⟨(keeps_filed w).meanwhile m e trivial h.filed,
    (keeps_sourced w S).meanwhile m e he h.sourced, h.marks, h.accepted⟩

-- ================================================================= runs

/-- Whether nothing waits, and nothing is marked or was handed over. -/
structure Silent (m : Manager σ) : Prop where
  untilBlock : ∃ capacity retention, m.untilBlock = { capacity, retention }
  untilSlot : m.untilSlot = {}
  unmarked : ∀ s, (m.ledger.get s).gossiped = false
  outbox : m.outbox = []

theorem Silent.sent {m : Manager σ} (h : Silent m) (S : Submission → Prop) :
    Sent S m.journaled := by
  obtain ⟨capacity, retention, hqueue⟩ := h.untilBlock
  have hnone (s : Submission) : ¬Accepted [] s := by
    rintro (⟨features, hin⟩ | ⟨later, features, v, earlier, slot, heq, -⟩)
    · exact absurd hin List.not_mem_nil
    · exact absurd heq (by simp)
  have hempty : m.journaled.outbox = [] := h.outbox
  refine ⟨filed_journaled h.untilSlot, sourced_journaled hqueue S, ⟨?_, ?_, fun s _ => ?_⟩,
    fun s => ?_⟩
  · rw [hempty]
    exact fun message hin => absurd hin List.not_mem_nil
  · rw [hempty]
    exact List.nodup_nil
  · rw [hempty]
    exact iff_of_false (ne_true_of_eq_false (h.unmarked s)) List.not_mem_nil
  · rw [hempty]
    exact iff_of_false List.not_mem_nil (hnone s)

/-- With a processor that leaves the marks alone, a submission is handed to
the network at most once, and that it was is to say that it was accepted.
It is published as an aggregate if that is what it was handed in as. -/
theorem published_once (w : Setting σ ε) (hw : w.processor.Discreet) (start : Manager σ)
    (hstart : Silent start) (calls : List (Call ε)) (hids : Identified calls) :
    let m := after w start calls
    let past := requests w start calls
    (m.outbox.map (·.submission.id)).Nodup
    ∧ (∀ s, (∃ message ∈ m.outbox, message.submission = s) ↔ Accepted past s)
    ∧ (∀ s, .aggregate s ∈ m.outbox → s.isAggregate = true)
    ∧ ∀ s, .attestation s ∈ m.outbox → s.isAggregate = false := by
  intro m past
  have hsent : Sent (· ∈ submitted calls) (after w.journaled start.journaled calls) :=
    (keeps_sent w hw fun s s' hs hs' => hids s hs s' hs').after (hstart.sent _)
      fun c hc s hs => List.mem_filterMap.mpr ⟨c, hc, hs⟩
  have houtbox : m.outbox = (after w.journaled start.journaled calls).outbox :=
    congrArg outbox (after_journaled w start calls).symm
  have hpublished {message : Message} (hin : message ∈ m.outbox) :
      message = .publish message.submission := (hsent.marks.published message (houtbox ▸ hin)).2
  refine ⟨houtbox ▸ hsent.marks.distinct, fun s => ?_, fun s hin => ?_, fun s hin => ?_⟩
  · rw [← show _ ↔ Accepted past s from hsent.accepted s, ← houtbox]
    constructor
    · rintro ⟨message, hin, rfl⟩
      exact hpublished hin ▸ hin
    · exact fun hin => ⟨_, hin, Message.submission_publish s⟩
  · have hkind : Message.aggregate s = .publish s := hpublished hin
    unfold Message.publish at hkind
    split at hkind
    case isTrue haggregate => exact haggregate
    case isFalse => cases hkind
  · have hkind : Message.attestation s = .publish s := hpublished hin
    unfold Message.publish at hkind
    split at hkind
    case isTrue => cases hkind
    case isFalse hnot => exact Bool.not_eq_true _ ▸ hnot

theorem discreet_judge (c : JudgeConfig) : (Judge.processor c).Discreet :=
  fun features j s facts => (Judge.learns_process c features j s facts).gossiped

theorem silent_plainStart : Silent plainStart := by
  refine ⟨⟨_, _, rfl⟩, rfl, fun s => ?_, rfl⟩
  show (({} : Ledger).get s).gossiped = false
  simp [Ledger.get]

/-- The early vote, as an aggregate. -/
def earlyAggregate : Submission :=
  { plainVote 1 2 firstBlock.hashTreeRoot with origin := .aggregator }

/-- One vote is applied. An aggregate is saved, its slot passes, and it is
handed in once more. -/
def aggregateAgain : List (Call Judge.Use) :=
  [.attestation {} earlyAggregate,
    .slot 3,
    .attestation {} earlyAggregate,
    .attestation {} (plainVote 0 1 firstBlock.hashTreeRoot)] ++ prelude

/-- The aggregate was accepted twice, and published once. -/
theorem published_once_aggregateAgain :
    let w := Judge.shared plainJudge
    let vote := plainVote 0 1 firstBlock.hashTreeRoot
    let m := after w plainStart aggregateAgain
    let past := requests w plainStart aggregateAgain
    (Identified aggregateAgain ∧ m.outbox = [.attestation vote, .aggregate earlyAggregate]
        ∧ .process {} earlyAggregate .savedForFuture ∈ past
        ∧ .process {} earlyAggregate .successful ∈ past)
      ∧ (m.outbox.map (·.submission.id)).Nodup
        ∧ Accepted past vote ∧ Accepted past earlyAggregate
        ∧ earlyAggregate.isAggregate = true ∧ vote.isAggregate = false := by
  refine (and_iff_left_of_imp fun ⟨hids, houtbox, _, _⟩ => ?_).mpr (by decide +kernel)
  have h := published_once (Judge.shared plainJudge) (discreet_judge plainJudge) plainStart
    silent_plainStart aggregateAgain hids
  have hfirst : .attestation (plainVote 0 1 firstBlock.hashTreeRoot)
      ∈ (after (Judge.shared plainJudge) plainStart aggregateAgain).outbox := by
    rw [houtbox]
    exact List.mem_cons_self
  have hsecond : .aggregate earlyAggregate
      ∈ (after (Judge.shared plainJudge) plainStart aggregateAgain).outbox := by
    rw [houtbox]
    exact List.mem_cons_of_mem _ List.mem_cons_self
  exact ⟨h.1, (h.2.1 _).mp ⟨_, hfirst, rfl⟩, (h.2.1 _).mp ⟨_, hsecond, rfl⟩,
    h.2.2.1 _ hsecond, h.2.2.2 _ hfirst⟩

end Manager

end ChainHead
