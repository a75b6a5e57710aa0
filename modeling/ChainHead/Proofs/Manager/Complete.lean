/-
What a judge leaves to do for later.

A judge records who voted before it accepts a submission, and the seed of
the committee, also if the submission is early. Facts are only added to
(`Ledger.Grows`). So whatever waits for its slot has both recorded, and
so has what is in the pool, as long as nobody else fills it
(`keeps_prepared`, `keeps_pooled`).

Two steps of a manager are prepared for facts that are missing: what is
due is passed over if nobody knows whose votes they are, and the pool
refuses what has no seed. Each leaves a note. With a judge there is no
such note, in whatever order things happen, and the votes of what is said
to be applied are in the table (`complete_after`).
-/
import ChainHead.Proofs.Manager.Kept
import ChainHead.Proofs.Queue.Slots

namespace ChainHead

-- ================================================================ notes

/-- Whether a note says that a fact was missing. -/
def Note.isGap : Note → Bool
  | .votersMissing _ | .poolRefused _ => true
  | _ => false

theorem Note.isGap_eq_false_iff {n : Note} : n.isGap = false
    ↔ (∀ dataRoot, n ≠ .votersMissing dataRoot) ∧ ∀ reason, n ≠ .poolRefused reason := by
  cases n <;> simp [isGap]

/-- Whether no fact was missing on the way to a value. -/
def Logged.NoGap {α : Type} (x : Logged α) : Prop :=
  ∀ n ∈ x.notes, n.isGap = false

namespace Logged

theorem noGap_pure {α : Type} (a : α) : (pure a : Logged α).NoGap :=
  fun _ hn => absurd hn List.not_mem_nil

theorem NoGap.bind {α β : Type} {x : Logged α} {f : α → Logged β} (hx : x.NoGap)
    (hf : (f x.value).NoGap) : (x >>= f).NoGap := by
  intro n hn
  rcases List.mem_append.mp hn with hfirst | hsecond
  · exact hx n hfirst
  · exact hf n hsecond

theorem noGap_note {n : Note} (h : n.isGap = false) : (Logged.note n).NoGap :=
  List.forall_mem_singleton.mpr h

theorem noGap_noteIf (condition : Bool) {n : Note} (h : n.isGap = false) :
    (Logged.noteIf condition n).NoGap := by
  cases condition with
  | true => exact noGap_note h
  | false => exact noGap_pure ()

end Logged

open Logged

theorem Group.noGap_add (g : Group) (s : Submission) : (g.add s).NoGap := by
  unfold Group.add
  split
  case h_1 =>
    split
    case isTrue => exact (noGap_note rfl).bind (noGap_pure _)
    case isFalse =>
      split
      case isTrue => exact noGap_pure _
      case isFalse => exact noGap_pure _
  case h_2 => exact noGap_pure _

theorem Pool.noGap_onSlot (preset : Preset) (p : Pool) (slot : Slot) :
    (p.onSlot preset slot).NoGap := by
  unfold Pool.onSlot
  split
  case h_1 => exact noGap_pure _
  case h_2 => exact (noGap_noteIf _ rfl).bind (noGap_pure _)

namespace BlockQueue

theorem noGap_dropOldest (q : BlockQueue) : q.dropOldest.NoGap := by
  unfold dropOldest
  split
  case h_1 => exact noGap_pure _
  case h_2 => exact (noGap_note rfl).bind (noGap_pure _)

theorem noGap_add (q : BlockQueue) (root : Root) (s : Submission) : (q.add root s).NoGap := by
  unfold add
  split
  case isTrue => exact noGap_pure _
  case isFalse =>
    dsimp only
    split
    case isTrue => exact (noGap_dropOldest q).bind (noGap_pure _)
    case isFalse => exact (noGap_pure q).bind (noGap_pure _)

theorem noGap_prune (q : BlockQueue) (slot : Slot) : (q.prune slot).NoGap := by
  unfold prune
  split
  case h_1 => exact noGap_pure _
  case h_2 =>
    dsimp only
    split
    case isTrue => exact noGap_pure _
    case isFalse => exact (noGap_note rfl).bind (noGap_pure _)

end BlockQueue

-- ================================================================ facts

/-- Whether what was known of voters and seed is known still. -/
structure Facts.Grows (f f' : Facts) : Prop where
  indexed : ∀ a, f.indexed = some a → f'.indexed = some a
  seed : ∀ seed, f.seed = some seed → f'.seed = some seed

namespace Facts.Grows

variable {f f' f'' : Facts}

theorem refl (f : Facts) : f.Grows f := ⟨fun _ h => h, fun _ h => h⟩

theorem trans (h : f.Grows f') (h' : f'.Grows f'') : f.Grows f'' :=
  ⟨fun a ha => h'.indexed a (h.indexed a ha), fun seed hs => h'.seed seed (h.seed seed hs)⟩

theorem complete (h : f.Grows f') (hf : f.Complete) : f'.Complete := by
  obtain ⟨a, ha⟩ := Option.isSome_iff_exists.mp hf.1
  obtain ⟨seed, hseed⟩ := Option.isSome_iff_exists.mp hf.2
  exact ⟨Option.isSome_iff_exists.mpr ⟨a, h.indexed a ha⟩,
    Option.isSome_iff_exists.mpr ⟨seed, h.seed seed hseed⟩⟩

end Facts.Grows

theorem Judge.Learns.grows {c : JudgeConfig} {s : Submission} {facts facts' : Facts}
    (h : Learns c s facts facts') : facts.Grows facts' where
  indexed a ha := by
    rcases h.indexed with heq | ⟨hnone, -⟩
    · rw [heq, ha]
    · rw [hnone] at ha
      cases ha
  seed seed hs := by
    rcases h.seed with heq | hnone
    · rw [heq, hs]
    · rw [hnone] at hs
      cases hs

/-- Whether of no submission less is known. -/
def Ledger.Grows (l l' : Ledger) : Prop :=
  ∀ s, (l.get s).Grows (l'.get s)

theorem Ledger.grows_put {l : Ledger} {s : Submission} {f : Facts} (h : (l.get s).Grows f) :
    l.Grows (l.put s f) := by
  intro s'
  rw [Ledger.get_put]
  split
  case isTrue hid =>
    have hsame : l.get s' = l.get s := by
      unfold Ledger.get
      rw [hid]
    rw [hsame]
    exact h
  case isFalse => exact .refl _

namespace Manager

variable {σ ε : Type} {m : Manager σ} {features : Features} {s : Submission}

theorem grows_networkAfter (ledger : Ledger) (outbox : List Message) (v : Verdict) :
    ledger.Grows (networkAfter s ledger outbox v).1 := by
  intro s'
  rw [get_networkAfter]
  exact ⟨fun _ h => h, fun _ h => h⟩

theorem grows_allHandedOver (ledger : Ledger) (outbox : List Message) (due : List Submission) :
    ledger.Grows (allHandedOver ledger outbox due).1 := by
  intro s'
  rw [get_allHandedOver]
  exact ⟨fun _ h => h, fun _ h => h⟩

-- ======================================================== what is written

/-- The notes of a manager about a call. What others do leaves none. -/
def notes (w : Setting σ ε) (m : Manager σ) : Call ε → List Note
  | .attestation features s => (m.onAttestation w.processor features s).notes
  | .blockImported features root => (m.onBlockImported w.processor features root).notes
  | .slot slot => (m.onSlot w.preset w.processor slot).notes
  | .pool _ => []
  | .meanwhile _ => []

/-- Whether somebody else puts something into the pool with a call. -/
def Call.fillsPool : Call ε → Bool
  | .pool (.add _ _) => true
  | _ => false

theorem noGap_gossip (m : Manager σ) (s : Submission) : (m.gossip s).NoGap := by
  unfold gossip
  dsimp only
  split
  case isTrue => exact (noGap_noteIf _ rfl).bind (noGap_pure _)
  case isFalse => exact noGap_pure _

theorem noGap_gossipAll (m : Manager σ) (due : List Submission) : (m.gossipAll due).NoGap := by
  induction due generalizing m with
  | nil => exact noGap_pure _
  | cons s rest ih => exact (noGap_gossip m s).bind (ih _)

/-- The pool takes what has a seed. -/
theorem noGap_addToPool (h : (m.ledger.get s).seed.isSome = true) : (m.addToPool s).NoGap := by
  obtain ⟨seed, hseed⟩ := Option.isSome_iff_exists.mp h
  unfold addToPool Pool.add
  rw [hseed]
  exact ((Group.noGap_add _ s).bind (noGap_pure _)).bind (noGap_pure _)

/-- What is accepted has to have a seed. -/
theorem noGap_follow {v : Verdict}
    (h : v = .successful ∨ v = .savedForFuture → (m.ledger.get s).seed.isSome = true) :
    (m.follow features s v).NoGap := by
  cases v with
  | successful =>
      exact (noGap_note rfl).bind
        ((noGap_addToPool (m := m.count _) (h (.inl rfl))).bind (noGap_gossip _ s))
  | unknownBlock root =>
      unfold follow
      dsimp only
      split
      case isTrue => exact noGap_pure _
      case isFalse =>
        exact (noGap_note rfl).bind ((BlockQueue.noGap_add _ root s).bind (noGap_pure _))
  | savedForFuture =>
      unfold follow
      dsimp only
      split
      case isTrue => exact noGap_pure _
      case isFalse =>
        exact (noGap_note rfl).bind
          ((noGap_addToPool (m := m.count _) (h (.inr rfl))).bind (noGap_pure _))
  | invalid reason => exact (noGap_note rfl).bind (noGap_pure _)

/-- Voters that are due have to be known. -/
theorem noGap_applyDue {p : Processor σ} (happly : ∀ state a, (p.apply state a).NoGap)
    {due : List Submission} (h : ∀ s ∈ due, (m.ledger.get s).indexed.isSome = true) :
    (m.applyDue p due).NoGap := by
  induction due generalizing m with
  | nil => exact noGap_pure _
  | cons s rest ih =>
      obtain ⟨hs, hrest⟩ := List.forall_mem_cons.mp h
      obtain ⟨a, ha⟩ := Option.isSome_iff_exists.mp hs
      unfold applyDue
      rw [ha]
      exact (happly m.processor a).bind (ih (m := { m with processor := _ }) hrest)

theorem noGap_onSlot (preset : Preset) {p : Processor σ}
    (happly : ∀ state a, (p.apply state a).NoGap) {slot : Slot}
    (h : ∀ s ∈ (m.untilSlot.takeDue slot).2, (m.ledger.get s).indexed.isSome = true) :
    (m.onSlot preset p slot).NoGap := by
  unfold onSlot
  refine (Pool.noGap_onSlot preset m.pool slot).bind ?_
  refine (BlockQueue.noGap_prune m.untilBlock slot).bind ?_
  refine (noGap_noteIf _ rfl).bind ?_
  refine NoGap.bind (noGap_applyDue happly h) ?_
  exact noGap_gossipAll _ _

end Manager

-- =============================================================== judges

/-- Whether a submission is to be kept or passed on. -/
def Verdict.Accepts (v : Verdict) : Prop :=
  v = .successful ∨ v = .savedForFuture

namespace Judge

theorem noGap_apply (j : Judge) (a : IndexedAttestation) : (apply j a).NoGap :=
  (noGap_note rfl).bind (((noGap_noteIf _ rfl).bind (noGap_pure _)).bind (noGap_pure _))

theorem noGap_process (c : JudgeConfig) (features : Features) (j : Judge) (s : Submission)
    (facts : Facts) : (process c features j s facts).NoGap := by
  unfold process
  split
  case h_1 => exact noGap_pure _
  case h_2 => exact noGap_pure _
  case h_3 =>
    split
    case isTrue => exact noGap_pure _
    case isFalse =>
      split
      case h_1 => exact noGap_pure _
      case h_2 => exact ((noGap_noteIf _ rfl).bind (noGap_pure _)).bind (noGap_pure _)

/-- Of what is accepted the voters and a seed are known. -/
theorem complete_process {c : JudgeConfig} {features : Features} {j j' : Judge} {s : Submission}
    {facts facts' : Facts} {v : Verdict}
    (h : (process c features j s facts).value = (j', facts', v)) (hv : v.Accepts) :
    facts'.Complete := by
  have hverdict := congrArg (·.2.2) h
  rcases hv with rfl | rfl
  · obtain ⟨learned, hexamine, -, hvalue⟩ := process_successful hverdict
    obtain rfl : facts' = learned := congrArg (·.2.1) (h.symm.trans hvalue)
    exact complete_of_checkVoters (examine_eq_ok.mp hexamine).2.2.2
  · obtain ⟨learned, hexamine, -, hvalue⟩ := process_savedForFuture hverdict
    obtain rfl : facts' = learned := congrArg (·.2.1) (h.symm.trans hvalue)
    exact complete_of_checkVoters (examine_eq_ok.mp hexamine).2.2.2

/-- What is applied at once is applied to the store. -/
theorem applied_process {c : JudgeConfig} {features : Features} {j j' : Judge} {s : Submission}
    {facts facts' : Facts} (h : (process c features j s facts).value = (j', facts', .successful)) :
    ∃ a, facts'.indexed = some a ∧ (facts.indexed = none → a.data = s.data)
      ∧ j' = { j with store := (j.store.onAttestation a).value } := by
  obtain ⟨a, ha⟩ := Option.isSome_iff_exists.mp (complete_process h (.inl rfl)).1
  have hlearns := learns_process c features j s facts
  obtain ⟨learned, -, -, hvalue⟩ := process_successful (congrArg (·.2.2) h)
  rw [h] at hlearns
  obtain rfl : facts' = learned := congrArg (·.2.1) (h.symm.trans hvalue)
  refine ⟨a, ha, fun hnone => ?_, (congrArg (·.1) (h.symm.trans hvalue)).trans ?_⟩
  · rcases hlearns.indexed with hsame | ⟨-, state, a', -, hfound, ha'⟩
    · rw [hsame, hnone] at ha
      cases ha
    · obtain rfl := Option.some.inj (ha.symm.trans ha')
      exact (Verification.of_indexed_eq_ok hfound).1
  · rw [ha]
    rfl

end Judge

namespace Manager

variable {m : Manager Judge} {features : Features} {s : Submission}

theorem noGap_onAttestation (c : JudgeConfig) (features : Features) (m : Manager Judge)
    (s : Submission) : (m.onAttestation (Judge.processor c) features s).NoGap := by
  unfold onAttestation
  split
  case isTrue => exact (noGap_note rfl).bind (noGap_pure _)
  case isFalse =>
    refine (Judge.noGap_process c features m.processor s (m.ledger.get s)).bind ?_
    refine NoGap.bind (noGap_follow fun hv => ?_) (noGap_pure _)
    rw [Ledger.get_put, if_pos rfl]
    exact (Judge.complete_process rfl hv).2

theorem noGap_retry (c : JudgeConfig) (features : Features) (m : Manager Judge)
    (ss : List Submission) : (retry (Judge.processor c) features m ss).NoGap := by
  induction ss generalizing m with
  | nil => exact noGap_pure _
  | cons s rest ih => exact (noGap_onAttestation c features m s).bind (ih _)

theorem noGap_onBlockImported (c : JudgeConfig) (features : Features) (m : Manager Judge)
    (root : Root) : (m.onBlockImported (Judge.processor c) features root).NoGap := by
  unfold onBlockImported
  dsimp only
  split
  case isTrue => exact noGap_pure _
  case isFalse => exact (noGap_note rfl).bind (noGap_retry c features _ _)

/-- What is learned is kept, and what a submission leaves for later has its
voters and a seed recorded. -/
theorem onAttestation_complete (c : JudgeConfig) (features : Features) (m : Manager Judge)
    (s : Submission) :
    let m' := (m.onAttestation (Judge.processor c) features s).value.1
    m.ledger.Grows m'.ledger
      ∧ (m'.untilSlot = m.untilSlot
        ∨ m'.untilSlot = m.untilSlot.add s ∧ (m'.ledger.get s).Complete)
      ∧ (m'.pool = m.pool
        ∨ (∃ facts, m'.pool = m.pool.call c.preset (.add s facts))
          ∧ (m'.ledger.get s).Complete) := by
  intro m'
  rcases onAttestation_cases (Judge.processor c) features m s c.preset with
    heq | ⟨j, facts, v, metrics, hprocess, heq⟩
  · have hm' : m' = m := congrArg Prod.fst heq
    rw [hm']
    exact ⟨fun s' => .refl _, .inl rfl, .inl rfl⟩
  · have hlearns := Judge.learns_process c features m.processor s (m.ledger.get s)
    change (Judge.process c features m.processor s (m.ledger.get s)).value = _ at hprocess
    rw [hprocess] at hlearns
    have hput : m.ledger.Grows (m.ledger.put s facts) := Ledger.grows_put hlearns.grows
    have hgrows (v : Verdict) :
        m.ledger.Grows (networkAfter s (m.ledger.put s facts) m.outbox v).1 :=
      fun s' => (hput s').trans (grows_networkAfter _ _ v s')
    have hown (v : Verdict) (hcomplete : facts.Complete) :
        ((networkAfter s (m.ledger.put s facts) m.outbox v).1.get s).Complete := by
      rw [get_networkAfter, Ledger.get_put, if_pos rfl]
      exact hcomplete
    have hm' : m' = _ := congrArg Prod.fst heq
    rw [hm']
    refine ⟨hgrows v, ?_⟩
    cases v with
    | successful =>
        have hcomplete := Judge.complete_process hprocess (.inl rfl)
        exact ⟨.inl rfl, .inr ⟨⟨facts, rfl⟩, hown _ hcomplete⟩⟩
    | unknownBlock root => exact ⟨.inl rfl, .inl rfl⟩
    | savedForFuture =>
        have hcomplete := Judge.complete_process hprocess (.inr rfl)
        unfold slotsAfter poolAfter
        dsimp only
        split
        case isTrue => exact ⟨.inl rfl, .inl rfl⟩
        case isFalse =>
          exact ⟨.inr ⟨rfl, hown _ hcomplete⟩, .inr ⟨⟨facts, rfl⟩, hown _ hcomplete⟩⟩
    | invalid reason => exact ⟨.inl rfl, .inl rfl⟩

theorem onSlot_grows (c : JudgeConfig) (m : Manager Judge) (slot : Slot) :
    m.ledger.Grows (m.onSlot c.preset (Judge.processor c) slot).value.ledger := by
  obtain ⟨metrics, hvalue⟩ := m.onSlot_value (Judge.processor c) c.preset slot
  rw [hvalue]
  exact grows_allHandedOver m.ledger m.outbox _

/-- Whether what waits for a slot has its voters and a seed recorded. -/
structure Prepared (m : Manager Judge) : Prop where
  filed : m.untilSlot.Sound
  early : ∀ s ∈ m.untilSlot.waiting, (m.ledger.get s).Complete

/-- What is due has its voters recorded. -/
theorem Prepared.due (h : Prepared m) (slot : Slot) :
    ∀ s ∈ (m.untilSlot.takeDue slot).2, (m.ledger.get s).indexed.isSome = true := by
  rw [(h.filed.takeDue_eq slot).2]
  exact fun s hs => (h.early s (List.mem_of_mem_filter hs)).1

theorem keeps_prepared (c : JudgeConfig) :
    Keeps (Judge.shared c) (fun _ => True) Prepared where
  attestation features m s _ h := by
    show Prepared (m.onAttestation (Judge.processor c) features s).value.1
    obtain ⟨hgrows, hqueue | ⟨hqueue, hcomplete⟩, -⟩ := onAttestation_complete c features m s
    · exact ⟨hqueue ▸ h.filed, fun s' hs' => (hgrows s').complete (h.early s' (hqueue ▸ hs'))⟩
    · refine ⟨hqueue ▸ h.filed.add s, fun s' hs' => ?_⟩
      rw [hqueue] at hs'
      rcases List.mem_cons.mp ((m.untilSlot.waiting_add s).mem_iff.mp hs') with rfl | hold
      · exact hcomplete
      · exact (hgrows s').complete (h.early s' hold)
  taken m root h := ⟨fun _ _ _ => trivial, h.filed, h.early⟩
  slot m slot _ h := by
    show Prepared (m.onSlot c.preset (Judge.processor c) slot).value
    have hgrows := onSlot_grows c m slot
    obtain ⟨metrics, hvalue⟩ := m.onSlot_value (Judge.processor c) c.preset slot
    rw [hvalue] at hgrows ⊢
    refine ⟨h.filed.takeDue slot, fun s hs => ?_⟩
    exact (hgrows s).complete (h.early s (h.filed.mem_waiting_takeDue.mp hs).1)
  pool m call _ h := ⟨h.filed, h.early⟩
  meanwhile m e _ h := ⟨h.filed, h.early⟩

/-- What is in the pool has its voters and a seed recorded, if nobody else
fills it. -/
theorem keeps_pooled (c : JudgeConfig) :
    Keeps (Judge.shared c) (fun call => call.fillsPool = false)
      fun m => ∀ s ∈ m.pool.stored, (m.ledger.get s).Complete where
  attestation features m s _ h := by
    show ∀ s' ∈ (m.onAttestation (Judge.processor c) features s).value.1.pool.stored,
      ((m.onAttestation (Judge.processor c) features s).value.1.ledger.get s').Complete
    obtain ⟨hgrows, -, hpool | ⟨⟨facts, hpool⟩, hcomplete⟩⟩ := onAttestation_complete c features m s
    · exact fun s' hs' => (hgrows s').complete (h s' (hpool ▸ hs'))
    · intro s' hs'
      rw [hpool] at hs'
      rcases Pool.mem_stored_call hs' with hold | ⟨_, hnew⟩
      · exact (hgrows s').complete (h s' hold)
      · injection hnew with hnew
        exact hnew ▸ hcomplete
  taken m root h := ⟨fun _ _ _ => rfl, h⟩
  slot m slot _ h := by
    show ∀ s ∈ (m.onSlot c.preset (Judge.processor c) slot).value.pool.stored,
      ((m.onSlot c.preset (Judge.processor c) slot).value.ledger.get s).Complete
    have hgrows := onSlot_grows c m slot
    obtain ⟨metrics, hvalue⟩ := m.onSlot_value (Judge.processor c) c.preset slot
    rw [hvalue] at hgrows ⊢
    intro s hs
    rcases Pool.mem_stored_call hs with hold | ⟨_, hnew⟩
    · exact (hgrows s).complete (h s hold)
    · cases hnew
  pool m call hcall h s hs := by
    rcases Pool.mem_stored_call hs with hold | ⟨_, rfl⟩
    · exact h s hold
    · cases hcall
  meanwhile m e _ h := h

/-- Where everything is prepared, no fact is missing. -/
theorem Prepared.noGap (h : Prepared m) (c : JudgeConfig) (call : Call Judge.Use) :
    ∀ n ∈ m.notes (Judge.shared c) call, n.isGap = false := by
  cases call with
  | attestation features s => exact noGap_onAttestation c features m s
  | blockImported features root => exact noGap_onBlockImported c features m root
  | slot slot => exact noGap_onSlot c.preset Judge.noGap_apply (h.due slot)
  | pool call => exact fun n hn => absurd hn List.not_mem_nil
  | meanwhile e => exact fun n hn => absurd hn List.not_mem_nil

theorem Fresh.prepared (h : Fresh m) : Prepared m := by
  refine ⟨h.untilSlot ▸ SlotQueue.sound_empty, fun s hs => ?_⟩
  rw [h.untilSlot] at hs
  exact absurd hs List.not_mem_nil

-- ================================================================= runs

/-- What waits for its slot and what is in the pool has its voters and a
seed recorded, if nobody else fills the pool. So a manager never has to
note that voters are missing, or that the pool refuses a submission, and
what is said to be applied has been applied to the store: the votes of
all recorded voters are there, but for those who had later ones. -/
theorem complete_after (c : JudgeConfig) (start : Manager Judge) (hstart : Fresh start)
    (occasions : List (Occasion Judge.StateSource Judge.Use))
    (hcalls : ∀ o ∈ occasions, o.call.fillsPool = false) :
    let m := afterAll (Judge.sharedAt c) start occasions
    (∀ s ∈ m.untilSlot.waiting, (m.ledger.get s).Complete)
    ∧ (∀ s ∈ m.pool.stored, (m.ledger.get s).Complete)
    ∧ (∀ stateAt, ∀ call : Call Judge.Use, ∀ n ∈ m.notes (Judge.sharedAt c stateAt) call,
        (∀ dataRoot, n ≠ .votersMissing dataRoot) ∧ ∀ reason, n ≠ .poolRefused reason)
    ∧ ∀ stateAt features j j' s facts facts',
        ((Judge.processorAt c stateAt).process features j s facts).value
            = (j', facts', .successful) →
          ∃ a, facts'.indexed = some a ∧ (facts.indexed = none → a.data = s.data)
            ∧ j' = { j with store := (j.store.onAttestation a).value }
            ∧ VoteTable.Voted a.data.beaconBlockRoot a.data.target.epoch a.indices
                j.store.votes j'.store.votes := by
  intro m
  have hprepared : Prepared m := keeps_afterAll
    (fun stateAt => keeps_prepared { c with stateAt }) hstart.prepared fun _ _ => trivial
  have hpooled : ∀ s ∈ m.pool.stored, (m.ledger.get s).Complete := by
    refine keeps_afterAll (I := fun m : Manager Judge =>
      ∀ s ∈ m.pool.stored, (m.ledger.get s).Complete)
      (fun stateAt => keeps_pooled { c with stateAt }) (fun s hs => ?_) hcalls
    obtain ⟨retentionEpochs, hpool⟩ := hstart.pool
    rw [hpool] at hs
    exact absurd hs List.not_mem_nil
  refine ⟨hprepared.early, hpooled, fun stateAt call n hn =>
    Note.isGap_eq_false_iff.mp (hprepared.noGap { c with stateAt } call n hn),
    fun stateAt features j j' s facts facts' hprocess => ?_⟩
  obtain ⟨a, hrecorded, hdata, rfl⟩ := Judge.applied_process (c := { c with stateAt }) hprocess
  exact ⟨a, hrecorded, hdata, rfl, VoteTable.voted_recordAll j.store.votes _ _ a.indices⟩

/-- One vote is applied, and another one is early. -/
def twoVotes : List (Occasion Judge.StateSource Judge.Use) :=
  seen (.attestation {} (plainVote 1 2 firstBlock.hashTreeRoot))
    :: seen (.attestation {} (plainVote 0 1 firstBlock.hashTreeRoot)) :: prelude.map seen

/-- Both votes are in the pool, and when its slot is over the early one is
applied without a gap, also while no state can be looked up. -/
theorem complete_after_twoVotes :
    let vote := plainVote 0 1 firstBlock.hashTreeRoot
    let early := plainVote 1 2 firstBlock.hashTreeRoot
    let m := afterAll (Judge.sharedAt plainJudge) plainStart twoVotes
    let notes := m.notes (Judge.sharedAt plainJudge unseen) (.slot 3)
    let judged := ((Judge.processorAt plainJudge plainJudge.stateAt).process {} m.processor
      vote {}).value
    (m.untilSlot.waiting = [early] ∧ vote ∈ m.pool.stored ∧ early ∈ m.pool.stored
        ∧ .applyingDue 1 3 ∈ notes ∧ judged.2.2 = .successful)
      ∧ (m.ledger.get early).Complete ∧ (m.ledger.get vote).Complete
        ∧ (∀ n ∈ notes, (∀ dataRoot, n ≠ .votersMissing dataRoot)
          ∧ ∀ reason, n ≠ .poolRefused reason)
        ∧ ∃ a, judged.2.1.indexed = some a ∧ a.data = vote.data
          ∧ judged.1 = { m.processor with store := (m.processor.store.onAttestation a).value }
          ∧ VoteTable.Voted a.data.beaconBlockRoot a.data.target.epoch a.indices
              m.processor.store.votes judged.1.store.votes := by
  refine (and_iff_left_of_imp fun ⟨hwaiting, hvote, _, _, hsuccessful⟩ => ?_).mpr
    (by decide +kernel)
  have h := complete_after plainJudge plainStart fresh_plainStart twoVotes (by decide)
  have htriple {x : Judge × Facts × Verdict} (hx : x.2.2 = .successful) :
      x = (x.1, x.2.1, .successful) := Prod.ext rfl (Prod.ext rfl hx)
  refine ⟨h.1 _ ?_, h.2.1 _ hvote, h.2.2.1 unseen (.slot 3), ?_⟩
  · rw [hwaiting]
    exact List.mem_singleton_self _
  · obtain ⟨a, hrecorded, hdata, happlied⟩ := h.2.2.2 plainJudge.stateAt {} _ _
      (plainVote 0 1 firstBlock.hashTreeRoot) {} _ (htriple hsuccessful)
    exact ⟨a, hrecorded, hdata rfl, happlied⟩

end Manager

end ChainHead
