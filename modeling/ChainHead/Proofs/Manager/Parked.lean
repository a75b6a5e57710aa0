/-
What waits for a block waits for one that is missing.

Nothing is put into the queue for a block that the store has, so an
entry can only be overtaken by its block. That takes an addition to the
store, and when the addition is reported the entry is taken out; handed
in again, it may end up behind the other block it depends on, if that is
missing. `Parked` is the invariant of this: an entry whose block has
arrived is one whose block was not reported yet. It holds in every run,
however late blocks are reported, whatever is evicted and whatever the
store drops (`parked_after`).

An entry waits for its own target or head, and so equal attestations
find each other: a second one is turned away at the door.
-/
import ChainHead.Proofs.Manager.Verdicts
import ChainHead.Proofs.Queue.Index
import ChainHead.Proofs.Store.Known
import ChainHead.Proofs.Verification

namespace ChainHead

open BlockQueue (Restriction)

variable {q q' : BlockQueue} {known known' : Root → Prop} {late late' : List Root}
variable {root : Root} {s : Submission}

-- =========================================================== invariant

/-- What holds of a queue whose submissions wait for blocks, where some
blocks are known and for some of these that is not reported yet. -/
structure Parked (known : Root → Prop) (late : List Root) (q : BlockQueue) : Prop where
  sound : q.Sound
  /-- A block that is waited for is missing, or it was not reported yet. -/
  awaited : ∀ (t : Ticket) (w : Waiting), q.entries[t]? = some w →
    known w.blockRoot → w.blockRoot ∈ late
  /-- It is one that the submission depends on. -/
  own : ∀ (t : Ticket) (w : Waiting), q.entries[t]? = some w →
    w.blockRoot = w.submission.data.target.root
      ∨ w.blockRoot = w.submission.data.beaconBlockRoot
  /-- No two submissions are equal attestations. -/
  apart : ∀ (t t' : Ticket) (w w' : Waiting), q.entries[t]? = some w →
    q.entries[t']? = some w' → w.submission.attestation = w'.submission.attestation → t = t'

namespace Parked

theorem empty (known : Root → Prop) (late : List Root) (capacity : Nat) (retention : UInt64) :
    Parked known late { capacity, retention } where
  sound := .empty capacity retention
  awaited t w h := by simp at h
  own t w h := by simp at h
  apart t t' w w' h := by simp at h

/-- More may become known, as long as it is noted that it was not
reported. -/
theorem learn (h : Parked known late q) (hlate : ∀ root ∈ late, root ∈ late')
    (hknown : ∀ root, known' root → known root ∨ root ∈ late') : Parked known' late' q where
  sound := h.sound
  awaited t w hw hin := by
    rcases hknown _ hin with hin | hin
    · exact hlate _ (h.awaited t w hw hin)
    · exact hin
  own := h.own
  apart := h.apart

/-- What is left of a queue is as it was. -/
theorem restrict {keep : Ticket → Waiting → Bool} (h : Parked known late q)
    (r : Restriction keep q q') : Parked known late q' where
  sound := r.sound h.sound
  awaited t w hw := h.awaited t w ((r.kept t w).mp hw).1
  own t w hw := h.own t w ((r.kept t w).mp hw).1
  apart t t' w w' hw hw' := h.apart t t' w w' ((r.kept t w).mp hw).1 ((r.kept t' w').mp hw').1

/-- When a block is reported nothing waits for it any more. -/
theorem take (h : Parked known late q) (root : Root) :
    Parked known (late.filter (· ≠ root)) (q.take root).1 := by
  have hr := h.sound.take root
  refine { h.restrict hr with awaited := fun t w hw hin => ?_ }
  obtain ⟨hold, hother⟩ := (hr.kept t w).mp hw
  exact List.mem_filter.mpr ⟨h.awaited t w hold hin, hother⟩

/-- What is added waits for a missing block, and nothing waits that is
equal to it. -/
theorem add (h : Parked known late q) (hmissing : ¬known root)
    (hown : root = s.data.target.root ∨ root = s.data.beaconBlockRoot) :
    Parked known late (q.add root s).value := by
  -- an equal attestation would have been found
  have hfound : ∀ (t : Ticket) (w : Waiting), q.entries[t]? = some w →
      q.contains s.attestation = false → w.submission.attestation ≠ s.attestation := by
    intro t w hw hnone hequal
    have hdata : w.submission.data = s.attestation.data := congrArg Attestation.data hequal
    have hroot := h.own t w hw
    rw [hdata] at hroot
    rw [(h.sound.contains_iff _).mpr ⟨t, w, hw, hequal, hroot.symm⟩] at hnone
    cases hnone
  refine ⟨h.sound.add root s, fun t w hw hin => ?_, fun t w hw => ?_,
    fun t t' w w' hw hw' hequal => ?_⟩
  · rcases h.sound.entries_add hw with hold | ⟨-, -, rfl⟩
    · exact h.awaited t w hold hin
    · exact absurd hin hmissing
  · rcases h.sound.entries_add hw with hold | ⟨-, -, rfl⟩
    · exact h.own t w hold
    · exact hown
  · rcases h.sound.entries_add hw with hold | ⟨hnone, ht, rfl⟩
    · rcases h.sound.entries_add hw' with hold' | ⟨hnone, -, rfl⟩
      · exact h.apart t t' w w' hold hold' hequal
      · exact absurd hequal (hfound t w hold hnone)
    · rcases h.sound.entries_add hw' with hold' | ⟨-, ht', -⟩
      · exact absurd hequal.symm (hfound t' w' hold' hnone)
      · rw [ht, ht']

end Parked

-- ============================================================== manager

namespace Manager

variable {c : JudgeConfig} {m : Manager Judge}

theorem knows_congr {m' : Manager Judge}
    (h : m'.processor.store.tree = m.processor.store.tree) : m'.knows = m.knows := by
  funext root
  unfold knows
  rw [h]

/-- A verdict that does not name a known block may be acted on. -/
theorem parked_queueAfter (h : Parked known late q) (features : Features) (v : Verdict)
    (hmissing : ∀ root, v = .unknownBlock root →
      (root = s.data.target.root ∨ root = s.data.beaconBlockRoot) ∧ ¬known root) :
    Parked known late (queueAfter features s q v) := by
  cases v with
  | unknownBlock root =>
      obtain ⟨hown, hmissing⟩ := hmissing root rfl
      unfold queueAfter
      dsimp only
      split
      case isTrue => exact h
      case isFalse => exact h.add hmissing hown
  | successful => exact h
  | savedForFuture => exact h
  | invalid reason => exact h

theorem parked_onAttestation (h : Parked m.knows late m.untilBlock) (features : Features)
    (s : Submission) :
    let m' := (m.onAttestation (Judge.processor c) features s).value.1
    Parked m'.knows late m'.untilBlock := by
  intro m'
  rcases onAttestation_cases (Judge.processor c) features m s c.preset with
    heq | ⟨j, facts, v, metrics, hprocess, heq⟩
  · have hsame : m' = m := congrArg Prod.fst heq
    rw [hsame]
    exact h
  · have hm' : m' = _ := congrArg Prod.fst heq
    have htree : m'.processor.store.tree = m.processor.store.tree := by
      have hkept := Judge.tree_process c features m.processor s (m.ledger.get s)
      change (Judge.process c features m.processor s (m.ledger.get s)).value = _ at hprocess
      rw [hprocess] at hkept
      rw [hm']
      exact hkept
    rw [knows_congr htree, hm']
    apply parked_queueAfter h
    rintro root rfl
    have hverdict := congrArg (·.2.2) hprocess
    obtain ⟨hown, hmissing⟩ := Judge.missingBlock?_eq_some (Judge.process_unknownBlock hverdict)
    exact ⟨hown, ne_true_of_eq_false hmissing⟩

theorem parked_retry (h : Parked m.knows late m.untilBlock) (features : Features)
    (ss : List Submission) :
    let m' := (retry (Judge.processor c) features m ss).value
    Parked m'.knows late m'.untilBlock := by
  induction ss generalizing m with
  | nil => exact h
  | cons s rest ih => exact ih (parked_onAttestation h features s)

theorem parked_onBlockImported (h : Parked m.knows late m.untilBlock) (features : Features)
    (root : Root) :
    let m' := (m.onBlockImported (Judge.processor c) features root).value
    Parked m'.knows (late.filter (· ≠ root)) m'.untilBlock := by
  intro m'
  have hm' : m' = _ := onBlockImported_value (Judge.processor c) features m root
  rw [hm']
  exact parked_retry (h.take root) features _

theorem parked_onSlot (h : Parked m.knows late m.untilBlock) (slot : Slot) :
    let m' := (m.onSlot c.preset (Judge.processor c) slot).value
    Parked m'.knows late m'.untilBlock := by
  intro m'
  obtain ⟨metrics, honSlot⟩ := onSlot_value (Judge.processor c) m c.preset slot
  have hm' : m' = _ := honSlot
  have htree : m'.processor.store.tree = m.processor.store.tree := by
    rw [hm']
    exact Judge.tree_applied c m.ledger (m.processor.onSlot slot) (m.untilSlot.takeDue slot).2
  rw [knows_congr htree, hm']
  exact h.restrict (h.sound.prune slot)

theorem parked_meanwhile (h : Parked m.knows late m.untilBlock) (e : Store.Call) :
    let m' := m.call (Judge.setting c) (.meanwhile e)
    Parked m'.knows (m.news e ++ late) m'.untilBlock := by
  refine h.learn (fun root hin => List.mem_append_right _ hin) fun root hin => ?_
  rcases Store.contains_call hin with hold | ⟨b, justified, finalized, rfl, rfl⟩
  · exact .inl hold
  · by_cases hknown : m.knows b.hashTreeRoot
    · exact .inl hknown
    · refine .inr (List.mem_append_left _ ?_)
      rw [news, if_neg hknown]
      exact List.mem_singleton_self _

/-- In every run, what waits for a block that the store has waits for one
that was not reported yet. -/
theorem parked_after (c : JudgeConfig) (m : Manager Judge) (capacity : Nat) (retention : UInt64)
    (occasions : List (Occasion Judge.StateSource Store.Call)) :
    let start := m.withQueue capacity retention
    let m' := afterAll (Judge.settingAt c) start occasions
    Parked m'.knows (unreported c start occasions) m'.untilBlock := by
  intro start
  induction occasions with
  | nil => exact Parked.empty _ _ capacity retention
  | cons o earlier ih =>
      obtain ⟨stateAt, call⟩ := o
      cases call with
      | attestation features s => exact parked_onAttestation ih features s
      | blockImported features root => exact parked_onBlockImported ih features root
      | slot slot => exact parked_onSlot ih slot
      | pool call => exact ih
      | meanwhile e => exact parked_meanwhile ih e

/-- When every block that the store took in was reported, nothing waits
for a block that the store has, wherever states were looked up. What is
waited for is the target or the head of the submission, and no two
submissions that wait are equal attestations. -/
theorem nothing_parked (c : JudgeConfig) (m : Manager Judge) (capacity : Nat)
    (retention : UInt64) (occasions : List (Occasion Judge.StateSource Store.Call))
    (hreported : unreported c (m.withQueue capacity retention) occasions = []) :
    let m' := afterAll (Judge.settingAt c) (m.withQueue capacity retention) occasions
    (∀ (t : Ticket) (w : Waiting), m'.untilBlock.entries[t]? = some w →
        ¬m'.knows w.blockRoot
          ∧ (w.blockRoot = w.submission.data.target.root
            ∨ w.blockRoot = w.submission.data.beaconBlockRoot))
      ∧ ∀ (t t' : Ticket) (w w' : Waiting), m'.untilBlock.entries[t]? = some w →
        m'.untilBlock.entries[t']? = some w' →
        w.submission.attestation = w'.submission.attestation → t = t' := by
  intro m'
  have hparked := parked_after c m capacity retention occasions
  refine ⟨fun t w hw => ⟨fun hknown => ?_, hparked.own t w hw⟩, hparked.apart⟩
  have hlate := hparked.awaited t w hw hknown
  rw [hreported] at hlate
  exact List.not_mem_nil hlate

-- ============================================================ a report

/-- A judge that signs nothing off. -/
def strictJudge : JudgeConfig where
  preset := .minimal
  scheme := .product
  maxFutureSlots := 0
  stateAt _ := .error "no state"

/-- A vote arrives for a target and a head that are both missing; then
comes the target, which is reported while states cannot be looked up, and
a head is looked for. -/
def visit : List (Occasion Judge.StateSource Store.Call) :=
  let target : BeaconBlock := {}
  let head : BeaconBlock := { slot := 1, parentRoot := target.hashTreeRoot }
  let vote : Submission :=
    { id := 0, attestation :=
      { bits := ⟨3, [0b001]⟩, data :=
        { slot := 1
          beaconBlockRoot := head.hashTreeRoot
          target := { root := target.hashTreeRoot } } } }
  [⟨strictJudge.stateAt, .meanwhile (.head {} (.halving 1))⟩,
    ⟨fun _ => .error "out of reach", .blockImported {} target.hashTreeRoot⟩,
    ⟨strictJudge.stateAt, .meanwhile (.block target {} {})⟩,
    ⟨strictJudge.stateAt, .attestation {} vote⟩,
    ⟨strictJudge.stateAt, .slot 1⟩]

/-- The vote was handed in again when the target was reported, and waits
for the head since. -/
theorem nothing_parked_visit :
    let start : Manager Judge := {
      processor := { store := .empty {} {} 256 }
      pool := { retentionEpochs := 2 }
      untilBlock := { capacity := 1, retention := 32 } }
    let m' := afterAll (Judge.settingAt strictJudge) (start.withQueue 1 32) visit
    (unreported strictJudge (start.withQueue 1 32) visit = []
        ∧ m'.processor.store.tree.size = 1
        ∧ (m'.untilBlock.entries.toList.map fun e => e.2.blockRoot)
          = [({ slot := 1, parentRoot := ({} : BeaconBlock).hashTreeRoot } :
              BeaconBlock).hashTreeRoot])
      ∧ (∀ (t : Ticket) (w : Waiting), m'.untilBlock.entries[t]? = some w →
          ¬m'.knows w.blockRoot
            ∧ (w.blockRoot = w.submission.data.target.root
              ∨ w.blockRoot = w.submission.data.beaconBlockRoot))
        ∧ ∀ (t t' : Ticket) (w w' : Waiting), m'.untilBlock.entries[t]? = some w →
          m'.untilBlock.entries[t']? = some w' →
          w.submission.attestation = w'.submission.attestation → t = t' := by
  refine (and_iff_left_of_imp fun hseen =>
    nothing_parked strictJudge _ 1 32 visit hseen.1).mpr ?_
  decide +kernel

end Manager

end ChainHead
