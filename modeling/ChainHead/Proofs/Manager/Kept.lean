/-
What a manager keeps over runs.

Whatever is asked of a manager, it does one of five things: it takes in
a submission, takes some out of the queue for blocks in order to take
them in again, follows the clock, or stands by while its pool or its
processor is used by others. `Keeps` says that a property survives each
of these, and then it survives every run (`Keeps.after`), also one in
which conditions change (`keeps_afterAll`). The calls may be restricted
to a kind; what comes out of the queue has to be such that handing it in
is of that kind as well.

Two properties are kept by every manager. What is in the queue and what
went through the pool was handed in (`Supplied`). And what a processor
keeps about its state, its manager keeps (`keeps_processor`); for a judge
that is the soundness of the tree.
-/
import ChainHead.Proofs.Manager.Verdicts
import ChainHead.Proofs.Pool.Packing
import ChainHead.Proofs.Queue.Index
import ChainHead.Proofs.Store.Calls
import ChainHead.Proofs.Verification

namespace ChainHead.Manager

variable {σ ε κ : Type} {w : Setting σ ε} {C : Call ε → Prop} {I : Manager σ → Prop}
variable {S : Submission → Prop} {m start : Manager σ} {s : Submission}
variable {preset : Preset} {retentionEpochs : UInt64}

-- ========================================================= what is kept

/-- What is handed in with a call, to a manager or to its pool. -/
def Call.handsIn : Call ε → List Submission
  | .attestation _ s => [s]
  | .pool (.add s _) => [s]
  | _ => []

/-- Whether nothing is taken out of the pool with a call, but for what is
too old when a slot begins for the manager. -/
def Call.spares : Call ε → Bool
  | .pool (.add _ _) => true
  | .pool _ => false
  | _ => true

/-- All that was handed in during a run. -/
def handedIn (calls : List (Call ε)) : List Submission :=
  calls.flatMap Call.handsIn

/-- Whether the data that are handed in are told apart by their roots. -/
def Distinct (calls : List (Call ε)) : Prop :=
  ∀ s ∈ handedIn calls, ∀ s' ∈ handedIn calls, s.dataRoot = s'.dataRoot → s.data = s'.data

instance (calls : List (Call ε)) : Decidable (Distinct calls) :=
  inferInstanceAs (Decidable (∀ s ∈ handedIn calls, ∀ s' ∈ handedIn calls,
    s.dataRoot = s'.dataRoot → s.data = s'.data))

theorem distinct_of_data {calls : List (Call ε)} {d : AttestationData}
    (h : ∀ s ∈ handedIn calls, s.data = d) : Distinct calls :=
  fun s hs s' hs' _ => (h s hs).trans (h s' hs').symm

/-- Whether a property survives calls of one kind, and whatever a manager
does on its own. -/
structure Keeps (w : Setting σ ε) (C : Call ε → Prop) (I : Manager σ → Prop) : Prop where
  attestation : ∀ features m s, C (.attestation features s) → I m →
    I (m.onAttestation w.processor features s).value.1
  taken : ∀ m root, I m →
    (∀ s ∈ (m.untilBlock.take root).2, ∀ features, C (.attestation features s))
      ∧ I ({ m with untilBlock := (m.untilBlock.take root).1 } : Manager σ).updateMetrics
  slot : ∀ m slot, C (.slot slot) → I m → I (m.onSlot w.preset w.processor slot).value
  pool : ∀ m c, C (.pool c) → I m → I { m with pool := m.pool.call w.preset c }
  meanwhile : ∀ m e, C (.meanwhile e) → I m → I { m with processor := w.meanwhile m.processor e }

namespace Keeps

theorem retry (h : Keeps w C I) (features : Features) {ss : List Submission}
    (hs : ∀ s ∈ ss, C (.attestation features s)) (hm : I m) :
    I (retry w.processor features m ss).value := by
  induction ss generalizing m with
  | nil => exact hm
  | cons s rest ih =>
      obtain ⟨hone, hrest⟩ := List.forall_mem_cons.mp hs
      exact ih hrest (h.attestation features m s hone hm)

theorem call (h : Keeps w C I) {c : Call ε} (hc : C c) (hm : I m) : I (m.call w c) := by
  cases c with
  | attestation features s => exact h.attestation features m s hc hm
  | blockImported features root =>
      obtain ⟨hs, htaken⟩ := h.taken m root hm
      show I (m.onBlockImported w.processor features root).value
      rw [onBlockImported_value]
      exact h.retry features (fun s hin => hs s hin features) htaken
  | slot slot => exact h.slot m slot hc hm
  | pool c => exact h.pool m c hc hm
  | meanwhile e => exact h.meanwhile m e hc hm

/-- What survives every call survives every run. -/
theorem after (h : Keeps w C I) (hstart : I start) {calls : List (Call ε)}
    (hcalls : ∀ c ∈ calls, C c) : I (after w start calls) := by
  induction calls with
  | nil => exact hstart
  | cons c earlier ih =>
      obtain ⟨hc, hearlier⟩ := List.forall_mem_cons.mp hcalls
      exact h.call hc (ih hearlier)

end Keeps

/-- What survives every call under all conditions survives every run in
which they change. -/
theorem keeps_afterAll {w : κ → Setting σ ε} (h : ∀ k, Keeps (w k) C I) (hstart : I start)
    {occasions : List (Occasion κ ε)} (hcalls : ∀ o ∈ occasions, C o.call) :
    I (afterAll w start occasions) := by
  induction occasions with
  | nil => exact hstart
  | cons o earlier ih =>
      obtain ⟨ho, hearlier⟩ := List.forall_mem_cons.mp hcalls
      exact (h o.conditions).call ho (ih hearlier)

-- ===================================================== what was handed in

/-- Whether what waits for blocks and what went through the pool are
submissions of one kind, and the queue agrees with its index. -/
structure Supplied (preset : Preset) (retentionEpochs : UInt64) (S : Submission → Prop)
    (m : Manager σ) : Prop where
  sound : m.untilBlock.Sound
  waiting : ∀ (t : Ticket) (w : Waiting), m.untilBlock.entries[t]? = some w → S w.submission
  pool : ∃ calls, m.pool = Pool.after preset { retentionEpochs } calls
    ∧ ∀ s facts, (s, facts) ∈ Pool.handedIn calls → S s

namespace Supplied

/-- What happens to the processor, the facts and the network does not
matter. -/
theorem congr {m' : Manager σ} (h : Supplied preset retentionEpochs S m)
    (hpool : m'.pool = m.pool) (huntilBlock : m'.untilBlock = m.untilBlock) :
    Supplied preset retentionEpochs S m' where
  sound := huntilBlock ▸ h.sound
  waiting := huntilBlock ▸ h.waiting
  pool := hpool ▸ h.pool

theorem pool_call (h : Supplied preset retentionEpochs S m) {c : Pool.Call}
    (hc : ∀ s facts, c = .add s facts → S s) :
    Supplied preset retentionEpochs S { m with pool := m.pool.call preset c } where
  sound := h.sound
  waiting := h.waiting
  pool := by
    obtain ⟨calls, hpool, hS⟩ := h.pool
    refine ⟨c :: calls, congrArg (·.call preset c) hpool, fun s facts hin => ?_⟩
    rcases Pool.mem_handedIn_cons.mp hin with hnew | hold
    · cases c with
      | add s' facts' =>
          obtain ⟨rfl, rfl⟩ := Prod.mk.inj (List.mem_singleton.mp hnew)
          exact hc s facts rfl
      | remove a => exact absurd hnew List.not_mem_nil
      | removeAll as => exact absurd hnew List.not_mem_nil
      | slot slot => exact absurd hnew List.not_mem_nil
    · exact hS s facts hold

theorem restrict (h : Supplied preset retentionEpochs S m) {keep : Ticket → Waiting → Bool}
    {q : BlockQueue} (r : BlockQueue.Restriction keep m.untilBlock q) :
    Supplied preset retentionEpochs S { m with untilBlock := q } where
  sound := r.sound h.sound
  waiting t w hw := h.waiting t w ((r.kept t w).mp hw).1
  pool := h.pool

theorem add (h : Supplied preset retentionEpochs S m) (root : Root) (hs : S s) :
    Supplied preset retentionEpochs S { m with untilBlock := (m.untilBlock.add root s).value } where
  sound := h.sound.add root s
  waiting t w hw := by
    rcases h.sound.entries_add hw with hold | ⟨-, -, rfl⟩
    · exact h.waiting t w hold
    · exact hs
  pool := h.pool

/-- A verdict adds nothing but the submission. -/
theorem judged (h : Supplied preset retentionEpochs S m) (features : Features) (hs : S s)
    (facts : Facts) (v : Verdict) : Supplied preset retentionEpochs S { m with
      pool := poolAfter features s preset m.pool facts v
      untilBlock := queueAfter features s m.untilBlock v } := by
  have hadd : Supplied preset retentionEpochs S
      { m with pool := m.pool.call preset (.add s facts) } :=
    h.pool_call fun s' facts heq => by
      injection heq with heq
      exact heq ▸ hs
  cases v with
  | successful => exact hadd
  | unknownBlock root =>
      unfold poolAfter queueAfter
      dsimp only
      split
      case isTrue => exact h
      case isFalse => exact h.add root hs
  | savedForFuture =>
      unfold poolAfter queueAfter
      dsimp only
      split
      case isTrue => exact h
      case isFalse => exact hadd
  | invalid reason => exact h

/-- If the data of all that was handed in are told apart by their roots,
the pool is tidy, and what would join a group has its data. -/
theorem tidy (h : Supplied preset retentionEpochs S m)
    (hdistinct : ∀ s s', S s → S s' → s.dataRoot = s'.dataRoot → s.data = s'.data) :
    m.pool.Tidy ∧ ∀ s, S s → ∀ g : Group, m.pool.groups[s.dataRoot]? = some g →
      g.data = s.data := by
  obtain ⟨calls, hpool, hS⟩ := h.pool
  have hoffered : ∀ d ∈ Pool.offered calls, ∃ s, S s ∧ s.data = d := by
    intro d hd
    obtain ⟨c, hc, hdata⟩ := List.mem_filterMap.mp hd
    cases c with
    | add s facts =>
        exact ⟨s, hS s facts (List.mem_filterMap.mpr ⟨.add s facts, hc, rfl⟩),
          Option.some.inj hdata⟩
    | remove a => cases hdata
    | removeAll as => cases hdata
    | slot slot => cases hdata
  have hrun : Pool.Distinct calls := by
    intro d hd d' hd' hroot
    obtain ⟨s, hs, rfl⟩ := hoffered d hd
    obtain ⟨s', hs', rfl⟩ := hoffered d' hd'
    exact hdistinct s s' hs hs' hroot
  obtain ⟨htidy, hstored⟩ := Pool.tidy_run preset retentionEpochs hrun
  rw [← hpool] at htidy hstored
  refine ⟨htidy, fun s hs g hg => ?_⟩
  -- the group has a member, which was handed in
  have hkeyed := htidy.group _ g hg
  obtain ⟨member, hmember⟩ := List.exists_mem_of_ne_nil _ hkeyed.inhabited
  obtain ⟨s', hs', hdata⟩ := hoffered _ (hstored member (Pool.mem_storedIn.mpr ⟨_, g, hg, hmember⟩))
  rw [hkeyed.data member hmember] at hdata
  rw [← hdata]
  refine hdistinct s' s hs' hs ?_
  rw [Submission.dataRoot, hdata, hkeyed.root]

end Supplied

theorem keeps_supplied (w : Setting σ ε) (retentionEpochs : UInt64) (S : Submission → Prop) :
    Keeps w (fun c => ∀ s ∈ c.handsIn, S s) (Supplied w.preset retentionEpochs S) where
  attestation features m s hs h := by
    rcases onAttestation_cases w.processor features m s w.preset with
      heq | ⟨state, facts, v, metrics, -, heq⟩
    · rw [heq]
      exact h
    · rw [heq]
      exact (h.judged features (hs s List.mem_cons_self) facts v).congr rfl rfl
  taken m root h := by
    refine ⟨fun s hin features => ?_, (h.restrict (h.sound.take root)).congr rfl rfl⟩
    obtain ⟨t, w, hw, rfl⟩ := BlockQueue.exists_entry_of_mem_take hin
    exact List.forall_mem_singleton.mpr (h.waiting t w hw)
  slot m slot _ h := by
    obtain ⟨metrics, hvalue⟩ := m.onSlot_value w.processor w.preset slot
    rw [hvalue]
    refine ((h.restrict (h.sound.prune slot)).pool_call (c := .slot slot) ?_).congr rfl rfl
    exact fun s facts heq => nomatch heq
  pool m c hc h := h.pool_call fun s facts heq => hc s (heq ▸ List.mem_cons_self)
  meanwhile m e _ h := h.congr rfl rfl

-- ======================================================== the processor

/-- What a processor keeps about its state, and its surroundings as well,
is kept by a manager. -/
theorem keeps_processor {P : σ → Prop} (w : Setting σ ε)
    (hprocess : ∀ features state s facts, P state →
      P (w.processor.process features state s facts).value.1)
    (happly : ∀ state indexed, P state → P (w.processor.apply state indexed).value)
    (hslot : ∀ state slot, P state → P (w.processor.onSlot state slot))
    (hmeanwhile : ∀ state e, P state → P (w.meanwhile state e)) :
    Keeps w (fun _ => True) fun m => P m.processor where
  attestation features m s _ h := by
    rcases onAttestation_cases w.processor features m s w.preset with
      heq | ⟨state, facts, v, metrics, hvalue, heq⟩
    · rw [heq]
      exact h
    · have hkept := hprocess features m.processor s (m.ledger.get s) h
      rw [hvalue] at hkept
      rw [heq]
      exact hkept
  taken m root h := ⟨fun _ _ _ => trivial, h⟩
  slot m slot _ h := by
    obtain ⟨metrics, hvalue⟩ := m.onSlot_value w.processor w.preset slot
    rw [hvalue]
    exact applied_kept happly (hslot m.processor slot h) _
  pool m c _ h := h
  meanwhile m e _ h := hmeanwhile m.processor e h

/-- The tree of a judge is sound at all times. -/
theorem keeps_tree (c : JudgeConfig) :
    Keeps (Judge.shared c) (fun _ => True) fun m => m.processor.store.tree.Sound := by
  refine keeps_processor (P := fun j : Judge => j.store.tree.Sound) _
    (fun features j s facts h => ?_) (fun j indexed h => h) (fun j slot h => h) fun j e h => ?_
  · have htree := Judge.tree_process c features j s facts
    show Tree.Sound (Judge.process c features j s facts).value.1.store.tree
    rw [htree]
    exact h
  · cases e with
    | store call => exact Store.sound_call h call
    | slot slot => exact h

-- ============================================================== a start

theorem Fresh.supplied {m : Manager Judge} (h : Fresh m) (preset : Preset)
    (S : Submission → Prop) : ∃ retentionEpochs, m.pool = { retentionEpochs }
      ∧ Supplied preset retentionEpochs S m := by
  obtain ⟨retentionEpochs, hpool⟩ := h.pool
  obtain ⟨capacity, retention, hqueue⟩ := h.untilBlock
  refine ⟨retentionEpochs, hpool, ?_, ?_, [], hpool, fun s facts hin => nomatch hin⟩
  · rw [hqueue]
    exact .empty capacity retention
  · rw [hqueue]
    intro t w hw
    simp at hw

/-- What was handed in during a run is what was handed in with its calls. -/
theorem Fresh.supplied_after {start : Manager Judge} (h : Fresh start) (w : Setting Judge ε)
    {calls : List (Call ε)} (hS : ∀ s ∈ handedIn calls, S s) :
    ∃ retentionEpochs, start.pool = { retentionEpochs }
      ∧ Supplied w.preset retentionEpochs S (after w start calls) := by
  obtain ⟨retentionEpochs, hpool, hstart⟩ := h.supplied w.preset S
  refine ⟨retentionEpochs, hpool, (keeps_supplied w retentionEpochs S).after hstart ?_⟩
  exact fun c hc s hs => hS s (List.mem_flatMap.mpr ⟨c, hc, hs⟩)

theorem Fresh.tree {m : Manager Judge} (h : Fresh m) : m.processor.store.tree.Sound := by
  obtain ⟨justified, finalized, pruneThreshold, hstore⟩ := h.store
  rw [hstore]
  exact Tree.sound_empty _ _ _

/-- A judge for whom the same two validators make up every committee,
with keys of zero that sign everything alike. -/
def plainJudge : JudgeConfig where
  preset := .minimal
  scheme := .product
  maxFutureSlots := 2
  stateAt _ := .ok {
    slot := 0
    fork := {}
    genesisValidatorsRoot := 0
    currentJustified := {}
    previousJustified := {}
    finalized := {}
    committeeCount := fun _ => 1
    committee := fun _ _ => some [0, 1]
    publicKey := fun _ => some 0
    shufflingSeed := fun _ => 0 }

/-- Where no state can be looked up. -/
def unseen : Judge.StateSource := fun _ => .error "out of reach"

/-- A call while states can be looked up. -/
def seen (call : Call ε) : Occasion Judge.StateSource ε :=
  ⟨plainJudge.stateAt, call⟩

/-- A manager to which nothing has happened. -/
def plainStart : Manager Judge where
  processor := { store := .empty {} {} 256 }
  pool := { retentionEpochs := 2 }
  untilBlock := { capacity := 2, retention := 32 }

theorem fresh_plainStart : Fresh plainStart :=
  ⟨⟨_, _, _, rfl⟩, ⟨_, rfl⟩, ⟨_, _, rfl⟩, rfl⟩

/-- The first block. -/
def firstBlock : BeaconBlock := {}

/-- A block on top of the first. -/
def secondBlock : BeaconBlock := { slot := 1, parentRoot := firstBlock.hashTreeRoot }

/-- The vote of the first member of a committee for a head. -/
def plainVote (id : Nat) (slot : Slot) (head : Root) : Submission :=
  { id, attestation :=
    { bits := ⟨2, [0b01]⟩
      data :=
        { slot
          beaconBlockRoot := head
          target := { epoch := Epoch.ofSlot .minimal slot, root := firstBlock.hashTreeRoot } }
      signature := BitVec.cons true 0 } }

/-- The first block arrives, and the second slot begins. -/
def prelude : List (Call Judge.Use) :=
  [.slot 2,
    .blockImported {} firstBlock.hashTreeRoot,
    .meanwhile (.store (.block firstBlock {} {}))]

end ChainHead.Manager
