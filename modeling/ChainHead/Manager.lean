/-
The manager: where submissions go.

A submission is put before the processor. What it accepts goes to the
pool and to the network; what depends on an unknown block waits for that
block and is put before the processor again when the block is imported;
what is valid too early goes to the pool and waits until its slot is
over, when its votes are applied and it is passed on. The rest is
rejected.

# The network

A submission is handed to the network at most once, which its facts
remember. `outbox` lists what was handed over, oldest first; whether
anybody takes it from there is up to the line. On a line that was cut a
note is made.
-/
import ChainHead.Manager.Processor
import ChainHead.Metrics
import ChainHead.Pool
import ChainHead.Queue.ByBlock
import ChainHead.Queue.BySlot

namespace ChainHead

-- =========================================================== network

/-- A submission to be published, with or without the mark of an aggregate. -/
inductive Message where
  | attestation (submission : Submission)
  | aggregate (submission : Submission)
  deriving DecidableEq, Repr

/-- The message that publishes a submission. -/
def Message.publish (s : Submission) : Message :=
  if s.isAggregate then .aggregate s else .attestation s

/-- Where messages go. -/
inductive Line where
  /-- Somebody takes them. -/
  | connected
  /-- Whoever took them has gone. -/
  | cut
  /-- They are dropped without notice. -/
  | muted
  deriving DecidableEq, Repr

-- =========================================================== manager

/-- The pool, the queues and the facts, around the state of a processor. -/
structure Manager (σ : Type) where
  processor : σ
  pool : Pool
  untilBlock : BlockQueue
  untilSlot : SlotQueue := {}
  ledger : Ledger := {}
  line : Line := .connected
  outbox : List Message := []
  metrics : ManagerMetrics := {}

namespace Manager

/-- The number of submissions that may usually wait for blocks. -/
def defaultCapacity : Nat := 10000

/-- The number of slots that a submission may usually wait for a block. -/
def defaultRetention : UInt64 := 32

variable {σ : Type}

/-- The manager with its gauges set. -/
def updateMetrics (m : Manager σ) : Manager σ :=
  { m with metrics := (m.metrics.setPending m.untilBlock.size).setFuture m.untilSlot.size }

/-- The manager with one more submission counted under a label. -/
def count (m : Manager σ) (label : String) : Manager σ :=
  { m with metrics := m.metrics.countOutcome label }

/-- Adds a submission to the pool, or notes why that is not possible. -/
def addToPool (m : Manager σ) (s : Submission) : Logged (Manager σ) :=
  match m.pool.add s (m.ledger.get s) with
  | .error e => do
    Logged.note (.poolRefused e.message)
    return m
  | .ok result => do
    let (pool, _) ← result
    return { m with pool }

/-- Hands a submission to the network, unless that was done before. -/
def gossip (m : Manager σ) (s : Submission) : Logged (Manager σ) :=
  let (ledger, fresh) := m.ledger.markGossiped s
  let m := { m with ledger }
  if fresh then do
    Logged.noteIf (m.line = .cut) .receiverGone
    return { m with outbox := m.outbox ++ [.publish s] }
  else pure m

/-- Acts on the verdict about a submission. -/
def follow (features : Features) (m : Manager σ) (s : Submission) :
    Verdict → Logged (Manager σ)
  | .successful => do
    Logged.note (.processed s.dataRoot)
    let m ← (m.count Verdict.successful.label).addToPool s
    m.gossip s
  | .unknownBlock root =>
    if features.has .ignoreAttestationsForUnknownBlocks then pure (m.count "ignored")
    else do
      Logged.note (.waitingForBlock root s.dataRoot)
      let m := m.count (Verdict.unknownBlock root).label
      let untilBlock ← m.untilBlock.add root s
      return { m with untilBlock }.updateMetrics
  | .savedForFuture =>
    if features.has .ignoreFutureAttestations then pure (m.count "ignored")
    else do
      Logged.note (.waitingForSlot s.data.slot s.dataRoot)
      let m ← (m.count Verdict.savedForFuture.label).addToPool s
      return { m with untilSlot := m.untilSlot.add s }.updateMetrics
  | .invalid reason => do
    Logged.note (.rejected reason.message s.dataRoot)
    return m.count (Verdict.invalid reason).label

/-- Takes in a submission and tells the verdict; one that waits for a block already keeps waiting. -/
def onAttestation (p : Processor σ) (features : Features) (m : Manager σ) (s : Submission) :
    Logged (Manager σ × Verdict) :=
  if m.untilBlock.contains s.attestation then do
    Logged.note (.alreadyWaiting s (m.ledger.get s))
    return (m, .unknownBlock s.data.beaconBlockRoot)
  else do
    let (processor, facts, verdict) ← p.process features m.processor s (m.ledger.get s)
    let m := { m with processor, ledger := m.ledger.put s facts }
    let m ← m.follow features s verdict
    return (m, verdict)

/-- Takes in submissions one after the other. -/
def retry (p : Processor σ) (features : Features) (m : Manager σ) :
    List Submission → Logged (Manager σ)
  | [] => pure m
  | s :: rest => do
    let (m, _) ← m.onAttestation p features s
    retry p features m rest

/-- Takes in again what waited for a block that was imported. -/
def onBlockImported (p : Processor σ) (features : Features) (m : Manager σ) (blockRoot : Root) :
    Logged (Manager σ) :=
  let (untilBlock, waiting) := m.untilBlock.take blockRoot
  let m := { m with untilBlock }.updateMetrics
  if waiting.isEmpty then pure m
  else do
    Logged.note (.retrying waiting.length blockRoot)
    retry p features m waiting

/-- Applies the votes of submissions whose slot is over. -/
def applyDue (p : Processor σ) (m : Manager σ) : List Submission → Logged (Manager σ)
  | [] => pure m
  | s :: rest => do
    match (m.ledger.get s).indexed with
    | some indexed =>
      let processor ← p.apply m.processor indexed
      applyDue p { m with processor } rest
    | none =>
      Logged.note (.votersMissing s.dataRoot)
      applyDue p m rest

/-- Hands submissions to the network one after the other. -/
def gossipAll (m : Manager σ) : List Submission → Logged (Manager σ)
  | [] => pure m
  | s :: rest => do
    let m ← m.gossip s
    m.gossipAll rest

/-- Follows the clock to a slot: applies what is due and drops what is too old. -/
def onSlot (preset : Preset) (p : Processor σ) (m : Manager σ) (slot : Slot) :
    Logged (Manager σ) := do
  let m := { m with processor := p.onSlot m.processor slot }
  let pool ← m.pool.onSlot preset slot
  let (untilSlot, due) := m.untilSlot.takeDue slot
  let untilBlock ← m.untilBlock.prune slot
  let m := { m with pool, untilSlot, untilBlock }.updateMetrics
  Logged.noteIf (!due.isEmpty) (.applyingDue due.length slot)
  let m ← applyDue p m due
  m.gossipAll due

end Manager

end ChainHead
