/-
Runs of a manager: submissions, imported blocks and slots, in any order
and number, and what is done meanwhile to its pool and to the state of
its processor.

What can happen to that state from outside depends on the processor. A
`Setting` says it: for a judge these are the calls of its store, which
others fill with blocks, and it may be told the time by others too. A
run is the list of its calls, newest first, and `after` replays it.
Switches may be turned between calls, so each call names those that are
on.

Other conditions can change from call to call as well, such as where a
judge looks up states, which is not its own. An `Occasion` is a call
under its conditions, and `afterAll` replays a run of them.

# Promises

Nothing tells a manager that a block was added to the store unless the
one who added it does. `unreported` lists the blocks that a store has
taken in since the last time they were reported. A careful caller
reports each block before it asks for anything else, and then the list
is empty whenever it matters.
-/
import ChainHead.Manager
import ChainHead.Manager.Judge
import ChainHead.Proofs.Pool.Run
import ChainHead.Proofs.Store.Run

namespace ChainHead

namespace Manager

variable {σ ε κ : Type}

/-- What a manager works with: a processor, and what may be done to the
state of the processor meanwhile. -/
structure Setting (σ ε : Type) where
  preset : Preset
  processor : Processor σ
  meanwhile : σ → ε → σ

/-- What can be asked of a manager, or happen around it. -/
inductive Call (ε : Type) where
  | attestation (features : Features) (submission : Submission)
  | blockImported (features : Features) (root : Root)
  | slot (slot : Slot)
  | pool (call : Pool.Call)
  | meanwhile (event : ε)

/-- The manager after one call. -/
def call (w : Setting σ ε) (m : Manager σ) : Call ε → Manager σ
  | .attestation features s => (m.onAttestation w.processor features s).value.1
  | .blockImported features root => (m.onBlockImported w.processor features root).value
  | .slot slot => (m.onSlot w.preset w.processor slot).value
  | .pool c => { m with pool := m.pool.call w.preset c }
  | .meanwhile e => { m with processor := w.meanwhile m.processor e }

/-- The manager after a run, given newest call first. -/
def after (w : Setting σ ε) (start : Manager σ) : List (Call ε) → Manager σ
  | [] => start
  | c :: earlier => (after w start earlier).call w c

/-- A call, and the conditions under which it is made. -/
structure Occasion (κ ε : Type) where
  conditions : κ
  call : Call ε

/-- The manager after a run in which the setting depends on the conditions
of each call, given newest call first. -/
def afterAll (w : κ → Setting σ ε) (start : Manager σ) : List (Occasion κ ε) → Manager σ
  | [] => start
  | o :: earlier => (afterAll w start earlier).call (w o.conditions) o.call

/-- A manager in whose queue for blocks nothing waits yet. -/
def withQueue (m : Manager σ) (capacity : Nat) (retention : UInt64) : Manager σ :=
  { m with untilBlock := { capacity, retention } }

end Manager

-- ============================================================== judges

namespace Judge

/-- A judge whose store may be used by others. -/
def setting (c : JudgeConfig) : Manager.Setting Judge Store.Call where
  preset := c.preset
  processor := processor c
  meanwhile j e := { j with store := j.store.call e }

/-- Where a judge looks up states. -/
abbrev StateSource := Checkpoint → Except String BeaconState

/-- A judge as a processor that looks up states somewhere. -/
def processorAt (c : JudgeConfig) (stateAt : StateSource) : Processor Judge :=
  processor { c with stateAt }

/-- A judge whose store may be used by others, and who looks up states
somewhere. -/
def settingAt (c : JudgeConfig) (stateAt : StateSource) : Manager.Setting Judge Store.Call :=
  setting { c with stateAt }

/-- What others do with a judge that they share: they use its store, and
may tell it the time. -/
inductive Use where
  | store (call : Store.Call)
  | slot (slot : Slot)

/-- A judge that is shared with others. -/
def shared (c : JudgeConfig) : Manager.Setting Judge Use where
  preset := c.preset
  processor := processor c
  meanwhile
    | j, .store e => { j with store := j.store.call e }
    | j, .slot slot => j.onSlot slot

/-- A judge that is shared with others, and looks up states somewhere. -/
def sharedAt (c : JudgeConfig) (stateAt : StateSource) : Manager.Setting Judge Use :=
  shared { c with stateAt }

end Judge

namespace Manager

/-- Whether nothing was put into the store, the pool and the queues of a
manager yet. What is known of submissions may be anything. -/
structure Fresh (m : Manager Judge) : Prop where
  store : ∃ justified finalized pruneThreshold,
    m.processor.store = .empty justified finalized pruneThreshold
  pool : ∃ retentionEpochs, m.pool = { retentionEpochs }
  untilBlock : ∃ capacity retention, m.untilBlock = { capacity, retention }
  untilSlot : m.untilSlot = {}

/-- The blocks of the store of a judge. -/
def knows (m : Manager Judge) (root : Root) : Prop :=
  m.processor.store.tree.contains root = true

instance (m : Manager Judge) (root : Root) : Decidable (m.knows root) :=
  inferInstanceAs (Decidable (_ = true))

/-- The blocks that the store takes in with a call. -/
def news (m : Manager Judge) : Store.Call → List Root
  | .block b _ _ => if m.knows b.hashTreeRoot then [] else [b.hashTreeRoot]
  | _ => []

/-- The blocks that the store took in during a run and that were not
reported since. -/
def unreported (c : JudgeConfig) (start : Manager Judge) :
    List (Occasion Judge.StateSource Store.Call) → List Root
  | [] => []
  | ⟨_, .meanwhile e⟩ :: earlier =>
    (afterAll (Judge.settingAt c) start earlier).news e ++ unreported c start earlier
  | ⟨_, .blockImported _ root⟩ :: earlier => (unreported c start earlier).filter (· ≠ root)
  | _ :: earlier => unreported c start earlier

end Manager

end ChainHead
