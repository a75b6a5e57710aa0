/-
Metrics: gauges and counters that show what the components hold and do.

Each component keeps a record of its own, which its operations bring up
to date by hand; `Metrics` is the three of them side by side. `samples`
lists what can be read off, `describe` says what each metric means. A
gauge is a signed word and stays at the greatest one when a count
exceeds it.
-/
import ChainHead.Text.Decimal
import Std.Data.ExtTreeMap

namespace ChainHead

/-- The metrics of the store. -/
structure StoreMetrics where
  blocks : Nat := 0
  headUpdates : Nat := 0
  deriving DecidableEq, Repr, Inhabited

/-- The metrics of the attestation pool. -/
structure PoolMetrics where
  size : Nat := 0
  groups : Nat := 0
  packings : Nat := 0
  deriving DecidableEq, Repr, Inhabited

/-- The metrics of the manager of attestations. -/
structure ManagerMetrics where
  outcomes : Std.ExtTreeMap String Nat := ∅
  pending : Nat := 0
  future : Nat := 0

/-- The metrics of all components. -/
structure Metrics where
  store : StoreMetrics := {}
  pool : PoolMetrics := {}
  manager : ManagerMetrics := {}

namespace Metrics

/-- The reading of a gauge that was set to a count. -/
def gauge (count : Nat) : Nat := min count ((1 <<< 63) - 1)

end Metrics

-- ========================================================== updating

namespace StoreMetrics

/-- Sets the number of blocks. -/
def setBlocks (m : StoreMetrics) (count : Nat) : StoreMetrics :=
  { m with blocks := Metrics.gauge count }

/-- Counts an update of the head, which may have failed. -/
def countHeadUpdate (m : StoreMetrics) : StoreMetrics :=
  { m with headUpdates := m.headUpdates + 1 }

end StoreMetrics

namespace PoolMetrics

/-- Sets the number of attestations. -/
def setSize (m : PoolMetrics) (count : Nat) : PoolMetrics :=
  { m with size := Metrics.gauge count }

/-- Sets the number of groups. -/
def setGroups (m : PoolMetrics) (count : Nat) : PoolMetrics :=
  { m with groups := Metrics.gauge count }

/-- Counts a selection of attestations for a block. -/
def countPacking (m : PoolMetrics) : PoolMetrics :=
  { m with packings := m.packings + 1 }

end PoolMetrics

namespace ManagerMetrics

/-- Sets the number of attestations waiting for a block. -/
def setPending (m : ManagerMetrics) (count : Nat) : ManagerMetrics :=
  { m with pending := Metrics.gauge count }

/-- Sets the number of attestations waiting for a slot. -/
def setFuture (m : ManagerMetrics) (count : Nat) : ManagerMetrics :=
  { m with future := Metrics.gauge count }

/-- Counts an attestation under the label of its outcome. -/
def countOutcome (m : ManagerMetrics) (label : String) : ManagerMetrics :=
  { m with outcomes := m.outcomes.insert label (m.outcomes.getD label 0 + 1) }

/-- Counts an attestation under labels, of which there has to be one. -/
def countOutcomeBy? (m : ManagerMetrics) (labels : List String) : Option ManagerMetrics :=
  match labels with
  | [label] => some (m.countOutcome label)
  | _ => none

end ManagerMetrics

-- ========================================================== exposition

namespace Metrics

/-- The wording of the refusal to register the same metrics twice. -/
def alreadyRegisteredMessage : String := "Duplicate metrics collector registration attempted"

/-- The value of a label as it is quoted in the name of a sample. -/
def quoteLabel (label : String) : String :=
  String.ofList (label.toList.flatMap fun c =>
    if c = '\\' then ['\\', '\\'] else if c = '"' then ['\\', '"']
    else if c = '\n' then ['\\', 'n'] else [c])

/-- The name of the sample that counts a kind of outcome. -/
def outcomeName (label : String) : String :=
  "ATTESTATION_MANAGER_OUTCOMES\x7boutcome=\"" ++ quoteLabel label ++ "\"\x7d"

/-- The names and values of all samples. -/
def samples (m : Metrics) : List (String × String) :=
  let counts :=
    [("ATTESTATION_POOL_GROUPS", m.pool.groups),
      ("ATTESTATION_POOL_PACK_TIMES_count", m.pool.packings),
      ("ATTESTATION_POOL_SIZE", m.pool.size),
      ("FC_PROTO_ARRAY_NODES", m.store.blocks),
      ("FC_UPDATE_HEAD_TIMES_count", m.store.headUpdates),
      ("FUTURE_ATTESTATIONS", m.manager.future),
      ("PENDING_ATTESTATIONS", m.manager.pending)]
  let outcomes := m.manager.outcomes.toList.map fun (label, count) => (outcomeName label, count)
  (outcomes ++ counts).map fun (name, value) => (name, Text.Decimal.float value)

/-- The name, kind and meaning of each metric but the outcomes, by name. -/
def descriptions : List (String × String × String) :=
  [("ATTESTATION_POOL_GROUPS", "gauge",
      "Number of distinct attestation data roots in the aggregating attestation pool"),
    ("ATTESTATION_POOL_PACK_TIMES", "histogram",
      "Times spent selecting attestations for a block"),
    ("ATTESTATION_POOL_SIZE", "gauge",
      "Number of attestations in the aggregating attestation pool"),
    ("FC_PROTO_ARRAY_NODES", "gauge", "Number of blocks in the fork choice proto-array"),
    ("FC_UPDATE_HEAD_TIMES", "histogram", "Forkchoice head update times"),
    ("FUTURE_ATTESTATIONS", "gauge", "Number of attestations waiting for their slot"),
    ("PENDING_ATTESTATIONS", "gauge", "Number of attestations waiting for their block")]

/-- The name, kind and meaning of the outcomes. -/
def outcomesDescription : String × String × String :=
  ("ATTESTATION_MANAGER_OUTCOMES", "counter",
    "Number of attestations processed by the attestation manager by outcome")

/-- Two lines for each metric, by name; the outcomes only once one was counted. -/
def describe (m : Metrics) : List String :=
  let shown :=
    if m.manager.outcomes.isEmpty then descriptions else outcomesDescription :: descriptions
  shown.flatMap fun (name, kind, meaning) =>
    [s!"# HELP {name} {meaning}", s!"# TYPE {name} {kind}"]

end Metrics

end ChainHead
