/-
The log: what is worth telling about a step, beside its result.

An operation that tells something returns its result as a `Logged` value
together with its notes, oldest first; sequencing such values joins
their notes. A `Note` says what happened, in terms of the values
involved; its level and its wording are functions of it.
-/
import ChainHead.Feature
import ChainHead.Submission
import ChainHead.Text.Quoted

namespace ChainHead

/-- How important a note is. -/
inductive Level where
  | error
  | warn
  | info
  | debug
  | trace
  deriving DecidableEq, Repr

namespace Level

/-- The name of a level. -/
def name : Level → String
  | error => "ERROR"
  | warn => "WARN"
  | info => "INFO"
  | debug => "DEBUG"
  | trace => "TRACE"

/-- The place of a level from the most important to the least. -/
def rank : Level → Nat
  | error => 0
  | warn => 1
  | info => 2
  | debug => 3
  | trace => 4

/-- Whether a note of a level is kept when the given level is the least important that is. -/
def isWithin (level least : Level) : Bool :=
  level.rank ≤ least.rank

end Level

/-- Something worth telling. -/
inductive Note where
  | blocksPruned (count : Nat) (finalizedRoot : Root) (remaining : Nat)
  | votesStale (count : Nat) (root : Root) (epoch : Epoch)
  | justifiedUpdated (checkpoint : Checkpoint)
  | headUpdated (head : Root) (justified finalized : Checkpoint) (blocks : Nat)
  | bitsMismatch (bits expected : Nat) (data : AttestationData)
  | attestationsEvicted (count : Nat) (firstSlot : Slot)
  | dataSkipped (dataRoot : Root) (reason : String)
  | otherForkSkipped (dataRoot : Root)
  | blockPacked (count : Nat) (slot : Slot)
  | pendingFull (slot : Slot) (blockRoot : Root)
  | pendingExpired (count : Nat) (firstSlot : Slot)
  | alreadyWaiting (submission : Submission) (facts : Facts)
  | processed (dataRoot : Root)
  | waitingForBlock (blockRoot dataRoot : Root)
  | waitingForSlot (slot : Slot) (dataRoot : Root)
  | rejected (reason : String) (dataRoot : Root)
  | poolRefused (reason : String)
  | retrying (count : Nat) (blockRoot : Root)
  | applyingDue (count : Nat) (slot : Slot)
  | applying (attestation : IndexedAttestation)
  | votersMissing (dataRoot : Root)
  | receiverGone
  | outcomeUncounted (labels : List String)
  | featureMessage (feature : Feature) (text : String)
  deriving DecidableEq, Repr

namespace Note

/-- The feature on whose behalf a note is made, if any. -/
def feature? : Note → Option Feature
  | headUpdated .. => some .logHeadUpdates
  | dataSkipped .. | otherForkSkipped .. | blockPacked .. => some .debugAttestationPacker
  | featureMessage f _ => some f
  | _ => none

/-- How important a note is. -/
def level : Note → Level
  | headUpdated .. | dataSkipped .. | otherForkSkipped .. | blockPacked .. | featureMessage .. =>
    .info
  | alreadyWaiting .. | processed .. | applying .. => .trace
  | poolRefused .. | votersMissing .. | outcomeUncounted .. => .warn
  | _ => .debug

/-- The wording of a note, apart from the feature it is made for. -/
def body : Note → String
  | blocksPruned count finalizedRoot remaining =>
    s!"pruned {count} nodes from proto-array " ++
    s!"(finalized root: {Bytes.hex finalizedRoot}, remaining nodes: {remaining})"
  | votesStale count root epoch =>
    s!"ignored {count} stale votes for {Bytes.hex root} in epoch {epoch.toNat}"
  | justifiedUpdated checkpoint => s!"justified checkpoint updated to {checkpoint.text}"
  | headUpdated head justified finalized blocks =>
    s!"head is {Bytes.hex head} " ++
    s!"(justified: {justified.text}, finalized: {finalized.text}, blocks: {blocks})"
  | bitsMismatch bits expected data =>
    s!"attestation has {bits} aggregation bits but others with the same data have {expected} " ++
    s!"(data: {data.text})"
  | attestationsEvicted count firstSlot =>
    s!"evicted {count} attestations from slots before {firstSlot.toNat}"
  | dataSkipped dataRoot reason =>
    s!"skipping attestations with data root {Bytes.hex dataRoot}: {reason}"
  | otherForkSkipped dataRoot =>
    s!"skipping attestations with data root {Bytes.hex dataRoot} from another fork"
  | blockPacked count slot => s!"packed {count} attestations for block at slot {slot.toNat}"
  | pendingFull slot blockRoot =>
    s!"pending attestation pool is full; dropped attestation from slot {slot.toNat} " ++
    s!"waiting for block {Bytes.hex blockRoot}"
  | pendingExpired count firstSlot =>
    s!"dropped {count} attestations waiting for blocks since before slot {firstSlot.toNat}"
  | alreadyWaiting submission facts =>
    s!"attestation is already waiting for a block: {submission.text facts}"
  | processed dataRoot =>
    s!"processed attestation successfully (data root: {Bytes.hex dataRoot})"
  | waitingForBlock blockRoot dataRoot =>
    s!"attestation delayed until block {Bytes.hex blockRoot} (data root: {Bytes.hex dataRoot})"
  | waitingForSlot slot dataRoot =>
    s!"attestation delayed until slot after {slot.toNat} (data root: {Bytes.hex dataRoot})"
  | rejected reason dataRoot =>
    s!"attestation rejected (error: {reason}, data root: {Bytes.hex dataRoot})"
  | poolRefused reason => s!"unable to add attestation to pool: {reason}"
  | retrying count blockRoot =>
    s!"retrying {count} attestations delayed until block {Bytes.hex blockRoot}"
  | applyingDue count slot => s!"applying {count} attestations delayed until slot {slot.toNat}"
  | applying attestation =>
    s!"applying attestation from slot {attestation.data.slot.toNat} " ++
    s!"with {attestation.indices.length} attesters"
  | votersMissing dataRoot =>
    s!"delayed attestation has no indexed attestation (data root: {Bytes.hex dataRoot})"
  | receiverGone => "send to gossip failed because the receiver was dropped"
  | outcomeUncounted labels =>
    s!"unable to register attestation outcome for {Text.Quoted.strings labels}: " ++
    s!"InconsistentCardinality \x7b expect: 1, got: {labels.length} \x7d"
  | featureMessage _ text => text

/-- The full wording of a note. -/
def text (n : Note) : String :=
  match n.feature? with
  | some f => s!"[{f.name}] {n.body}"
  | none => n.body

end Note

-- ====================================================== logged values

/-- A value and the notes made on the way to it, oldest first. -/
structure Logged (α : Type) where
  value : α
  notes : List Note := []
  deriving Repr

namespace Logged

instance : Monad Logged where
  pure a := ⟨a, []⟩
  bind x f := ⟨(f x.value).value, x.notes ++ (f x.value).notes⟩

/-- Makes a note. -/
def note (n : Note) : Logged Unit := ⟨(), [n]⟩

/-- Makes a note if a condition holds. -/
def noteIf (condition : Bool) (n : Note) : Logged Unit :=
  ⟨(), if condition then [n] else []⟩

/-- Makes a note on behalf of a feature if that is switched on. -/
def noteFor (features : Features) (feature : Feature) (n : Note) : Logged Unit :=
  noteIf (features.has feature) n

@[simp] theorem value_pure {α : Type} (a : α) : (pure a : Logged α).value = a := rfl

@[simp] theorem notes_pure {α : Type} (a : α) : (pure a : Logged α).notes = [] := rfl

@[simp] theorem value_bind {α β : Type} (x : Logged α) (f : α → Logged β) :
    (x >>= f).value = (f x.value).value := rfl

@[simp] theorem notes_bind {α β : Type} (x : Logged α) (f : α → Logged β) :
    (x >>= f).notes = x.notes ++ (f x.value).notes := rfl

end Logged

end ChainHead
