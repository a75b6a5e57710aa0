import ChainHead.Bytes.Hex
import ChainHead.Manager
import ChainHead.Manager.Judge
import ChainHead.Manager.Rehearsal
import ChainHead.Proofs.Store.Run
import ChainHead.Proofs.Store.Ghost
import ChainHead.State.Sample
import ChainHead.Proofs.Tree.Lineage
import ChainHead.Proofs.Tree.Settle
import ChainHead.Proofs.Tree.Links
import ChainHead.Proofs.Tree.Sound
import ChainHead.Proofs.Tree.Drop
import ChainHead.Proofs.Tree.Rescore
import ChainHead.Proofs.Tree.Run
import ChainHead.Proofs.Tree.Embedding
import ChainHead.Proofs.Tree.Refusal
import ChainHead.Proofs.Tree.Weights
import ChainHead.Proofs.Tree.Path
import ChainHead.Proofs.Pool.Order
import ChainHead.Proofs.Pool.Best
import ChainHead.Proofs.Pool.Retention
import ChainHead.Proofs.Store.Outline
import ChainHead.Proofs.Vote.Deltas
import ChainHead.Proofs.Vote.Division
import ChainHead.Proofs.Store.Tally
import ChainHead.Proofs.Store.Books
import ChainHead.Proofs.Store.Orderly
import ChainHead.Proofs.Store.Head
import ChainHead.Proofs.Store.Repeat
import ChainHead.Proofs.Store.Pruned
import ChainHead.Proofs.Store.View
import ChainHead.Proofs.Store.Arrival
import ChainHead.Proofs.Store.Refusal
import ChainHead.Proofs.Store.Incumbent
import ChainHead.Proofs.Store.Standing
import ChainHead.Proofs.Pool.Index
import ChainHead.Proofs.Pool.Validity
import ChainHead.Proofs.Pool.Forks
import ChainHead.Proofs.Pool.Eviction
import ChainHead.Proofs.Queue.Newest
import ChainHead.Proofs.Manager.Import
import ChainHead.Proofs.Manager.Tick
import ChainHead.Proofs.Manager.Answers
import ChainHead.Proofs.Manager.Again
import ChainHead.Proofs.Manager.Published
import ChainHead.Proofs.Manager.Counted
import ChainHead.Proofs.Manager.Window
import ChainHead.Proofs.Manager.Acceptance
import ChainHead.Proofs.Bitfield.Run
import ChainHead.Proofs.Merkle
import ChainHead.Proofs.Roots
import ChainHead.Proofs.Metrics
