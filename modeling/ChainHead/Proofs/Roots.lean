/-
What has one root is the same, but for a collision.

Checkpoints, blocks and attestation data are told apart by their roots,
which say little by themselves: a root has 32 bytes, whatever is under
it. What can be said is where the blame lies. If two values have one
root, two of the pairs that were hashed for them are different and have
the same hash (`Merkle.Collision`). For checkpoints and blocks, different
values have different chunks and this is a fact about lists of chunks.
Attestation data have the roots of their checkpoints among the chunks;
where these do not differ although the checkpoints do, the collision is
further down.

A pool looks for the group of a submission by the root of its data, and
a store for a block by its root. So these are the only mistakes that they
can make (`alike_or_collision`, `given_or_collision`).
-/
import ChainHead.Proofs.Merkle.Collision
import ChainHead.Proofs.Pool.Best
import ChainHead.Proofs.Store.Known

namespace ChainHead

open Merkle (Collision hashed uint64Chunk_injective merkleize_collision)

variable {hash : PairHash}

-- ============================================== statement vocabulary

/-- The pairs that are hashed for the root of a checkpoint. -/
def Checkpoint.hashedBy (hash : PairHash) (c : Checkpoint) : List (Root × Root) :=
  hashed hash c.chunks

/-- The pairs that are hashed for the root of a block. -/
def BeaconBlock.hashedBy (hash : PairHash) (b : BeaconBlock) : List (Root × Root) :=
  hashed hash b.chunks

/-- The pairs that are hashed for the root of attestation data: first for
those of the two checkpoints. -/
def AttestationData.hashedBy (hash : PairHash) (d : AttestationData) : List (Root × Root) :=
  d.source.hashedBy hash ++ d.target.hashedBy hash ++ hashed hash (d.chunksBy hash)

/-- The data that a group stands for, and those that its members vote
for. -/
def Group.votedFor (g : Group) : List AttestationData :=
  g.data :: g.members.map Submission.data

/-- The blocks that a store was told of during a run. -/
def Store.given (calls : List Store.Call) : List BeaconBlock :=
  calls.filterMap fun
    | .block b _ _ => some b
    | _ => none

-- =========================================================== containers

theorem Checkpoint.chunks_injective : Function.Injective Checkpoint.chunks := by
  rintro ⟨epoch, root⟩ ⟨epoch', root'⟩ h
  dsimp only [chunks] at h
  injection h with hepoch h
  injection h with hroot
  rw [uint64Chunk_injective hepoch, hroot]

theorem Checkpoint.length_chunks (c : Checkpoint) : c.chunks.length = 2 := rfl

theorem Checkpoint.collision {c c' : Checkpoint} (hne : c ≠ c')
    (h : c.rootBy hash = c'.rootBy hash) : Collision hash (c.hashedBy hash) (c'.hashedBy hash) :=
  merkleize_collision ((length_chunks c).trans (length_chunks c').symm) (chunks_injective.ne hne) h

theorem BeaconBlock.chunks_injective : Function.Injective BeaconBlock.chunks := by
  rintro ⟨slot, proposer, parent, state, body⟩ ⟨slot', proposer', parent', state', body'⟩ h
  dsimp only [chunks] at h
  injection h with hslot h
  injection h with hproposer h
  injection h with hparent h
  injection h with hstate h
  injection h with hbody
  rw [uint64Chunk_injective hslot, uint64Chunk_injective hproposer, hparent, hstate, hbody]

theorem BeaconBlock.length_chunks (b : BeaconBlock) : b.chunks.length = 5 := rfl

theorem BeaconBlock.collision {b b' : BeaconBlock} (hne : b ≠ b')
    (h : b.rootBy hash = b'.rootBy hash) : Collision hash (b.hashedBy hash) (b'.hashedBy hash) :=
  merkleize_collision ((length_chunks b).trans (length_chunks b').symm) (chunks_injective.ne hne) h

/-- Attestation data with the same chunks have checkpoints with the same
roots, and otherwise are the same. -/
theorem AttestationData.eq_of_chunksBy_eq {d d' : AttestationData}
    (h : d.chunksBy hash = d'.chunksBy hash) :
    (d.source.rootBy hash = d'.source.rootBy hash ∧ d.target.rootBy hash = d'.target.rootBy hash)
      ∧ (d.source = d'.source → d.target = d'.target → d = d') := by
  -- both computations list the same fields in the same order
  obtain ⟨slot, index, head, source, target⟩ := d
  obtain ⟨slot', index', head', source', target'⟩ := d'
  dsimp only [chunksBy] at h
  injection h with hslot h
  injection h with hindex h
  injection h with hhead h
  injection h with hsource h
  injection h with htarget
  refine ⟨⟨hsource, htarget⟩, fun hsource' htarget' => ?_⟩
  dsimp only at hsource' htarget'
  rw [uint64Chunk_injective hslot, uint64Chunk_injective hindex, hhead, hsource', htarget']

theorem AttestationData.length_chunksBy (hash : PairHash) (d : AttestationData) :
    (d.chunksBy hash).length = 5 := rfl

theorem AttestationData.collision {d d' : AttestationData} (hne : d ≠ d')
    (h : d.rootBy hash = d'.rootBy hash) : Collision hash (d.hashedBy hash) (d'.hashedBy hash) := by
  unfold hashedBy
  by_cases hchunks : d.chunksBy hash = d'.chunksBy hash
  · obtain ⟨⟨hsource, htarget⟩, hsame⟩ := eq_of_chunksBy_eq hchunks
    by_cases hsource' : d.source = d'.source
    · have hbelow := Checkpoint.collision (fun htarget' => hne (hsame hsource' htarget')) htarget
      refine hbelow.mono ?_ ?_
      · exact List.subset_append_of_subset_left _ (List.subset_append_right _ _)
      · exact List.subset_append_of_subset_left _ (List.subset_append_right _ _)
    · have hbelow := Checkpoint.collision hsource' hsource
      refine hbelow.mono ?_ ?_
      · exact List.subset_append_of_subset_left _ (List.subset_append_left _ _)
      · exact List.subset_append_of_subset_left _ (List.subset_append_left _ _)
  · have hlength := (length_chunksBy hash d).trans (length_chunksBy hash d').symm
    exact (merkleize_collision hlength hchunks h).mono (List.subset_append_right _ _)
      (List.subset_append_right _ _)

-- ================================================= groups and the index

/-- All that a group stands for has the root under which it is found. -/
theorem Pool.votedFor_rooted (preset : Preset) (retentionEpochs : UInt64) (calls : List Pool.Call) :
    (after preset { retentionEpochs } calls).Everywhere fun root g =>
      ∀ d ∈ g.votedFor, d.hashTreeRoot = root := by
  refine everywhere_after preset retentionEpochs ?_ ?_ ?_
  · intro s facts seed _ _
    exact List.forall_mem_singleton.mpr rfl
  · intro s facts g _ _ hg
    obtain ⟨hdata, hmembers⟩ := List.forall_mem_cons.mp hg
    rw [List.forall_mem_map] at hmembers
    refine List.forall_mem_cons.mpr ⟨?_, List.forall_mem_map.mpr fun m hm => ?_⟩
    · rcases g.add_cases s with ⟨heq, -⟩ | ⟨members, heq, -⟩
      · rw [heq]
        exact hdata
      · rw [heq]
        exact hdata
    · rcases Group.mem_of_mem_add hm with rfl | hold
      · rfl
      · exact hmembers m hold
  · intro root g a hg
    obtain ⟨hdata, hmembers⟩ := List.forall_mem_cons.mp hg
    rw [List.forall_mem_map] at hmembers
    refine List.forall_mem_cons.mpr ⟨hdata, List.forall_mem_map.mpr fun m hm => ?_⟩
    exact hmembers m (List.mem_of_mem_filter hm)

/-- What is in one group has the same data, but for a collision. -/
theorem Pool.alike_or_collision (preset : Preset) (retentionEpochs : UInt64)
    (calls : List Pool.Call) {root : Root} {g : Group} {d d' : AttestationData}
    (hg : (after preset { retentionEpochs } calls).groups[root]? = some g)
    (hd : d ∈ g.votedFor) (hd' : d' ∈ g.votedFor) :
    d = d' ∨ Collision Sha256.pair (d.hashedBy Sha256.pair) (d'.hashedBy Sha256.pair) := by
  have hrooted := votedFor_rooted preset retentionEpochs calls root g hg
  by_cases hsame : d = d'
  · exact .inl hsame
  · exact .inr (AttestationData.collision hsame ((hrooted d hd).trans (hrooted d' hd').symm))

/-- A store has the block that it was given last. -/
theorem Store.contains_block (s : Store) (b : BeaconBlock) (justified finalized : Checkpoint) :
    (s.call (.block b justified finalized)).tree.contains b.hashTreeRoot = true := by
  show (s.onBlock b justified finalized).state.tree.contains b.hashTreeRoot = true
  rcases s.onBlock_cases b justified finalized with ⟨hknown, heq⟩ | ⟨-, metrics, heq⟩
  · rw [heq]
    exact hknown
  · rw [heq]
    exact (Tree.contains_extend _ _ _).mpr (.inl rfl)

/-- The blocks of a store were given to it. -/
theorem Store.exists_given (justified finalized : Checkpoint) (pruneThreshold : Nat)
    {calls : List Store.Call} {root : Root}
    (h : ((empty justified finalized pruneThreshold).after calls).tree.contains root = true) :
    ∃ b ∈ given calls, b.hashTreeRoot = root := by
  induction calls with
  | nil => simp [after, empty, Tree.empty, Tree.contains] at h
  | cons c earlier ih =>
      have hmono : given earlier ⊆ given (c :: earlier) := by
        unfold given
        rw [List.filterMap_cons]
        split
        · exact List.Subset.refl _
        · exact List.subset_cons_self _ _
      rcases contains_call h with hold | ⟨b, justified', finalized', rfl, rfl⟩
      · obtain ⟨b, hb, hroot⟩ := ih hold
        exact ⟨b, hmono hb, hroot⟩
      · exact ⟨b, List.mem_cons_self, rfl⟩

/-- A block that a store takes for one that it has was given to it, but
for a collision. -/
theorem Store.given_or_collision (justified finalized : Checkpoint) (pruneThreshold : Nat)
    (calls : List Store.Call) {b : BeaconBlock}
    (h : ((empty justified finalized pruneThreshold).after calls).tree.contains b.hashTreeRoot
      = true) :
    b ∈ given calls ∨ ∃ b' ∈ given calls,
      Collision Sha256.pair (b.hashedBy Sha256.pair) (b'.hashedBy Sha256.pair) := by
  obtain ⟨b', hb', hroot⟩ := exists_given justified finalized pruneThreshold h
  by_cases hsame : b = b'
  · exact .inl (hsame ▸ hb')
  · exact .inr ⟨b', hb', BeaconBlock.collision hsame hroot.symm⟩

-- ================================================================ roots

namespace Merkle

/-- Different attestation data, blocks, checkpoints or lists of as many
chunks have different roots, unless a pair that is hashed for the one and
a different pair that is hashed for the other have the same hash. So what
is in one group of a pool has the same data and what a store takes for
one of its blocks was given to it, unless the pairs that were hashed for
them show a collision. -/
theorem collision_of_root_eq (hash : PairHash) :
    (∀ d d' : AttestationData, d ≠ d' → d.rootBy hash = d'.rootBy hash →
        Collision hash (d.hashedBy hash) (d'.hashedBy hash))
      ∧ (∀ b b' : BeaconBlock, b ≠ b' → b.rootBy hash = b'.rootBy hash →
        Collision hash (b.hashedBy hash) (b'.hashedBy hash))
      ∧ (∀ c c' : Checkpoint, c ≠ c' → c.rootBy hash = c'.rootBy hash →
        Collision hash (c.hashedBy hash) (c'.hashedBy hash))
      ∧ (∀ chunks chunks' : List Root, chunks.length = chunks'.length → chunks ≠ chunks' →
        merkleize hash chunks = merkleize hash chunks' →
        Collision hash (hashed hash chunks) (hashed hash chunks'))
      ∧ (∀ (preset : Preset) (retentionEpochs : UInt64) (calls : List Pool.Call) (root : Root)
        (g : Group), (Pool.after preset { retentionEpochs } calls).groups[root]? = some g →
        ∀ d ∈ g.votedFor, ∀ d' ∈ g.votedFor,
          d = d' ∨ Collision Sha256.pair (d.hashedBy Sha256.pair) (d'.hashedBy Sha256.pair))
      ∧ ∀ (justified finalized : Checkpoint) (pruneThreshold : Nat) (calls : List Store.Call)
        (b : BeaconBlock),
        ((Store.empty justified finalized pruneThreshold).after calls).tree.contains b.hashTreeRoot
          = true →
        b ∈ Store.given calls ∨ ∃ b' ∈ Store.given calls,
          Collision Sha256.pair (b.hashedBy Sha256.pair) (b'.hashedBy Sha256.pair) := by
  refine ⟨fun d d' => AttestationData.collision, fun b b' => BeaconBlock.collision,
    fun c c' => Checkpoint.collision, fun chunks chunks' => merkleize_collision, ?_, ?_⟩
  · intro preset retentionEpochs calls root g hg d hd d' hd'
    exact Pool.alike_or_collision preset retentionEpochs calls hg hd hd'
  · intro justified finalized pruneThreshold calls b h
    exact Store.given_or_collision justified finalized pruneThreshold calls h

/-- A hash that does not mind the order of two chunks. -/
def exclusiveOr : PairHash := fun left right => left ^^^ right

/-- Two of five vote for the same data. -/
def twoVotes : List Pool.Call :=
  Pool.handingIn 0 [Group.votesOfFive 2 0b00010 true, Group.votesOfFive 1 0b00001 true]

/-- The exclusive or takes the epoch of a source for its root, a slot for a
proposer, an epoch for a root, and chunks for the same in another order.
With SHA-256 there is a group of two votes, and a store has the block that
it was given. -/
theorem collision_of_root_eq_exclusiveOr :
    let d : AttestationData := { source := { epoch := 1 } }
    let d' : AttestationData := { source := { root := uint64Chunk 1 } }
    let b : BeaconBlock := { slot := 1 }
    let b' : BeaconBlock := { proposerIndex := 1 }
    let c : Checkpoint := { epoch := 1 }
    let c' : Checkpoint := { root := uint64Chunk 1 }
    let given : List Store.Call := [.block b {} {}]
    (((d ≠ d' ∧ d.rootBy exclusiveOr = d'.rootBy exclusiveOr)
          ∧ (b ≠ b' ∧ b.rootBy exclusiveOr = b'.rootBy exclusiveOr)
          ∧ (c ≠ c' ∧ c.rootBy exclusiveOr = c'.rootBy exclusiveOr)
          ∧ merkleize exclusiveOr [1, 2, 3] = merkleize exclusiveOr [1, 3, 2])
        ∧ Collision exclusiveOr (d.hashedBy exclusiveOr) (d'.hashedBy exclusiveOr)
        ∧ Collision exclusiveOr (b.hashedBy exclusiveOr) (b'.hashedBy exclusiveOr)
        ∧ Collision exclusiveOr (c.hashedBy exclusiveOr) (c'.hashedBy exclusiveOr)
        ∧ Collision exclusiveOr (hashed exclusiveOr [1, 2, 3]) (hashed exclusiveOr [1, 3, 2]))
      ∧ (∃ (root : Root) (g : Group),
        (Pool.after .minimal { retentionEpochs := 2 } twoVotes).groups[root]? = some g
          ∧ g.members.length = 2
          ∧ ∀ d ∈ g.votedFor, ∀ d' ∈ g.votedFor,
            d = d' ∨ Collision Sha256.pair (d.hashedBy Sha256.pair) (d'.hashedBy Sha256.pair))
      ∧ ((Store.empty {} {} 0).after given).tree.contains b.hashTreeRoot = true
      ∧ (b ∈ Store.given given ∨ ∃ b' ∈ Store.given given,
        Collision Sha256.pair (b.hashedBy Sha256.pair) (b'.hashedBy Sha256.pair)) := by
  intro d d' b b' c c' given
  obtain ⟨hdata, hblock, hcheckpoint, hchunks, hgroup, hstore⟩ := collision_of_root_eq exclusiveOr
  have hd : d ≠ d' ∧ d.rootBy exclusiveOr = d'.rootBy exclusiveOr := by decide +kernel
  have hb : b ≠ b' ∧ b.rootBy exclusiveOr = b'.rootBy exclusiveOr := by decide +kernel
  have hc : c ≠ c' ∧ c.rootBy exclusiveOr = c'.rootBy exclusiveOr := by decide +kernel
  have h : merkleize exclusiveOr [1, 2, 3] = merkleize exclusiveOr [1, 3, 2] := by decide +kernel
  obtain ⟨root, g, hg, htwo⟩ : ∃ (root : Root) (g : Group),
      (Pool.after .minimal { retentionEpochs := 2 } twoVotes).groups[root]? = some g
        ∧ g.members.length = 2 :=
    ⟨AttestationData.hashTreeRoot {}, _, Pool.groups_handingIn .minimal 2 0 (by decide), by decide⟩
  have hknown : ((Store.empty {} {} 0).after given).tree.contains b.hashTreeRoot = true :=
    Store.contains_block _ b {} {}
  exact ⟨⟨⟨hd, hb, hc, h⟩, hdata d d' hd.1 hd.2, hblock b b' hb.1 hb.2, hcheckpoint c c' hc.1 hc.2,
    hchunks _ _ rfl (by decide) h⟩, ⟨root, g, hg, htwo, hgroup _ _ _ root g hg⟩, hknown,
    hstore _ _ _ _ b hknown⟩

end Merkle

end ChainHead
