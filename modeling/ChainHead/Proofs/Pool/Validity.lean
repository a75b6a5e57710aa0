/-
Aggregates of attestations that stand up to a state stand up to it too.

What an aggregate joins has no vote in common, so at the ones of its
bitfield stand the voters of one part after the other, each once
(`Joined.votersAmong_perm`). Its signature is the sum of theirs, which
is accepted for all of them if accepted signatures can be added. This
would fail if a vote were given twice, or if the committee named one
validator at two places: a repetition is dropped among the voters, and
stays in the sum.
-/
import ChainHead.Proofs.Pool.Cover
import ChainHead.Proofs.Verification

namespace ChainHead.Group

open Verification (Stands Signed stands_iff votersAmong inOrder inOrder_perm
  inOrder_of_pairwise)

variable {scheme : SignatureScheme} {state : BeaconState} {g : Group} {a : Attestation}
variable {data : AttestationData} {parts : List Submission} {members : List ValidatorIndex}

/-- The voters of what is joined are those of its parts. -/
theorem Joined.votersAmong_perm (h : Joined scheme data parts a) (members : List ValidatorIndex) :
    (votersAmong members a.bits).Perm
      (parts.flatMap fun m => votersAmong members m.bits) := by
  have hones : a.bits.ones.Perm (parts.flatMap fun m => m.bits.ones) := by
    refine (List.perm_ext_iff_of_nodup a.bits.nodup_ones ?_).mpr fun i => ?_
    · exact List.nodup_flatMap.mpr ⟨fun m _ => m.bits.nodup_ones, h.disjoint⟩
    · rw [h.votes, List.mem_flatMap]
  have hvoters := hones.map fun i => members.getD i 0
  rw [List.map_flatMap] at hvoters
  exact hvoters

/-- The parts of what is joined were signed by their voters, each under
the signature that goes into the sum. -/
theorem signed_of_decode {signatures : List scheme.Signature}
    (hdecode : parts.map (fun m => scheme.decode m.attestation.signature) = signatures.map .ok)
    (hparts : ∀ m ∈ parts, ∃ signature, scheme.decode m.attestation.signature = .ok signature
      ∧ Signed scheme state data signature (inOrder (votersAmong members m.bits))) :
    List.Forall₂ (Signed scheme state data) signatures
      (parts.map fun m => inOrder (votersAmong members m.bits)) := by
  induction parts generalizing signatures with
  | nil =>
      rw [List.map_nil, eq_comm, List.map_eq_nil_iff] at hdecode
      rw [hdecode]
      exact .nil
  | cons m parts ih =>
      cases signatures with
      | nil => cases hdecode
      | cons signature signatures =>
          injection hdecode with hfirst hrest
          obtain ⟨⟨signature', hdecode', hsigned⟩, hothers⟩ := List.forall_mem_cons.mp hparts
          injection hfirst.symm.trans hdecode' with hsame
          exact .cons (hsame ▸ hsigned) (ih hrest hothers)

/-- What joins attestations that stand up to a state stands up to it. -/
theorem Joined.stands (h : Joined scheme data parts a) (law : scheme.Additive)
    (hcommittee : state.committee data.slot data.index = some members)
    (hnodup : members.Nodup) (hdata : ∀ m ∈ parts, m.data = data)
    (hparts : ∀ m ∈ parts, Stands scheme state m.attestation) : Stands scheme state a := by
  have hpart : ∀ m ∈ parts, members.length = m.bits.length ∧ m.bits.ones ≠ []
      ∧ ∃ signature, scheme.decode m.attestation.signature = .ok signature
        ∧ Signed scheme state data signature (inOrder (votersAmong members m.bits)) := by
    intro m hm
    have hm' : m.attestation.data = data := hdata m hm
    have hstands := hparts m hm
    rw [stands_iff (hm' ▸ hcommittee) hnodup, hm'] at hstands
    exact hstands
  obtain ⟨start, rest, hdecode, hsum⟩ := h.signature
  have hsigned := signed_of_decode hdecode fun m hm => (hpart m hm).2.2
  have hvoters : (inOrder (votersAmong members a.bits)).Perm
      (parts.flatMap fun m => inOrder (votersAmong members m.bits)) :=
    ((inOrder_perm _).trans (h.votersAmong_perm members)).trans
      (List.Perm.flatMap_left parts fun m _ => (inOrder_perm _).symm)
  have hmore : rest ≠ [] := by
    rintro rfl
    have hone : parts.length = 1 := by simpa using congrArg List.length hdecode
    have hseveral := h.several
    omega
  cases parts with
  | nil => cases hdecode
  | cons first others =>
      obtain ⟨hlength, hones, -⟩ := hpart first List.mem_cons_self
      refine (stands_iff (h.data ▸ hcommittee) hnodup).mpr ⟨?_, ?_, ?_⟩
      · rw [h.length first List.mem_cons_self, hlength]
      · obtain ⟨i, hi⟩ := List.exists_mem_of_ne_nil _ hones
        exact List.ne_nil_of_mem ((h.votes i).mpr ⟨first, List.mem_cons_self, hi⟩)
      · refine ⟨rest.foldl scheme.add start, ?_, ?_⟩
        · rw [hsum, law.decode_encode]
        · rw [h.data]
          obtain ⟨hstart, hrest⟩ := List.forall₂_cons.mp hsigned
          refine hstart.foldl law hrest hmore ?_
          rw [← List.flatMap_def]
          exact hvoters

/-- Members that stand up to a state have bitfields as long as their
committee. -/
theorem aligned_of_stands (hclean : ∀ m ∈ g.members, m.bits.Clean)
    (hdata : ∀ m ∈ g.members, m.data = g.data)
    (hstands : ∀ m ∈ g.members, Stands scheme state m.attestation) : g.Aligned := by
  have hlength : ∀ m ∈ g.members, ∃ members,
      state.committee g.data.slot g.data.index = some members
        ∧ members.length = m.bits.length := by
    intro m hm
    obtain ⟨members, hcommittee, hlength⟩ := (hstands m hm).exists_committee
    have hm' : m.attestation.data = g.data := hdata m hm
    exact ⟨members, hm' ▸ hcommittee, hlength⟩
  refine aligned_iff.mpr ⟨((state.committee g.data.slot g.data.index).getD []).length,
    fun m hm => ⟨hclean m hm, ?_⟩⟩
  obtain ⟨members, hcommittee, hsame⟩ := hlength m hm
  rw [hcommittee, Option.getD_some, hsame]

/-- The aggregates of a group whose members stand up to a state all stand
up to it, if its committee names nobody twice and accepted signatures can
be added. -/
theorem aggregates_stand (law : scheme.Additive) (hclean : ∀ m ∈ g.members, m.bits.Clean)
    (hdata : ∀ m ∈ g.members, m.data = g.data)
    (hstands : ∀ m ∈ g.members, Stands scheme state m.attestation)
    (hnodup : ∀ members, state.committee g.data.slot g.data.index = some members →
      members.Nodup) :
    ∃ items, g.aggregates scheme = .ok items ∧ ∀ a ∈ items, Stands scheme state a := by
  have haligned := aligned_of_stands hclean hdata hstands
  obtain ⟨items, hok, -, hcovers⟩ := haligned.aggregates_eq_ok scheme
  refine ⟨items, hok, fun a ha => ?_⟩
  obtain ⟨parts, hsub, hmade⟩ := hcovers.made a ha
  have hparts : ∀ m ∈ parts, Stands scheme state m.attestation := fun m hm =>
    hstands m (hsub.subset hm)
  rcases hmade with ⟨m, rfl, rfl⟩ | hjoined
  · exact hparts m (List.mem_singleton_self m)
  · cases parts with
    | nil => exact absurd hjoined.several (by simp)
    | cons first others =>
        have hfirst := hsub.subset List.mem_cons_self
        obtain ⟨members, hcommittee, -⟩ := (hstands first hfirst).exists_committee
        have hfirst' : first.attestation.data = g.data := hdata first hfirst
        rw [hfirst'] at hcommittee
        exact hjoined.stands law hcommittee (hnodup members hcommittee)
          (fun m hm => hdata m (hsub.subset hm)) hparts

/-- A state with one committee of four, whose keys are their indices. -/
def councilState : BeaconState where
  slot := 9
  fork := {}
  genesisValidatorsRoot := 0
  currentJustified := {}
  previousJustified := {}
  finalized := {}
  committeeCount _ := 1
  committee slot index := if slot = 8 ∧ index = 0 then some [7, 3, 9, 4] else none
  publicKey v := some (BitVec.ofNat 384 v.toNat)
  shufflingSeed _ := 0

/-- The key of a validator, as it is used to sign. -/
def councilKey (v : ValidatorIndex) : BitVec 767 :=
  (BitVec.ofNat 384 v.toNat).setWidth 767

/-- Votes of the committee, signed by some validators. -/
def councilVotes (id : Nat) (votes : UInt8) (signers : List ValidatorIndex) : Submission :=
  let message := councilState.signingRoot { slot := 8 }
  let signature := (signers.map councilKey).sum * message.setWidth 767
  { id, attestation := ⟨⟨4, [votes]⟩, { slot := 8 }, BitVec.cons true signature⟩ }

/-- Two of the committee vote, then one of them and the one in between,
and then the fourth. -/
def council : Group where
  data := { slot := 8 }
  dataRoot := 0
  seed := 0
  members :=
    [councilVotes 0 0b0101 [7, 9], councilVotes 1 0b0110 [3, 9], councilVotes 2 0b1000 [4]]

/-- Votes that were signed by their voters stand. -/
theorem stands_councilVotes (id : Nat) {votes : UInt8} {voters : List ValidatorIndex}
    (hvoters : votersAmong [7, 3, 9, 4] ⟨4, [votes]⟩ = voters) (hne : voters ≠ [])
    (hsorted : voters.Pairwise (· ≤ ·)) :
    Stands .product councilState (councilVotes id votes voters).attestation := by
  have hcommittee : councilState.committee 8 0 = some [7, 3, 9, 4] := rfl
  have hkeys : List.Forall₂
      (fun v key => Verification.keyOf .product councilState v = .ok key)
      voters (voters.map councilKey) :=
    List.forall₂_map_right_iff.mpr (List.forall₂_same.mpr fun _ _ => rfl)
  have hsigned : Signed .product councilState { slot := 8 }
      ((voters.map councilKey).sum * (councilState.signingRoot { slot := 8 }).setWidth 767)
      voters :=
    ⟨_, hkeys, isSumOfProducts_sum _ (mt List.map_eq_nil_iff.mp hne)⟩
  refine (stands_iff hcommittee (by decide)).mpr ⟨rfl, ?_, _, decodeNumber_cons _, ?_⟩
  · intro hnone
    rw [← hvoters, votersAmong] at hne
    exact hne (List.map_eq_nil_iff.mpr hnone)
  · change Signed _ _ _ _ (inOrder (votersAmong [7, 3, 9, 4] ⟨4, [votes]⟩))
    rw [hvoters, inOrder_of_pairwise hsorted]
    exact hsigned

/-- The first and the third give an aggregate of the committee without
validator 3, for whom there is another. -/
theorem aggregates_stand_council :
    ((∀ m ∈ council.members, m.bits.Clean)
        ∧ (∀ m ∈ council.members, m.data = council.data)
        ∧ (∀ m ∈ council.members, Stands .product councilState m.attestation)
        ∧ (∀ members, councilState.committee council.data.slot council.data.index = some members →
          members.Nodup)
        ∧ council.aggregates .product = .ok [(councilVotes 3 0b1101 [7, 9, 4]).attestation,
          (councilVotes 1 0b0110 [3, 9]).attestation])
      ∧ ∃ items, council.aggregates .product = .ok items
        ∧ ∀ a ∈ items, Stands .product councilState a := by
  have hnodup : ∀ members,
      councilState.committee council.data.slot council.data.index = some members →
        members.Nodup := by
    intro members hmembers
    injection hmembers with hmembers
    rw [← hmembers]
    decide
  refine (and_iff_left_of_imp fun hseen => aggregates_stand SignatureScheme.product_additive
    hseen.1 hseen.2.1 hseen.2.2.1 hseen.2.2.2.1).mpr ?_
  refine ⟨by decide +kernel, by decide +kernel, ?_, hnodup, by decide +kernel⟩
  refine List.forall_mem_cons.mpr ⟨?_, List.forall_mem_cons.mpr
    ⟨?_, List.forall_mem_singleton.mpr ?_⟩⟩
  · exact stands_councilVotes 0 (by decide) (by decide) (by decide)
  · exact stands_councilVotes 1 (by decide) (by decide) (by decide)
  · exact stands_councilVotes 2 (by decide) (by decide) (by decide)

end ChainHead.Group
