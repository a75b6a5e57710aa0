/-
Naming the voters of an attestation.

Voters are named out of a committee in any order, a member of which may
be listed several times. They are sorted, and then equal neighbours are
dropped, so that all repetitions are gone and the order is strict. The
check of a received attestation compares neighbours only; since the order
is transitive this is the order of all pairs (`isIncreasing_iff`). So
voters that were named here are never refused for their order, and the
only thing that can be wrong with them is that there are none
(`indexed_exact`).
-/
import ChainHead.Proofs.Verification

namespace ChainHead.Verification

variable {scheme : SignatureScheme} {state : BeaconState} {check : SignatureCheck}
variable {bits : Bitfield} {members validators : List ValidatorIndex} {x : IndexedAttestation}
variable {received : Bool}

-- =============================================================== order

/-- Voters each of whom is less than the next are in order. -/
theorem isIncreasing_iff : isIncreasing validators = true ↔ validators.Pairwise (· < ·) := by
  refine ⟨fun h => ?_, isIncreasing_of_pairwise⟩
  induction validators using isIncreasing.induct with
  | case1 v w rest ih =>
      rw [isIncreasing, Bool.and_eq_true, decide_eq_true_iff] at h
      have hrest := ih h.2
      refine List.pairwise_cons.mpr ⟨fun u hu => ?_, hrest⟩
      rcases List.mem_cons.mp hu with rfl | hlater
      · exact h.1
      · exact UInt64.lt_trans h.1 (List.rel_of_pairwise_cons hrest hlater)
  | case2 short hshort =>
      cases short with
      | nil => exact .nil
      | cons v rest =>
          cases rest with
          | nil => exact List.pairwise_singleton _ v
          | cons w rest => exact absurd rfl (hshort v w rest)

-- ============================================================ refusals

/-- A list that is not gone through to its end ends with the error of a
member. -/
theorem exists_of_mapM_eq_error {α β ε : Type} {f : α → Except ε β} {xs : List α} {e : ε}
    (h : xs.mapM f = .error e) : ∃ x ∈ xs, f x = .error e := by
  induction xs with
  | nil => cases h
  | cons x xs ih =>
      rw [List.mapM_cons] at h
      cases hx : f x with
      | error e' =>
          rw [hx] at h
          cases h
          exact ⟨x, List.mem_cons_self, hx⟩
      | ok y =>
          cases hxs : xs.mapM f with
          | error e' =>
              rw [hx, hxs] at h
              cases h
              obtain ⟨x', hmem, hx'⟩ := ih hxs
              exact ⟨x', List.mem_cons_of_mem x hmem, hx'⟩
          | ok ys =>
              rw [hx, hxs] at h
              cases h

theorem keyOf_ne_votersNotSorted (v : ValidatorIndex) :
    keyOf scheme state v ≠ .error .votersNotSorted := by
  unfold keyOf
  cases state.publicKey v with
  | none => simp
  | some bytes => cases hkey : scheme.decodeKey bytes <;> simp [hkey, Except.mapError]

theorem checkSignature_ne_votersNotSorted (message : Root) (bytes : SignatureBytes)
    (keys : List scheme.PublicKey) (kind : SignatureKind) :
    checkSignature scheme message bytes keys kind ≠ .error .votersNotSorted := by
  unfold checkSignature
  cases scheme.decode bytes with
  | error e => simp [Except.mapError, bind, Except.bind]
  | ok signature =>
      cases hverify : scheme.verify signature message keys <;>
        simp [hverify, Except.mapError, bind, Except.bind, pure, Except.pure, throw, throwThe,
          MonadExceptOf.throw]

/-- The keys are not found, or the signature is not accepted. -/
theorem signature_ne_votersNotSorted :
    (x.indices.mapM (keyOf scheme state) >>= fun keys =>
      checkSignature scheme (state.signingRoot x.data) x.signature keys .attestation)
        ≠ .error .votersNotSorted := by
  cases hkeys : x.indices.mapM (keyOf scheme state) with
  | error e =>
      obtain ⟨v, -, hv⟩ := exists_of_mapM_eq_error hkeys
      rintro ⟨⟩
      exact keyOf_ne_votersNotSorted v hv
  | ok keys => exact checkSignature_ne_votersNotSorted _ _ _ _

/-- Voters are refused for their order only if they came from elsewhere
and are not in order. -/
theorem checkIndexed_eq_votersNotSorted_iff :
    checkIndexed scheme state check received x = .error .votersNotSorted
      ↔ x.indices ≠ [] ∧ received = true ∧ ¬x.indices.Pairwise (· < ·) := by
  rw [checkIndexed_eq, ← isIncreasing_iff, Bool.not_eq_true, ne_eq, ← List.isEmpty_iff]
  split
  case isTrue hempty => simp [hempty]
  case isFalse hsome =>
    split
    case isTrue horder => simpa [hsome] using horder
    case isFalse horder =>
      refine iff_of_false ?_ fun h => horder (by simp [h.2.1, h.2.2])
      cases check with
      | waived => exact nofun
      | required => exact signature_ne_votersNotSorted

/-- There are voters if a bit is set. -/
theorem Lists.ne_nil_iff (h : Lists members bits validators)
    (hlength : members.length = bits.length) :
    validators ≠ [] ↔ ∃ i < bits.length, bits.bit i = true := by
  rw [ne_eq, List.eq_nil_iff_forall_not_mem, not_forall_not]
  constructor
  · rintro ⟨v, hv⟩
    obtain ⟨i, hbit, hmember⟩ := (h.mem v).mp hv
    exact ⟨i, hlength ▸ (List.getElem?_eq_some_iff.mp hmember).1, hbit⟩
  · rintro ⟨i, hi, hbit⟩
    exact ⟨members[i], (h.mem _).mpr ⟨i, hbit, List.getElem?_eq_getElem (hlength.symm ▸ hi)⟩⟩

-- ============================================================== naming

/-- Voters are named exactly if there is a committee as long as the
bitfield. They are the members at the bits that are set, each once and in
increasing order, whatever the order of the committee and however often
it lists them; data and signature are those of the attestation. They are
never refused for their order, and accepted without a signature exactly
if a bit is set. -/
theorem indexed_exact (scheme : SignatureScheme) (state : BeaconState) (a : Attestation) :
    ((∃ x, state.indexed a = .ok x) ↔ ∃ members,
        state.committee a.data.slot a.data.index = some members ∧ members.length = a.bits.length)
      ∧ ∀ x, state.indexed a = .ok x →
        (∃ members, state.committee a.data.slot a.data.index = some members
            ∧ Lists members a.bits x.indices)
          ∧ x.data = a.data ∧ x.signature = a.signature
          ∧ (∀ check, checkIndexed scheme state check true x ≠ .error .votersNotSorted)
          ∧ (checkIndexed scheme state .waived true x = .ok ()
            ↔ ∃ i < a.bits.length, a.bits.bit i = true) := by
  constructor
  · simp only [indexed_eq_ok_iff]
    constructor
    · rintro ⟨x, members, hcommittee, hlength, -⟩
      exact ⟨members, hcommittee, hlength⟩
    · rintro ⟨members, hcommittee, hlength⟩
      exact ⟨_, members, hcommittee, hlength, rfl⟩
  · intro x hx
    obtain ⟨members, hcommittee, hlength, rfl⟩ := indexed_eq_ok_iff.mp hx
    have hlists := lists_dropRepeats hlength
    refine ⟨⟨members, hcommittee, hlists⟩, rfl, rfl, fun check => ?_, ?_⟩
    · rw [ne_eq, checkIndexed_eq_votersNotSorted_iff]
      exact fun hrefused => hrefused.2.2 hlists.increasing
    · rw [checkIndexed_iff, ← hlists.ne_nil_iff hlength, isIncreasing_iff]
      exact ⟨fun h => h.1, fun h => ⟨h, hlists.increasing, Or.inl rfl⟩⟩

/-- A state with a single committee, which is not in order and lists a
member twice. -/
def crowdState : BeaconState where
  slot := 1
  fork := {}
  genesisValidatorsRoot := 0
  currentJustified := {}
  previousJustified := {}
  finalized := {}
  committeeCount _ := 1
  committee slot index := if slot = 0 ∧ index = 0 then some [7, 3, 7, 5] else none
  publicKey _ := none
  shufflingSeed _ := 0

/-- If all but the second vote, the member who is listed twice is named
once, behind the fourth. -/
theorem indexed_exact_crowdState :
    let a : Attestation := { bits := ⟨4, [0b1101]⟩ }
    let x : IndexedAttestation := { indices := [5, 7] }
    crowdState.indexed a = .ok x ∧ Lists [7, 3, 7, 5] a.bits x.indices
      ∧ checkIndexed .product crowdState .required true x ≠ .error .votersNotSorted
      ∧ checkIndexed .product crowdState .waived true x = .ok () := by
  intro a x
  have hsorted : inOrder (votersAmong [7, 3, 7, 5] a.bits) = [5, 7, 7] := by
    have hvoters : votersAmong [7, 3, 7, 5] a.bits = [7, 7, 5] := by decide
    simp [hvoters, inOrder, List.mergeSort]
  have hindexed : crowdState.indexed a = .ok x :=
    indexed_eq_ok_iff.mpr ⟨[7, 3, 7, 5], rfl, rfl, by rw [hsorted]; rfl⟩
  obtain ⟨-, hall⟩ := indexed_exact .product crowdState a
  obtain ⟨⟨members, hcommittee, hlists⟩, -, -, hordered, haccepted⟩ := hall x hindexed
  injection hcommittee with hmembers
  exact ⟨hindexed, hmembers ▸ hlists, hordered .required, haccepted.mpr ⟨0, by decide⟩⟩

end ChainHead.Verification
