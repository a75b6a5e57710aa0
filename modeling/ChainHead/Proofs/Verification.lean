/-
What it takes for an attestation to stand up to a state.

`Stands` is the check that a received attestation goes through: its
voters are named, sorted and without repetition, and its signature is
verified with the keys of all of them. Of a committee without
repetitions nothing is dropped, so the voters named are the members at
the ones of the bitfield, each once, in another order (`stands_iff`).

Schemes in which accepted signatures can be added (`Additive`) accept
the sum of any number of them for all their signers, in any order
(`Signed.foldl`). `SignatureScheme.product` is one.
-/
import ChainHead.Verification.Indexed
import ChainHead.Proofs.Bitfield
import Mathlib.Algebra.BigOperators.Ring.List
import Mathlib.Data.BitVec
import Mathlib.Data.List.Perm.Basic

namespace ChainHead

open BeaconState (pick dropRepeats)

-- ============================================== statement vocabulary

/-- Whether what a scheme encodes can be decoded again, and the sum of
two accepted signatures of one message is accepted for the keys of both
together, in any order. -/
structure SignatureScheme.Additive (scheme : SignatureScheme) : Prop where
  decode_encode : ∀ signature, scheme.decode (scheme.encode signature) = .ok signature
  verify_add : ∀ {signature signature' : scheme.Signature} {message : Root}
    {keys keys' all : List scheme.PublicKey},
    scheme.verify signature message keys = true → scheme.verify signature' message keys' = true →
      all.Perm (keys ++ keys') → scheme.verify (scheme.add signature signature') message all = true

namespace Verification

/-- Whether an attestation, its voters named, passes the check of a
received one with its signature. -/
def Stands (scheme : SignatureScheme) (state : BeaconState) (a : Attestation) : Prop :=
  ∃ indexed, state.indexed a = .ok indexed
    ∧ checkIndexed scheme state .required true indexed = .ok ()

/-- Whether a signature of data is accepted for the keys of validators. -/
def Signed (scheme : SignatureScheme) (state : BeaconState) (data : AttestationData)
    (signature : scheme.Signature) (validators : List ValidatorIndex) : Prop :=
  ∃ keys, List.Forall₂ (fun v key => keyOf scheme state v = .ok key) validators keys
    ∧ scheme.verify signature (state.signingRoot data) keys = true

/-- Validators in increasing order, as they are named. -/
def inOrder (validators : List ValidatorIndex) : List ValidatorIndex :=
  validators.mergeSort fun x y => decide (x ≤ y)

/-- The members of a committee at the ones of a bitfield. -/
def votersAmong (members : List ValidatorIndex) (bits : Bitfield) : List ValidatorIndex :=
  bits.ones.map fun i => members.getD i 0

/-- Whether validators are the members of a committee at the ones of a
bitfield, each listed once and in increasing order. -/
structure Lists (members : List ValidatorIndex) (bits : Bitfield)
    (validators : List ValidatorIndex) : Prop where
  increasing : validators.Pairwise (· < ·)
  mem : ∀ v, v ∈ validators ↔ ∃ i, bits.bit i = true ∧ members[i]? = some v

variable {scheme : SignatureScheme} {state : BeaconState} {data : AttestationData}
variable {a : Attestation} {bits : Bitfield} {members validators : List ValidatorIndex}

-- ============================================================== voters

/-- Members are picked at the positions that a test selects. -/
theorem pick_map_range (p : Nat → Bool) (members : List ValidatorIndex) :
    pick ((List.range members.length).map p) members
      = ((List.range members.length).filter p).map fun i => members.getD i 0 := by
  induction members generalizing p with
  | nil => rfl
  | cons v members ih =>
      rw [List.length_cons, List.range_succ_eq_map, List.map_cons, List.map_map,
        List.filter_cons, List.filter_map]
      have hrest := ih (p ∘ Nat.succ)
      cases hp : p 0 with
      | true =>
          rw [pick, hrest, if_pos rfl, List.map_cons, List.map_map]
          rfl
      | false =>
          rw [pick, hrest, if_neg Bool.false_ne_true, List.map_map]
          rfl

theorem pick_sublist {α : Type} (flags : List Bool) (members : List α) :
    (pick flags members).Sublist members := by
  induction flags, members using BeaconState.pick.induct with
  | case1 flags v members ih =>
      rw [pick]
      exact ih.cons_cons v
  | case2 flags v members ih =>
      rw [pick]
      exact ih.cons v
  | case3 flags members htrue hfalse =>
      rw [pick]
      · exact List.nil_sublist _
      · exact htrue
      · exact hfalse

theorem pick_bits (h : members.length = bits.length) :
    pick bits.bits members = votersAmong members bits := by
  unfold Bitfield.bits votersAmong Bitfield.ones
  rw [← h]
  exact pick_map_range bits.bit members

theorem mem_votersAmong (h : members.length = bits.length) {v : ValidatorIndex} :
    v ∈ votersAmong members bits ↔ ∃ i, bits.bit i = true ∧ members[i]? = some v := by
  unfold votersAmong Bitfield.ones
  simp only [List.mem_map, List.mem_filter, List.mem_range]
  refine exists_congr fun i => ?_
  constructor
  · rintro ⟨⟨hlt, hbit⟩, rfl⟩
    have hi : i < members.length := h ▸ hlt
    exact ⟨hbit, by rw [List.getD_eq_getElem _ _ hi, List.getElem?_eq_getElem hi]⟩
  · rintro ⟨hbit, hv⟩
    obtain ⟨hi, rfl⟩ := List.getElem?_eq_some_iff.mp hv
    exact ⟨⟨h ▸ hi, hbit⟩, List.getD_eq_getElem _ _ hi⟩

theorem nodup_votersAmong (h : members.length = bits.length) (hnodup : members.Nodup) :
    (votersAmong members bits).Nodup := by
  rw [← pick_bits h]
  exact (pick_sublist _ members).nodup hnodup

-- =============================================================== order

theorem inOrder_perm (validators : List ValidatorIndex) :
    (inOrder validators).Perm validators :=
  List.mergeSort_perm _ _

theorem inOrder_of_pairwise (h : validators.Pairwise (· ≤ ·)) : inOrder validators = validators :=
  List.mergeSort_of_pairwise (h.imp decide_eq_true)

theorem sorted_inOrder (validators : List ValidatorIndex) :
    (inOrder validators).Pairwise (· ≤ ·) := by
  have hsorted : (inOrder validators).Pairwise fun x y => decide (x ≤ y) = true :=
    @List.pairwise_mergeSort ValidatorIndex (fun x y => decide (x ≤ y))
      (fun x y z hxy hyz => decide_eq_true
        (UInt64.le_trans (of_decide_eq_true hxy) (of_decide_eq_true hyz)))
      (fun x y => by simpa using UInt64.le_total x y) validators
  exact hsorted.imp of_decide_eq_true

theorem pairwise_inOrder (h : validators.Nodup) :
    (inOrder validators).Pairwise (· < ·) := by
  have hne : (inOrder validators).Nodup := (inOrder_perm validators).nodup_iff.mpr h
  exact ((sorted_inOrder validators).and hne).imp
    fun ⟨hxy, hxy'⟩ => UInt64.lt_of_le_of_ne hxy hxy'

theorem dropRepeats_of_pairwise :
    ∀ {validators : List ValidatorIndex}, validators.Pairwise (· < ·) →
      dropRepeats validators = validators
  | [], _ => rfl
  | [_], _ => rfl
  | v :: w :: rest, h => by
      have hlt : v < w := List.rel_of_pairwise_cons h List.mem_cons_self
      rw [dropRepeats, if_neg (UInt64.ne_of_lt hlt), dropRepeats_of_pairwise h.of_cons]

/-- Only repetitions are dropped. -/
theorem mem_dropRepeats {x : ValidatorIndex} :
    x ∈ dropRepeats validators ↔ x ∈ validators := by
  induction validators using BeaconState.dropRepeats.induct with
  | case1 v rest ih =>
      rw [dropRepeats, if_pos rfl, ih]
      simp
  | case2 v w rest hne ih =>
      rw [dropRepeats, if_neg hne, List.mem_cons, ih, List.mem_cons (a := x) (b := v)]
  | case3 short hshort =>
      rw [dropRepeats]
      exact hshort

/-- In order, equal validators are neighbours. -/
theorem pairwise_dropRepeats (h : validators.Pairwise (· ≤ ·)) :
    (dropRepeats validators).Pairwise (· < ·) := by
  induction validators using BeaconState.dropRepeats.induct with
  | case1 v rest ih =>
      rw [dropRepeats, if_pos rfl]
      exact ih h.of_cons
  | case2 v w rest hne ih =>
      rw [dropRepeats, if_neg hne]
      refine List.pairwise_cons.mpr ⟨fun x hx => ?_, ih h.of_cons⟩
      -- whatever comes later is at least the next, which is greater
      have hvw : v < w :=
        UInt64.lt_of_le_of_ne (List.rel_of_pairwise_cons h List.mem_cons_self) hne
      rcases List.mem_cons.mp (mem_dropRepeats.mp hx) with rfl | hrest
      · exact hvw
      · exact UInt64.lt_of_lt_of_le hvw (List.rel_of_pairwise_cons h.of_cons hrest)
  | case3 short hshort =>
      rw [dropRepeats]
      · match short, hshort with
        | [], _ => exact .nil
        | [v], _ => exact List.pairwise_singleton _ v
        | v :: w :: rest, hshort => exact absurd rfl (hshort v w rest)
      · exact hshort

theorem isIncreasing_of_pairwise (h : validators.Pairwise (· < ·)) :
    isIncreasing validators = true := by
  induction validators using isIncreasing.induct with
  | case1 v w rest ih =>
      rw [isIncreasing, ih h.of_cons, Bool.and_true]
      exact decide_eq_true (List.rel_of_pairwise_cons h List.mem_cons_self)
  | case2 short hshort =>
      rw [isIncreasing]
      exact hshort

/-- The voters are listed if their order is right and repetitions are
dropped. -/
theorem lists_dropRepeats (h : members.length = bits.length) :
    Lists members bits (dropRepeats (inOrder (votersAmong members bits))) where
  increasing := pairwise_dropRepeats (sorted_inOrder _)
  mem v := by rw [mem_dropRepeats, (inOrder_perm _).mem_iff, mem_votersAmong h]

/-- There is only one way to list them. -/
theorem Lists.unique (h : Lists members bits validators) {validators' : List ValidatorIndex}
    (h' : Lists members bits validators') : validators = validators' :=
  h.increasing.eq_of_mem_iff h'.increasing fun v => (h.mem v).trans (h'.mem v).symm

/-- Voters are named out of a committee as long as the bitfield. -/
theorem indexed_eq_ok_iff {x : IndexedAttestation} :
    state.indexed a = .ok x
      ↔ ∃ members, state.committee a.data.slot a.data.index = some members
        ∧ members.length = a.bits.length
        ∧ x = ⟨dropRepeats (inOrder (votersAmong members a.bits)), a.data, a.signature⟩ := by
  unfold BeaconState.indexed BeaconState.voters
  cases state.committee a.data.slot a.data.index with
  | none => simp [bind, Except.bind]
  | some members =>
      dsimp only
      by_cases hlength : members.length = a.bits.length
      · rw [if_pos hlength, pick_bits hlength]
        simp only [bind, Except.bind, pure, Except.pure, Except.ok.injEq, Option.some.injEq,
          exists_eq_left', hlength, true_and]
        exact eq_comm
      · simp [hlength, bind, Except.bind]

/-- Of voters without repetition none is dropped. -/
theorem indexed_eq_ok (hcommittee : state.committee a.data.slot a.data.index = some members)
    (hlength : members.length = a.bits.length) (hnodup : members.Nodup) :
    state.indexed a = .ok ⟨inOrder (votersAmong members a.bits), a.data, a.signature⟩ := by
  refine indexed_eq_ok_iff.mpr ⟨members, hcommittee, hlength, ?_⟩
  rw [dropRepeats_of_pairwise (pairwise_inOrder (nodup_votersAmong hlength hnodup))]

-- ============================================================ the check

theorem mapM_eq_ok_iff {α β ε : Type} {f : α → Except ε β} {xs : List α} {ys : List β} :
    xs.mapM f = .ok ys ↔ List.Forall₂ (fun x y => f x = .ok y) xs ys := by
  induction xs generalizing ys with
  | nil => cases ys <;> simp [pure, Except.pure]
  | cons x xs ih =>
      rw [List.mapM_cons, List.forall₂_cons_left_iff]
      cases hx : f x with
      | error e => simp [bind, Except.bind]
      | ok y =>
          cases hxs : xs.mapM f with
          | error e => simp [bind, Except.bind, hxs, ← ih]
          | ok ys' => simp [bind, Except.bind, pure, Except.pure, hxs, ← ih, eq_comm]

theorem checkSignature_eq_ok_iff {message : Root} {bytes : SignatureBytes}
    {keys : List scheme.PublicKey} {kind : SignatureKind} :
    checkSignature scheme message bytes keys kind = .ok ()
      ↔ ∃ signature, scheme.decode bytes = .ok signature
        ∧ scheme.verify signature message keys = true := by
  unfold checkSignature
  cases hdecode : scheme.decode bytes with
  | error e => simp [Except.mapError, bind, Except.bind]
  | ok signature =>
      cases hverify : scheme.verify signature message keys with
      | true => simp [Except.mapError, bind, Except.bind, pure, Except.pure, hverify]
      | false =>
          simp [Except.mapError, bind, Except.bind, hverify, throw, throwThe, MonadExceptOf.throw]

/-- The check is a row of checks: for voters, for their order, and for
their signature. -/
theorem checkIndexed_eq (scheme : SignatureScheme) (state : BeaconState) (check : SignatureCheck)
    (received : Bool) (x : IndexedAttestation) :
    checkIndexed scheme state check received x
      = if x.indices.isEmpty then .error .noVoters
        else if received && !isIncreasing x.indices then .error .votersNotSorted
        else match check with
          | .waived => .ok ()
          | .required => x.indices.mapM (keyOf scheme state) >>= fun keys =>
            checkSignature scheme (state.signingRoot x.data) x.signature keys .attestation :=
  rfl

/-- An attestation with its voters named passes if there are voters, in
increasing order, who signed it unless the signature is waived. -/
theorem checkIndexed_iff {check : SignatureCheck} {x : IndexedAttestation} :
    checkIndexed scheme state check true x = .ok ()
      ↔ x.indices ≠ [] ∧ isIncreasing x.indices = true
        ∧ (check = .waived ∨ ∃ signature, scheme.decode x.signature = .ok signature
          ∧ Signed scheme state x.data signature x.indices) := by
  rw [checkIndexed_eq, Bool.true_and]
  split
  case isTrue hempty => simp [List.isEmpty_iff.mp hempty]
  case isFalse hsome =>
    have hne : x.indices ≠ [] := mt List.isEmpty_iff.mpr hsome
    split
    case isTrue horder =>
      rw [Bool.not_eq_true'] at horder
      simp [horder]
    case isFalse horder =>
      have hincreasing : isIncreasing x.indices = true := by simpa using horder
      rw [and_iff_right hne, and_iff_right hincreasing]
      cases check with
      | waived => simp
      | required =>
          simp only [bind_eq_ok_iff, mapM_eq_ok_iff, checkSignature_eq_ok_iff, reduceCtorEq,
            false_or]
          constructor
          · rintro ⟨keys, hkeys, signature, hdecode, hverify⟩
            exact ⟨signature, hdecode, keys, hkeys, hverify⟩
          · rintro ⟨signature, hdecode, keys, hkeys, hverify⟩
            exact ⟨keys, hkeys, signature, hdecode, hverify⟩

theorem checkIndexed_eq_ok_iff {x : IndexedAttestation} :
    checkIndexed scheme state .required true x = .ok ()
      ↔ x.indices ≠ [] ∧ isIncreasing x.indices = true
        ∧ ∃ signature, scheme.decode x.signature = .ok signature
          ∧ Signed scheme state x.data signature x.indices := by
  rw [checkIndexed_iff]
  simp

/-- Whoever is named is a member of the committee at a one of the bitfield.
The data are not changed. -/
theorem of_indexed_eq_ok {x : IndexedAttestation} (h : state.indexed a = .ok x) :
    x.data = a.data ∧ ∃ members, state.committee a.data.slot a.data.index = some members
      ∧ members.length = a.bits.length
      ∧ ∀ v ∈ x.indices, ∃ i, a.bits.bit i = true ∧ members[i]? = some v := by
  obtain ⟨members, hcommittee, hlength, rfl⟩ := indexed_eq_ok_iff.mp h
  exact ⟨rfl, members, hcommittee, hlength, fun v hv => ((lists_dropRepeats hlength).mem v).mp hv⟩

/-- An attestation stands if it has voters, out of a committee as long as
its bitfield, and they signed it. -/
theorem stands_iff (hcommittee : state.committee a.data.slot a.data.index = some members)
    (hnodup : members.Nodup) :
    Stands scheme state a ↔ members.length = a.bits.length ∧ a.bits.ones ≠ []
      ∧ ∃ signature, scheme.decode a.signature = .ok signature
        ∧ Signed scheme state a.data signature (inOrder (votersAmong members a.bits)) := by
  unfold Stands
  by_cases hlength : members.length = a.bits.length
  · have hne : inOrder (votersAmong members a.bits) ≠ [] ↔ a.bits.ones ≠ [] := by
      rw [ne_eq, ne_eq, ← List.length_eq_zero_iff, (inOrder_perm _).length_eq, votersAmong,
        List.length_map, List.length_eq_zero_iff]
    rw [indexed_eq_ok hcommittee hlength hnodup]
    simp only [Except.ok.injEq, exists_eq_left', checkIndexed_eq_ok_iff,
      isIncreasing_of_pairwise (pairwise_inOrder (nodup_votersAmong hlength hnodup)), hne,
      hlength, true_and]
  · have herror : state.indexed a = .error (.committeeLength a.bits.length members.length) := by
      rw [BeaconState.indexed, BeaconState.voters, hcommittee]
      dsimp only
      rw [if_neg hlength]
      rfl
    simp [herror, hlength]

theorem Stands.exists_committee (h : Stands scheme state a) :
    ∃ members, state.committee a.data.slot a.data.index = some members
      ∧ members.length = a.bits.length := by
  obtain ⟨indexed, hindexed, -⟩ := h
  obtain ⟨-, members, hcommittee, hlength, -⟩ := of_indexed_eq_ok hindexed
  exact ⟨members, hcommittee, hlength⟩

-- ============================================================ signatures

/-- Who signed in two parts has signed the sum, in any order. -/
theorem Signed.add (law : scheme.Additive) {signature signature' : scheme.Signature}
    {validators' all : List ValidatorIndex} (h : Signed scheme state data signature validators)
    (h' : Signed scheme state data signature' validators')
    (hall : all.Perm (validators ++ validators')) :
    Signed scheme state data (scheme.add signature signature') all := by
  obtain ⟨keys, hkeys, hverify⟩ := h
  obtain ⟨keys', hkeys', hverify'⟩ := h'
  obtain ⟨allKeys, hallKeys, hperm⟩ := List.perm_comp_forall₂ hall (List.rel_append hkeys hkeys')
  exact ⟨allKeys, hallKeys, law.verify_add hverify hverify' hperm⟩

/-- Who signed in several parts has signed the sum from left to right. -/
theorem Signed.foldl (law : scheme.Additive) {signature : scheme.Signature}
    (h : Signed scheme state data signature validators) {rest : List scheme.Signature}
    {parts : List (List ValidatorIndex)} (hrest : List.Forall₂ (Signed scheme state data) rest parts)
    (hne : rest ≠ []) {all : List ValidatorIndex} (hall : all.Perm (validators ++ parts.flatten)) :
    Signed scheme state data (rest.foldl scheme.add signature) all := by
  induction hrest generalizing signature validators with
  | nil => exact absurd rfl hne
  | @cons signature' part rest parts hpart hparts ih =>
      rw [List.foldl_cons]
      rw [List.flatten_cons] at hall
      cases hparts with
      | nil =>
          rw [List.flatten_nil, List.append_nil] at hall
          exact h.add law hpart hall
      | cons hnext hmore =>
          rw [← List.append_assoc] at hall
          exact ih (h.add law hpart (.refl _)) (List.cons_ne_nil _ _) hall

end Verification

-- ================================================== an additive scheme

/-- Whether a number is the sum of the products of a message and keys,
of which there has to be one. -/
def isSumOfProducts (signature : BitVec 767) (message : Root) (keys : List (BitVec 767)) : Bool :=
  keys ≠ [] && signature == (keys.map (· * message.setWidth 767)).sum

/-- A number behind a bit that has to be set. -/
def decodeNumber (bytes : SignatureBytes) : Except KeyError (BitVec 767) :=
  if bytes.msb then .ok (bytes.setWidth 767) else .error .invalidSignature

/-- A scheme of numbers, in which a key signs a message by multiplying
the two. -/
def SignatureScheme.product : SignatureScheme where
  PublicKey := BitVec 767
  Signature := BitVec 767
  decodeKey key := .ok (key.setWidth 767)
  decode := decodeNumber
  encode := BitVec.cons true
  add := (· + ·)
  verify := isSumOfProducts

theorem isSumOfProducts_add {signature signature' : BitVec 767} {message : Root}
    {keys keys' all : List (BitVec 767)} (h : isSumOfProducts signature message keys = true)
    (h' : isSumOfProducts signature' message keys' = true) (hall : all.Perm (keys ++ keys')) :
    isSumOfProducts (signature + signature') message all = true := by
  simp only [isSumOfProducts, Bool.and_eq_true, decide_eq_true_eq, beq_iff_eq] at h h' ⊢
  refine ⟨?_, ?_⟩
  · rintro rfl
    exact h.1 (List.append_eq_nil_iff.mp hall.nil_eq.symm).1
  · rw [(hall.map _).sum_eq, List.map_append, List.sum_append, ← h.2, ← h'.2]

/-- Some keys together sign by multiplying their sum. -/
theorem isSumOfProducts_sum (message : Root) {keys : List (BitVec 767)} (h : keys ≠ []) :
    isSumOfProducts (keys.sum * message.setWidth 767) message keys = true := by
  rw [isSumOfProducts, decide_eq_true h, Bool.true_and, beq_iff_eq, List.sum_map_mul_right,
    List.map_id']

theorem decodeNumber_cons (number : BitVec 767) :
    decodeNumber (BitVec.cons true number) = .ok number := by
  rw [decodeNumber, if_pos BitVec.msb_cons, BitVec.setWidth_cons]

theorem SignatureScheme.product_additive : product.Additive where
  decode_encode := decodeNumber_cons
  verify_add := isSumOfProducts_add

end ChainHead
