/-
Runs of a group: submissions are handed in and attestations taken out,
in any order and number.

Whatever a run does, the members of a group stay aligned
(`aligned_after`), so aggregates can be drawn and cover all votes of the
members. A newcomer is refused only if a member has all its votes, or if
it is of another length; so as long as nothing is taken out, the votes
of the members are those of all submissions of their length that were
ever handed in (`keeps_offered`).
-/
import ChainHead.Proofs.Pool.Contents
import ChainHead.Proofs.Pool.Cover
import ChainHead.Proofs.Verification

namespace ChainHead.Group

variable {g : Group} {s : Submission} {data : AttestationData} {dataRoot seed : Root}

-- ================================================================ runs

/-- What can be asked of a group that changes its members. -/
inductive Call where
  | add (submission : Submission)
  | remove (attestation : Attestation)

/-- The group after one call. -/
def call (g : Group) : Call → Group
  | .add s => (g.add s).value.1
  | .remove a => g.remove a

/-- The group after a run, given newest call first. -/
def after (start : Group) : List Call → Group
  | [] => start
  | c :: earlier => (after start earlier).call c

/-- The submissions that were handed in. -/
def offered (calls : List Call) : List Submission :=
  calls.filterMap fun
    | .add s => some s
    | .remove _ => none

-- =========================================================== alignment

/-- A newcomer is refused for a member of another length, or for one
that has all its votes. -/
theorem add_outcome (g : Group) (s : Submission) :
    ((g.add s).value = (g, false) ∧ ∃ m ∈ g.members,
        m.bits.length ≠ s.bits.length ∨ s.bits.isSubsetOf m.bits = true)
      ∨ ∃ members, (g.add s).value = ({ g with members }, true)
        ∧ members.Perm (s :: g.members)
        ∧ ∀ first ∈ g.members.head?, first.bits.length = s.bits.length := by
  unfold add
  cases hfirst : g.members.head? with
  | none =>
      rw [List.head?_eq_none_iff] at hfirst
      exact Or.inr ⟨[s], rfl, by rw [hfirst], by simp⟩
  | some first =>
      dsimp only
      split
      case isTrue hlength =>
        exact Or.inl ⟨rfl, first, List.mem_of_mem_head? hfirst, Or.inl hlength⟩
      case isFalse hlength =>
        split
        case isTrue hany =>
          obtain ⟨m, hm, hsub⟩ := List.any_eq_true.mp hany
          exact Or.inl ⟨rfl, m, hm, Or.inr hsub⟩
        case isFalse =>
          refine Or.inr ⟨_, rfl, place_perm s g.members, fun m hm => ?_⟩
          rw [← Option.mem_some.mp hm]
          exact not_not.mp hlength

/-- Members of an aligned group that has members of some length all have
it. -/
theorem Aligned.length_eq (h : g.Aligned) {n : Nat} (hn : ∃ m ∈ g.members, m.bits.length = n) :
    ∀ m ∈ g.members, m.bits.length = n := by
  obtain ⟨m, hm, hlength⟩ := hn
  intro m' hm'
  rw [h.length m' hm', ← h.length m hm, hlength]

theorem Aligned.add (h : g.Aligned) (hs : s.bits.Clean) : (g.add s).value.1.Aligned := by
  rcases g.add_outcome s with ⟨heq, -⟩ | ⟨members, heq, hperm, hfirst⟩
  · rw [heq]
    exact h
  · rw [heq]
    refine aligned_iff.mpr ⟨s.bits.length, fun m hm => ?_⟩
    rcases List.mem_cons.mp (hperm.mem_iff.mp hm) with rfl | hold
    · exact ⟨hs, rfl⟩
    · refine ⟨h.clean m hold, h.length_eq ?_ m hold⟩
      obtain ⟨first, rest, hmembers⟩ := List.exists_cons_of_ne_nil (List.ne_nil_of_mem hold)
      rw [hmembers] at hfirst
      exact ⟨first, hmembers ▸ List.mem_cons_self, hfirst first rfl⟩

theorem Aligned.remove (h : g.Aligned) (a : Attestation) : (g.remove a).Aligned := by
  obtain ⟨n, hall⟩ := aligned_iff.mp h
  exact aligned_iff.mpr ⟨n, fun m hm => hall m (List.mem_of_mem_filter hm)⟩

/-- The members of a group stay aligned in any run. -/
theorem aligned_after {calls : List Call} (h : ∀ s ∈ offered calls, s.bits.Clean) :
    (after { data, dataRoot, seed } calls).Aligned := by
  induction calls with
  | nil => exact ⟨by simp [after], by simp [after]⟩
  | cons c earlier ih =>
      cases c with
      | add s =>
          obtain ⟨hs, hearlier⟩ := List.forall_mem_cons.mp h
          exact (ih hearlier).add hs
      | remove a => exact (ih h).remove a

-- ======================================================== offered votes

/-- Whether the votes of a group are those of the submissions, of a
list, that are of its length; without members it has seen none. -/
structure Keeps (g : Group) (seen : List Submission) : Prop where
  empty : g.members = [] → seen = []
  votes : ∀ i, (∃ m ∈ g.members, i ∈ m.bits.ones)
    ↔ ∃ s ∈ seen, (∃ m ∈ g.members, m.bits.length = s.bits.length) ∧ i ∈ s.bits.ones

theorem Keeps.add {seen : List Submission} (h : g.Keeps seen) (haligned : g.Aligned)
    (hs : s.bits.Clean) : (g.add s).value.1.Keeps (s :: seen) := by
  have haligned' := haligned.add hs
  rcases g.add_outcome s with ⟨heq, m, hm, hwhy⟩ | ⟨members, heq, hperm, hfirst⟩
  · rw [heq]
    refine ⟨fun hnil => absurd hnil (List.ne_nil_of_mem hm), fun i => ?_⟩
    rw [List.exists_mem_cons_iff, ← h.votes]
    refine (or_iff_right_of_imp fun ⟨hlength, hi⟩ => ?_).symm
    -- it was not refused for its length
    rcases hwhy with hother | hsub
    · exact absurd (haligned.length_eq hlength m hm) hother
    · exact ⟨m, hm, ((Bitfield.isSubsetOf_iff hs (haligned.clean m hm)).mp hsub).2 hi⟩
  · rw [heq] at haligned' ⊢
    have hmem : ∀ m, m ∈ members ↔ m = s ∨ m ∈ g.members := fun m =>
      hperm.mem_iff.trans List.mem_cons
    have hs' : s ∈ members := (hmem s).mpr (Or.inl rfl)
    refine ⟨fun hnil => absurd hnil (List.ne_nil_of_mem hs'), fun i => ⟨?_, ?_⟩⟩
    · rintro ⟨m, hm, hi⟩
      rcases (hmem m).mp hm with rfl | hold
      · exact ⟨m, List.mem_cons_self, ⟨m, hm, rfl⟩, hi⟩
      · obtain ⟨t, ht, ⟨m', hm', hlength⟩, hit⟩ := (h.votes i).mp ⟨m, hold, hi⟩
        exact ⟨t, List.mem_cons_of_mem s ht, ⟨m', (hmem m').mpr (Or.inr hm'), hlength⟩, hit⟩
    · rintro ⟨t, ht, hlength, hi⟩
      rcases List.mem_cons.mp ht with rfl | ht
      · exact ⟨t, hs', hi⟩
      · -- there were members, of the length that all have now
        obtain ⟨first, rest, hmembers⟩ := List.exists_cons_of_ne_nil
          fun hnil => List.ne_nil_of_mem ht (h.empty hnil)
        have hold : first ∈ g.members := hmembers ▸ List.mem_cons_self
        have hsame := haligned'.length_eq hlength first ((hmem first).mpr (Or.inr hold))
        obtain ⟨m, hm, hvote⟩ := (h.votes i).mpr ⟨t, ht, ⟨first, hold, hsame⟩, hi⟩
        exact ⟨m, (hmem m).mpr (Or.inr hm), hvote⟩

/-- As long as nothing is taken out, a group has all votes of its length
that it was offered. -/
theorem keeps_offered {calls : List Call} (h : ∀ s ∈ offered calls, s.bits.Clean)
    (hkept : ∀ a, Call.remove a ∉ calls) :
    (after { data, dataRoot, seed } calls).Keeps (offered calls) := by
  induction calls with
  | nil => exact ⟨fun _ => rfl, fun i => by simp [after, offered]⟩
  | cons c earlier ih =>
      cases c with
      | remove a => exact absurd List.mem_cons_self (hkept a)
      | add s =>
          obtain ⟨hs, hearlier⟩ := List.forall_mem_cons.mp h
          exact (ih hearlier fun a ha => hkept a (List.mem_cons_of_mem _ ha)).add
            (aligned_after hearlier) hs

/-- After any run of a group, its aggregates can be drawn until nothing
is uncovered, each made of members and with a vote of its own; together
they have the votes of all members, and of all that were ever offered
unless some were taken out. -/
theorem aggregates_cover (scheme : SignatureScheme) (data : AttestationData)
    (dataRoot seed : Root) (calls : List Call) (h : ∀ s ∈ offered calls, s.bits.Clean) :
    let g := after { data, dataRoot, seed } calls
    ∃ items, g.aggregates scheme = .ok items
      ∧ g.Drawn scheme g.nothingCovered items
      ∧ g.Covers scheme items
      ∧ ((∀ a, Call.remove a ∉ calls) → ∀ i, (∃ a ∈ items, i ∈ a.bits.ones)
        ↔ ∃ s ∈ offered calls, (∃ m ∈ g.members, m.bits.length = s.bits.length)
          ∧ i ∈ s.bits.ones) := by
  intro g
  have haligned : g.Aligned := aligned_after h
  obtain ⟨items, hok, hdrawn, hcovers⟩ := haligned.aggregates_eq_ok scheme
  refine ⟨items, hok, hdrawn, hcovers, fun hkept i => ?_⟩
  exact (hcovers.votes i).trans ((keeps_offered h hkept).votes i)

/-- The votes of some of five members of a committee, under a number that
is a signature or not. -/
def votesOfFive (id : Nat) (votes : UInt8) (signed : Bool) : Submission :=
  { id, attestation := ⟨⟨5, [votes]⟩, {}, BitVec.cons signed (BitVec.ofNat 767 id)⟩ }

/-- Three of the members vote and then another, and a vote of the three
is handed in once more. One submission comes and is taken out; then come
the votes of others, one without a signature, and those of another
committee. -/
def sitting : List Call :=
  [.add { id := 7, attestation := { bits := ⟨6, [1]⟩ } },
    .add (votesOfFive 6 0b10001 false),
    .add (votesOfFive 5 0b01001 true),
    .remove (votesOfFive 4 0b01010 true).attestation,
    .add (votesOfFive 4 0b01010 true),
    .add (votesOfFive 3 0b00001 true),
    .add (votesOfFive 2 0b01000 true),
    .add (votesOfFive 1 0b00111 true)]

/-- The first and the last of the four members that are left give one
aggregate, with the sum of their signatures. Of the other two the one
without a signature is not covered. -/
theorem aggregates_cover_sitting :
    let g := after { data := {}, dataRoot := 0, seed := 0 } sitting
    ((∀ s ∈ offered sitting, s.bits.Clean)
        ∧ g.members.map (fun m => m.id) = [1, 5, 6, 2]
        ∧ g.aggregates .product
          = .ok [⟨⟨5, [0b01111]⟩, {}, BitVec.cons true (BitVec.ofNat 767 3)⟩,
            (votesOfFive 6 0b10001 false).attestation])
      ∧ ∃ items, g.aggregates .product = .ok items
        ∧ g.Drawn .product g.nothingCovered items
        ∧ g.Covers .product items
        ∧ ((∀ a, Call.remove a ∉ sitting) → ∀ i, (∃ a ∈ items, i ∈ a.bits.ones)
          ↔ ∃ s ∈ offered sitting, (∃ m ∈ g.members, m.bits.length = s.bits.length)
            ∧ i ∈ s.bits.ones) := by
  refine (and_iff_left_of_imp fun hseen =>
    aggregates_cover .product {} 0 0 sitting hseen.1).mpr ?_
  decide +kernel

end ChainHead.Group
