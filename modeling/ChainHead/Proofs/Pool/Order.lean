/-
In which order a group keeps its members, and which it takes in.

A newcomer goes behind all members with at least as many votes. Since
votes fall along the list these members come first, so that there is
just one such place (`exists_placing`), wherever a search for it starts.

No member has only votes of a later one. A newcomer is refused if it has
only votes of a member. One that is taken in may have all votes of
members, but these have fewer votes and stand behind it: whoever stands
ahead has at least as many, and if these were all votes of the newcomer,
it would have no others (`Bitfield.ones_subset_of_count_le`). So both
are kept, and no order is lost when one is taken out, whatever was
refused for it. The step is `Ordered.insert`.
-/
import ChainHead.Proofs.Cut
import ChainHead.Proofs.Pool.Members

namespace ChainHead.Group

variable {g : Group} {s : Submission} {data : AttestationData} {dataRoot seed : Root}
variable {arrived before behind : List Submission}

-- ============================================== statement vocabulary

/-- The submissions that were taken in and not taken out since, in order
of arrival. -/
def arrivals (start : Group) : List Call → List Submission
  | [] => start.members
  | .add s :: earlier =>
    if ((after start earlier).add s).value.2 then arrivals start earlier ++ [s]
    else arrivals start earlier
  | .remove a :: earlier => (arrivals start earlier).filter fun m => m.attestation ≠ a

/-- Whether the members have one length, are in order of votes and then
of arrival, and none has only votes of a later one. -/
structure Ordered (g : Group) (arrived : List Submission) : Prop where
  length : ∃ n, ∀ m ∈ g.members, m.bits.length = n
  falling : g.members.Pairwise fun m m' => m'.bits.count ≤ m.bits.count
  arrival : ∀ votes, g.members.filter (fun m => m.bits.count = votes)
    = arrived.filter fun m => m.bits.count = votes
  apart : g.members.Pairwise fun m m' => ¬m.bits.ones ⊆ m'.bits.ones

/-- Whether a group has a member of another length than a submission, or
one with all its votes. -/
def Excludes (g : Group) (s : Submission) : Prop :=
  ∃ m ∈ g.members, m.bits.length ≠ s.bits.length ∨ s.bits.ones ⊆ m.bits.ones

/-- Whether the members are divided in those with at least as many votes
as a submission and those with fewer. -/
structure Placing (g : Group) (s : Submission) (before behind : List Submission) : Prop where
  members : g.members = before ++ behind
  ahead : ∀ m ∈ before, s.bits.count ≤ m.bits.count
  fewer : ∀ m ∈ behind, m.bits.count < s.bits.count

/-- What a group does with a newcomer, and with an attestation that is to
be taken out. -/
structure Selective (g : Group) : Prop where
  refused : ∀ s, s.bits.Clean → ((g.add s).value = (g, false) ↔ g.Excludes s)
  placed : ∀ s, s.bits.Clean → ¬g.Excludes s → ∃ before behind, g.Placing s before behind
    ∧ (g.add s).value = ({ g with members := before ++ s :: behind }, true)
  removed : ∀ a, g.remove a = { g with members := g.members.filter fun m =>
    ¬(m.bits = a.bits ∧ m.data = a.data ∧ m.attestation.signature = a.signature) }

-- ============================================================== places

/-- A group refuses, or puts the newcomer in its place. -/
theorem Aligned.add_eq (h : g.Aligned) (hs : s.bits.Clean) :
    (g.Excludes s ∧ (g.add s).value = (g, false))
      ∨ (¬g.Excludes s
        ∧ (g.add s).value = ({ g with members := place s g.members }, true)) := by
  unfold Group.add
  cases hfirst : g.members.head? with
  | none =>
      rw [List.head?_eq_none_iff] at hfirst
      refine Or.inr ⟨?_, ?_⟩
      · rintro ⟨m, hm, -⟩
        rw [hfirst] at hm
        cases hm
      · rw [hfirst]
        rfl
  | some first =>
      have hmem : first ∈ g.members := List.mem_of_mem_head? hfirst
      dsimp only
      split
      case isTrue hlength => exact Or.inl ⟨⟨first, hmem, Or.inl hlength⟩, rfl⟩
      case isFalse hlength =>
        have hsame : ∀ m ∈ g.members, m.bits.length = s.bits.length :=
          h.length_eq ⟨first, hmem, not_not.mp hlength⟩
        have hany : (g.members.any fun m => s.bits.isSubsetOf m.bits) = true ↔ g.Excludes s := by
          rw [List.any_eq_true]
          refine exists_congr fun m => and_congr_right fun hm => ?_
          rw [Bitfield.isSubsetOf_iff hs (h.clean m hm), eq_comm, and_iff_right (hsame m hm),
            or_iff_right (not_not.mpr (hsame m hm))]
        split
        case isTrue hexcludes => exact Or.inl ⟨hany.mp hexcludes, rfl⟩
        case isFalse hexcludes => exact Or.inr ⟨mt hany.mpr hexcludes, rfl⟩

/-- Where votes fall there is a place for every newcomer. -/
theorem exists_placing (hfalling : g.members.Pairwise fun m m' => m'.bits.count ≤ m.bits.count)
    (s : Submission) :
    ∃ before behind, g.Placing s before behind
      ∧ place s g.members = before ++ s :: behind := by
  have hcut : Cut (fun m : Submission => decide (s.bits.count ≤ m.bits.count)) g.members :=
    hfalling.imp fun hle hahead =>
      decide_eq_true (Nat.le_trans (of_decide_eq_true hahead) hle)
  refine ⟨_, _, ⟨List.takeWhile_append_dropWhile.symm, fun m hm => ?_, fun m hm => ?_⟩, rfl⟩
  · have hahead := List.mem_takeWhile_imp hm
    exact of_decide_eq_true hahead
  · exact Nat.lt_of_not_le (of_decide_eq_false (hcut.eq_false_of_mem_dropWhile hm))

/-- What holds of all pairs of a list, and of each with something in the
middle, holds of all pairs with that in the middle. -/
theorem pairwise_middle {α : Type} {R : α → α → Prop} {x : α} {before behind : List α}
    (h : (before ++ behind).Pairwise R) (hbefore : ∀ y ∈ before, R y x)
    (hbehind : ∀ y ∈ behind, R x y) : (before ++ x :: behind).Pairwise R := by
  obtain ⟨hfirst, hrest, hacross⟩ := List.pairwise_append.mp h
  refine List.pairwise_append.mpr ⟨hfirst, List.pairwise_cons.mpr ⟨hbehind, hrest⟩, ?_⟩
  exact fun y hy => List.forall_mem_cons.mpr ⟨hbefore y hy, hacross y hy⟩

-- ============================================================== steps

/-- A newcomer that is not refused keeps the order. -/
theorem Ordered.insert (h : g.Ordered arrived) (hs : ¬g.Excludes s)
    (hplacing : g.Placing s before behind) :
    Ordered { g with members := before ++ s :: behind } (arrived ++ [s]) := by
  have hmem : ∀ m, m ∈ before ++ s :: behind ↔ m = s ∨ m ∈ g.members := fun m => by
    rw [List.mem_append, List.mem_cons, hplacing.members, List.mem_append, or_left_comm]
  have hnew : ∀ m ∈ g.members, ¬s.bits.ones ⊆ m.bits.ones := fun m hm hsub =>
    hs ⟨m, hm, Or.inr hsub⟩
  have hlength : ∀ m ∈ g.members, m.bits.length = s.bits.length := fun m hm =>
    not_not.mp fun hother => hs ⟨m, hm, Or.inl hother⟩
  refine ⟨⟨s.bits.length, fun m hm => ?_⟩, ?_, fun votes => ?_, ?_⟩
  · rcases (hmem m).mp hm with rfl | hold
    · rfl
    · exact hlength m hold
  · exact pairwise_middle (hplacing.members ▸ h.falling) hplacing.ahead
      fun m hm => Nat.le_of_lt (hplacing.fewer m hm)
  · have harrival := h.arrival votes
    rw [hplacing.members, List.filter_append] at harrival
    rw [List.filter_append, List.filter_append, ← harrival, List.filter_cons, List.filter_cons,
      List.filter_nil]
    by_cases hvotes : s.bits.count = votes
    · -- nobody behind has as many votes
      have hnone : behind.filter (fun m => m.bits.count = votes) = [] :=
        List.filter_eq_nil_iff.mpr fun m hm => by
          have hlt := hplacing.fewer m hm
          simp only [decide_eq_true_eq]
          omega
      rw [if_pos (decide_eq_true hvotes), if_pos (decide_eq_true hvotes), hnone, List.append_nil]
    · have hnot : ¬decide (s.bits.count = votes) = true := mt of_decide_eq_true hvotes
      rw [if_neg hnot, if_neg hnot, List.append_nil]
  · refine pairwise_middle (hplacing.members ▸ h.apart) (fun m hm hsub => ?_) fun m hm => ?_
    · have hold : m ∈ g.members := hplacing.members ▸ List.mem_append_left _ hm
      exact hnew m hold (Bitfield.ones_subset_of_count_le hsub (hplacing.ahead m hm))
    · exact hnew m (hplacing.members ▸ List.mem_append_right _ hm)

theorem Ordered.add (h : g.Ordered arrived) (haligned : g.Aligned) (hs : s.bits.Clean) :
    (g.add s).value.1.Ordered (if (g.add s).value.2 then arrived ++ [s] else arrived) := by
  rcases haligned.add_eq hs with ⟨-, heq⟩ | ⟨hnot, heq⟩
  · rw [heq]
    exact h
  · obtain ⟨before, behind, hplacing, hplace⟩ := exists_placing h.falling s
    rw [heq, hplace]
    exact h.insert hnot hplacing

/-- Whatever is taken out, the others stay as they stand. -/
theorem Ordered.remove (h : g.Ordered arrived) (a : Attestation) :
    (g.remove a).Ordered (arrived.filter fun m => m.attestation ≠ a) where
  length := by
    obtain ⟨n, hall⟩ := h.length
    exact ⟨n, fun m hm => hall m (List.mem_of_mem_filter hm)⟩
  falling := h.falling.filter _
  arrival votes := by
    unfold Group.remove
    rw [List.filter_comm, h.arrival, List.filter_comm]
  apart := h.apart.filter _

/-- Nobody has the votes of another. -/
theorem Ordered.nodup_bits (h : g.Ordered arrived) : (g.members.map fun m => m.bits).Nodup := by
  refine List.pairwise_map.mpr (h.apart.imp fun hnot hsame => hnot ?_)
  rw [hsame]
  exact List.Subset.refl _

theorem Ordered.selective (h : g.Ordered arrived) (haligned : g.Aligned) : Selective g where
  refused := by
    intro s hs
    rcases haligned.add_eq hs with ⟨hexcludes, heq⟩ | ⟨hnot, heq⟩
    · exact iff_of_true heq hexcludes
    · refine iff_of_false (fun hrefused => ?_) hnot
      rw [heq] at hrefused
      cases congrArg Prod.snd hrefused
  placed := by
    intro s hs hnot
    rcases haligned.add_eq hs with ⟨hexcludes, -⟩ | ⟨-, heq⟩
    · exact absurd hexcludes hnot
    · obtain ⟨before, behind, hplacing, hplace⟩ := exists_placing h.falling s
      exact ⟨before, behind, hplacing, hplace ▸ heq⟩
  removed := by
    intro a
    unfold Group.remove
    congr 1
    refine List.filter_congr fun m _ => ?_
    rw [decide_eq_decide]
    exact not_congr (Iff.of_eq (Attestation.mk.injEq ..))

-- =============================================================== runs

/-- The members of a group stay in order in any run. -/
theorem ordered_run {calls : List Call} (h : ∀ s ∈ offered calls, s.bits.Clean) :
    (after { data, dataRoot, seed } calls).Ordered (arrivals { data, dataRoot, seed } calls) := by
  induction calls with
  | nil => exact ⟨⟨0, by simp [after]⟩, .nil, fun _ => rfl, .nil⟩
  | cons c earlier ih =>
      cases c with
      | add s =>
          obtain ⟨hs, hearlier⟩ := List.forall_mem_cons.mp h
          exact (ih hearlier).add (aligned_after hearlier) hs
      | remove a => exact (ih h).remove a

/-- After any run of a group its members are in order and no two have the
same votes; a newcomer is refused, which changes nothing, if and only if
it is of another length or has only votes of a member, and else put in
its place, while only equal attestations are taken out. -/
theorem ordered_after (data : AttestationData) (dataRoot seed : Root) (calls : List Call)
    (h : ∀ s ∈ offered calls, s.bits.Clean) :
    let g := after { data, dataRoot, seed } calls
    g.Ordered (arrivals { data, dataRoot, seed } calls)
      ∧ (g.members.map fun m => m.bits).Nodup ∧ g.Selective := by
  intro g
  have hordered : g.Ordered (arrivals { data, dataRoot, seed } calls) := ordered_run h
  exact ⟨hordered, hordered.nodup_bits, hordered.selective (aligned_after h)⟩

/-- The votes of three come first. Two that have two votes each stand as
they came, ahead of a single vote that was there before them. -/
theorem ordered_after_sitting :
    let start : Group := { data := {}, dataRoot := 0, seed := 0 }
    let g := after start sitting
    ((∀ s ∈ offered sitting, s.bits.Clean)
        ∧ g.members.map (fun m => (m.id, m.bits.count)) = [(1, 3), (5, 2), (6, 2), (2, 1)]
        ∧ (arrivals start sitting).map (fun m => m.id) = [1, 2, 5, 6])
      ∧ g.Ordered (arrivals start sitting)
      ∧ (g.members.map fun m => m.bits).Nodup ∧ g.Selective := by
  refine (and_iff_left_of_imp fun hseen => ordered_after {} 0 0 sitting hseen.1).mpr ?_
  decide +kernel

end ChainHead.Group
