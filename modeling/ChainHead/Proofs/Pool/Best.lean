/-
How good the aggregate is that a pool gives for some data.

It is the first that the group of the data gives, which starts from the
member with the most votes. So there is one as soon as a member has
votes, and it has as many as any member. As long as signatures can be
decoded it is also greedy: everybody else has a vote in common with it,
and could not be joined as well (`Aligned.gathered_of_decodable`).

Greedy is not best. Those that have a vote in common with the first
member may fit each other, and have more votes together
(`outdone_after_rally`). This takes submissions that overlap in part. If
of any two with a vote in common one has all votes of the other, nobody
who is passed over has a vote that is missing, and there is no other
aggregate at all.
-/
import ChainHead.Proofs.Pool.Interchange
import ChainHead.Proofs.Pool.Order

namespace ChainHead

-- =============================================================== groups

namespace Group

variable {scheme : SignatureScheme} {g : Group} {a : Attestation} {covered : Bitfield}
variable {first : Submission} {rest : List Submission}

/-- Whether the signatures of all submissions can be decoded. -/
def Decodable (scheme : SignatureScheme) (members : List Submission) : Prop :=
  ∀ m ∈ members, (scheme.decode m.attestation.signature).isOk

/-- Whether of any two submissions with a vote in common one has all votes
of the other. -/
def Nested (members : List Submission) : Prop :=
  ∀ m ∈ members, ∀ m' ∈ members, (∃ i ∈ m.bits.ones, i ∈ m'.bits.ones) →
    m.bits.ones ⊆ m'.bits.ones ∨ m'.bits.ones ⊆ m.bits.ones

instance (scheme : SignatureScheme) (members : List Submission) :
    Decidable (Decodable scheme members) :=
  inferInstanceAs (Decidable (∀ m ∈ members, (scheme.decode m.attestation.signature).isOk))

instance (members : List Submission) : Decidable (Nested members) :=
  inferInstanceAs (Decidable (∀ m ∈ members, ∀ m' ∈ members,
    (∃ i ∈ m.bits.ones, i ∈ m'.bits.ones) →
      m.bits.ones ⊆ m'.bits.ones ∨ m'.bits.ones ⊆ m.bits.ones))

/-- How an attestation compares to the members of its group. -/
structure Foremost (scheme : SignatureScheme) (g : Group) (a : Attestation) : Prop where
  first : ∃ others, g.aggregates scheme = .ok (a :: others)
  voted : ∃ m ∈ g.members, m.bits.ones ≠ []
  most : ∀ m ∈ g.members, m.bits.count ≤ a.bits.count
  maximal : Decodable scheme g.members → ∀ m ∈ g.members, m.bits.ones ≠ [] →
    ∃ i ∈ m.bits.ones, i ∈ a.bits.ones
  alone : Decodable scheme g.members → Nested g.members → g.aggregates scheme = .ok [a]

theorem exists_addSignatures (h : Decodable scheme rest) (sum : scheme.Signature) :
    ∃ total, addSignatures scheme sum rest = some total := by
  induction rest generalizing sum with
  | nil => exact ⟨sum, rfl⟩
  | cons m rest ih =>
      obtain ⟨hm, hothers⟩ := List.forall_mem_cons.mp h
      cases hdecode : scheme.decode m.attestation.signature with
      | error e =>
          rw [hdecode] at hm
          cases hm
      | ok signature =>
          rw [addSignatures, hdecode]
          exact ih hothers _

theorem exists_joinSignatures (h : Decodable scheme (first :: rest)) (hne : rest ≠ []) :
    ∃ signature, joinSignatures scheme first rest = some signature := by
  obtain ⟨hfirst, hothers⟩ := List.forall_mem_cons.mp h
  cases hdecode : scheme.decode first.attestation.signature with
  | error e =>
      rw [hdecode] at hfirst
      cases hfirst
  | ok signature =>
      obtain ⟨total, htotal⟩ := exists_addSignatures hothers signature
      refine ⟨scheme.encode total, ?_⟩
      rw [joinSignatures, if_neg (mt List.isEmpty_iff.mp hne), hdecode]
      dsimp only
      rw [htotal, Option.map_some]

/-- As long as signatures can be decoded, all are joined that were
gathered. -/
theorem Aligned.gathered_of_decodable (h : g.Aligned) (hdecodable : Decodable scheme g.members)
    (huncovered : g.uncovered covered = first :: rest)
    (hnext : g.nextAggregate scheme covered = .ok (some a)) :
    ∃ joined, Gathered first.bits rest a.bits joined := by
  obtain ⟨hfirst, hrest⟩ := h.uncovered_cons huncovered
  obtain ⟨bits, joined, hgather, hgathered⟩ := gather_eq_ok hfirst hrest
  have hsame := nextAggregate_of_gather scheme huncovered hgather
  rw [hnext, Except.ok.injEq, Option.some.injEq] at hsame
  refine ⟨joined, ?_⟩
  by_cases hjoined : joined = []
  · -- there is nobody to join, and the first member is left as it is
    subst hjoined
    have halone : joinSignatures scheme first [] = none := rfl
    rw [halone] at hsame
    have hnobody : ∀ i, ¬∃ m ∈ [], i ∈ Bitfield.ones (Submission.bits m) := by simp
    rw [hsame]
    exact { hgathered with
      clean := hfirst
      length := rfl
      votes := fun i => (or_iff_left (hnobody i)).symm }
  · have hsub : (first :: joined).Sublist g.members :=
      (hgathered.sublist.cons_cons first).trans (huncovered ▸ List.filter_sublist)
    obtain ⟨signature, hsignature⟩ :=
      exists_joinSignatures (fun m hm => hdecodable m (hsub.subset hm)) hjoined
    rw [hsignature] at hsame
    rw [hsame]
    exact hgathered

/-- Whoever was passed over has a vote in common with what was joined. -/
theorem Gathered.meets {bits bits' : Bitfield} {joined : List Submission}
    (h : Gathered bits rest bits' joined) {m : Submission} (hm : m ∈ rest)
    (hvotes : m.bits.ones ≠ []) : ∃ i ∈ m.bits.ones, i ∈ bits'.ones := by
  obtain ⟨before, behind, heq⟩ := List.append_of_mem hm
  rcases h.passed before m behind heq with hjoined | ⟨i, hi, hmet⟩
  · obtain ⟨i, hi⟩ := List.exists_mem_of_ne_nil _ hvotes
    exact ⟨i, hi, (h.votes i).mpr (Or.inr ⟨m, hjoined, hi⟩)⟩
  · refine ⟨i, hi, (h.votes i).mpr (hmet.imp_right ?_)⟩
    exact fun ⟨x, _, hjoined, hix⟩ => ⟨x, hjoined, hix⟩

/-- Where candidates stand in order of votes and are nested, none that is
passed over has a vote that is missing. -/
theorem Gathered.covers {bits bits' : Bitfield} {joined : List Submission}
    (h : Gathered bits rest bits' joined) (hmost : ∀ m ∈ rest, m.bits.count ≤ bits.count)
    (hfalling : rest.Pairwise fun m m' => m'.bits.count ≤ m.bits.count)
    (hnested : Nested rest)
    (hbits : ∀ m ∈ rest, (∃ i ∈ m.bits.ones, i ∈ bits.ones) →
      m.bits.ones ⊆ bits.ones ∨ bits.ones ⊆ m.bits.ones) :
    ∀ m ∈ rest, m.bits.ones ⊆ bits'.ones := by
  intro m hm i hi
  -- of two nested bitfields the one with fewer votes has only votes of the other
  have hwithin : ∀ b : Bitfield, m.bits.count ≤ b.count →
      m.bits.ones ⊆ b.ones ∨ b.ones ⊆ m.bits.ones → m.bits.ones ⊆ b.ones := fun b hle hor =>
    hor.elim id fun hsub => Bitfield.ones_subset_of_count_le hsub hle
  obtain ⟨before, behind, rfl⟩ := List.append_of_mem hm
  rcases h.passed before m behind rfl with hjoined | ⟨j, hj, hmet | ⟨x, hx, hjoined, hjx⟩⟩
  · exact (h.votes i).mpr (Or.inr ⟨m, hjoined, hi⟩)
  · have hsub := hwithin bits (hmost m hm) (hbits m hm ⟨j, hj, hmet⟩)
    exact (h.votes i).mpr (Or.inl (hsub hi))
  · have hle : m.bits.count ≤ x.bits.count :=
      (List.pairwise_append.mp hfalling).2.2 x hx m List.mem_cons_self
    have hsub := hwithin x.bits hle
      (hnested m hm x (List.mem_append_left _ hx) ⟨j, hj, hjx⟩)
    exact (h.votes i).mpr (Or.inr ⟨x, hjoined, hsub hi⟩)

-- ===================================================== the first of all

/-- If the first of the aggregates has all votes there is no other. -/
theorem Covers.eq_nil {others : List Attestation} (h : Covers scheme g (a :: others))
    (hall : ∀ m ∈ g.members, m.bits.ones ⊆ a.bits.ones) : others = [] := by
  cases others with
  | nil => rfl
  | cons b later =>
      obtain ⟨i, hi, hnew⟩ := h.fresh [a] b later rfl
      obtain ⟨m, hm, him⟩ := (h.votes i).mp ⟨b, by simp, hi⟩
      exact absurd (hall m hm him) (hnew a (List.mem_singleton_self a))

/-- What comes next is the first of all that are drawn. -/
theorem Drawn.exists_cons {items : List Attestation} (h : Drawn scheme g covered items)
    (hnext : g.nextAggregate scheme covered = .ok (some a)) : ∃ others, items = a :: others := by
  cases h with
  | done hnone =>
      rw [hnext] at hnone
      cases hnone
  | @next _ _ b others hsome _ _ =>
      rw [hnext, Except.ok.injEq, Option.some.injEq] at hsome
      exact ⟨others, hsome ▸ rfl⟩

/-- What is uncovered at first are the members with votes. -/
theorem Aligned.mem_uncovered_nothing (h : g.Aligned) {m : Submission} :
    m ∈ g.uncovered g.nothingCovered ↔ m ∈ g.members ∧ m.bits.ones ≠ [] := by
  rw [h.mem_uncovered g.clean_nothingCovered rfl, g.ones_nothingCovered]
  simp [List.eq_nil_iff_forall_not_mem]

/-- The first member with votes has the most. -/
theorem Aligned.count_le_first (h : g.Aligned)
    (hfalling : g.members.Pairwise fun m m' => m'.bits.count ≤ m.bits.count)
    (hcons : g.uncovered g.nothingCovered = first :: rest) :
    ∀ m ∈ g.members, m.bits.count ≤ first.bits.count := by
  intro m hm
  have hsub : (first :: rest).Sublist g.members := hcons ▸ List.filter_sublist
  by_cases hvotes : m.bits.ones = []
  · exact Bitfield.count_le_of_ones_subset (hvotes ▸ List.nil_subset _)
  · have hmem : m ∈ first :: rest := hcons ▸ h.mem_uncovered_nothing.mpr ⟨hm, hvotes⟩
    rcases List.mem_cons.mp hmem with rfl | hlater
    · exact Nat.le_refl _
    · exact (List.pairwise_cons.mp (hfalling.sublist hsub)).1 m hlater

theorem Aligned.foremost (h : g.Aligned)
    (hfalling : g.members.Pairwise fun m m' => m'.bits.count ≤ m.bits.count)
    (hcons : g.uncovered g.nothingCovered = first :: rest)
    (hnext : g.nextAggregate scheme g.nothingCovered = .ok (some a))
    (hstarts : StartsFrom scheme g.data first rest a) : Foremost scheme g a := by
  obtain ⟨items, hitems, hdrawn, hcovers⟩ := h.aggregates_eq_ok scheme
  obtain ⟨others, rfl⟩ := hdrawn.exists_cons hnext
  have hsub : (first :: rest).Sublist g.members := hcons ▸ List.filter_sublist
  have hvoted : first ∈ g.members ∧ first.bits.ones ≠ [] :=
    h.mem_uncovered_nothing.mp (hcons ▸ List.mem_cons_self)
  have hmem : ∀ m ∈ g.members, m.bits.ones ≠ [] → m = first ∨ m ∈ rest := fun m hm hvotes =>
    List.mem_cons.mp (hcons ▸ h.mem_uncovered_nothing.mpr ⟨hm, hvotes⟩)
  have hmost := h.count_le_first hfalling hcons
  refine ⟨⟨others, hitems⟩, ⟨first, hvoted⟩, fun m hm => ?_, ?_, ?_⟩
  · exact Nat.le_trans (hmost m hm) (Bitfield.count_le_of_ones_subset hstarts.votes)
  · intro hdecodable m hm hvotes
    obtain ⟨joined, hgathered⟩ := h.gathered_of_decodable hdecodable hcons hnext
    rcases hmem m hm hvotes with rfl | hlater
    · obtain ⟨i, hi⟩ := List.exists_mem_of_ne_nil _ hvotes
      exact ⟨i, hi, hstarts.votes hi⟩
    · exact hgathered.meets hlater hvotes
  · intro hdecodable hnested
    obtain ⟨joined, hgathered⟩ := h.gathered_of_decodable hdecodable hcons hnext
    have hlater : ∀ m ∈ rest, m ∈ g.members := fun m hm =>
      hsub.subset (List.mem_cons_of_mem first hm)
    have hall := hgathered.covers (fun m hm => hmost m (hlater m hm))
      (hfalling.sublist ((List.sublist_cons_self first rest).trans hsub))
      (fun m hm m' hm' => hnested m (hlater m hm) m' (hlater m' hm'))
      fun m hm => hnested m (hlater m hm) first hvoted.1
    rw [hitems, hcovers.eq_nil fun m hm i hi => ?_]
    rcases hmem m hm (List.ne_nil_of_mem hi) with rfl | hm
    · exact hstarts.votes hi
    · exact hall m hm hi

/-- The best aggregate is the foremost, or there is none as no member has
a vote. -/
theorem Aligned.bestAggregate_cases (h : g.Aligned)
    (hfalling : g.members.Pairwise fun m m' => m'.bits.count ≤ m.bits.count)
    (scheme : SignatureScheme) :
    (g.bestAggregate scheme = .ok none ∧ ∀ m ∈ g.members, m.bits.ones = [])
      ∨ ∃ a, g.bestAggregate scheme = .ok (some a) ∧ Foremost scheme g a := by
  rcases h.nextAggregate_cases scheme g.nothingCovered with ⟨hnil, hnone⟩
    | ⟨first, rest, a, hcons, hnext, hstarts⟩
  · refine Or.inl ⟨hnone, fun m hm => ?_⟩
    by_contra hvotes
    have hmem := h.mem_uncovered_nothing.mpr ⟨hm, hvotes⟩
    rw [hnil] at hmem
    cases hmem
  · exact Or.inr ⟨a, hnext, h.foremost hfalling hcons hnext hstarts⟩

end Group

-- ================================================================ pools

namespace Pool

open ChainHead.Group (Decodable Nested)

variable {p : Pool} {scheme : SignatureScheme} {root : Root} {g : Group} {m : Submission}
variable {a : Attestation}

/-- What a pool holds of the data with a root. -/
def under (p : Pool) (root : Root) : List Submission :=
  p.stored.filter fun m => m.dataRoot = root

/-- Whether an answer is there as soon as there are votes, and has as many
as each submission. -/
structure Leading (p : Pool) (root : Root) (best : Option Attestation) : Prop where
  none_iff : best = none ↔ ∀ m ∈ p.under root, m.bits.ones = []
  most : ∀ a ∈ best, ∀ m ∈ p.under root, m.bits.count ≤ a.bits.count

/-- Whether the answer is moreover the first of the aggregates, and has a
vote in common with everybody, so that nobody could be joined to it. -/
structure Greedy (scheme : SignatureScheme) (p : Pool) (root : Root)
    (best : Option Attestation) : Prop extends Leading p root best where
  first : ∀ a ∈ best, ∃ g others, p.groups[root]? = some g
    ∧ g.aggregates scheme = .ok (a :: others)
  maximal : Decodable scheme (p.under root) → ∀ a ∈ best, ∀ m ∈ p.under root,
    m.bits.ones ≠ [] → ∃ i ∈ m.bits.ones, i ∈ a.bits.ones

/-- Whether the answer has as many votes as every other aggregate. -/
structure Best (scheme : SignatureScheme) (p : Pool) (root : Root)
    (best : Option Attestation) : Prop extends Leading p root best where
  aggregates : ∀ a ∈ best, ∀ g ∈ p.groups[root]?, ∀ items, g.aggregates scheme = .ok items →
    ∀ b ∈ items, b.bits.count ≤ a.bits.count

/-- Whatever is in a group has the root that the group is filed under. -/
theorem rooted_after (preset : Preset) (retentionEpochs : UInt64) (calls : List Call) :
    (after preset { retentionEpochs } calls).Everywhere fun root g =>
      ∀ m ∈ g.members, m.dataRoot = root := by
  refine everywhere_after preset retentionEpochs ?_ ?_ ?_
  · intro s facts seed _ _ m hm
    cases hm
  · intro s facts g _ _ hg m hm
    rcases Group.mem_of_mem_add hm with rfl | hm
    · rfl
    · exact hg m hm
  · exact fun _ _ _ hg m hm => hg m (List.mem_of_mem_filter hm)

theorem mem_under (h : p.Everywhere fun root g => ∀ m ∈ g.members, m.dataRoot = root) :
    m ∈ p.under root ↔ ∃ g : Group, p.groups[root]? = some g ∧ m ∈ g.members := by
  rw [under, List.mem_filter, stored, mem_storedIn, decide_eq_true_eq]
  constructor
  · rintro ⟨⟨root', g, hg, hm⟩, rfl⟩
    have hroot := h root' g hg m hm
    exact ⟨g, hroot ▸ hg, hm⟩
  · rintro ⟨g, hg, hm⟩
    exact ⟨⟨root, g, hg, hm⟩, h root g hg m hm⟩

/-- All groups stay in order in any run. -/
theorem everywhere_ordered (preset : Preset) (retentionEpochs : UInt64) {calls : List Call}
    (hclean : ∀ x ∈ handedIn calls, x.1.bits.Clean) :
    (after preset { retentionEpochs } calls).Everywhere fun _ g =>
      g.Aligned ∧ ∃ arrived, g.Ordered arrived := by
  refine everywhere_after preset retentionEpochs ?_ ?_ ?_
  · intro s facts seed _ _
    exact ⟨⟨by simp, by simp⟩, [], ⟨0, by simp⟩, .nil, fun _ => rfl, .nil⟩
  · rintro s facts g hs _ ⟨haligned, arrived, hordered⟩
    have hs' := hclean (s, facts) hs
    exact ⟨haligned.add hs', _, hordered.add haligned hs'⟩
  · rintro _ g a ⟨haligned, arrived, hordered⟩
    exact ⟨haligned.remove a, _, hordered.remove a⟩

/-- Where nobody voted no answer is the best. -/
theorem best_none (h : ∀ m ∈ p.under root, m.bits.ones = []) :
    Greedy scheme p root none ∧ Best scheme p root none := by
  have hleading : Leading p root none := ⟨iff_of_true rfl h, by simp⟩
  exact ⟨⟨hleading, by simp, by simp⟩, ⟨hleading, by simp⟩⟩

/-- What is foremost in the group with a root is a greedy answer for the
root. -/
theorem greedy_of_foremost (hg : p.groups[root]? = some g)
    (hunder : ∀ m, m ∈ p.under root ↔ m ∈ g.members) (h : g.Foremost scheme a) :
    Greedy scheme p root (some a) where
  none_iff := by
    refine iff_of_false (Option.some_ne_none a) fun hnone => ?_
    obtain ⟨m, hm, hvotes⟩ := h.voted
    exact hvotes (hnone m ((hunder m).mpr hm))
  most := by
    rintro _ ⟨⟩ m hm
    exact h.most m ((hunder m).mp hm)
  first := by
    rintro _ ⟨⟩
    obtain ⟨others, hothers⟩ := h.first
    exact ⟨g, others, hg, hothers⟩
  maximal := by
    rintro hdecodable _ ⟨⟩ m hm hvotes
    exact h.maximal (fun m hm => hdecodable m ((hunder m).mpr hm)) m ((hunder m).mp hm) hvotes

/-- It is the best if submissions with a vote in common are nested. -/
theorem Greedy.best (h : Greedy scheme p root (some a)) (hg : p.groups[root]? = some g)
    (hunder : ∀ m, m ∈ p.under root ↔ m ∈ g.members) (hforemost : g.Foremost scheme a)
    (hdecodable : Decodable scheme (p.under root)) (hnested : Nested (p.under root)) :
    Best scheme p root (some a) where
  toLeading := h.toLeading
  aggregates := by
    rintro _ ⟨⟩ g' hg' items hitems b hb
    rw [hg] at hg'
    cases hg'
    have halone := hforemost.alone (fun m hm => hdecodable m ((hunder m).mpr hm))
      fun m hm m' hm' => hnested m ((hunder m).mpr hm) m' ((hunder m').mpr hm')
    rw [halone, Except.ok.injEq] at hitems
    rw [← hitems, List.mem_singleton] at hb
    rw [hb]

/-- After any run, the aggregate that a pool gives for some data is the
first of those of its group. There is one if somebody voted, no
submission has more votes, and none could be joined to it; and it is the
best of the aggregates if submissions with a vote in common are nested. -/
theorem aggregateFor_after (preset : Preset) (retentionEpochs : UInt64) (calls : List Call)
    (scheme : SignatureScheme) (root : Root) (hclean : ∀ x ∈ handedIn calls, x.1.bits.Clean) :
    let p := after preset { retentionEpochs } calls
    ∃ best, p.aggregateFor scheme root = .ok best ∧ Greedy scheme p root best
      ∧ (Decodable scheme (p.under root) → Nested (p.under root) → Best scheme p root best) := by
  intro p
  have hunder : ∀ m, m ∈ p.under root ↔ ∃ g : Group, p.groups[root]? = some g ∧ m ∈ g.members :=
    fun m => mem_under (rooted_after preset retentionEpochs calls)
  have heverywhere := everywhere_ordered preset retentionEpochs hclean
  unfold aggregateFor
  cases hg : p.groups[root]? with
  | none =>
      obtain ⟨hgreedy, hbest⟩ : Greedy scheme p root none ∧ Best scheme p root none := by
        refine best_none fun m hm => ?_
        obtain ⟨g, hsome, -⟩ := (hunder m).mp hm
        rw [hg] at hsome
        cases hsome
      exact ⟨none, rfl, hgreedy, fun _ _ => hbest⟩
  | some g =>
      have hmembers : ∀ m, m ∈ p.under root ↔ m ∈ g.members := fun m => by
        rw [hunder, hg]
        simp
      obtain ⟨haligned, arrived, hordered⟩ := heverywhere root g hg
      rcases haligned.bestAggregate_cases hordered.falling scheme with ⟨hnone, hvotes⟩
        | ⟨a, hsome, hforemost⟩
      · obtain ⟨hgreedy, hbest⟩ : Greedy scheme p root none ∧ Best scheme p root none :=
          best_none fun m hm => hvotes m ((hmembers m).mp hm)
        exact ⟨none, hnone, hgreedy, fun _ _ => hbest⟩
      · have hgreedy := greedy_of_foremost hg hmembers hforemost
        exact ⟨some a, hsome, hgreedy, hgreedy.best hg hmembers hforemost⟩

-- ======================================================== one group only

/-- Submissions that are handed in one after the other, newest first,
with the same seed. -/
def handingIn (seed : Root) (submissions : List Submission) : List Call :=
  submissions.map fun s => .add s { seed := some seed }

/-- What is filed when a submission was handed in is the group that it
joined. -/
theorem getElem?_groups_call_add (preset : Preset) {seed : Root} {data : AttestationData}
    {s : Submission} (hs : s.data = data) (hjoined : p.joined s seed = g) :
    (p.call preset (.add s { seed := some seed })).groups[data.hashTreeRoot]?
      = some (g.add s).value.1 := by
  rw [call_add _ _ _ rfl, hjoined, ← hs]
  exact Std.ExtTreeMap.getElem?_insert_self

/-- Submissions with the same data all join one group. -/
theorem joined_handingIn (preset : Preset) (retentionEpochs : UInt64) (seed : Root)
    {data : AttestationData} {s : Submission} {earlier : List Submission}
    (h : ∀ m ∈ s :: earlier, m.data = data) :
    (after preset { retentionEpochs } (handingIn seed earlier)).joined s seed
      = Group.after { data, dataRoot := data.hashTreeRoot, seed } (earlier.map .add) := by
  induction earlier generalizing s with
  | nil =>
      rw [List.forall_mem_singleton] at h
      subst h
      rfl
  | cons m earlier ih =>
      obtain ⟨hs, hearlier⟩ := List.forall_mem_cons.mp h
      have hfiled := getElem?_groups_call_add preset (hearlier m List.mem_cons_self) (ih hearlier)
      have hroot : s.dataRoot = data.hashTreeRoot := congrArg AttestationData.hashTreeRoot hs
      rw [joined, Std.ExtTreeMap.getD_eq_getD_getElem?, hroot, hs]
      exact congrArg (fun g => Option.getD g _) hfiled

/-- A pool that is handed submissions with the same data has the group
that takes them one after the other. -/
theorem groups_handingIn (preset : Preset) (retentionEpochs : UInt64) (seed : Root)
    {data : AttestationData} {s : Submission} {earlier : List Submission}
    (h : ∀ m ∈ s :: earlier, m.data = data) :
    (after preset { retentionEpochs } (handingIn seed (s :: earlier))).groups[data.hashTreeRoot]?
      = some (Group.after { data, dataRoot := data.hashTreeRoot, seed }
        ((s :: earlier).map .add)) :=
  getElem?_groups_call_add preset (List.forall_mem_cons.mp h).1
    (joined_handingIn preset retentionEpochs seed h)

-- ================================================================ runs

/-- One of five votes, then three with that one, then the other two. -/
def muster : List Call :=
  handingIn 0 [Group.votesOfFive 3 0b11000 true, Group.votesOfFive 2 0b00111 true,
    Group.votesOfFive 1 0b00001 true]

/-- The three and the two are joined, and nobody is missing. -/
theorem aggregateFor_after_muster :
    let p := after .minimal { retentionEpochs := 2 } muster
    let root := AttestationData.hashTreeRoot {}
    ((∀ x ∈ handedIn muster, x.1.bits.Clean)
        ∧ Decodable .product (p.under root) ∧ Nested (p.under root)
        ∧ p.aggregateFor .product root
          = .ok (some ⟨⟨5, [0b11111]⟩, {}, BitVec.cons true (BitVec.ofNat 767 5)⟩))
      ∧ ∃ best, p.aggregateFor .product root = .ok best ∧ Greedy .product p root best
        ∧ (Decodable .product (p.under root) → Nested (p.under root) →
          Best .product p root best) := by
  intro p root
  have hg : p.groups[root]? = some _ := groups_handingIn .minimal 2 0 (by decide)
  obtain ⟨members, hmembers, hdecodable, hnested⟩ : ∃ members, (∀ m ∈ p.under root, m ∈ members)
      ∧ Decodable .product members ∧ Nested members := by
    refine ⟨[Group.votesOfFive 2 0b00111 true, Group.votesOfFive 3 0b11000 true,
      Group.votesOfFive 1 0b00001 true], fun m hm => ?_, by decide +kernel, by decide⟩
    obtain ⟨g, hsome, hm⟩ := (mem_under (rooted_after .minimal 2 muster)).mp hm
    rw [hg] at hsome
    cases hsome
    exact hm
  refine (and_iff_left_of_imp fun hseen =>
    aggregateFor_after .minimal 2 muster .product _ hseen.1).mpr ⟨by decide, ?_, ?_, ?_⟩
  · exact fun m hm => hdecodable m (hmembers m hm)
  · exact fun m hm m' hm' => hnested m (hmembers m hm) m' (hmembers m' hm')
  · rw [aggregateFor, hg]
    decide +kernel

/-- Two of five vote, then one of them with a third, and the other with a
fourth. -/
def rally : List Call :=
  handingIn 0 [Group.votesOfFive 3 0b01010 true, Group.votesOfFive 2 0b00101 true,
    Group.votesOfFive 1 0b00011 true]

/-- The first two are given alone, while the others give an aggregate of
four. -/
theorem outdone_after_rally :
    let p := after .minimal { retentionEpochs := 2 } rally
    let root := AttestationData.hashTreeRoot {}
    ¬∃ best, p.aggregateFor .product root = .ok best ∧ Best .product p root best := by
  intro p root
  have hg : p.groups[root]? = some _ := groups_handingIn .minimal 2 0 (by decide)
  have hanswer : p.aggregateFor .product root
      = .ok (some (Group.votesOfFive 1 0b00011 true).attestation) := by
    rw [aggregateFor, hg]
    decide +kernel
  rintro ⟨best, hbest, h⟩
  rw [hanswer, Except.ok.injEq] at hbest
  have hle := h.aggregates _ hbest.symm _ hg
    [(Group.votesOfFive 1 0b00011 true).attestation,
      ⟨⟨5, [0b01111]⟩, {}, BitVec.cons true (BitVec.ofNat 767 5)⟩]
    (by decide +kernel) _ (List.mem_cons_of_mem _ List.mem_cons_self)
  revert hle
  decide

end Pool

end ChainHead
