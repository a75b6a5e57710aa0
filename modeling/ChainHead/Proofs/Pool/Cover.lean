/-
What the aggregates of a group are made of, and what they cover.

# The steps

Aggregates are drawn one after the other, and all that passes from one
to the next is the bitfield of the votes covered so far. `Drawn` follows
the steps until nothing is uncovered, with no bound on their number;
that they come to an end, within as many steps as there are members, is
a result (`Aligned.exists_drawn`), and so is that the bound which
`aggregatesFrom` is given never cuts them short
(`Drawn.aggregatesFrom_eq`).

# One step

In a group whose members have clean bitfields of one length no bit
operation is refused (`Aligned`). A step then finds nothing uncovered,
or gives an attestation that is `MadeOf` members, has a vote that was
not covered, and leaves a member less that is not (`Aligned.step`).
Whether signatures can be decoded decides what the attestation is made
of and nothing else: it always has the votes of the first uncovered
member.
-/
import ChainHead.Pool.Group
import ChainHead.Proofs.Bitfield
import Mathlib.Data.List.Perm.Basic

namespace ChainHead

open Bitfield (Misaligned)

namespace Group

variable {scheme : SignatureScheme} {g : Group} {s : Submission} {a : Attestation}
variable {covered covered' : Bitfield} {items : List Attestation}

-- ============================================== statement vocabulary

/-- Whether an attestation has the votes of several submissions, no vote
of which is given twice, under the sum of their signatures from left to
right. -/
structure Joined (scheme : SignatureScheme) (data : AttestationData) (parts : List Submission)
    (a : Attestation) : Prop where
  several : 2 ≤ parts.length
  clean : a.bits.Clean
  disjoint : parts.Pairwise fun m m' => m.bits.ones.Disjoint m'.bits.ones
  length : ∀ m ∈ parts, a.bits.length = m.bits.length
  votes : ∀ i, i ∈ a.bits.ones ↔ ∃ m ∈ parts, i ∈ m.bits.ones
  data : a.data = data
  signature : ∃ (first : scheme.Signature) (rest : List scheme.Signature),
    parts.map (fun m => scheme.decode m.attestation.signature) = (first :: rest).map .ok
      ∧ a.signature = scheme.encode (rest.foldl scheme.add first)

/-- Whether an attestation is that of one submission, unchanged, or
joins several. -/
def MadeOf (scheme : SignatureScheme) (data : AttestationData) (parts : List Submission)
    (a : Attestation) : Prop :=
  (∃ m, parts = [m] ∧ a = m.attestation) ∨ Joined scheme data parts a

/-- Drawing aggregates one after the other until nothing is uncovered. -/
inductive Drawn (scheme : SignatureScheme) (g : Group) : Bitfield → List Attestation → Prop
  | done {covered : Bitfield} (h : g.nextAggregate scheme covered = .ok none) :
      Drawn scheme g covered []
  | next {covered covered' : Bitfield} {a : Attestation} {items : List Attestation}
      (h : g.nextAggregate scheme covered = .ok (some a))
      (hunion : covered.union a.bits = .ok covered') (rest : Drawn scheme g covered' items) :
      Drawn scheme g covered (a :: items)

/-- Whether attestations are made of members of a group, each with a
vote that no earlier one has, and together have all votes of the
members and no others. -/
structure Covers (scheme : SignatureScheme) (g : Group) (items : List Attestation) : Prop where
  length_le : items.length ≤ g.size
  made : ∀ a ∈ items, ∃ parts, parts.Sublist g.members ∧ MadeOf scheme g.data parts a
  fresh : ∀ earlier a later, items = earlier ++ a :: later →
    ∃ i ∈ a.bits.ones, ∀ b ∈ earlier, i ∉ b.bits.ones
  votes : ∀ i, (∃ a ∈ items, i ∈ a.bits.ones) ↔ ∃ m ∈ g.members, i ∈ m.bits.ones

/-- Whether all members have clean bitfields of one length. -/
structure Aligned (g : Group) : Prop where
  clean : ∀ m ∈ g.members, m.bits.Clean
  length : ∀ m ∈ g.members, m.bits.length = g.nothingCovered.length

theorem aligned_iff :
    g.Aligned ↔ ∃ n, ∀ m ∈ g.members, m.bits.Clean ∧ m.bits.length = n := by
  constructor
  · intro h
    exact ⟨g.nothingCovered.length, fun m hm => ⟨h.clean m hm, h.length m hm⟩⟩
  · rintro ⟨n, hall⟩
    have hlength : ∀ m ∈ g.members, n = g.nothingCovered.length := by
      unfold nothingCovered
      cases hmembers : g.members with
      | nil => simp
      | cons first rest => exact fun _ _ => (hall first (hmembers ▸ List.mem_cons_self)).2.symm
    exact ⟨fun m hm => (hall m hm).1, fun m hm => (hall m hm).2.trans (hlength m hm)⟩

-- ================================================= drawing with a bound

/-- A bound that is not too small changes nothing. -/
theorem Drawn.aggregatesFrom_eq (h : Drawn scheme g covered items) {count : Nat}
    (hcount : items.length ≤ count) : g.aggregatesFrom scheme count covered = .ok items := by
  induction h generalizing count with
  | done hnone =>
      cases count with
      | zero => rfl
      | succ count =>
          rw [aggregatesFrom, hnone]
          rfl
  | next hsome hunion _ ih =>
      cases count with
      | zero => cases hcount
      | succ count =>
          have hrest := ih (Nat.le_of_succ_le_succ hcount)
          simp only [aggregatesFrom, hsome, hunion, hrest, bind, Except.bind, pure, Except.pure]

-- ============================================================ one step

/-- What comes of joining candidates to some bits: those joined have no
vote in common with the bits or with each other, and those passed over
have one with the bits or with one that was joined before. -/
structure Gathered (bits : Bitfield) (rest : List Submission) (bits' : Bitfield)
    (joined : List Submission) : Prop where
  sublist : joined.Sublist rest
  clean : bits'.Clean
  length : bits'.length = bits.length
  votes : ∀ i, i ∈ bits'.ones ↔ i ∈ bits.ones ∨ ∃ m ∈ joined, i ∈ m.bits.ones
  apart : ∀ m ∈ joined, bits.ones.Disjoint m.bits.ones
  disjoint : joined.Pairwise fun m m' => m.bits.ones.Disjoint m'.bits.ones
  passed : ∀ before m behind, rest = before ++ m :: behind → m ∈ joined
    ∨ ∃ i ∈ m.bits.ones, i ∈ bits.ones ∨ ∃ m' ∈ before, m' ∈ joined ∧ i ∈ m'.bits.ones

/-- To pass a candidate over is to go on from the same bits. -/
theorem Gathered.skip {bits bits' : Bitfield} {m : Submission} {rest joined : List Submission}
    (h : Gathered bits rest bits' joined) (hmeets : ∃ i ∈ m.bits.ones, i ∈ bits.ones) :
    Gathered bits (m :: rest) bits' joined :=
  { h with
    sublist := h.sublist.cons m
    passed := by
      intro before m' behind heq
      cases before with
      | nil =>
          injection heq with hm
          obtain ⟨i, hi, hbits⟩ := hmeets
          exact Or.inr ⟨i, hm ▸ hi, Or.inl hbits⟩
      | cons first before =>
          injection heq with _ heq
          refine (h.passed before m' behind heq).imp_right ?_
          rintro ⟨i, hi, hmet⟩
          exact ⟨i, hi, hmet.imp_right fun ⟨x, hx, hrest⟩ =>
            ⟨x, List.mem_cons_of_mem first hx, hrest⟩⟩ }

/-- To join a candidate is to go on from the bits of both. -/
theorem Gathered.cons {bits both bits' : Bitfield} {m : Submission} {rest joined : List Submission}
    (h : Gathered both rest bits' joined) (hapart : bits.ones.Disjoint m.bits.ones)
    (hlength : both.length = bits.length)
    (hvotes : ∀ i, i ∈ both.ones ↔ i ∈ bits.ones ∨ i ∈ m.bits.ones) :
    Gathered bits (m :: rest) bits' (m :: joined) where
  sublist := h.sublist.cons_cons m
  clean := h.clean
  length := h.length.trans hlength
  votes i := by rw [h.votes, hvotes, List.exists_mem_cons_iff, or_assoc]
  apart := List.forall_mem_cons.mpr ⟨hapart, fun m' hm' i hi =>
    h.apart m' hm' ((hvotes i).mpr (Or.inl hi))⟩
  disjoint := List.pairwise_cons.mpr ⟨fun m' hm' i hi =>
    h.apart m' hm' ((hvotes i).mpr (Or.inr hi)), h.disjoint⟩
  passed := by
    intro before m' behind heq
    cases before with
    | nil =>
        injection heq with hm
        exact Or.inl (hm ▸ List.mem_cons_self)
    | cons first before =>
        injection heq with hfirst heq
        rcases h.passed before m' behind heq with hjoined | ⟨i, hi, hboth | ⟨x, hx, hjoined, hix⟩⟩
        · exact Or.inl (List.mem_cons_of_mem m hjoined)
        · refine Or.inr ⟨i, hi, ((hvotes i).mp hboth).imp_right fun him => ?_⟩
          exact ⟨m, hfirst ▸ List.mem_cons_self, List.mem_cons_self, him⟩
        · exact Or.inr ⟨i, hi, Or.inr ⟨x, List.mem_cons_of_mem first hx,
            List.mem_cons_of_mem m hjoined, hix⟩⟩

/-- Candidates are joined in order, each if it has no vote in common
with those before. -/
theorem gather_eq_ok {bits : Bitfield} {rest : List Submission} (hbits : bits.Clean)
    (hrest : ∀ m ∈ rest, m.bits.Clean ∧ m.bits.length = bits.length) :
    ∃ bits' joined, gather bits rest = .ok (bits', joined) ∧ Gathered bits rest bits' joined := by
  induction rest generalizing bits with
  | nil => exact ⟨bits, [], rfl, .refl _, hbits, rfl, by simp, by simp, .nil, by simp⟩
  | cons m rest ih =>
      obtain ⟨⟨hm, hlength⟩, hothers⟩ := List.forall_mem_cons.mp hrest
      obtain ⟨found, hcommon, hfound⟩ := Bitfield.anyInCommon_eq_ok hm hbits hlength
      cases found with
      | true =>
          obtain ⟨bits', joined, hgather, hgathered⟩ := ih hbits hothers
          refine ⟨bits', joined, ?_, hgathered.skip (hfound.mp rfl)⟩
          simp only [gather, hcommon, bind, Except.bind, if_true]
          exact hgather
      | false =>
          have hapart : bits.ones.Disjoint m.bits.ones := fun i hi hi' =>
            Bool.false_ne_true (hfound.mpr ⟨i, hi', hi⟩)
          obtain ⟨both, hunion, hclean, hboth, hvotes⟩ :=
            Bitfield.union_eq_ok hbits hm hlength.symm
          obtain ⟨bits', joined, hgather, hgathered⟩ :=
            ih hclean fun m' hm' => ⟨(hothers m' hm').1, (hothers m' hm').2.trans hboth.symm⟩
          refine ⟨bits', m :: joined, ?_, hgathered.cons hapart hboth hvotes⟩
          simp only [gather, hcommon, hunion, hgather, bind, Except.bind, pure, Except.pure]
          rfl

/-- Signatures are added from left to right, if all can be decoded. -/
theorem addSignatures_eq_some {sum total : scheme.Signature} {rest : List Submission}
    (h : addSignatures scheme sum rest = some total) :
    ∃ signatures : List scheme.Signature, rest.map (fun m => scheme.decode m.attestation.signature)
        = signatures.map .ok ∧ total = signatures.foldl scheme.add sum := by
  induction rest generalizing sum with
  | nil =>
      injection h with h
      exact ⟨[], rfl, h.symm⟩
  | cons m rest ih =>
      rw [addSignatures] at h
      split at h
      case h_2 => cases h
      case h_1 signature hdecode =>
        obtain ⟨signatures, hall, htotal⟩ := ih h
        refine ⟨signature :: signatures, ?_, htotal⟩
        rw [List.map_cons, List.map_cons, hall, hdecode]

theorem joinSignatures_eq_some {first : Submission} {others : List Submission}
    {signature : SignatureBytes} (h : joinSignatures scheme first others = some signature) :
    others ≠ [] ∧ ∃ (start : scheme.Signature) (rest : List scheme.Signature),
      (first :: others).map (fun m => scheme.decode m.attestation.signature)
          = (start :: rest).map .ok
        ∧ signature = scheme.encode (rest.foldl scheme.add start) := by
  unfold joinSignatures at h
  split at h
  case isTrue => cases h
  case isFalse hothers =>
    refine ⟨mt List.isEmpty_iff.mpr hothers, ?_⟩
    split at h
    case h_2 => cases h
    case h_1 start hdecode =>
      obtain ⟨total, htotal, hencode⟩ := Option.map_eq_some_iff.mp h
      obtain ⟨rest, hrest, hsum⟩ := addSignatures_eq_some htotal
      refine ⟨start, rest, ?_, ?_⟩
      · rw [List.map_cons, List.map_cons, hrest, hdecode]
      · rw [← hencode, hsum]

/-- What one step does that gives an attestation. -/
structure Step (scheme : SignatureScheme) (g : Group) (covered : Bitfield) (a : Attestation)
    (covered' : Bitfield) : Prop where
  next : g.nextAggregate scheme covered = .ok (some a)
  union : covered.union a.bits = .ok covered'
  clean : covered'.Clean
  length : covered'.length = covered.length
  votes : ∀ i, i ∈ covered'.ones ↔ i ∈ covered.ones ∨ i ∈ a.bits.ones
  made : ∃ parts, parts.Sublist g.members ∧ MadeOf scheme g.data parts a
  fresh : ∃ i ∈ a.bits.ones, i ∉ covered.ones
  fewer : (g.uncovered covered').length < (g.uncovered covered).length

theorem Aligned.mem_uncovered (h : g.Aligned) (hclean : covered.Clean)
    (hlength : covered.length = g.nothingCovered.length) :
    s ∈ g.uncovered covered ↔ s ∈ g.members ∧ ∃ i ∈ s.bits.ones, i ∉ covered.ones := by
  rw [uncovered, List.mem_filter]
  refine and_congr_right fun hs => ?_
  rw [Bool.not_eq_true', ← Bool.not_eq_true,
    Bitfield.isSubsetOf_iff (h.clean s hs) hclean, h.length s hs, hlength]
  simp [List.subset_def]

theorem Aligned.uncovered_cons (h : g.Aligned) {first : Submission} {rest : List Submission}
    (huncovered : g.uncovered covered = first :: rest) :
    first.bits.Clean ∧ ∀ m ∈ rest, m.bits.Clean ∧ m.bits.length = first.bits.length := by
  have hsub : (first :: rest).Sublist g.members := huncovered ▸ List.filter_sublist
  have hfirst : first ∈ g.members := hsub.subset List.mem_cons_self
  refine ⟨h.clean first hfirst, fun m hm => ?_⟩
  have hmem := hsub.subset (List.mem_cons_of_mem first hm)
  exact ⟨h.clean m hmem, (h.length m hmem).trans (h.length first hfirst).symm⟩

/-- Where the bits can be gathered there is an aggregate: of all that
were gathered, or of the first member alone. -/
theorem nextAggregate_of_gather (scheme : SignatureScheme) {first : Submission}
    {rest joined : List Submission} {bits : Bitfield} (h : g.uncovered covered = first :: rest)
    (hgather : gather first.bits rest = .ok (bits, joined)) :
    g.nextAggregate scheme covered
      = .ok (some (match joinSignatures scheme first joined with
        | some signature => ⟨bits, g.data, signature⟩
        | none => first.attestation)) := by
  unfold nextAggregate
  rw [h]
  dsimp only
  rw [hgather]
  simp only [bind, Except.bind]
  cases joinSignatures scheme first joined with
  | none => rfl
  | some signature => rfl

/-- Whether an attestation is made of candidates and has all votes of the
first. -/
structure StartsFrom (scheme : SignatureScheme) (data : AttestationData) (first : Submission)
    (rest : List Submission) (a : Attestation) : Prop where
  made : ∃ parts, parts.Sublist (first :: rest) ∧ MadeOf scheme data parts a
  clean : a.bits.Clean
  length : a.bits.length = first.bits.length
  votes : first.bits.ones ⊆ a.bits.ones

theorem startsFrom_alone (scheme : SignatureScheme) (data : AttestationData) {first : Submission}
    (hfirst : first.bits.Clean) (rest : List Submission) :
    StartsFrom scheme data first rest first.attestation where
  made := ⟨[first], List.singleton_sublist.mpr List.mem_cons_self, Or.inl ⟨first, rfl, rfl⟩⟩
  clean := hfirst
  length := rfl
  votes := List.Subset.refl _

/-- What was gathered is joined if its signatures can be. -/
theorem Gathered.startsFrom {first : Submission} {rest joined : List Submission} {bits : Bitfield}
    {signature : SignatureBytes} (h : Gathered first.bits rest bits joined)
    (hrest : ∀ m ∈ rest, m.bits.length = first.bits.length)
    (hsignature : joinSignatures scheme first joined = some signature) (data : AttestationData) :
    StartsFrom scheme data first rest ⟨bits, data, signature⟩ := by
  obtain ⟨hne, start, others, hdecode, hsum⟩ := joinSignatures_eq_some hsignature
  have hlength : ∀ m ∈ first :: joined, bits.length = m.bits.length := by
    refine List.forall_mem_cons.mpr ⟨h.length, fun m hm => ?_⟩
    exact h.length.trans (hrest m (h.sublist.subset hm)).symm
  have hjoined : Joined scheme data (first :: joined) ⟨bits, data, signature⟩ :=
    { several := Nat.succ_le_succ (List.length_pos_iff.mpr hne)
      clean := h.clean
      disjoint := List.pairwise_cons.mpr ⟨h.apart, h.disjoint⟩
      length := hlength
      votes := fun i => by
        rw [List.exists_mem_cons_iff]
        exact h.votes i
      data := rfl
      signature := ⟨start, others, hdecode, hsum⟩ }
  exact ⟨⟨first :: joined, h.sublist.cons_cons first, Or.inr hjoined⟩, h.clean, h.length,
    fun i hi => (h.votes i).mpr (Or.inl hi)⟩

/-- The next aggregate starts from the first uncovered member, if there
is one. -/
theorem Aligned.nextAggregate_cases (h : g.Aligned) (scheme : SignatureScheme)
    (covered : Bitfield) :
    (g.uncovered covered = [] ∧ g.nextAggregate scheme covered = .ok none)
      ∨ ∃ first rest a, g.uncovered covered = first :: rest
        ∧ g.nextAggregate scheme covered = .ok (some a)
        ∧ StartsFrom scheme g.data first rest a := by
  cases huncovered : g.uncovered covered with
  | nil =>
      refine Or.inl ⟨rfl, ?_⟩
      rw [nextAggregate, huncovered]
  | cons first rest =>
      obtain ⟨hfirst, hrest⟩ := h.uncovered_cons huncovered
      obtain ⟨bits, joined, hgather, hgathered⟩ := gather_eq_ok hfirst hrest
      have hnext := nextAggregate_of_gather scheme huncovered hgather
      refine Or.inr ⟨first, rest, _, rfl, hnext, ?_⟩
      cases hsignature : joinSignatures scheme first joined with
      | none => exact startsFrom_alone scheme g.data hfirst rest
      | some signature =>
          exact hgathered.startsFrom (fun m hm => (hrest m hm).2) hsignature g.data

/-- The more is covered, the less is left. -/
theorem Aligned.uncovered_eq_filter (h : g.Aligned) (hclean : covered.Clean)
    (hclean' : covered'.Clean) (hlength : covered'.length = covered.length)
    (hmore : covered.ones ⊆ covered'.ones) :
    g.uncovered covered'
      = (g.uncovered covered).filter fun m => !m.bits.isSubsetOf covered' := by
  rw [uncovered, uncovered, List.filter_filter]
  refine List.filter_congr fun m hm => ?_
  rw [Bool.eq_iff_iff, Bool.and_eq_true, Bool.not_eq_true', Bool.not_eq_true',
    ← Bool.not_eq_true, ← Bool.not_eq_true, Bitfield.isSubsetOf_iff (h.clean m hm) hclean,
    Bitfield.isSubsetOf_iff (h.clean m hm) hclean', hlength]
  refine (and_iff_left_of_imp fun hnot ⟨hsame, hsub⟩ => hnot ⟨hsame, ?_⟩).symm
  exact List.Subset.trans hsub hmore

/-- A step comes to the end, or covers a member more. -/
theorem Aligned.step (h : g.Aligned) (scheme : SignatureScheme) (hclean : covered.Clean)
    (hlength : covered.length = g.nothingCovered.length) :
    (g.nextAggregate scheme covered = .ok none ∧ ∀ m ∈ g.members, m.bits.ones ⊆ covered.ones)
      ∨ ∃ a covered', Step scheme g covered a covered' := by
  rcases h.nextAggregate_cases scheme covered with ⟨hnil, hnone⟩
    | ⟨first, rest, a, hcons, hnext, hstarts⟩
  · refine Or.inl ⟨hnone, fun m hm i hi => ?_⟩
    by_contra hnot
    have hmem := (h.mem_uncovered hclean hlength).mpr ⟨hm, i, hi, hnot⟩
    rw [hnil] at hmem
    cases hmem
  · have hmem : first ∈ g.uncovered covered := hcons ▸ List.mem_cons_self
    obtain ⟨hmember, i, hi, hnew⟩ := (h.mem_uncovered hclean hlength).mp hmem
    have halength : covered.length = a.bits.length := by
      rw [hstarts.length, h.length first hmember, hlength]
    obtain ⟨covered', hunion, hclean', hlength', hvotes⟩ :=
      Bitfield.union_eq_ok hclean hstarts.clean halength
    obtain ⟨parts, hparts, hmade⟩ := hstarts.made
    have hsub : (first :: rest).Sublist g.members := hcons ▸ List.filter_sublist
    refine Or.inr ⟨a, covered', hnext, hunion, hclean', hlength', hvotes,
      ⟨parts, hparts.trans hsub, hmade⟩, ⟨i, hstarts.votes hi, hnew⟩, ?_⟩
    -- the first member is left out from now on
    rw [h.uncovered_eq_filter hclean hclean' hlength' fun j hj => (hvotes j).mpr (Or.inl hj),
      List.length_filter_lt_length_iff_exists]
    refine ⟨first, hmem, ?_⟩
    rw [Bool.not_eq_true', Bool.not_eq_false,
      Bitfield.isSubsetOf_iff (h.clean first hmember) hclean']
    refine ⟨?_, fun j hj => (hvotes j).mpr (Or.inr (hstarts.votes hj))⟩
    rw [h.length first hmember, hlength', hlength]

-- ============================================================ all steps

/-- Drawing comes to an end, with no more aggregates than there were
uncovered members. -/
theorem Aligned.exists_drawn (h : g.Aligned) (scheme : SignatureScheme) (hclean : covered.Clean)
    (hlength : covered.length = g.nothingCovered.length) :
    ∃ items, Drawn scheme g covered items
      ∧ items.length ≤ (g.uncovered covered).length := by
  induction hn : (g.uncovered covered).length using Nat.strongRecOn
    generalizing covered with
  | ind n ih =>
      subst hn
      rcases h.step scheme hclean hlength with ⟨hnone, -⟩ | ⟨a, covered', hstep⟩
      · exact ⟨[], .done hnone, Nat.zero_le _⟩
      · obtain ⟨items, hdrawn, hle⟩ :=
          ih _ hstep.fewer hstep.clean (hstep.length.trans hlength) rfl
        refine ⟨a :: items, .next hstep.next hstep.union hdrawn, ?_⟩
        exact Nat.succ_le_of_lt (Nat.lt_of_le_of_lt hle hstep.fewer)

/-- A step that gives an attestation is the only one possible. -/
theorem Aligned.step_of_next (h : g.Aligned) (hclean : covered.Clean)
    (hlength : covered.length = g.nothingCovered.length)
    (hnext : g.nextAggregate scheme covered = .ok (some a))
    (hunion : covered.union a.bits = .ok covered') : Step scheme g covered a covered' := by
  rcases h.step scheme hclean hlength with ⟨hnone, -⟩ | ⟨a', covered'', hstep⟩
  · rw [hnext] at hnone
    cases hnone
  · have hsame := hstep.next
    rw [hnext] at hsame
    injection hsame with hsame
    injection hsame with hsame
    subst hsame
    have hsame := hstep.union
    rw [hunion] at hsame
    injection hsame with hsame
    rw [hsame]
    exact hstep

/-- What is drawn from some state on. -/
structure CoversFrom (scheme : SignatureScheme) (g : Group) (covered : Bitfield)
    (items : List Attestation) : Prop where
  made : ∀ a ∈ items, ∃ parts, parts.Sublist g.members ∧ MadeOf scheme g.data parts a
  fresh : ∀ earlier a later, items = earlier ++ a :: later →
    ∃ i ∈ a.bits.ones, i ∉ covered.ones ∧ ∀ b ∈ earlier, i ∉ b.bits.ones
  covers : ∀ m ∈ g.members, ∀ i ∈ m.bits.ones,
    i ∈ covered.ones ∨ ∃ a ∈ items, i ∈ a.bits.ones

theorem Drawn.coversFrom (hdrawn : Drawn scheme g covered items) (h : g.Aligned)
    (hclean : covered.Clean) (hlength : covered.length = g.nothingCovered.length) :
    CoversFrom scheme g covered items := by
  induction hdrawn with
  | done hnone =>
      refine ⟨by simp, by simp, fun m hm i hi => Or.inl ?_⟩
      rcases h.step scheme hclean hlength with ⟨-, hall⟩ | ⟨a, covered', hstep⟩
      · exact hall m hm hi
      · have hsome := hstep.next
        rw [hnone] at hsome
        cases hsome
  | next hnext hunion _ ih =>
      have hstep := h.step_of_next hclean hlength hnext hunion
      have hrest := ih hstep.clean (hstep.length.trans hlength)
      refine ⟨List.forall_mem_cons.mpr ⟨hstep.made, hrest.made⟩, ?_, fun m hm i hi => ?_⟩
      · intro earlier a' later heq
        cases earlier with
        | nil =>
            injection heq with ha
            obtain ⟨i, hi, hnew⟩ := hstep.fresh
            exact ⟨i, ha ▸ hi, hnew, by simp⟩
        | cons b earlier =>
            injection heq with hb heq
            obtain ⟨i, hi, hnew, hearlier⟩ := hrest.fresh earlier a' later heq
            rw [hstep.votes, not_or] at hnew
            exact ⟨i, hi, hnew.1, List.forall_mem_cons.mpr ⟨hb ▸ hnew.2, hearlier⟩⟩
      · rw [List.exists_mem_cons_iff, ← or_assoc, ← hstep.votes]
        exact hrest.covers m hm i hi

/-- What is made of some submissions has no votes but theirs. -/
theorem MadeOf.exists_of_mem {data : AttestationData} {parts : List Submission}
    (h : MadeOf scheme data parts a) {i : Nat} (hi : i ∈ a.bits.ones) :
    ∃ m ∈ parts, i ∈ m.bits.ones := by
  rcases h with ⟨m, hparts, ha⟩ | hjoined
  · refine ⟨m, hparts ▸ List.mem_singleton_self m, ?_⟩
    rw [ha] at hi
    exact hi
  · exact (hjoined.votes i).mp hi

theorem nothingCovered_eq (g : Group) :
    g.nothingCovered = Bitfield.zeros g.nothingCovered.length := by
  unfold nothingCovered
  split
  · rfl
  · rfl

theorem clean_nothingCovered (g : Group) : g.nothingCovered.Clean := by
  rw [nothingCovered_eq]
  exact Bitfield.clean_zeros _

theorem ones_nothingCovered (g : Group) : g.nothingCovered.ones = [] := by
  rw [nothingCovered_eq]
  exact Bitfield.ones_zeros _

/-- The aggregates of an aligned group can be drawn, and cover it. -/
theorem Aligned.aggregates_eq_ok (h : g.Aligned) (scheme : SignatureScheme) :
    ∃ items, g.aggregates scheme = .ok items ∧ Drawn scheme g g.nothingCovered items
      ∧ Covers scheme g items := by
  have hclean := g.clean_nothingCovered
  obtain ⟨items, hdrawn, hle⟩ := h.exists_drawn scheme hclean rfl
  have hsize : items.length ≤ g.size := Nat.le_trans hle (List.length_filter_le _ _)
  have hcovers := hdrawn.coversFrom h hclean rfl
  refine ⟨items, hdrawn.aggregatesFrom_eq hsize, hdrawn, hsize, hcovers.made, ?_, fun i => ?_⟩
  · intro earlier a later heq
    obtain ⟨i, hi, -, hearlier⟩ := hcovers.fresh earlier a later heq
    exact ⟨i, hi, hearlier⟩
  · constructor
    · rintro ⟨a, ha, hi⟩
      obtain ⟨parts, hparts, hmade⟩ := hcovers.made a ha
      obtain ⟨m, hm, him⟩ := hmade.exists_of_mem hi
      exact ⟨m, hparts.subset hm, him⟩
    · rintro ⟨m, hm, hi⟩
      rcases hcovers.covers m hm i hi with hcovered | hitem
      · rw [g.ones_nothingCovered] at hcovered
        cases hcovered
      · exact hitem

end Group

end ChainHead
