/-
What is selected for a block: the aggregates of the groups accepted for
it, newest slot first, up to the limit.

# One list

As long as all groups can be aggregated, what is selected is the first
part of one list: of what every group offers, in the order of the index
(`attestationsForBlock_eq_ok`). That no room is wasted and that what
comes later gives way to what comes earlier is in this equation; the
rest is about the list.

# Every group

Groups can be aggregated because their members are aligned, which holds
of every group in a run because all that happens to a group is that
members are added and removed (`everywhere_after`). That a group is
found in its place, and in no other, is the agreement of the index with
the groups, `Tidy`.
-/
import ChainHead.Proofs.Pool.Index
import ChainHead.Proofs.Pool.Members

namespace ChainHead.Pool

variable {p : Pool} {preset : Preset} {sel : Selection} {state : BeaconState}
variable {root : Root} {g : Group} {a : Attestation} {items items' : List Attestation}

-- ============================================== statement vocabulary

/-- The submissions that were handed in, with what was known about
them. -/
def handedIn (calls : List Call) : List (Submission × Facts) :=
  calls.filterMap fun
    | .add s facts => some (s, facts)
    | _ => none

/-- Whether a selection takes a group into account for a block on a
state. -/
structure Selection.Accepts (sel : Selection) (state : BeaconState) (g : Group) : Prop where
  rule : sel.rule state g.data = .ok ()
  fork : sel.sameFork g = true

instance (sel : Selection) (state : BeaconState) (g : Group) :
    Decidable (sel.Accepts state g) :=
  decidable_of_iff (sel.rule state g.data = .ok () ∧ sel.sameFork g = true)
    ⟨fun h => ⟨h.1, h.2⟩, fun h => ⟨h.rule, h.fork⟩⟩

/-- Whether every attestation has a vote that no earlier one with its
data has. -/
def Fresh (items : List Attestation) : Prop :=
  ∀ earlier a later, items = earlier ++ a :: later →
    ∃ i ∈ a.bits.ones, ∀ b ∈ earlier, b.data = a.data → i ∉ b.bits.ones

/-- Whether attestations are a selection from a pool: no more than the
limit, newest slot first, each with votes of one accepted group and with
a new vote, and with all votes of the accepted groups if there is room
left. -/
structure Packed (sel : Selection) (p : Pool) (state : BeaconState) (limit : Nat)
    (items : List Attestation) : Prop where
  length_le : items.length ≤ limit
  newestFirst : items.Pairwise fun a b => b.data.slot ≤ a.data.slot
  sound : ∀ a ∈ items, ∃ (root : Root) (g : Group), p.groups[root]? = some g
    ∧ sel.Accepts state g ∧ a.data = g.data
    ∧ ∀ i ∈ a.bits.ones, ∃ m ∈ g.members, i ∈ m.bits.ones
  fresh : Fresh items
  complete : items.length < limit → ∀ (root : Root) (g : Group), p.groups[root]? = some g →
    sel.Accepts state g → ∀ m ∈ g.members, ∀ i ∈ m.bits.ones,
      ∃ a ∈ items, a.data = g.data ∧ i ∈ a.bits.ones

/-- Whether all groups of a pool have some property in their place. -/
def Everywhere (p : Pool) (P : Root → Group → Prop) : Prop :=
  ∀ (root : Root) (g : Group), p.groups[root]? = some g → P root g

-- ============================================================ one list

/-- The aggregates of a group, if it is accepted. -/
def offers (sel : Selection) (p : Pool) (state : BeaconState) (root : Root) : List Attestation :=
  match p.groups[root]? with
  | none => []
  | some g => if sel.Accepts state g then (g.aggregates sel.scheme).toOption.getD [] else []

theorem offers_eq (hg : p.groups[root]? = some g) (haccepts : sel.Accepts state g)
    (hitems : g.aggregates sel.scheme = .ok items) : p.offers sel state root = items := by
  rw [offers, hg]
  dsimp only
  rw [if_pos haccepts, hitems]
  rfl

theorem offers_eq_nil (h : ∀ g : Group, p.groups[root]? = some g → ¬sel.Accepts state g) :
    p.offers sel state root = [] := by
  unfold offers
  cases hg : p.groups[root]? with
  | none => rfl
  | some g => exact if_neg (h g hg)

/-- What is offered are the aggregates of an accepted group. -/
theorem exists_of_mem_offers (ha : a ∈ p.offers sel state root) :
    ∃ g items, p.groups[root]? = some g ∧ sel.Accepts state g
      ∧ g.aggregates sel.scheme = .ok items ∧ a ∈ items := by
  unfold offers at ha
  cases hg : p.groups[root]? with
  | none =>
      rw [hg] at ha
      cases ha
  | some g =>
      rw [hg] at ha
      dsimp only at ha
      split at ha
      case isFalse => cases ha
      case isTrue haccepts =>
        cases hitems : g.aggregates sel.scheme with
        | error e =>
            rw [hitems] at ha
            cases ha
        | ok items =>
            rw [hitems] at ha
            exact ⟨g, items, rfl, haccepts, hitems, ha⟩

/-- A root is passed over if no group is accepted there. -/
theorem select_of_refused (h : ∀ g : Group, p.groups[root]? = some g → ¬sel.Accepts state g)
    (room : Nat) (rest : List Root) :
    (select sel p state (room + 1) (root :: rest)).value
      = (select sel p state (room + 1) rest).value := by
  rw [select]
  cases hg : p.groups[root]? with
  | none => rfl
  | some g =>
      dsimp only
      cases hrule : sel.rule state g.data with
      | error reason => rfl
      | ok =>
          cases hfork : sel.sameFork g with
          | false => rfl
          | true => exact absurd ⟨hrule, hfork⟩ (h g hg)

/-- An accepted group takes the room that it needs. -/
theorem select_of_accepts (hg : p.groups[root]? = some g) (haccepts : sel.Accepts state g)
    (hitems : g.aggregates sel.scheme = .ok items) (room : Nat) (rest : List Root) :
    (select sel p state (room + 1) (root :: rest)).value
      = (select sel p state (room + 1 - items.length) rest).value.map
        (items.take (room + 1) ++ ·) := by
  have hroom : room + 1 - (items.take (room + 1)).length = room + 1 - items.length := by
    rw [List.length_take]
    omega
  rw [select, hg]
  dsimp only
  rw [haccepts.rule]
  dsimp only
  rw [haccepts.fork, hitems]
  dsimp only
  rw [hroom]
  rfl

/-- Groups are gone through as long as there is room. -/
theorem select_eq_ok
    (hok : p.Everywhere fun _ g => ∃ items, g.aggregates sel.scheme = .ok items)
    (roots : List Root) (room : Nat) :
    (select sel p state room roots).value
      = .ok ((roots.flatMap (p.offers sel state)).take room) := by
  induction roots generalizing room with
  | nil => simp [select]
  | cons root rest ih =>
      cases room with
      | zero => simp [select]
      | succ room =>
          rw [List.flatMap_cons]
          by_cases hsome : ∃ g : Group, p.groups[root]? = some g ∧ sel.Accepts state g
          · obtain ⟨g, hg, haccepts⟩ := hsome
            obtain ⟨items, hitems⟩ := hok root g hg
            rw [select_of_accepts hg haccepts hitems, offers_eq hg haccepts hitems, ih,
              List.take_append]
            rfl
          · have hnone : ∀ g : Group, p.groups[root]? = some g → ¬sel.Accepts state g :=
              fun g hg haccepts => hsome ⟨g, hg, haccepts⟩
            rw [select_of_refused hnone, offers_eq_nil hnone, ih, List.nil_append]

/-- What is selected is as much as there is room for of all that is
offered, in the order of the index. -/
theorem attestationsForBlock_eq_ok
    (hok : p.Everywhere fun _ g => ∃ items, g.aggregates sel.scheme = .ok items) :
    (p.attestationsForBlock preset sel state).value.2
      = .ok ((p.rootsNewestFirst.flatMap (p.offers sel state)).take preset.maxAttestations) := by
  let counted := { p with metrics := p.metrics.countPacking }
  have hok' : counted.Everywhere fun _ g => ∃ items, g.aggregates sel.scheme = .ok items := hok
  have hselect : (select sel counted state preset.maxAttestations p.rootsNewestFirst).value
      = .ok ((p.rootsNewestFirst.flatMap (counted.offers sel state)).take
        preset.maxAttestations) :=
    select_eq_ok hok' p.rootsNewestFirst preset.maxAttestations
  have hsame : counted.rootsNewestFirst = p.rootsNewestFirst := rfl
  unfold attestationsForBlock
  dsimp only
  rw [Logged.value_bind, hsame, hselect]
  rfl

-- ================================================ the order of the index

/-- What is gone through are the roots of the groups. -/
theorem Tidy.mem_rootsNewestFirst (h : p.Tidy) :
    root ∈ p.rootsNewestFirst ↔ ∃ g : Group, p.groups[root]? = some g := by
  unfold rootsNewestFirst
  rw [List.mem_flatMap]
  constructor
  · rintro ⟨⟨slot, roots⟩, hentry, hroot⟩
    rw [List.mem_reverse, Std.ExtTreeMap.mem_toList_iff_getElem?_eq_some] at hentry
    obtain ⟨g, hg, -⟩ := (h.index slot root).mp
      (mem_rootsIn.mpr ⟨roots, hentry, Std.ExtTreeSet.mem_toList.mp hroot⟩)
    exact ⟨g, hg⟩
  · rintro ⟨g, hg⟩
    obtain ⟨roots, hroots, hroot⟩ := mem_rootsIn.mp ((h.index g.data.slot root).mpr ⟨g, hg, rfl⟩)
    refine ⟨(g.data.slot, roots), ?_, Std.ExtTreeSet.mem_toList.mpr hroot⟩
    rwa [List.mem_reverse, Std.ExtTreeMap.mem_toList_iff_getElem?_eq_some]

/-- Roots are gone through once each, in the order of their slots. -/
theorem Tidy.pairwise_rootsNewestFirst (h : p.Tidy) :
    p.rootsNewestFirst.Pairwise fun r r' => r ≠ r' ∧ ∀ g g' : Group,
      p.groups[r]? = some g → p.groups[r']? = some g' → g'.data.slot ≤ g.data.slot := by
  have hlisted : ∀ entry ∈ p.slots.toList, ∀ root ∈ entry.2.toList, ∃ g : Group,
      p.groups[root]? = some g ∧ g.data.slot = entry.1 := by
    intro entry hentry root hroot
    rw [Std.ExtTreeMap.mem_toList_iff_getElem?_eq_some] at hentry
    exact (h.index entry.1 root).mp
      (mem_rootsIn.mpr ⟨entry.2, hentry, Std.ExtTreeSet.mem_toList.mp hroot⟩)
  have hslot : ∀ entry ∈ p.slots.toList, ∀ root ∈ entry.2.toList, ∀ g : Group,
      p.groups[root]? = some g → g.data.slot = entry.1 := by
    intro entry hentry root hroot g hg
    obtain ⟨g', hg', hslot⟩ := hlisted entry hentry root hroot
    rw [hg, Option.some.injEq] at hg'
    rw [hg', hslot]
  unfold rootsNewestFirst
  rw [List.pairwise_flatMap]
  constructor
  · intro entry hentry
    rw [List.mem_reverse] at hentry
    refine entry.2.distinct_toList.imp_of_mem fun hr hr' hne => ⟨?_, fun g g' hg hg' => ?_⟩
    · rintro rfl
      exact hne Std.ReflOrd.compare_self
    · rw [hslot entry hentry _ hr g hg, hslot entry hentry _ hr' g' hg']
      exact UInt64.le_refl _
  · -- entries are listed by increasing slot and gone through in reverse
    rw [List.pairwise_reverse]
    refine p.slots.ordered_keys_toList.imp_of_mem fun {e e'} he he' hlt r' hr' r hr => ?_
    have hlt' : e.1 < e'.1 := Std.compare_eq_lt.mp hlt
    refine ⟨?_, fun g' g hg' hg => ?_⟩
    · rintro rfl
      obtain ⟨g, hg, hsame⟩ := hlisted e he _ hr
      rw [hslot e' he' _ hr' g hg] at hsame
      exact UInt64.ne_of_lt hlt' hsame.symm
    · rw [hslot e he r hr g hg, hslot e' he' r' hr' g' hg']
      exact UInt64.le_of_lt hlt'

-- ========================================================== new votes

theorem Fresh.take (h : Fresh items) (n : Nat) : Fresh (items.take n) := by
  intro earlier a later heq
  refine h earlier a (later ++ items.drop n) ?_
  rw [← List.cons_append, ← List.append_assoc, ← heq, List.take_append_drop]

/-- Votes are as new behind attestations with other data. -/
theorem Fresh.append (h : Fresh items) (h' : Fresh items')
    (hother : ∀ a ∈ items, ∀ b ∈ items', a.data ≠ b.data) : Fresh (items ++ items') := by
  intro earlier a later heq
  rcases List.append_eq_append_iff.mp heq with ⟨between, hearlier, hitems'⟩
    | ⟨between, hitems, hlater⟩
  · obtain ⟨i, hi, hnew⟩ := h' between a later hitems'
    have ha : a ∈ items' := hitems' ▸ by simp
    refine ⟨i, hi, fun b hb hdata => ?_⟩
    rw [hearlier, List.mem_append] at hb
    rcases hb with hb | hb
    · exact absurd hdata (hother b hb a ha)
    · exact hnew b hb hdata
  · cases between with
    | nil =>
        -- the attestation is the first of the second list
        rw [List.append_nil] at hitems
        have ha : a ∈ items' := by
          rw [List.nil_append] at hlater
          exact hlater ▸ List.mem_cons_self
        obtain ⟨i, hi, -⟩ := h' [] a later hlater.symm
        exact ⟨i, hi, fun b hb hdata => absurd hdata (hother b (hitems ▸ hb) a ha)⟩
    | cons b between =>
        injection hlater with hb _
        subst hb
        exact h earlier a between hitems

/-- Every aggregate of a group has a vote that none before it has. -/
theorem fresh_of_covers {scheme : SignatureScheme} (h : g.Covers scheme items) : Fresh items := by
  intro earlier a later heq
  obtain ⟨i, hi, hnew⟩ := h.fresh earlier a later heq
  exact ⟨i, hi, fun b hb _ => hnew b hb⟩

-- ========================================================== selections

/-- What a group offers covers it, under its data. -/
theorem Tidy.covers_of_mem_offers (h : p.Tidy) (haligned : p.Everywhere fun _ g => g.Aligned)
    (ha : a ∈ p.offers sel state root) :
    ∃ g : Group, p.groups[root]? = some g ∧ sel.Accepts state g
      ∧ g.Covers sel.scheme (p.offers sel state root) ∧ a.data = g.data := by
  obtain ⟨g, items, hg, haccepts, hitems, -⟩ := exists_of_mem_offers ha
  obtain ⟨items', hitems', -, hcovers⟩ := (haligned root g hg).aggregates_eq_ok sel.scheme
  rw [← offers_eq hg haccepts hitems'] at hcovers
  refine ⟨g, hg, haccepts, hcovers, ?_⟩
  obtain ⟨parts, hparts, ⟨m, rfl, rfl⟩ | hjoined⟩ := hcovers.made a ha
  · exact (h.group root g hg).data m (hparts.subset (List.mem_singleton_self m))
  · exact hjoined.data

/-- Different groups have different data. -/
theorem Tidy.root_unique (h : p.Tidy) {root' : Root} {g' : Group} (hg : p.groups[root]? = some g)
    (hg' : p.groups[root']? = some g') (hdata : g.data = g'.data) : root = root' := by
  rw [← (h.group root g hg).root, ← (h.group root' g' hg').root, hdata]

/-- What different groups offer is as new as it was within each. -/
theorem Tidy.fresh_offers (h : p.Tidy) (haligned : p.Everywhere fun _ g => g.Aligned)
    {roots : List Root} (hroots : roots.Nodup) :
    Fresh (roots.flatMap (p.offers sel state)) := by
  induction roots with
  | nil =>
      intro earlier a later heq
      simp at heq
  | cons root rest ih =>
      obtain ⟨hroot, hrest⟩ := List.nodup_cons.mp hroots
      rw [List.flatMap_cons]
      refine Fresh.append ?_ (ih hrest) fun a ha b hb hdata => ?_
      · intro earlier a later heq
        obtain ⟨g, -, -, hcovers, -⟩ := h.covers_of_mem_offers haligned (a := a)
          (show a ∈ p.offers sel state root from heq ▸ by simp)
        exact fresh_of_covers hcovers earlier a later heq
      · obtain ⟨root', hroot', hb⟩ := List.mem_flatMap.mp hb
        obtain ⟨g, hg, -, -, ha⟩ := h.covers_of_mem_offers haligned ha
        obtain ⟨g', hg', -, -, hb⟩ := h.covers_of_mem_offers haligned hb
        have hsame := h.root_unique hg hg' (by rw [← ha, hdata, hb])
        exact hroot (hsame ▸ hroot')

/-- What the groups offer has the order of the index. -/
theorem Tidy.pairwise_offers (h : p.Tidy) (haligned : p.Everywhere fun _ g => g.Aligned) :
    (p.rootsNewestFirst.flatMap (p.offers sel state)).Pairwise fun a b =>
      b.data.slot ≤ a.data.slot := by
  rw [List.pairwise_flatMap]
  constructor
  · intro root _
    refine List.pairwise_of_forall_mem_list fun a ha b hb => ?_
    obtain ⟨g, hg, -, -, ha⟩ := h.covers_of_mem_offers haligned ha
    obtain ⟨g', hg', -, -, hb⟩ := h.covers_of_mem_offers haligned hb
    rw [hg, Option.some.injEq] at hg'
    rw [ha, hb, hg']
    exact UInt64.le_refl _
  · refine h.pairwise_rootsNewestFirst.imp fun ⟨_, hslot⟩ a ha b hb => ?_
    obtain ⟨g, hg, -, -, ha⟩ := h.covers_of_mem_offers haligned ha
    obtain ⟨g', hg', -, -, hb⟩ := h.covers_of_mem_offers haligned hb
    rw [ha, hb]
    exact hslot g g' hg hg'

/-- Of a tidy pool of aligned groups there is a selection. -/
theorem Tidy.packed (h : p.Tidy) (haligned : p.Everywhere fun _ g => g.Aligned)
    (preset : Preset) (sel : Selection) (state : BeaconState) :
    ∃ items, (p.attestationsForBlock preset sel state).value.2 = .ok items
      ∧ Packed sel p state preset.maxAttestations items := by
  have hfresh : Fresh (p.rootsNewestFirst.flatMap (p.offers sel state)) :=
    h.fresh_offers haligned (h.pairwise_rootsNewestFirst.imp And.left)
  have hslots : (p.rootsNewestFirst.flatMap (p.offers sel state)).Pairwise fun a b =>
      b.data.slot ≤ a.data.slot := h.pairwise_offers haligned
  refine ⟨_, attestationsForBlock_eq_ok fun root g hg => ?_, ?_⟩
  · obtain ⟨items, hitems, -⟩ := (haligned root g hg).aggregates_eq_ok sel.scheme
    exact ⟨items, hitems⟩
  · refine ⟨List.length_take_le _ _, hslots.sublist (List.take_sublist _ _), fun a ha => ?_,
      hfresh.take _, fun hroom root g hg haccepts m hm i hi => ?_⟩
    · obtain ⟨root, -, ha⟩ := List.mem_flatMap.mp (List.mem_of_mem_take ha)
      obtain ⟨g, hg, haccepts, hcovers, hdata⟩ := h.covers_of_mem_offers haligned ha
      exact ⟨root, g, hg, haccepts, hdata, fun i hi => (hcovers.votes i).mp ⟨a, ha, hi⟩⟩
    · -- there was room left, so nothing was cut off
      rw [List.length_take] at hroom
      rw [List.take_of_length_le (by omega)]
      obtain ⟨items, hitems, -, hcovers⟩ := (haligned root g hg).aggregates_eq_ok sel.scheme
      obtain ⟨a, ha, hvote⟩ := (hcovers.votes i).mpr ⟨m, hm, hi⟩
      rw [← offers_eq hg haccepts hitems] at ha
      obtain ⟨g', hg', -, -, hdata⟩ := h.covers_of_mem_offers haligned ha
      rw [hg, Option.some.injEq] at hg'
      refine ⟨a, List.mem_flatMap.mpr ⟨root, h.mem_rootsNewestFirst.mpr ⟨g, hg⟩, ha⟩, ?_, hvote⟩
      rw [hg', hdata]

-- ======================================================== every group

variable {P : Root → Group → Prop}

theorem Everywhere.removeEqual (h : p.Everywhere P)
    (hremove : ∀ root g a, P root g → P root (g.remove a)) (a : Attestation) :
    (p.removeEqual a).Everywhere P := by
  rcases p.removeEqual_cases a with ⟨-, heq⟩ | ⟨g, hg, ⟨-, heq⟩ | ⟨-, heq⟩⟩
  · rw [heq]
    exact h
  · rw [heq]
    exact Map.forall_erase h
  · rw [heq]
    exact Map.forall_insert h (hremove _ g a (h _ g hg))

theorem Everywhere.foldl_removeEqual (h : p.Everywhere P)
    (hremove : ∀ root g a, P root g → P root (g.remove a)) (as : List Attestation) :
    (as.foldl Pool.removeEqual p).Everywhere P := by
  induction as generalizing p with
  | nil => exact h
  | cons a as ih => exact ih (h.removeEqual hremove a)

/-- What holds of new groups, and of a group still when submissions are
added or removed, holds of all groups after a call if it did before. -/
theorem Everywhere.call (h : p.Everywhere P) {c : Call}
    (hnew : ∀ s facts seed, (s, facts) ∈ handedIn [c] → facts.seed = some seed →
      p.groups[s.dataRoot]? = none → P s.dataRoot { data := s.data, dataRoot := s.dataRoot, seed })
    (hadd : ∀ s facts g, (s, facts) ∈ handedIn [c] → facts.seed ≠ none → P s.dataRoot g →
      P s.dataRoot (g.add s).value.1)
    (hremove : ∀ root g a, P root g → P root (g.remove a)) : (p.call preset c).Everywhere P := by
  cases c with
  | add s facts =>
      have hmem : (s, facts) ∈ handedIn [.add s facts] := List.mem_singleton_self _
      cases hseed : facts.seed with
      | none =>
          simp only [Pool.call, add, hseed]
          exact h
      | some seed =>
          obtain ⟨result, hresult, hvalue⟩ := p.add_value s hseed
          -- the group that is joined was there or is new
          have hjoined : P s.dataRoot (p.joined s seed) := by
            unfold joined
            rw [Std.ExtTreeMap.getD_eq_getD_getElem?]
            cases hg : p.groups[s.dataRoot]? with
            | none => exact hnew s facts seed hmem hseed hg
            | some g => exact h _ g hg
          simp only [Pool.call, hresult, hvalue]
          exact Map.forall_insert h (hadd s facts _ hmem (by simp [hseed]) hjoined)
  | remove a => exact h.removeEqual hremove a
  | removeAll as => exact h.foldl_removeEqual hremove as
  | slot slot =>
      rw [Pool.call, onSlot_value]
      cases p.firstKeptSlot? preset slot with
      | none => exact h
      | some first =>
          intro root g hg
          change ((rootsBefore p.slots first).foldl _ p.groups)[root]? = some g at hg
          rw [Map.getElem?_foldl_erase] at hg
          split at hg
          case isTrue => cases hg
          case isFalse => exact h root g hg

/-- What a pool holds was there before or was handed in. -/
theorem mem_stored_call {c : Call} {s : Submission} (h : s ∈ (p.call preset c).stored) :
    s ∈ p.stored ∨ ∃ facts, c = .add s facts := by
  let P : Root → Group → Prop := fun _ g => ∀ m ∈ g.members, m ∈ p.stored ∨ ∃ facts, c = .add m facts
  have hbefore : p.Everywhere P := fun root g hg m hm => .inl (mem_storedIn.mpr ⟨root, g, hg, hm⟩)
  have hafter : (p.call preset c).Everywhere P := by
    refine hbefore.call (fun _ _ _ _ _ _ m hm => absurd hm List.not_mem_nil)
      (fun s' facts g hs' _ hg m hm => ?_)
      fun root g a hg m hm => hg m (List.mem_of_mem_filter hm)
    have hcall : c = .add s' facts := by
      cases c with
      | add s'' facts'' =>
          obtain ⟨rfl, rfl⟩ := Prod.mk.inj (List.mem_singleton.mp hs')
          rfl
      | remove a => exact absurd hs' List.not_mem_nil
      | removeAll as => exact absurd hs' List.not_mem_nil
      | slot slot => exact absurd hs' List.not_mem_nil
    rcases Group.mem_of_mem_add hm with rfl | hold
    · exact .inr ⟨facts, hcall⟩
    · exact hg m hold
  obtain ⟨root, g, hg, hs⟩ := mem_storedIn.mp h
  exact hafter root g hg s hs

theorem mem_handedIn_cons {x : Submission × Facts} {c : Call} {earlier : List Call} :
    x ∈ handedIn (c :: earlier) ↔ x ∈ handedIn [c] ∨ x ∈ handedIn earlier := by
  rw [← List.mem_append]
  unfold handedIn
  rw [← List.filterMap_append, List.singleton_append]

/-- What holds of new groups, and of a group still when submissions are
added or removed, holds of all groups in a run. -/
theorem everywhere_after (preset : Preset) (retentionEpochs : UInt64) {calls : List Call}
    (hnew : ∀ s facts seed, (s, facts) ∈ handedIn calls → facts.seed = some seed →
      P s.dataRoot { data := s.data, dataRoot := s.dataRoot, seed })
    (hadd : ∀ s facts g, (s, facts) ∈ handedIn calls → facts.seed ≠ none → P s.dataRoot g →
      P s.dataRoot (g.add s).value.1)
    (hremove : ∀ root g a, P root g → P root (g.remove a)) :
    (after preset { retentionEpochs } calls).Everywhere P := by
  induction calls with
  | nil =>
      intro root g hg
      simp [after] at hg
  | cons c earlier ih =>
      have hrest := ih
        (fun s facts seed hs => hnew s facts seed (mem_handedIn_cons.mpr (Or.inr hs)))
        (fun s facts g hs => hadd s facts g (mem_handedIn_cons.mpr (Or.inr hs)))
      exact hrest.call
        (fun s facts seed hs hseed _ =>
          hnew s facts seed (mem_handedIn_cons.mpr (Or.inl hs)) hseed)
        (fun s facts g hs => hadd s facts g (mem_handedIn_cons.mpr (Or.inl hs))) hremove

/-- All groups stay aligned in any run. -/
theorem aligned_after (preset : Preset) (retentionEpochs : UInt64) {calls : List Call}
    (hclean : ∀ x ∈ handedIn calls, x.1.bits.Clean) :
    (after preset { retentionEpochs } calls).Everywhere fun _ g => g.Aligned :=
  everywhere_after preset retentionEpochs
    (fun _ _ _ _ _ => ⟨by simp, by simp⟩)
    (fun s facts _ hs _ hg => hg.add (hclean (s, facts) hs))
    (fun _ _ a hg => hg.remove a)

/-- After any run in which data are told apart by their roots, what is
selected for a block on any state, under any rule and comparison of
forks, is a selection. -/
theorem packed_after (preset : Preset) (retentionEpochs : UInt64) (calls : List Call)
    (sel : Selection) (state : BeaconState) (hdistinct : Distinct calls)
    (hclean : ∀ x ∈ handedIn calls, x.1.bits.Clean) :
    let p := after preset { retentionEpochs } calls
    ∃ items, (p.attestationsForBlock preset sel state).value.2 = .ok items
      ∧ Packed sel p state preset.maxAttestations items := by
  intro p
  obtain ⟨htidy, -⟩ := tidy_run preset retentionEpochs hdistinct
  exact htidy.packed (aligned_after preset retentionEpochs hclean) preset sel state

/-- A state at a slot, with neither validators nor committees. -/
def bareState (slot : Slot) (seed : Root) : BeaconState where
  slot
  fork := {}
  genesisValidatorsRoot := 0
  currentJustified := {}
  previousJustified := {}
  finalized := {}
  committeeCount _ := 1
  committee _ _ := none
  publicKey _ := none
  shufflingSeed _ := seed

/-- Whatever was shuffled with the seed of a state, as signed numbers. -/
def sameSeed (state : BeaconState) : Selection where
  scheme := .product
  rule := Inclusion.acceptAll
  sameFork g := Inclusion.sameShuffling state g.seed g.data
  features := {}

/-- Votes of three members of a committee, signed by a number. -/
def paper (id : Nat) (votes : UInt8) (slot : Slot) (index : CommitteeIndex) : Submission :=
  { id, attestation := ⟨⟨3, [votes]⟩, { slot, index }, BitVec.cons true (BitVec.ofNat 767 id)⟩ }

/-- Two members of a committee vote separately, and at the next slot two
and again two, one of them the same; then one of a committee that was
shuffled with another seed. -/
def round : List Call :=
  [.add (paper 5 0b001 2 1) { seed := some 1 },
    .add (paper 4 0b110 2 0) { seed := some 0 },
    .add (paper 3 0b011 2 0) { seed := some 0 },
    .add (paper 2 0b010 1 0) { seed := some 0 },
    .add (paper 1 0b001 1 0) { seed := some 0 }]

/-- There is room for all: two attestations of the later slot, and one
that joins those of the earlier. -/
theorem packed_after_round :
    let p := after .minimal { retentionEpochs := 2 } round
    let sel := sameSeed (bareState 3 0)
    (Distinct round ∧ (∀ x ∈ handedIn round, x.1.bits.Clean)
        ∧ (p.attestationsForBlock .minimal sel (bareState 3 0)).value.2
          = .ok [(paper 3 0b011 2 0).attestation, (paper 4 0b110 2 0).attestation,
            (paper 3 0b011 1 0).attestation])
      ∧ ∃ items, (p.attestationsForBlock .minimal sel (bareState 3 0)).value.2 = .ok items
        ∧ Packed sel p (bareState 3 0) (Preset.minimal).maxAttestations items := by
  refine (and_iff_left_of_imp fun hseen =>
    packed_after .minimal 2 round _ _ hseen.1 hseen.2.1).mpr ?_
  decide +kernel

end ChainHead.Pool
