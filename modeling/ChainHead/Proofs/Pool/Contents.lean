/-
What the operations on a pool do to the submissions it holds.

A pool holds the members of all its groups. To look at one group is to
split that list (`storedIn_split`), and to put another group in its
place is to change one part (`storedIn_insert`), in whatever order the
map has them. So what an operation does to one group it does to the
pool: the results of adding are told apart once (`Group.add_cases`,
`add_cases`), and taking out one group after the other counts what goes
(`countIn_add_length`).
-/
import ChainHead.Proofs.Map
import ChainHead.Proofs.Pool.Run
import Mathlib.Data.List.Perm.Basic

namespace ChainHead

-- ============================================================== groups

namespace Group

variable {g : Group} {s : Submission} {a : Attestation}

theorem isEmpty_iff : g.isEmpty = true ↔ g.members = [] :=
  List.isEmpty_iff

theorem place_perm (s : Submission) (members : List Submission) :
    (place s members).Perm (s :: members) := by
  unfold place
  refine List.perm_middle.trans ?_
  rw [List.takeWhile_append_dropWhile]

/-- A group refuses a newcomer only if it has members, and otherwise has
one more. -/
theorem add_cases (g : Group) (s : Submission) :
    ((g.add s).value = (g, false) ∧ g.members ≠ [])
      ∨ ∃ members, (g.add s).value = ({ g with members }, true)
        ∧ members.Perm (s :: g.members) := by
  unfold add
  cases hfirst : g.members.head? with
  | none =>
      rw [List.head?_eq_none_iff] at hfirst
      exact Or.inr ⟨[s], rfl, by rw [hfirst]⟩
  | some first =>
      have hne : g.members ≠ [] := by
        intro hnil
        rw [hnil] at hfirst
        cases hfirst
      dsimp only
      split
      case isTrue => exact Or.inl ⟨rfl, hne⟩
      case isFalse =>
        split
        case isTrue => exact Or.inl ⟨rfl, hne⟩
        case isFalse => exact Or.inr ⟨_, rfl, place_perm s g.members⟩

/-- A group has no members but those that it had and the newcomer. -/
theorem mem_of_mem_add {m : Submission} (hm : m ∈ (g.add s).value.1.members) :
    m = s ∨ m ∈ g.members := by
  rcases g.add_cases s with ⟨heq, -⟩ | ⟨members, heq, hperm⟩
  · rw [heq] at hm
    exact Or.inr hm
  · rw [heq] at hm
    exact List.mem_cons.mp (hperm.mem_iff.mp hm)

end Group

namespace Pool

/-- Elements of lists can be selected list by list, if that comes to the
same. -/
theorem flatMap_filter {α β : Type} {xs : List α} {f : α → List β} {q : α → Bool} {r : β → Bool}
    (h : ∀ x ∈ xs, ∀ y ∈ f x, r y = q x) : (xs.filter q).flatMap f = (xs.flatMap f).filter r := by
  induction xs with
  | nil => rfl
  | cons x xs ih =>
      obtain ⟨hx, hxs⟩ := List.forall_mem_cons.mp h
      rw [List.flatMap_cons, List.filter_append, ← ih hxs, List.filter_cons]
      cases hq : q x with
      | true =>
          have hall : (f x).filter r = f x := List.filter_eq_self.mpr fun y hy =>
            (hx y hy).trans hq
          rw [hall, if_pos rfl, List.flatMap_cons]
      | false =>
          have hnone : (f x).filter r = [] := List.filter_eq_nil_iff.mpr fun y hy => by
            rw [hx y hy, hq]
            exact Bool.false_ne_true
          rw [hnone, if_neg Bool.false_ne_true, List.nil_append]

variable {p : Pool} {groups : Std.ExtTreeMap Root Group} {root : Root} {g : Group}
variable {s : Submission} {a : Attestation}

-- ============================================================ contents

theorem mem_storedIn :
    s ∈ storedIn groups ↔ ∃ (root : Root) (g : Group), groups[root]? = some g ∧ s ∈ g.members := by
  unfold storedIn
  rw [List.mem_flatMap]
  constructor
  · intro ⟨⟨root, g⟩, hmem, hs⟩
    exact ⟨root, g, Std.ExtTreeMap.mem_toList_iff_getElem?_eq_some.mp hmem, hs⟩
  · intro ⟨root, g, hg, hs⟩
    exact ⟨(root, g), Std.ExtTreeMap.mem_toList_iff_getElem?_eq_some.mpr hg, hs⟩

/-- What is stored is in one group or in the others. -/
theorem storedIn_split (h : groups[root]? = some g) :
    (storedIn groups).Perm (g.members ++ storedIn (groups.erase root)) :=
  (Map.toList_perm h).flatMap_right _

theorem storedIn_insert (groups : Std.ExtTreeMap Root Group) (root : Root) (g : Group) :
    (storedIn (groups.insert root g)).Perm (g.members ++ storedIn (groups.erase root)) := by
  have hsplit := storedIn_split (groups.getElem?_insert_self (k := root) (v := g))
  rw [Map.erase_insert] at hsplit
  exact hsplit

theorem length_storedIn_insert (groups : Std.ExtTreeMap Root Group) (root : Root) (g : Group) :
    (storedIn (groups.insert root g)).length
      = g.members.length + (storedIn (groups.erase root)).length :=
  (storedIn_insert groups root g).length_eq.trans List.length_append

/-- What is stored goes with the group that is taken out. -/
theorem length_storedIn_erase (groups : Std.ExtTreeMap Root Group) (root : Root) :
    (groups[root]?.map Group.size).getD 0 + (storedIn (groups.erase root)).length
      = (storedIn groups).length := by
  cases hg : groups[root]? with
  | none =>
      rw [Map.erase_of_absent hg]
      exact Nat.zero_add _
  | some g =>
      rw [(storedIn_split hg).length_eq, List.length_append]
      rfl

-- ============================================================== adding

/-- The group that a submission is to join, a new one if there is none
with its root. -/
def joined (p : Pool) (s : Submission) (seed : Root) : Group :=
  p.groups.getD s.dataRoot { data := s.data, dataRoot := s.dataRoot, seed }

/-- A pool with a group at the root of a submission, listed at its
slot. -/
def filed (p : Pool) (s : Submission) (g : Group) (size : Nat) : Pool :=
  { p with
    groups := p.groups.insert s.dataRoot g
    slots := p.slots.insert s.data.slot ((rootsIn p.slots s.data.slot).insert s.dataRoot)
    size }

/-- With a seed, a submission is filed with the group that it is to join,
whatever that makes of it. -/
theorem add_value (p : Pool) (s : Submission) {facts : Facts} {seed : Root}
    (hseed : facts.seed = some seed) :
    ∃ result, p.add s facts = .ok result
      ∧ result.value
        = ((p.filed s ((p.joined s seed).add s).value.1
            (if ((p.joined s seed).add s).value.2 then p.size + 1 else p.size)).updateMetrics,
          ((p.joined s seed).add s).value.2) := by
  unfold add
  rw [hseed]
  exact ⟨_, rfl, rfl⟩

/-- To add a submission fails for want of a seed; otherwise the group it
is to join refuses it or has one more member. -/
theorem add_cases (p : Pool) (s : Submission) (facts : Facts) :
    (facts.seed = none ∧ p.add s facts = .error (.seedMissing s.dataRoot))
      ∨ ∃ seed result, facts.seed = some seed ∧ p.add s facts = .ok result
        ∧ ((result.value = ((p.filed s (p.joined s seed) p.size).updateMetrics, false)
            ∧ (p.joined s seed).members ≠ [])
          ∨ ∃ members, result.value
              = ((p.filed s { p.joined s seed with members } (p.size + 1)).updateMetrics, true)
            ∧ members.Perm (s :: (p.joined s seed).members)) := by
  cases hseed : facts.seed with
  | none =>
      refine Or.inl ⟨rfl, ?_⟩
      unfold add
      rw [hseed]
  | some seed =>
      obtain ⟨result, hresult, heq⟩ := p.add_value s hseed
      refine Or.inr ⟨seed, result, rfl, hresult, ?_⟩
      rcases (p.joined s seed).add_cases s with ⟨hvalue, hne⟩ | ⟨members, hvalue, hperm⟩
      · rw [hvalue] at heq
        exact Or.inl ⟨heq, hne⟩
      · rw [hvalue] at heq
        exact Or.inr ⟨members, heq, hperm⟩

-- ============================================================ removing

/-- To remove an attestation is to do nothing if there is no group with
its root; otherwise the group goes or stays with its other members. -/
theorem removeEqual_cases (p : Pool) (a : Attestation) :
    (p.groups[a.data.hashTreeRoot]? = none ∧ p.removeEqual a = p)
      ∨ ∃ g : Group, p.groups[a.data.hashTreeRoot]? = some g
        ∧ (((g.remove a).members = [] ∧ p.removeEqual a = { p with
            groups := p.groups.erase a.data.hashTreeRoot
            slots := dropRoot p.slots a.data.slot a.data.hashTreeRoot
            size := p.size - (g.size - (g.remove a).size) })
          ∨ ((g.remove a).members ≠ [] ∧ p.removeEqual a = { p with
            groups := p.groups.insert a.data.hashTreeRoot (g.remove a)
            size := p.size - (g.size - (g.remove a).size) })) := by
  unfold removeEqual
  dsimp only
  cases hg : p.groups[a.data.hashTreeRoot]? with
  | none => exact Or.inl ⟨rfl, rfl⟩
  | some g =>
      refine Or.inr ⟨g, rfl, ?_⟩
      dsimp only
      by_cases hrest : (g.remove a).members = []
      · rw [if_pos (Group.isEmpty_iff.mpr hrest)]
        exact Or.inl ⟨hrest, rfl⟩
      · rw [if_neg (mt Group.isEmpty_iff.mp hrest)]
        exact Or.inr ⟨hrest, rfl⟩

/-- What is taken from the size is what the group loses. -/
theorem size_remove (h : p.size = p.stored.length) (hg : p.groups[root]? = some g)
    (a : Attestation) : p.size - (g.size - (g.remove a).size)
      = (g.remove a).members.length + (storedIn (p.groups.erase root)).length := by
  rw [stored, (storedIn_split hg).length_eq, List.length_append] at h
  have hle : (g.remove a).members.length ≤ g.members.length := List.length_filter_le _ _
  unfold Group.size
  omega

-- ============================================================ eviction

variable {slots : Std.ExtTreeMap Slot (Std.ExtTreeSet Root)} {first : Slot}

/-- The roots that an index lists at the slots before one. -/
def rootsBefore (slots : Std.ExtTreeMap Slot (Std.ExtTreeSet Root)) (first : Slot) :
    List Root :=
  (slots.filter fun slot _ => slot < first).toList.flatMap fun entry => entry.2.toList

/-- A pool without the groups listed before a slot. -/
def evicted (p : Pool) (first : Slot) : Pool :=
  { p with
    groups := (rootsBefore p.slots first).foldl (fun groups root => groups.erase root) p.groups
    slots := p.slots.filter fun slot _ => first ≤ slot
    size := p.size - countIn p.groups (rootsBefore p.slots first) }

theorem onSlot_value (preset : Preset) (p : Pool) (slot : Slot) :
    (p.onSlot preset slot).value
      = match p.firstKeptSlot? preset slot with
        | none => p
        | some first => (p.evicted first).updateMetrics := by
  unfold onSlot
  cases p.firstKeptSlot? preset slot with
  | none => rfl
  | some first => rfl

/-- What is counted in groups is what is missing when they are gone. -/
theorem countIn_add_length (groups : Std.ExtTreeMap Root Group) (roots : List Root) :
    countIn groups roots
        + (storedIn (roots.foldl (fun groups root => groups.erase root) groups)).length
      = (storedIn groups).length := by
  induction roots generalizing groups with
  | nil => exact Nat.zero_add _
  | cons root roots ih =>
      have hgroup := length_storedIn_erase groups root
      have hothers := ih (groups.erase root)
      rw [countIn, List.foldl_cons]
      omega

/-- The size is right after an eviction if it was before. -/
theorem size_evicted (h : p.size = p.stored.length) (first : Slot) :
    (p.evicted first).size = (p.evicted first).stored.length := by
  have hcount : _ + (p.evicted first).stored.length = p.stored.length :=
    countIn_add_length p.groups (rootsBefore p.slots first)
  show p.size - countIn p.groups (rootsBefore p.slots first) = _
  omega

end Pool

end ChainHead
