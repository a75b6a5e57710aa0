/-
Paths of parent links, and what is found on them.

A path goes down in the array, and so it depends on nothing behind the
position where it starts, and needs no more steps than that position has
predecessors (`pathFrom_congr`). A block that is added stands at the end
and is nobody's ancestor: whatever is asked about a block that was there
before has the answer that it had.

What a search along a path finds is said by descent alone: the block of
which the one at the start is a descendant, early enough itself, with no
such block in between (`FirstUpTo`).
-/
import ChainHead.Proofs.Tree.Sound
import ChainHead.Tree.Ancestry

namespace ChainHead.Tree

variable {t : Tree} {nodes nodes' : Array Node} {n : Node} {root : Root} {i : Nat}

theorem pathFrom_none (nodes : Array Node) (steps : Nat) : pathFrom nodes steps none = [] := by
  cases steps with
  | zero => rfl
  | succ steps => rfl

/-- A path depends on the blocks up to its start alone. -/
theorem pathFrom_congr (hr : Rooted nodes) (hsame : ∀ j ≤ i, nodes'[j]? = nodes[j]?)
    {steps steps' : Nat} (hsteps : i < steps) (hsteps' : i < steps') :
    pathFrom nodes' steps' (some i) = pathFrom nodes steps (some i) := by
  induction steps generalizing i steps' with
  | zero => exact absurd hsteps (Nat.not_lt_zero i)
  | succ steps ih =>
      obtain ⟨steps', rfl⟩ := Nat.exists_eq_succ_of_ne_zero (Nat.ne_zero_of_lt hsteps')
      unfold pathFrom
      rw [hsame i (Nat.le_refl i)]
      cases hn : nodes[i]? with
      | none => rfl
      | some n =>
          dsimp only
          cases hp : n.parent with
          | none => rw [pathFrom_none, pathFrom_none]
          | some p =>
              have hlt : p < i := hr i p ((parentAt_of_get hn).trans hp)
              rw [ih (fun j hj => hsame j (by omega)) (by omega) (by omega)]

namespace Sound

theorem position_lt_steps (h : Sound t) (hi : t.position? root = some i) (n : Node) :
    i < t.size ∧ i < (t.extend n).size := by
  have hlt := h.lt_size_of_position hi
  refine ⟨hlt, ?_⟩
  show i < (t.nodes.push n).size
  rw [Array.size_push]
  exact Nat.lt_succ_of_lt hlt

/-- A new block is an ancestor of no other. -/
theorem ancestors_extend (h : Sound t) (hroot : n.root ≠ root) :
    (t.extend n).ancestors root = t.ancestors root := by
  unfold ancestors
  rw [position_extend, if_neg hroot]
  cases hi : t.position? root with
  | none => rw [pathFrom_none, pathFrom_none]
  | some i =>
      obtain ⟨hsteps, hsteps'⟩ := h.position_lt_steps hi n
      exact pathFrom_congr h.rooted
        (fun j hj => get_extend_old n (Nat.lt_of_le_of_lt hj hsteps)) hsteps hsteps'

theorem ancestorAtSlot?_extend (h : Sound t) (hroot : n.root ≠ root) (slot : Slot) :
    (t.extend n).ancestorAtSlot? root slot = t.ancestorAtSlot? root slot := by
  unfold ancestorAtSlot?
  rw [h.ancestors_extend hroot]

theorem slot?_extend (h : Sound t) (hroot : n.root ≠ root) :
    (t.extend n).slot? root = t.slot? root := by
  unfold slot?
  rw [node?_eq_bind, node?_eq_bind, position_extend, if_neg hroot]
  cases hi : t.position? root with
  | none => rfl
  | some i =>
      rw [Option.bind_some, Option.bind_some, get_extend_old n (h.lt_size_of_position hi)]

theorem slot?_eq_some_iff (h : Sound t) {slot : Slot} :
    t.slot? root = some slot ↔ ∃ (i : Nat) (n : Node),
      t.nodes[i]? = some n ∧ n.root = root ∧ n.slot = slot := by
  unfold slot?
  rw [node?_eq_bind, Option.map_eq_some_iff]
  simp only [Option.bind_eq_some_iff]
  constructor
  · rintro ⟨n, ⟨i, hi, hn⟩, rfl⟩
    obtain ⟨n', hn', hroot⟩ := h.get_position hi
    rw [hn, Option.some.injEq] at hn'
    exact ⟨i, n, hn, hn' ▸ hroot, rfl⟩
  · rintro ⟨i, n, hn, rfl, rfl⟩
    exact ⟨n, ⟨i, h.position_root hn, hn⟩, rfl⟩

end Sound

-- ============================================================= searches

/-- Whether one block is the first that a path from another comes to and
that has a slot of at most the given one. -/
structure FirstUpTo (nodes : Array Node) (slot start found : Nat) : Prop where
  above : Below nodes found start
  early : ∃ n, nodes[found]? = some n ∧ n.slot.toNat ≤ slot
  between : ∀ (b : Nat) n, nodes[b]? = some n → Below nodes found b → Below nodes b start →
    b ≠ found → slot < n.slot.toNat

/-- A block that is early enough is found at once. -/
theorem firstUpTo_of_le {slot found : Nat} (hr : Rooted nodes) (hn : nodes[i]? = some n)
    (hle : n.slot.toNat ≤ slot) : FirstUpTo nodes slot i found ↔ found = i := by
  constructor
  · intro h
    by_contra hne
    have hlt := h.between i n hn h.above Below.refl (Ne.symm hne)
    omega
  · rintro rfl
    exact ⟨Below.refl, ⟨n, hn, hle⟩, fun b m _ hdown hup hne =>
      absurd (Nat.le_antisymm (hup.le hr) (hdown.le hr)) hne⟩

/-- Otherwise the search goes on at the parent. -/
theorem firstUpTo_of_lt {slot found : Nat} (hn : nodes[i]? = some n)
    (hlt : slot < n.slot.toNat) :
    FirstUpTo nodes slot i found ↔ ∃ p, n.parent = some p ∧ FirstUpTo nodes slot p found := by
  have hpar : parentAt nodes i = n.parent := parentAt_of_get hn
  constructor
  · intro h
    rcases below_iff_parent.mp h.above with rfl | ⟨p, hp, habove⟩
    · obtain ⟨m, hm, hle⟩ := h.early
      rw [hn] at hm
      injection hm with hm
      rw [← hm] at hle
      omega
    · refine ⟨p, hpar.symm.trans hp, habove, h.early, fun b m hb hdown hup => ?_⟩
      exact h.between b m hb hdown (hup.trans (Below.of_parent hp))
  · rintro ⟨p, hp, h⟩
    have hstep : parentAt nodes i = some p := hpar.trans hp
    refine ⟨h.above.trans (Below.of_parent hstep), h.early, fun b m hb hdown hup hne => ?_⟩
    rcases below_iff_parent.mp hup with rfl | ⟨q, hq, hbq⟩
    · rw [hn] at hb
      injection hb with hb
      exact hb ▸ hlt
    · rw [hstep] at hq
      injection hq with hq
      exact h.between b m hb hdown (hq ▸ hbq) hne

/-- A search along a path finds the first block that is early enough. -/
theorem find_pathFrom_eq_some_iff (hr : Rooted nodes) {slot : Slot} {steps : Nat}
    (hsteps : i < steps) (hi : i < nodes.size) {m : Node} :
    (pathFrom nodes steps (some i)).find? (fun n => n.slot ≤ slot) = some m
      ↔ ∃ found, FirstUpTo nodes slot.toNat i found ∧ nodes[found]? = some m := by
  induction steps generalizing i with
  | zero => exact absurd hsteps (Nat.not_lt_zero i)
  | succ steps ih =>
      have hn := Array.getElem?_eq_getElem hi
      generalize nodes[i] = n at hn
      unfold pathFrom
      rw [hn]
      dsimp only
      rw [List.find?_cons]
      by_cases hle : n.slot.toNat ≤ slot.toNat
      · rw [decide_eq_true (UInt64.le_iff_toNat_le.mpr hle)]
        simp only [firstUpTo_of_le hr hn hle, exists_eq_left, hn]
      · rw [decide_eq_false (mt UInt64.le_iff_toNat_le.mp hle)]
        simp only [firstUpTo_of_lt hn (Nat.not_le.mp hle)]
        cases hp : n.parent with
        | none =>
            rw [pathFrom_none]
            simp
        | some p =>
            have hlt : p < i := hr i p ((parentAt_of_get hn).trans hp)
            rw [ih (by omega) (by omega)]
            simp

/-- The newest block at or before a slot, among a block and its ancestors. -/
theorem Sound.ancestorAtSlot?_eq_some_iff (h : Sound t) {slot : Slot} {found : Root} :
    t.ancestorAtSlot? root slot = some found
      ↔ ∃ i a n m, t.nodes[i]? = some n ∧ n.root = root ∧ t.nodes[a]? = some m ∧ m.root = found
        ∧ FirstUpTo t.nodes slot.toNat i a := by
  unfold ancestorAtSlot? ancestors
  cases hi : t.position? root with
  | none =>
      rw [pathFrom_none]
      simp only [List.find?_nil, Option.map_none, reduceCtorEq, false_iff]
      rintro ⟨i, a, n, m, hn, rfl, -⟩
      rw [h.position_root hn] at hi
      cases hi
  | some i =>
      have hlt := h.lt_size_of_position hi
      obtain ⟨n, hn, hroot⟩ := h.get_position hi
      rw [Option.map_eq_some_iff]
      constructor
      · rintro ⟨m, hm, rfl⟩
        obtain ⟨a, hfirst, ha⟩ := (find_pathFrom_eq_some_iff h.rooted hlt hlt).mp hm
        exact ⟨i, a, n, m, hn, hroot, ha, rfl, hfirst⟩
      · rintro ⟨i', a, n', m, hn', hroot', ha, rfl, hfirst⟩
        have hsame : i' = i := by
          rw [← hroot', h.position_root hn'] at hi
          injection hi
        exact ⟨m, (find_pathFrom_eq_some_iff h.rooted hlt hlt).mpr ⟨a, hsame ▸ hfirst, ha⟩, rfl⟩

end ChainHead.Tree
