/-
Lines of descent among the blocks of an array, by position.

`parentAt` is the parent link read as a partial function on positions,
and everything about descent is a fact about that function alone, so an
array with the same parents has the same lines. `Below i j` says that
`j` is `i` or descends from it.

# What order gives

In a `Rooted` array parents come first. Then descent respects positions
(`Below.le`), the blocks above a given one form a chain
(`Below.total`), and so no block is below two different children of one
parent (`child_unique`): the last is what makes sums over subtrees add
up.
-/
import ChainHead.Tree.Basic
import Mathlib.Logic.Relation

namespace ChainHead.Tree

open Relation

variable {nodes : Array Node} {a b c i j p x : Nat}

-- ============================================================= parents

/-- The position of the parent of the block at a position. -/
def parentAt (nodes : Array Node) (i : Nat) : Option Nat :=
  nodes[i]?.bind (·.parent)

/-- Whether a block is at or below another in the tree. -/
def Below (nodes : Array Node) : Nat → Nat → Prop :=
  ReflTransGen fun p c => parentAt nodes c = some p

/-- Every parent comes before its children. -/
def Rooted (nodes : Array Node) : Prop :=
  ∀ i p, parentAt nodes i = some p → p < i

theorem parentAt_of_get {n : Node} (hn : nodes[i]? = some n) :
    parentAt nodes i = n.parent := by
  rw [parentAt, hn]
  rfl

/-- Only a block of the array has a parent. -/
theorem lt_size_of_parentAt (h : parentAt nodes i = some p) : i < nodes.size := by
  unfold parentAt at h
  cases hn : nodes[i]? with
  | none => rw [hn] at h; cases h
  | some n => exact (Array.getElem?_eq_some_iff.mp hn).1

-- ============================================================= descent

@[refl] theorem Below.refl : Below nodes i i := ReflTransGen.refl

theorem Below.trans (h : Below nodes a b) (h' : Below nodes b c) : Below nodes a c :=
  ReflTransGen.trans h h'

theorem Below.of_parent (h : parentAt nodes c = some p) : Below nodes p c :=
  ReflTransGen.single h

/-- Descent by its last step: a block is below another if it is that
one or its parent is below it. -/
theorem below_iff_parent :
    Below nodes i j ↔ j = i ∨ ∃ p, parentAt nodes j = some p ∧ Below nodes i p := by
  constructor
  · intro h
    rcases ReflTransGen.cases_tail h with rfl | ⟨p, hip, hp⟩
    · exact Or.inl rfl
    · exact Or.inr ⟨p, hp, hip⟩
  · rintro (rfl | ⟨p, hp, hip⟩)
    · exact Below.refl
    · exact hip.trans (Below.of_parent hp)

/-- Descent by its first step. -/
theorem below_iff_child :
    Below nodes i j ↔ j = i ∨ ∃ c, parentAt nodes c = some i ∧ Below nodes c j := by
  constructor
  · intro h
    rcases ReflTransGen.cases_head h with rfl | ⟨c, hc, hcj⟩
    · exact Or.inl rfl
    · exact Or.inr ⟨c, hc, hcj⟩
  · rintro (rfl | ⟨c, hc, hcj⟩)
    · exact Below.refl
    · exact (Below.of_parent hc).trans hcj

/-- Two blocks above the same one are above one another: the way up is
without choice. -/
theorem Below.total (h : Below nodes a c) (h' : Below nodes b c) :
    Below nodes a b ∨ Below nodes b a := by
  have hunique : Relator.RightUnique (Function.swap fun p c => parentAt nodes c = some p) := by
    intro c p q hp hq
    simp only [Function.swap] at hp hq
    rw [hp] at hq
    injection hq
  rcases ReflTransGen.total_of_right_unique hunique h.swap h'.swap with hba | hab
  · exact Or.inr (reflTransGen_swap.mp hba)
  · exact Or.inl (reflTransGen_swap.mp hab)

/-- Whatever is below a block of the array is one itself. -/
theorem Below.lt_size (h : Below nodes i j) (hi : i < nodes.size) : j < nodes.size := by
  rcases below_iff_parent.mp h with rfl | ⟨p, hp, -⟩
  · exact hi
  · exact lt_size_of_parentAt hp

theorem below_congr {nodes' : Array Node} (h : parentAt nodes' = parentAt nodes) :
    Below nodes' = Below nodes := by
  unfold Below
  rw [h]

-- ======================================================= parents first

theorem Below.le (hr : Rooted nodes) (h : Below nodes i j) : i ≤ j := by
  induction h with
  | refl => exact Nat.le_refl i
  | tail _ hstep ih => exact Nat.le_of_lt (Nat.lt_of_le_of_lt ih (hr _ _ hstep))

/-- No block is below two children of one parent. -/
theorem child_unique (hr : Rooted nodes) (ha : parentAt nodes a = some p)
    (hb : parentAt nodes b = some p) (hax : Below nodes a x) (hbx : Below nodes b x) :
    a = b := by
  -- a child below another is below their parent, which comes before both
  have key : ∀ {a b}, parentAt nodes a = some p → parentAt nodes b = some p →
      Below nodes a b → a = b := by
    intro a b ha hb hab
    rcases below_iff_parent.mp hab with rfl | ⟨q, hq, haq⟩
    · rfl
    · rw [hb] at hq
      injection hq with hq
      have hle : a ≤ p := hq ▸ haq.le hr
      have hlt : p < a := hr a p ha
      omega
  rcases hax.total hbx with h | h
  · exact key ha hb h
  · exact (key hb ha h).symm

end ChainHead.Tree
