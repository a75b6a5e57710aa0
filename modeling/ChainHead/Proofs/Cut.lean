/-
Tests that cut a list in two: the first part passes, the rest does not.

A list that is in order of some measure is cut by every bound on the
measure. Where a test cuts a list, going on until the first failure
selects all that pass, and a search among these finds what a search of
the whole list would find, or nothing.
-/
import Mathlib.Data.List.TakeWhile

namespace ChainHead

variable {α : Type} {p : α → Bool} {l : List α} {x : α}

/-- Whether nothing in a list passes a test behind something that does
not. -/
def Cut (p : α → Bool) (l : List α) : Prop :=
  l.Pairwise fun x y => p y = true → p x = true

namespace Cut

/-- If the first fails, all fail. -/
theorem filter_cons_of_false (h : Cut p (x :: l)) (hx : p x = false) : (x :: l).filter p = [] := by
  rw [List.filter_eq_nil_iff]
  refine List.forall_mem_cons.mpr ⟨by simp [hx], fun y hy hpass => ?_⟩
  rw [(List.pairwise_cons.mp h).1 y hy hpass] at hx
  cases hx

theorem takeWhile_eq_filter (h : Cut p l) : l.takeWhile p = l.filter p := by
  induction l with
  | nil => rfl
  | cons x l ih =>
      cases hx : p x with
      | true =>
          rw [List.takeWhile_cons_of_pos hx, List.filter_cons_of_pos hx,
            ih (List.pairwise_cons.mp h).2]
      | false => rw [List.takeWhile_cons_of_neg (by simp [hx]), h.filter_cons_of_false hx]

/-- Nothing passes from the first failure on. -/
theorem eq_false_of_mem_dropWhile (h : Cut p l) (hx : x ∈ l.dropWhile p) : p x = false := by
  have hfirst : (l.takeWhile p).filter p = l.takeWhile p :=
    List.filter_eq_self.mpr fun y hy => List.mem_takeWhile_imp hy
  have hboth : l.takeWhile p ++ (l.dropWhile p).filter p = l.takeWhile p := by
    calc l.takeWhile p ++ (l.dropWhile p).filter p
        = (l.takeWhile p ++ l.dropWhile p).filter p := by rw [List.filter_append, hfirst]
      _ = l.takeWhile p := by rw [List.takeWhile_append_dropWhile, h.takeWhile_eq_filter]
  have hnone : (l.dropWhile p).filter p = [] := List.append_right_eq_self.mp hboth
  exact Bool.eq_false_iff.mpr (List.filter_eq_nil_iff.mp hnone x hx)

/-- A search among those that pass finds the first of all that are looked
for, if that passes. -/
theorem find?_filter (h : Cut p l) (q : α → Bool) :
    (l.filter p).find? q = (l.find? q).filter p := by
  induction l with
  | nil => rfl
  | cons x l ih =>
      cases hx : p x with
      | false =>
          rw [h.filter_cons_of_false hx, List.find?_nil, eq_comm, Option.filter_eq_none_iff]
          intro y hy
          exact List.filter_eq_nil_iff.mp (h.filter_cons_of_false hx) y (List.mem_of_find?_eq_some hy)
      | true =>
          rw [List.filter_cons_of_pos hx, List.find?_cons, List.find?_cons]
          cases q x with
          | true => rw [Option.filter_some, if_pos hx]
          | false => exact ih (List.pairwise_cons.mp h).2

end Cut

end ChainHead
