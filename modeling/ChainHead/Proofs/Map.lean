/-
Maps as lists of their entries, and maps to sets.

A map is known by its look-ups; its list of entries is needed where
entries are counted or gone through. Keys tell entries apart, so the
list has no duplicates, and up to order it is one entry and the entries
of the map without it (`toList_perm`).

A map to sets files things under keys. It is known by what it lists
under each key (`setAt`); that no key is listed without anything is kept
apart from that, because a look-up cannot tell.
-/
import Std.Data.ExtTreeMap
import Std.Data.ExtTreeSet
import Mathlib.Data.List.Nodup

namespace ChainHead.Map

variable {α β : Type} {cmp : α → α → Ordering} [Std.TransCmp cmp]
variable {m : Std.ExtTreeMap α β cmp} {k : α} {v : β}

-- ============================================================ look-ups

/-- What holds of all entries holds still when one of them was erased. -/
theorem forall_erase {P : α → β → Prop} (h : ∀ a b, m[a]? = some b → P a b) :
    ∀ a b, (m.erase k)[a]? = some b → P a b := by
  intro a b hb
  rw [Std.ExtTreeMap.getElem?_erase] at hb
  split at hb
  case isTrue => cases hb
  case isFalse => exact h a b hb

/-- The first entry is the first of the list. The library says so of the
trees inside, where it can be read off their shape. -/
theorem minEntry?_eq_head? (m : Std.ExtTreeMap α β cmp) : m.minEntry? = m.toList.head? := by
  obtain ⟨⟨tree⟩⟩ := m
  obtain ⟨tree⟩ := tree
  show Std.DTreeMap.Internal.Impl.Const.minEntry? tree.inner
    = (Std.DTreeMap.Internal.Impl.Const.toList tree.inner).head?
  rw [Std.DTreeMap.Internal.Impl.Const.toList_eq_toListModel_map]
  induction tree.inner with
  | leaf =>
      simp [Std.DTreeMap.Internal.Impl.toListModel, Std.DTreeMap.Internal.Impl.Const.minEntry?]
  | inner size k v left right ih _ =>
      cases left with
      | leaf =>
          simp [Std.DTreeMap.Internal.Impl.toListModel,
            Std.DTreeMap.Internal.Impl.Const.minEntry?]
      | inner =>
          rw [Std.DTreeMap.Internal.Impl.Const.minEntry?, ih]
          simp [Std.DTreeMap.Internal.Impl.toListModel]

variable [Std.LawfulEqCmp cmp]

theorem erase_of_absent (h : m[k]? = none) : m.erase k = m := by
  refine Std.ExtTreeMap.ext_getElem? fun a => ?_
  rw [Std.ExtTreeMap.getElem?_erase]
  split
  case isTrue heq => rw [← Std.LawfulEqCmp.compare_eq_iff_eq.mp heq, h]
  case isFalse => rfl

/-- To put in what is there is to do nothing. -/
theorem insert_of_getElem? (h : m[k]? = some v) : m.insert k v = m := by
  refine Std.ExtTreeMap.ext_getElem? fun a => ?_
  rw [Std.ExtTreeMap.getElem?_insert]
  split
  case isTrue heq => rw [← Std.LawfulEqCmp.compare_eq_iff_eq.mp heq, h]
  case isFalse => rfl

theorem erase_insert (m : Std.ExtTreeMap α β cmp) (k : α) (v : β) :
    (m.insert k v).erase k = m.erase k := by
  refine Std.ExtTreeMap.ext_getElem? fun a => ?_
  rw [Std.ExtTreeMap.getElem?_erase, Std.ExtTreeMap.getElem?_erase,
    Std.ExtTreeMap.getElem?_insert]
  split
  case isTrue => rfl
  case isFalse => rfl

theorem getElem?_foldl_erase [DecidableEq α] (keys : List α) (m : Std.ExtTreeMap α β cmp) (k : α) :
    (keys.foldl (fun m key => m.erase key) m)[k]? = if k ∈ keys then none else m[k]? := by
  induction keys generalizing m with
  | nil => simp
  | cons key keys ih =>
      rw [List.foldl_cons, ih, Std.ExtTreeMap.getElem?_erase]
      simp only [Std.LawfulEqCmp.compare_eq_iff_eq, List.mem_cons]
      by_cases hkey : key = k
      · simp [hkey]
      · simp [hkey, Ne.symm hkey]

theorem getElem?_erase_eq_some {a : α} {b : β} :
    (m.erase k)[a]? = some b ↔ m[a]? = some b ∧ k ≠ a := by
  rw [Std.ExtTreeMap.getElem?_erase]
  split
  case isTrue h => simp [Std.LawfulEqCmp.compare_eq_iff_eq.mp h]
  case isFalse h =>
    have hne : k ≠ a := fun heq => h (Std.LawfulEqCmp.compare_eq_iff_eq.mpr heq)
    simp [hne]

theorem getElem?_filter_eq_some {p : α → β → Bool} {a : α} {b : β} :
    (m.filter p)[a]? = some b ↔ m[a]? = some b ∧ p a b = true := by
  rw [Std.ExtTreeMap.getElem?_filter', Option.filter_eq_some_iff]

theorem filter_filter (m : Std.ExtTreeMap α β cmp) (p q : α → β → Bool) :
    (m.filter p).filter q = m.filter fun a b => p a b && q a b := by
  refine Std.ExtTreeMap.ext_getElem? fun a => Option.ext fun b => ?_
  rw [getElem?_filter_eq_some, getElem?_filter_eq_some, getElem?_filter_eq_some,
    Bool.and_eq_true, and_assoc]

/-- An entry that passes a test may be put in before or after. -/
theorem filter_insert {p : α → β → Bool} (hp : p k v = true) :
    (m.insert k v).filter p = (m.filter p).insert k v := by
  refine Std.ExtTreeMap.ext_getElem? fun a => Option.ext fun b => ?_
  rw [getElem?_filter_eq_some, Std.ExtTreeMap.getElem?_insert, Std.ExtTreeMap.getElem?_insert]
  split
  case isTrue heq =>
    rw [← Std.LawfulEqCmp.compare_eq_iff_eq.mp heq, Option.some.injEq]
    exact and_iff_left_of_imp fun hb => hb ▸ hp
  case isFalse => rw [getElem?_filter_eq_some]

/-- What holds of all entries and of a new one holds when that was put
in. -/
theorem forall_insert {P : α → β → Prop} (h : ∀ a b, m[a]? = some b → P a b) (hnew : P k v) :
    ∀ a b, (m.insert k v)[a]? = some b → P a b := by
  intro a b hb
  rw [Std.ExtTreeMap.getElem?_insert] at hb
  split at hb
  case isTrue heq =>
    injection hb with hb
    rw [← Std.LawfulEqCmp.compare_eq_iff_eq.mp heq, ← hb]
    exact hnew
  case isFalse => exact h a b hb

-- ============================================================ entries

theorem nodup_toList (m : Std.ExtTreeMap α β cmp) : m.toList.Nodup := by
  refine m.distinct_keys_toList.imp fun hne heq => hne ?_
  rw [heq]
  exact Std.ReflCmp.compare_self

/-- A map has an entry and the others. -/
theorem toList_perm (h : m[k]? = some v) : m.toList.Perm ((k, v) :: (m.erase k).toList) := by
  have hnew : (k, v) ∉ (m.erase k).toList := by
    rw [Std.ExtTreeMap.mem_toList_iff_getElem?_eq_some, Std.ExtTreeMap.getElem?_erase_self]
    simp
  refine (List.perm_ext_iff_of_nodup (nodup_toList m)
    (List.nodup_cons.mpr ⟨hnew, nodup_toList _⟩)).mpr fun ⟨a, b⟩ => ?_
  rw [List.mem_cons, Std.ExtTreeMap.mem_toList_iff_getElem?_eq_some,
    Std.ExtTreeMap.mem_toList_iff_getElem?_eq_some, Std.ExtTreeMap.getElem?_erase]
  split
  case isTrue heq =>
    rw [← Std.LawfulEqCmp.compare_eq_iff_eq.mp heq, h]
    simp [eq_comm]
  case isFalse hne =>
    have hak : a ≠ k := fun heq => hne (Std.LawfulEqCmp.compare_eq_iff_eq.mpr heq.symm)
    simp [hak]

/-- Of what is made of the entries only one key is left, if the others
make nothing. -/
theorem flatMap_toList {γ : Type} (m : Std.ExtTreeMap α β cmp) (k : α) {f : α × β → List γ}
    (hothers : ∀ e ∈ m.toList, e.1 ≠ k → f e = []) :
    m.toList.flatMap f = ((m[k]?.map fun v => f (k, v)).getD []) := by
  cases hk : m[k]? with
  | none =>
      refine List.flatMap_eq_nil_iff.mpr fun e he => hothers e he fun heq => ?_
      rw [← heq, Std.ExtTreeMap.mem_toList_iff_getElem?_eq_some.mp he] at hk
      cases hk
  | some v =>
      have hentry := Std.ExtTreeMap.mem_toList_iff_getElem?_eq_some.mpr hk
      obtain ⟨before, behind, hlist⟩ := List.append_of_mem hentry
      -- no other entry has the key
      have hdistinct := m.distinct_keys_toList
      rw [hlist, List.pairwise_append, List.pairwise_cons] at hdistinct
      have hbefore : before.flatMap f = [] := by
        refine List.flatMap_eq_nil_iff.mpr fun e he => hothers e ?_ fun heq => ?_
        · exact hlist ▸ List.mem_append_left _ he
        · exact hdistinct.2.2 e he _ List.mem_cons_self (heq ▸ Std.ReflCmp.compare_self)
      have hbehind : behind.flatMap f = [] := by
        refine List.flatMap_eq_nil_iff.mpr fun e he => hothers e ?_ fun heq => ?_
        · exact hlist ▸ List.mem_append_right _ (List.mem_cons_of_mem _ he)
        · exact hdistinct.2.1.1 e he (heq ▸ Std.ReflCmp.compare_self)
      rw [hlist, List.flatMap_append, List.flatMap_cons, hbefore, hbehind, List.append_nil]
      rfl

theorem size_erase_add_one (h : m[k]? = some v) : (m.erase k).size + 1 = m.size := by
  have hlength := (toList_perm h).length_eq
  rw [List.length_cons, Std.ExtTreeMap.length_toList, Std.ExtTreeMap.length_toList] at hlength
  exact hlength.symm

theorem getElem?_of_minEntry? (h : m.minEntry? = some (k, v)) : m[k]? = some v := by
  rw [minEntry?_eq_head?] at h
  exact Std.ExtTreeMap.mem_toList_iff_getElem?_eq_some.mp (List.mem_of_head? h)

-- ======================================================== maps to sets

variable {γ : Type} {cmp' : γ → γ → Ordering} [Std.TransCmp cmp']
variable {sets : Std.ExtTreeMap α (Std.ExtTreeSet γ cmp') cmp} {k k' : α} {x x' : γ}

/-- What a map to sets lists under a key. -/
def setAt (sets : Std.ExtTreeMap α (Std.ExtTreeSet γ cmp') cmp) (k : α) :
    Std.ExtTreeSet γ cmp' :=
  sets.getD k ∅

/-- The sets without one thing under a key, and without the key if that
was its last. -/
def dropAt (sets : Std.ExtTreeMap α (Std.ExtTreeSet γ cmp') cmp) (k : α) (x : γ) :
    Std.ExtTreeMap α (Std.ExtTreeSet γ cmp') cmp :=
  match sets[k]? with
  | none => sets
  | some held =>
    let rest := held.erase x
    if rest.isEmpty then sets.erase k else sets.insert k rest

omit [Std.LawfulEqCmp cmp] in
theorem mem_setAt :
    x ∈ setAt sets k ↔ ∃ held : Std.ExtTreeSet γ cmp', sets[k]? = some held ∧ x ∈ held := by
  unfold setAt
  rw [Std.ExtTreeMap.getD_eq_getD_getElem?]
  cases sets[k]? with
  | none => simp
  | some held => simp

/-- To list what is listed is to do nothing. -/
theorem insert_setAt [Std.LawfulEqCmp cmp'] (h : x ∈ setAt sets k) :
    sets.insert k ((setAt sets k).insert x) = sets := by
  obtain ⟨held, hheld, hx⟩ := mem_setAt.mp h
  have hsame : setAt sets k = held := by
    unfold setAt
    rw [Std.ExtTreeMap.getD_eq_getD_getElem?, hheld]
    rfl
  have hinsert : held.insert x = held := by
    refine Std.ExtTreeSet.ext_mem fun y => ?_
    rw [Std.ExtTreeSet.mem_insert, Std.LawfulEqCmp.compare_eq_iff_eq]
    exact or_iff_right_of_imp fun heq => heq ▸ hx
  rw [hsame, hinsert, insert_of_getElem? hheld]

theorem mem_setAt_insert [DecidableEq α] {held : Std.ExtTreeSet γ cmp'} :
    x ∈ setAt (sets.insert k held) k' ↔ if k = k' then x ∈ held else x ∈ setAt sets k' := by
  unfold setAt
  rw [Std.ExtTreeMap.getD_insert]
  simp only [Std.LawfulEqCmp.compare_eq_iff_eq]
  split
  case isTrue => rfl
  case isFalse => rfl

theorem mem_setAt_erase : x ∈ setAt (sets.erase k) k' ↔ k ≠ k' ∧ x ∈ setAt sets k' := by
  unfold setAt
  rw [Std.ExtTreeMap.getD_erase]
  split
  case isTrue h =>
    rw [Std.LawfulEqCmp.compare_eq_iff_eq] at h
    simp [h]
  case isFalse h =>
    rw [Std.LawfulEqCmp.compare_eq_iff_eq] at h
    simp [h]

/-- What is dropped under a key is missing there and nowhere else. -/
theorem mem_setAt_dropAt [DecidableEq α] [Std.LawfulEqCmp cmp'] :
    x' ∈ setAt (dropAt sets k x) k' ↔ x' ∈ setAt sets k' ∧ ¬(k = k' ∧ x = x') := by
  unfold dropAt
  cases hheld : sets[k]? with
  | none =>
      constructor
      · intro hmem
        refine ⟨hmem, fun ⟨hkey, _⟩ => ?_⟩
        obtain ⟨held, hsome, -⟩ := mem_setAt.mp hmem
        rw [← hkey, hheld] at hsome
        cases hsome
      · exact And.left
  | some held =>
      have hthere : ∀ y, k = k' → (y ∈ setAt sets k' ↔ y ∈ held) := by
        intro y hkey
        rw [← hkey, mem_setAt, hheld]
        simp
      dsimp only
      split
      case isTrue hempty =>
        rw [mem_setAt_erase]
        by_cases hkey : k = k'
        · -- it was the only one there
          have hgone : ¬(x' ∈ held ∧ x ≠ x') := by
            intro ⟨hmem, hne⟩
            have hleft : x' ∈ held.erase x :=
              Std.ExtTreeSet.mem_erase.mpr
                ⟨fun heq => hne (Std.LawfulEqCmp.compare_eq_iff_eq.mp heq), hmem⟩
            rw [Std.ExtTreeSet.isEmpty_iff.mp hempty] at hleft
            exact Std.ExtTreeSet.not_mem_empty hleft
          rw [hthere x' hkey]
          simp only [hkey, true_and]
          tauto
        · simp [hkey]
      case isFalse =>
        rw [mem_setAt_insert]
        by_cases hkey : k = k'
        · rw [if_pos hkey, hthere x' hkey, Std.ExtTreeSet.mem_erase]
          simp [hkey, and_comm]
        · simp [hkey]

/-- No key is left without anything. -/
theorem occupied_dropAt
    (h : ∀ (k : α) (held : Std.ExtTreeSet γ cmp'), sets[k]? = some held → held ≠ ∅) :
    ∀ (k' : α) (held : Std.ExtTreeSet γ cmp'), (dropAt sets k x)[k']? = some held →
      held ≠ ∅ := by
  unfold dropAt
  cases sets[k]? with
  | none => exact h
  | some held =>
      dsimp only
      split
      case isTrue => exact forall_erase h
      case isFalse hrest => exact forall_insert h (mt Std.ExtTreeSet.isEmpty_iff.mpr hrest)

/-- What is dropped one after the other is missing in the end. -/
theorem mem_setAt_foldl_dropAt [DecidableEq α] [Std.LawfulEqCmp cmp'] {δ : Type} (key : δ → α)
    (item : δ → γ) (drops : List δ) :
    x ∈ setAt (drops.foldl (fun sets d => dropAt sets (key d) (item d)) sets) k
      ↔ x ∈ setAt sets k ∧ ∀ d ∈ drops, ¬(key d = k ∧ item d = x) := by
  induction drops generalizing sets with
  | nil => simp
  | cons d drops ih =>
      rw [List.foldl_cons, ih, mem_setAt_dropAt, List.forall_mem_cons, and_assoc]

theorem occupied_foldl_dropAt {δ : Type} (key : δ → α) (item : δ → γ) (drops : List δ)
    (h : ∀ (k : α) (held : Std.ExtTreeSet γ cmp'), sets[k]? = some held → held ≠ ∅) :
    ∀ (k : α) (held : Std.ExtTreeSet γ cmp'),
      (drops.foldl (fun sets d => dropAt sets (key d) (item d)) sets)[k]? = some held →
        held ≠ ∅ := by
  induction drops generalizing sets with
  | nil => exact h
  | cons d drops ih => exact ih (occupied_dropAt h)

end ChainHead.Map
