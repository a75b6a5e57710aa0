/-
Submissions that were saved for a later slot.

A submission is saved by a decision, and how often the same one is saved
is up to those who hand it in. So each saving has a number, that of the
request by which it was decided (`Waits`). It is over with the first slot
after that of the submission. `outstanding` replays the journal and lists
the savings that are not over, oldest first; the queue for slots is this
list in the order of slots (`Filed`).

When a slot begins, what is over is applied, each saving once, in the
order of slots and in that of the savings within a slot; and nothing is
ever applied otherwise. So the attestations that were applied and those
that wait are together as many as the savings (`applied_once`).
-/
import ChainHead.Proofs.Manager.Complete
import ChainHead.Proofs.Manager.Journal

namespace ChainHead

theorem forall₂_filterMap {α β : Type} {f : α → Option β} {l : List α}
    (h : ∀ x ∈ l, (f x).isSome = true) :
    List.Forall₂ (fun x y => f x = some y) l (l.filterMap f) := by
  induction l with
  | nil => exact .nil
  | cons x l ih =>
      obtain ⟨hx, hl⟩ := List.forall_mem_cons.mp h
      obtain ⟨y, hy⟩ := Option.isSome_iff_exists.mp hx
      rw [List.filterMap_cons_some hy]
      exact .cons hy (ih hl)

namespace Manager

variable {σ ε : Type} {past : List Request} {s : Submission} {slot : Slot}

-- ============================================================== savings

/-- Whether the submission that was saved with a request is still to be
applied: no slot after its own has begun since. Requests are numbered
from the first. -/
def Waits (past : List Request) (number : Nat) (s : Submission) : Prop :=
  ∃ later features v earlier, past = later ++ .process features s v :: earlier
    ∧ earlier.length = number ∧ Saves features v ∧ ∀ slot, .slot slot ∈ later → slot ≤ s.data.slot

/-- The savings that are not over, with their numbers, oldest first. -/
def outstanding : List Request → List (Nat × Submission)
  | [] => []
  | .process features s v :: past =>
    if Saves features v then outstanding past ++ [(past.length, s)] else outstanding past
  | .slot slot :: past => (outstanding past).filter fun e => slot ≤ e.2.data.slot
  | .apply _ :: past => outstanding past

/-- The savings that are over when a slot begins, by slot and by number. -/
def overIn (past : List Request) (slot : Slot) : List (Nat × Submission) :=
  bySlot (·.2.data.slot) ((outstanding past).filter fun e => e.2.data.slot < slot)

/-- One more request adds a saving, or ends some. -/
theorem waits_cons {r : Request} {number : Nat} : Waits (r :: past) number s ↔
    (number = past.length ∧ ∃ features v, r = .process features s v ∧ Saves features v)
      ∨ Waits past number s ∧ ∀ slot, r = .slot slot → slot ≤ s.data.slot := by
  constructor
  · intro ⟨later, features, v, earlier, heq, hnumber, hsaves, hlater⟩
    cases later with
    | nil =>
        injection heq with hr hpast
        subst hr hpast
        exact .inl ⟨hnumber.symm, features, v, rfl, hsaves⟩
    | cons r' later =>
        injection heq with hr hpast
        subst hr
        refine .inr ⟨⟨later, features, v, earlier, hpast, hnumber, hsaves, fun slot hslot => ?_⟩,
          fun slot hslot => ?_⟩
        · exact hlater slot (List.mem_cons_of_mem _ hslot)
        · exact hlater slot (hslot ▸ List.mem_cons_self)
  · rintro (⟨rfl, features, v, rfl, hsaves⟩
      | ⟨⟨later, features, v, earlier, rfl, hnumber, hsaves, hlater⟩, hr⟩)
    · exact ⟨[], features, v, past, rfl, rfl, hsaves, fun slot hslot => nomatch hslot⟩
    · refine ⟨r :: later, features, v, earlier, rfl, hnumber, hsaves, fun slot hslot => ?_⟩
      rcases List.mem_cons.mp hslot with rfl | hold
      · exact hr slot rfl
      · exact hlater slot hold

theorem mem_outstanding {number : Nat} : (number, s) ∈ outstanding past ↔ Waits past number s := by
  induction past with
  | nil => exact iff_of_false List.not_mem_nil fun ⟨later, _, _, _, h, _⟩ => by simp at h
  | cons r past ih =>
      rw [waits_cons, ← ih]
      cases r with
      | slot slot => simp [outstanding]
      | apply a => simp [outstanding]
      | process features s' v =>
          by_cases hsaves : Saves features v
          · simp [outstanding, hsaves, or_comm, eq_comm]
          · simp [outstanding, hsaves]

/-- Later savings have greater numbers. -/
theorem pairwise_outstanding (past : List Request) :
    (outstanding past).Pairwise (fun e e' => e.1 < e'.1)
      ∧ ∀ e ∈ outstanding past, e.1 < past.length := by
  induction past with
  | nil => exact ⟨.nil, fun e he => nomatch he⟩
  | cons r past ih =>
      obtain ⟨hordered, hbound⟩ := ih
      have hlonger : ∀ e ∈ outstanding past, e.1 < (r :: past).length :=
        fun e he => Nat.lt_succ_of_lt (hbound e he)
      cases r with
      | slot slot => exact ⟨hordered.filter _, fun e he => hlonger e (List.mem_of_mem_filter he)⟩
      | apply a => exact ⟨hordered, hlonger⟩
      | process features s v =>
          unfold outstanding
          split
          case isFalse => exact ⟨hordered, hlonger⟩
          case isTrue =>
            constructor
            · rw [List.pairwise_append]
              refine ⟨hordered, List.pairwise_singleton _ _, fun e he e' he' => ?_⟩
              rw [List.mem_singleton.mp he']
              exact hbound e he
            · intro e he
              rcases List.mem_append.mp he with hold | hnew
              · exact hlonger e hold
              · rw [List.mem_singleton.mp hnew]
                exact Nat.lt_succ_self _

theorem mem_overIn {number : Nat} :
    (number, s) ∈ overIn past slot ↔ Waits past number s ∧ s.data.slot < slot := by
  unfold overIn
  rw [(bySlot_perm _ _).mem_iff, List.mem_filter, mem_outstanding, decide_eq_true_iff]

theorem pairwise_overIn (past : List Request) (slot : Slot) :
    (overIn past slot).Pairwise fun e e' =>
      e.2.data.slot < e'.2.data.slot ∨ e.2.data.slot = e'.2.data.slot ∧ e.1 < e'.1 :=
  pairwise_bySlot_of_pairwise ((pairwise_outstanding past).1.filter _)

theorem outstanding_applied (applied : List IndexedAttestation) (past : List Request) :
    outstanding ((applied.map .apply).reverse ++ past) = outstanding past := by
  rw [← List.map_reverse]
  induction applied.reverse with
  | nil => rfl
  | cons a rest ih => exact ih

-- ============================================================ the queue

/-- The queue for slots, read off a journal. -/
structure Filed (m : Manager (Journal σ)) : Prop where
  sound : m.untilSlot.Sound
  waiting : m.untilSlot.waiting
    = bySlot (·.data.slot) ((outstanding m.processor.requests).map (·.2))

theorem Filed.takeDue {m : Manager (Journal σ)} (h : Filed m) (slot : Slot) :
    (m.untilSlot.takeDue slot).2 = (overIn m.processor.requests slot).map (·.2) := by
  unfold overIn
  rw [(h.sound.takeDue_eq slot).2, h.waiting, ← bySlot_filter, List.filter_map, bySlot_map]
  rfl

theorem keeps_filed (w : Setting σ ε) : Keeps w.journaled (fun _ => True) Filed where
  attestation features m s _ h := by
    show Filed (m.onAttestation w.processor.journaled features s).value.1
    rcases journaled_cases w.processor features m s w.preset with
      heq | ⟨state, facts, v, metrics, -, heq⟩
    · rw [heq]
      exact h
    · rw [heq]
      rcases saves_cases features s w.preset m.pool m.untilSlot facts v with
        ⟨hsaves, hqueue, -⟩ | ⟨hnot, hqueue, -⟩
      · have hmore : outstanding (.process features s v :: m.processor.requests)
            = outstanding m.processor.requests ++ [(m.processor.requests.length, s)] :=
          if_pos hsaves
        constructor
        · rw [hqueue]
          exact h.sound.add s
        · rw [hqueue, h.sound.waiting_add_eq, h.waiting, bySlot_append_bySlot, hmore,
            List.map_append]
          rfl
      · have hsame : outstanding (.process features s v :: m.processor.requests)
            = outstanding m.processor.requests := if_neg hnot
        constructor
        · rw [hqueue]
          exact h.sound
        · rw [hqueue, h.waiting, hsame]
  taken m root h := ⟨fun _ _ _ => trivial, h.sound, h.waiting⟩
  slot m slot _ h := by
    show Filed (m.onSlot w.preset w.processor.journaled slot).value
    have hrequests := journaled_slot w m slot
    obtain ⟨metrics, hvalue⟩ := m.onSlot_value w.processor.journaled w.preset slot
    rw [hvalue] at hrequests ⊢
    refine ⟨h.sound.takeDue slot, ?_⟩
    rw [hrequests, outstanding_applied]
    show (m.untilSlot.takeDue slot).1.waiting = _
    rw [(h.sound.takeDue_eq slot).1, h.waiting, ← bySlot_filter, List.filter_map]
    rfl
  pool m c _ h := ⟨h.sound, h.waiting⟩
  meanwhile m e _ h := ⟨h.sound, h.waiting⟩

theorem filed_journaled {m : Manager σ} (hm : m.untilSlot = {}) : Filed m.journaled := by
  constructor
  · show m.untilSlot.Sound
    rw [hm]
    exact SlotQueue.sound_empty
  · show m.untilSlot.waiting = bySlot _ []
    rw [hm]
    exact (bySlot_perm _ []).eq_nil.symm

-- ============================================================= counting

/-- Whether a submission is saved with a request. -/
def isSaving : Request → Bool
  | .process features _ v => Saves features v
  | _ => false

/-- Whether an attestation is applied with a request. -/
def isApplication : Request → Bool
  | .apply _ => true
  | _ => false

/-- Whether as many attestations were applied as there were savings,
apart from those that are not over. -/
def Balanced (past : List Request) : Prop :=
  past.countP isApplication + (outstanding past).length = past.countP isSaving

theorem Balanced.process (h : Balanced past) (features : Features) (s : Submission) (v : Verdict) :
    Balanced (.process features s v :: past) := by
  unfold Balanced at h ⊢
  by_cases hsaves : Saves features v
  · simp [outstanding, isApplication, isSaving, hsaves, ← h]
    omega
  · simp [outstanding, isApplication, isSaving, hsaves, h]

theorem Balanced.decides (h : Balanced past) {new : List Request} (hnew : ∀ r ∈ new, r.Decides) :
    Balanced (new ++ past) := by
  induction new with
  | nil => exact h
  | cons r new ih =>
      obtain ⟨⟨features, s, v, rfl⟩, hrest⟩ := List.forall_mem_cons.mp hnew
      exact (ih hrest).process features s v

theorem Balanced.begin (h : Balanced past) {applied : List IndexedAttestation}
    (happlied : applied.length = (overIn past slot).length) :
    Balanced ((applied.map .apply).reverse ++ .slot slot :: past) := by
  have hparts := List.length_eq_length_filter_add (l := outstanding past)
    fun e => e.2.data.slot < slot
  have hkept : (outstanding past).filter (fun e => !decide (e.2.data.slot < slot))
      = (outstanding past).filter fun e => slot ≤ e.2.data.slot :=
    List.filter_congr fun e _ => by
      rw [← decide_not]
      exact decide_eq_decide.mpr UInt64.not_lt
  have hcount : (applied.map Request.apply).countP isApplication = applied.length := by
    rw [List.countP_map]
    exact List.countP_eq_length.mpr fun _ _ => rfl
  have hsavings : (applied.map Request.apply).countP isSaving = 0 := by
    rw [List.countP_map]
    exact List.countP_eq_zero.mpr fun _ _ => Bool.false_ne_true
  rw [overIn, (bySlot_perm _ _).length_eq] at happlied
  unfold Balanced at h ⊢
  rw [outstanding_applied, List.countP_append, List.countP_reverse, hcount, List.countP_append,
    List.countP_reverse, hsavings]
  rw [hkept] at hparts
  simp only [outstanding, List.countP_cons, isApplication, isSaving, Bool.false_eq_true, if_false]
  omega

-- ================================================================= runs

/-- What is over is what is due. -/
theorem applied_over (c : JudgeConfig) {m : Manager (Journal Judge)} (hfiled : Filed m)
    (hprepared : Prepared m.forget) (slot : Slot) :
    ∃ applied, (m.call (Judge.shared c).journaled (.slot slot)).processor.requests
        = (applied.map .apply).reverse ++ .slot slot :: m.processor.requests
      ∧ List.Forall₂ (fun e a => (m.ledger.get e.2).indexed = some a)
          (overIn m.processor.requests slot) applied := by
  have hdue : (m.untilSlot.takeDue slot).2 = (overIn m.processor.requests slot).map (·.2) :=
    hfiled.takeDue slot
  refine ⟨_, journaled_slot (Judge.shared c) m slot, ?_⟩
  rw [← List.forall₂_map_left_iff (f := Prod.snd)
    (R := fun s a => (m.ledger.get s).indexed = some a), ← hdue]
  exact forall₂_filterMap (hprepared.due slot)

/-- Whether all that is saved in a journal has its voters recorded, and is
applied once. -/
structure Accounted (m : Manager (Journal Judge)) : Prop where
  filed : Filed m
  prepared : Prepared m.forget
  balanced : Balanced m.processor.requests

theorem Accounted.call {m : Manager (Journal Judge)} (h : Accounted m) (c : JudgeConfig)
    (call : Call Judge.Use) : Accounted (m.call (Judge.shared c).journaled call) where
  filed := (keeps_filed (Judge.shared c)).call trivial h.filed
  prepared := by
    rw [forget_call]
    exact (keeps_prepared c).call trivial h.prepared
  balanced := by
    by_cases hslot : ∃ slot, call = .slot slot
    · obtain ⟨slot, rfl⟩ := hslot
      obtain ⟨applied, hrequests, hrecorded⟩ := applied_over c h.filed h.prepared slot
      rw [hrequests]
      exact h.balanced.begin hrecorded.length_eq.symm
    · obtain ⟨new, hrequests, hdecides⟩ := journaled_call m (Judge.shared c)
        fun slot heq => hslot ⟨slot, heq⟩
      rw [hrequests]
      exact h.balanced.decides hdecides

theorem accounted_after (c : JudgeConfig) {start : Manager Judge} (hstart : Fresh start)
    (occasions : List (Occasion Judge.StateSource Judge.Use)) :
    Accounted (afterAll (fun stateAt => (Judge.sharedAt c stateAt).journaled) start.journaled
      occasions) := by
  induction occasions with
  | nil => exact ⟨filed_journaled hstart.untilSlot, hstart.prepared, rfl⟩
  | cons o earlier ih => exact ih.call { c with stateAt := o.conditions } o.call

/-- When a slot begins, the attestations of all submissions that were saved
and are from a slot before it are applied, once for each saving that was
not over: first those of earlier slots, and within a slot those that were
saved first. What waits afterwards is not from a slot before. Between
slots nothing is applied; and a submission is saved where the verdict
says so. So what was applied and what waits has been saved. -/
theorem applied_once (c : JudgeConfig) (start : Manager Judge) (hstart : Fresh start)
    (occasions : List (Occasion Judge.StateSource Judge.Use)) :
    let w := Judge.sharedAt c
    let m := afterAll w start occasions
    let past := requestsAll w start occasions
    (∀ stateAt slot, ∃ due : List (Nat × Submission), ∃ applied : List IndexedAttestation,
      requestsAll w start (⟨stateAt, .slot slot⟩ :: occasions)
          = (applied.map .apply).reverse ++ .slot slot :: past
        ∧ (∀ number s, (number, s) ∈ due ↔ Waits past number s ∧ s.data.slot < slot)
        ∧ due.Pairwise (fun e e' => e.2.data.slot < e'.2.data.slot
          ∨ e.2.data.slot = e'.2.data.slot ∧ e.1 < e'.1)
        ∧ List.Forall₂ (fun e a => (m.ledger.get e.2).indexed = some a) due applied
        ∧ ∀ s ∈ (afterAll w start (⟨stateAt, .slot slot⟩ :: occasions)).untilSlot.waiting,
            slot ≤ s.data.slot)
    ∧ (∀ stateAt, ∀ call : Call Judge.Use, (∀ slot, call ≠ .slot slot) →
        ∃ new, requestsAll w start (⟨stateAt, call⟩ :: occasions) = new ++ past
          ∧ ∀ r ∈ new, r.Decides)
    ∧ (∀ stateAt features s,
        (m.onAttestation (w stateAt).processor features s).value.2 = .savedForFuture →
        requestsAll w start (⟨stateAt, .attestation features s⟩ :: occasions)
          = .process features s .savedForFuture :: past)
    ∧ past.countP isApplication + m.untilSlot.waiting.length = past.countP isSaving := by
  intro w m past
  let mj := afterAll (fun stateAt => (w stateAt).journaled) start.journaled occasions
  have hm : mj.forget = m := afterAll_journaled w start occasions
  have haccounted : Accounted mj := accounted_after c hstart occasions
  refine ⟨fun stateAt slot => ?_, fun stateAt call hcall => journaled_call mj (w stateAt) hcall,
    fun stateAt features s hsaved => ?_, ?_⟩
  · obtain ⟨applied, hrequests, hrecorded⟩ :=
      applied_over { c with stateAt } haccounted.filed haccounted.prepared slot
    refine ⟨overIn past slot, applied, hrequests, fun _ _ => mem_overIn, pairwise_overIn past slot,
      ?_, ?_⟩
    · rw [← hm]
      exact hrecorded
    · show ∀ s ∈ (m.onSlot c.preset (w stateAt).processor slot).value.untilSlot.waiting,
        slot ≤ s.data.slot
      obtain ⟨metrics, hvalue⟩ := m.onSlot_value (w stateAt).processor c.preset slot
      have hsound : m.untilSlot.Sound := hm ▸ haccounted.filed.sound
      rw [hvalue]
      exact fun s hs => (hsound.mem_waiting_takeDue.mp hs).2
  · rw [← hm] at hsaved
    rcases journaled_attestation (w stateAt).processor features mj s with hone | ⟨hturned, -⟩
    · refine hone.trans ?_
      rw [hsaved]
      rfl
    · exact nomatch hsaved.symm.trans hturned
  · have hwaiting : m.untilSlot.waiting.length = (outstanding past).length := by
      rw [← hm]
      show mj.untilSlot.waiting.length = _
      rw [haccounted.filed.waiting, (bySlot_perm _ _).length_eq, List.length_map]
      rfl
    rw [hwaiting]
    exact haccounted.balanced

/-- The early vote is handed in once more. -/
def threeVotes : List (Occasion Judge.StateSource Judge.Use) :=
  seen (.attestation {} (plainVote 1 2 firstBlock.hashTreeRoot)) :: twoVotes

/-- The early vote is saved twice, and applied twice when its slot is over,
also if no state can be looked up any more. -/
theorem applied_once_for_each_saving :
    let w := Judge.sharedAt plainJudge
    let early := plainVote 1 2 firstBlock.hashTreeRoot
    let m := afterAll w plainStart threeVotes
    let past := requestsAll w plainStart threeVotes
    let requests := requestsAll w plainStart (⟨unseen, .slot 3⟩ :: threeVotes)
    (outstanding past = [(2, early), (3, early)] ∧ m.untilSlot.waiting = [early, early]
        ∧ requests.countP isApplication = 2)
      ∧ ∃ due applied, requests = (applied.map .apply).reverse ++ .slot 3 :: past
        ∧ (2, early) ∈ due ∧ (3, early) ∈ due
        ∧ due.Pairwise (fun e e' => e.2.data.slot < e'.2.data.slot
          ∨ e.2.data.slot = e'.2.data.slot ∧ e.1 < e'.1)
        ∧ List.Forall₂ (fun e a => (m.ledger.get e.2).indexed = some a) due applied
        ∧ past.countP isApplication + m.untilSlot.waiting.length = past.countP isSaving := by
  refine (and_iff_left_of_imp fun ⟨houtstanding, _, _⟩ => ?_).mpr (by decide +kernel)
  have h := applied_once plainJudge plainStart fresh_plainStart threeVotes
  obtain ⟨due, applied, hrequests, hover, hordered, hrecorded, -⟩ := h.1 unseen 3
  have hwaits {number : Nat} (hmem : (number, plainVote 1 2 firstBlock.hashTreeRoot)
      ∈ outstanding _) := (hover _ _).mpr ⟨mem_outstanding.mp hmem, by decide⟩
  rw [houtstanding] at hwaits
  exact ⟨due, applied, hrequests, hwaits List.mem_cons_self,
    hwaits (List.mem_cons_of_mem _ List.mem_cons_self), hordered, hrecorded, h.2.2.2⟩

end Manager

end ChainHead
