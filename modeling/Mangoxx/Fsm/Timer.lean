import Mangoxx.Fsm.Steps
import Mathlib.Data.List.FinRange

namespace Mangoxx.Fsm

open Mangoxx.Lib

variable {H W : Type}

section Update

def Timer.tick (tm : Timer) : Timer :=
  match tm.taskId with
  | none => tm
  | some _ =>
    if tm.timeout > 0 then { tm with timeout := tm.timeout - 1 }
    else if tm.flag &&& timerReloadFlag ≠ 0 then { tm with timeout := tm.reload }
    else { tm with taskId := none }

def Timer.due (tm : Timer) (t : TaskId) (sig : Sig) : Prop := tm.is t sig ∧ ¬ tm.timeout > 0

instance (tm : Timer) (t : TaskId) (sig : Sig) : Decidable (tm.due t sig) :=
  inferInstanceAs (Decidable (_ ∧ _))

def Event.posts (t : TaskId) (sig : Sig) : Event H → Bool
  | .post t' e _ _ => t' = t ∧ e = sig
  | _ => false

def postCalls (t : TaskId) (sig : Sig) (tr : List (Event H)) : Nat := tr.countP (Event.posts t sig)

@[simp] theorem requestDispatch_timerPool (s : Os H W) :
    s.requestDispatch.timerPool = s.timerPool := by
  obtain ⟨hooks, -, heq⟩ := requestDispatch_eq s
  rw [heq]

theorem requestDispatch_postCalls (s : Os H W) (t : TaskId) (sig : Sig) :
    postCalls t sig s.requestDispatch.trace = postCalls t sig s.trace := by
  obtain ⟨hooks, rfl | rfl, heq⟩ := requestDispatch_eq s
  · simp [heq]
  · simp [heq, postCalls, Event.posts]

@[simp] theorem osPostMessage_timerPool (t : TaskId) (e : Sig) (s : Os H W) :
    (osPostMessage t e s).2.timerPool = s.timerPool := by
  unfold osPostMessage
  split
  · rfl
  · simp [Os.log, Os.setQueue]

theorem osPostMessage_postCalls (t' : TaskId) (e : Sig) (s : Os H W) (t : TaskId) (sig : Sig) :
    postCalls t sig (osPostMessage t' e s).2.trace =
      postCalls t sig s.trace + if t' = t ∧ e = sig then 1 else 0 := by
  unfold osPostMessage
  split
  · simp [postCalls, Os.log, Event.posts]
  · simp only [requestDispatch_postCalls]
    simp [postCalls, Os.log, Os.setQueue, Event.posts]

theorem osTimerUpdateSlot_timerPool (s : Os H W) (i : Slot) :
    (osTimerUpdateSlot s i).timerPool =
      Function.update s.timerPool i (s.timerPool i).tick := by
  cases h : (s.timerPool i).taskId with
  | none => simp [osTimerUpdateSlot, Timer.tick, h]
  | some t =>
    simp only [osTimerUpdateSlot, Timer.tick, h]
    split
    · rfl
    · split <;> simp [Os.setTimer]

theorem osTimerUpdateSlot_postCalls (s : Os H W) (i : Slot) (t : TaskId) (sig : Sig) :
    postCalls t sig (osTimerUpdateSlot s i).trace =
      postCalls t sig s.trace + if (s.timerPool i).due t sig then 1 else 0 := by
  cases h : (s.timerPool i).taskId with
  | none => simp [osTimerUpdateSlot, Timer.due, Timer.is, h]
  | some t' =>
    simp only [osTimerUpdateSlot, Timer.due, Timer.is, h, Option.some.injEq]
    split
    · rename_i hpos
      simp [Os.setTimer, hpos]
    · rename_i hzero
      split <;> simp [Os.setTimer, osPostMessage_postCalls, hzero]

theorem updateSlots (slots : List Slot) (hnodup : slots.Nodup) (s : Os H W) (t : TaskId)
    (sig : Sig) :
    ((slots.foldl osTimerUpdateSlot s).timerPool = fun j =>
        if j ∈ slots then (s.timerPool j).tick else s.timerPool j) ∧
      postCalls t sig (slots.foldl osTimerUpdateSlot s).trace =
        postCalls t sig s.trace + slots.countP fun i => (s.timerPool i).due t sig := by
  induction slots generalizing s with
  | nil => simp
  | cons i slots ih =>
    obtain ⟨hi, hnodup⟩ := List.nodup_cons.mp hnodup
    obtain ⟨hpool, hcalls⟩ := ih hnodup (osTimerUpdateSlot s i)
    have hkeep : ∀ j ∈ slots, (osTimerUpdateSlot s i).timerPool j = s.timerPool j := by
      intro j hj
      rw [osTimerUpdateSlot_timerPool, Function.update_of_ne (ne_of_mem_of_not_mem hj hi)]
    constructor
    · rw [List.foldl_cons, hpool]
      funext j
      by_cases hj : j ∈ slots
      · simp [hj, hkeep j hj]
      · by_cases hji : j = i <;> simp [hj, hji, hi, osTimerUpdateSlot_timerPool]
    · have hcount : (slots.countP fun j => ((osTimerUpdateSlot s i).timerPool j).due t sig) =
          slots.countP fun j => (s.timerPool j).due t sig :=
        List.countP_congr fun j hj => by simp [hkeep j hj]
      rw [List.foldl_cons, hcalls, hcount, osTimerUpdateSlot_postCalls, List.countP_cons]
      simp only [decide_eq_true_eq]
      omega

theorem osTimerUpdate_timerPool (s : Os H W) :
    (osTimerUpdate s).timerPool = fun i => (s.timerPool i).tick := by
  have h := (updateSlots (List.finRange timerCnt) (List.nodup_finRange _) s 0 0).1
  simpa [osTimerUpdate] using h

theorem osTimerUpdate_postCalls (s : Os H W) (t : TaskId) (sig : Sig) :
    postCalls t sig (osTimerUpdate s).trace = postCalls t sig s.trace +
      (List.finRange timerCnt).countP fun i => (s.timerPool i).due t sig :=
  (updateSlots _ (List.nodup_finRange _) s t sig).2

theorem Timer.tick_is {tm : Timer} {t : TaskId} {sig : Sig} (h : tm.tick.is t sig) :
    tm.is t sig := by
  cases ht : tm.taskId with
  | none => simpa [Timer.tick, ht] using h
  | some t' =>
    simp only [Timer.tick, ht] at h
    split at h
    · exact ⟨ht.trans h.1, h.2⟩
    · split at h
      · exact ⟨ht.trans h.1, h.2⟩
      · simp [Timer.is] at h

theorem Timer.is_unique {tm : Timer} {t t' : TaskId} {sig sig' : Sig} (h : tm.is t sig)
    (h' : tm.is t' sig') : t' = t ∧ sig' = sig := by
  obtain ⟨ht, rfl⟩ := h
  obtain ⟨ht', rfl⟩ := h'
  rw [ht, Option.some.injEq] at ht'
  exact ⟨ht'.symm, rfl⟩

theorem Timer.not_free {tm : Timer} {t : TaskId} {sig : Sig} (h : tm.is t sig) :
    tm.taskId ≠ none := by simp [h.1]

end Update

section Operations

variable {t : TaskId} {sig : Sig} {found fresh : Timer → Timer} {pool : Pool}

inductive Claims (t : TaskId) (sig : Sig) (found fresh : Timer → Timer) (pool pool' : Pool) : Prop
  | found (i) : (pool i).is t sig → (∀ j < i, (pool j).taskId ≠ none ∧ ¬ (pool j).is t sig) →
      pool' = Function.update pool i (found (pool i)) → Claims t sig found fresh pool pool'
  | fresh (i) : (pool i).taskId = none → (∀ j < i, (pool j).taskId ≠ none ∧ ¬ (pool j).is t sig) →
      pool' = Function.update pool i (fresh (pool i)) → Claims t sig found fresh pool pool'
  | full : (∀ j, (pool j).taskId ≠ none ∧ ¬ (pool j).is t sig) → pool' = pool →
      Claims t sig found fresh pool pool'

theorem claimSlot_claims (t : TaskId) (sig : Sig) (found fresh : Timer → Timer) (pool : Pool) :
    Claims t sig found fresh pool (claimSlot t sig found fresh pool) := by
  unfold claimSlot
  split
  · rename_i hnone
    refine .full (fun j => ?_) rfl
    have hj := Fin.eq_false_of_find?_eq_none hnone j
    simp only [decide_eq_false_iff_not, not_or] at hj
    exact ⟨hj.2, hj.1⟩
  · rename_i i hsome
    have hi := Fin.eq_true_of_find?_eq_some hsome
    have hbefore : ∀ j < i, (pool j).taskId ≠ none ∧ ¬ (pool j).is t sig := by
      intro j hj
      have := Fin.eq_false_of_find?_eq_some_of_lt hsome j hj
      simp only [decide_eq_false_iff_not, not_or] at this
      exact ⟨this.2, this.1⟩
    split
    · rename_i his
      exact .found i his hbefore rfl
    · rename_i hisnt
      simp only [decide_eq_true_eq] at hi
      exact .fresh i (hi.resolve_left hisnt) hbefore rfl

/-- The operation neither changes nor makes an active slot of the pair. -/
def Spares (t : TaskId) (sig : Sig) (pool pool' : Pool) : Prop :=
  ∀ i, (pool i).is t sig ∨ (pool' i).is t sig → pool' i = pool i

theorem Spares.is_iff {pool pool' : Pool} (h : Spares t sig pool pool') (i : Slot) :
    (pool' i).is t sig ↔ (pool i).is t sig :=
  ⟨fun his => h i (.inr his) ▸ his, fun his => (h i (.inl his)).symm ▸ his⟩

theorem spares_update {i : Slot} {tm : Timer} (hold : ¬ (pool i).is t sig)
    (hnew : ¬ tm.is t sig) : Spares t sig pool (Function.update pool i tm) := by
  intro j hj
  by_cases hji : j = i
  · subst hji
    simp [hold, hnew] at hj
  · exact Function.update_of_ne hji _ _

theorem claimSlot_spares {t' : TaskId} {sig' : Sig} (hne : ¬ (t' = t ∧ sig' = sig))
    (hfound : ∀ tm, tm.is t' sig' → (found tm).is t' sig') (hfresh : ∀ tm, (fresh tm).is t' sig') :
    Spares t sig pool (claimSlot t' sig' found fresh pool) := by
  have hother : ∀ tm : Timer, tm.is t' sig' → ¬ tm.is t sig :=
    fun tm h' h => hne (Timer.is_unique h h')
  cases claimSlot_claims t' sig' found fresh pool with
  | found i his _ heq => exact heq ▸ spares_update (hother _ his) (hother _ (hfound _ his))
  | fresh i hfree _ heq =>
    exact heq ▸ spares_update (fun h => Timer.not_free h hfree) (hother _ (hfresh _))
  | full _ heq => exact fun i _ => by rw [heq]

theorem timerSet_spares {t' : TaskId} {sig' : Sig} (hne : ¬ (t' = t ∧ sig' = sig)) (n : UInt16) :
    Spares t sig pool (timerSet t' sig' n pool) :=
  claimSlot_spares hne (fun _ h => h) fun _ => ⟨rfl, rfl⟩

theorem reloadTimerSet_spares {t' : TaskId} {sig' : Sig} (hne : ¬ (t' = t ∧ sig' = sig))
    (n : UInt16) : Spares t sig pool (reloadTimerSet t' sig' n pool) :=
  claimSlot_spares hne (fun _ h => h) fun _ => ⟨rfl, rfl⟩

theorem timerDel_spares {t' : TaskId} {sig' : Sig} (hne : ¬ (t' = t ∧ sig' = sig)) :
    Spares t sig pool (timerDel t' sig' pool) := by
  unfold timerDel
  split
  · exact fun _ _ => rfl
  · rename_i i hsome
    have his : (pool i).is t' sig' := by simpa using Fin.eq_true_of_find?_eq_some hsome
    exact spares_update (fun h => hne (Timer.is_unique h his)) (by simp [Timer.is])

end Operations

end Mangoxx.Fsm
