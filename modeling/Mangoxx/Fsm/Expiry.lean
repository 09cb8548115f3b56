import Mangoxx.Fsm.Queue
import Mangoxx.Fsm.Timer

namespace Mangoxx.Fsm

variable {H W : Type}

def Timer.expires (tm : Timer) (t : TaskId) : Prop := tm.taskId = some t ∧ ¬ tm.timeout > 0

instance (tm : Timer) (t : TaskId) : Decidable (tm.expires t) :=
  inferInstanceAs (Decidable (_ ∧ _))

def Timer.oneShot (tm : Timer) : Prop := tm.flag &&& timerReloadFlag = 0

def slotsBefore (i : Slot) : List Slot := (List.finRange timerCnt).take i

def Os.reaching (s : Os H W) (i : Slot) : Os H W := (slotsBefore i).foldl osTimerUpdateSlot s

/-- A one-shot timer that becomes inactive in an update has put its signal, once, into the queue of
its task; one whose signal is refused is still active. -/
structure KeepsExpiries (s : Os H W) : Prop where
  delivered : ∀ i t sig, (s.timerPool i).is t sig → (s.timerPool i).oneShot →
    ((osTimerUpdate s).timerPool i).taskId = none →
      let turn := osTimerUpdateSlot (s.reaching i) i
      turn.tasksQueue t = ((s.reaching i).tasksQueue t).put sig ∧
        accepted t turn.trace = accepted t (s.reaching i).trace ++ [sig]
  refused : ∀ i t sig, (s.timerPool i).is t sig → (s.timerPool i).oneShot →
    (s.timerPool i).expires t → (osPostMessage t sig (s.reaching i)).1 = .queueFulled →
      ((osTimerUpdate s).timerPool i).is t sig

/-- The queue of every one-shot timer that runs out has a place left, also for what the slots
before it post. -/
def RoomAtExpiry (s : Os H W) : Prop :=
  ∀ i t, (s.timerPool i).oneShot → (s.timerPool i).expires t →
    (s.tasksQueue t).used + (slotsBefore i).countP (fun j => (s.timerPool j).expires t) < queueSize

theorem requestDispatch_tasksQueue (s : Os H W) :
    s.requestDispatch.tasksQueue = s.tasksQueue := by
  obtain ⟨hooks, -, heq⟩ := requestDispatch_eq s
  rw [heq]

theorem requestDispatch_accepted (t : TaskId) (s : Os H W) :
    accepted t s.requestDispatch.trace = accepted t s.trace := by
  obtain ⟨hooks, rfl | rfl, heq⟩ := requestDispatch_eq s
  · simp [heq]
  · simp [heq, Event.accepts]

theorem osPostMessage_refused {t : TaskId} {s : Os H W} (e : Sig)
    (h : queueSize ≤ (s.tasksQueue t).used) :
    (osPostMessage t e s).1 = .queueFulled ∧
      (osPostMessage t e s).2.tasksQueue = s.tasksQueue ∧
        accepted t (osPostMessage t e s).2.trace = accepted t s.trace := by
  rw [osPostMessage, if_pos h]
  simp [Os.log, Event.accepts]

theorem osPostMessage_accepted {t : TaskId} {s : Os H W} (e : Sig)
    (h : (s.tasksQueue t).used < queueSize) :
    (osPostMessage t e s).1 = .retSuccess ∧
      (osPostMessage t e s).2.tasksQueue =
          Function.update s.tasksQueue t ((s.tasksQueue t).put e) ∧
        accepted t (osPostMessage t e s).2.trace = accepted t s.trace ++ [e] := by
  rw [osPostMessage, if_neg (Nat.not_le.mpr h)]
  refine ⟨rfl, ?_, ?_⟩
  · rw [requestDispatch_tasksQueue]
    rfl
  · rw [requestDispatch_accepted]
    simp [Os.log, Os.setQueue, Event.accepts]

theorem osPostMessage_used (t' : TaskId) (e : Sig) (s : Os H W) (t : TaskId) :
    min queueSize ((osPostMessage t' e s).2.tasksQueue t).used =
      min queueSize ((s.tasksQueue t).used + if t' = t then 1 else 0) := by
  by_cases hfull : queueSize ≤ (s.tasksQueue t').used
  · rw [(osPostMessage_refused e hfull).2.1]
    by_cases ht : t' = t
    · subst ht
      omega
    · simp [ht]
  · rw [(osPostMessage_accepted e (Nat.lt_of_not_le hfull)).2.1]
    by_cases ht : t' = t
    · subst ht
      simp [Queue.put]
    · simp [ht, Ne.symm ht]

theorem osTimerUpdateSlot_used (s : Os H W) (i : Slot) (t : TaskId) :
    min queueSize ((osTimerUpdateSlot s i).tasksQueue t).used =
      min queueSize ((s.tasksQueue t).used + if (s.timerPool i).expires t then 1 else 0) := by
  cases h : (s.timerPool i).taskId with
  | none => simp [osTimerUpdateSlot, Timer.expires, h]
  | some t' =>
    simp only [osTimerUpdateSlot, Timer.expires, h, Option.some.injEq]
    split
    · rename_i hpos
      simp [Os.setTimer, hpos]
    · rename_i hzero
      have hpost := osPostMessage_used t' (s.timerPool i).sig s t
      simp only [hzero, not_false_eq_true, and_true]
      split <;> exact hpost

theorem foldl_used (slots : List Slot) (hnodup : slots.Nodup) (s : Os H W) (t : TaskId) :
    min queueSize ((slots.foldl osTimerUpdateSlot s).tasksQueue t).used =
      min queueSize
        ((s.tasksQueue t).used + slots.countP fun j => (s.timerPool j).expires t) := by
  induction slots generalizing s with
  | nil => simp
  | cons i slots ih =>
    obtain ⟨hi, hnodup⟩ := List.nodup_cons.mp hnodup
    have hcount : (slots.countP fun j => ((osTimerUpdateSlot s i).timerPool j).expires t) =
        slots.countP fun j => (s.timerPool j).expires t := by
      apply List.countP_congr
      intro j hj
      rw [osTimerUpdateSlot_timerPool, Function.update_of_ne (ne_of_mem_of_not_mem hj hi)]
    have hslot := osTimerUpdateSlot_used s i t
    rw [List.foldl_cons, ih hnodup, hcount, List.countP_cons]
    simp only [decide_eq_true_eq]
    omega

theorem slotsBefore_nodup (i : Slot) : (slotsBefore i).Nodup :=
  (List.nodup_finRange _).sublist (List.take_sublist _ _)

theorem not_mem_slotsBefore (i : Slot) : i ∉ slotsBefore i := by
  simp only [slotsBefore, List.mem_take_iff_getElem, not_exists]
  intro k hk h
  simp only [List.getElem_finRange] at h
  have hik : (i : Nat) = k := by simp [← h]
  omega

theorem reaching_timerPool (s : Os H W) (i : Slot) :
    (s.reaching i).timerPool i = s.timerPool i := by
  have h := (updateSlots (slotsBefore i) (slotsBefore_nodup i) s 0 0).1
  rw [Os.reaching, h]
  simp [not_mem_slotsBefore]

theorem reaching_expired {s : Os H W} {i : Slot} {t : TaskId} {sig : Sig}
    (his : (s.timerPool i).is t sig) (hexp : (s.timerPool i).expires t) :
    let turn := osTimerUpdateSlot (s.reaching i) i
    turn.tasksQueue = (osPostMessage t sig (s.reaching i)).2.tasksQueue ∧
      turn.trace = (osPostMessage t sig (s.reaching i)).2.trace := by
  rw [← reaching_timerPool s i] at his hexp
  obtain ⟨ht, rfl⟩ := his
  simp only [osTimerUpdateSlot, ht, if_neg hexp.2]
  split <;> exact ⟨rfl, rfl⟩

theorem tick_free_iff {tm : Timer} {t : TaskId} {sig : Sig} (his : tm.is t sig)
    (hone : tm.oneShot) : tm.tick.taskId = none ↔ tm.expires t := by
  obtain ⟨ht, -⟩ := his
  rw [Timer.oneShot] at hone
  simp only [Timer.tick, ht, Timer.expires, true_and, hone, ne_eq, not_true_eq_false, if_false]
  by_cases hpos : tm.timeout > 0
  · simp [hpos]
  · simp [hpos]

theorem room_iff (s : Os H W) (i : Slot) (t : TaskId) :
    ((s.reaching i).tasksQueue t).used < queueSize ↔
      (s.tasksQueue t).used + (slotsBefore i).countP (fun j => (s.timerPool j).expires t) <
        queueSize := by
  have h := foldl_used (slotsBefore i) (slotsBefore_nodup i) s t
  rw [Os.reaching]
  omega

theorem keepsExpiries_iff (s : Os H W) : KeepsExpiries s ↔ RoomAtExpiry s := by
  constructor
  · intro h i t hone hexp
    have his : (s.timerPool i).is t (s.timerPool i).sig := ⟨hexp.1, rfl⟩
    have hfree : ((osTimerUpdate s).timerPool i).taskId = none := by
      rw [osTimerUpdate_timerPool]
      exact (tick_free_iff his hone).mpr hexp
    obtain ⟨-, haccepted⟩ := h.delivered i t _ his hone hfree
    rw [← room_iff]
    by_contra hfull
    have hrefused := (osPostMessage_refused (s.timerPool i).sig (Nat.le_of_not_lt hfull)).2.2
    rw [(reaching_expired his hexp).2, hrefused] at haccepted
    simp at haccepted
  · intro h
    have hroom : ∀ i t, (s.timerPool i).oneShot → (s.timerPool i).expires t →
        ((s.reaching i).tasksQueue t).used < queueSize :=
      fun i t hone hexp => (room_iff s i t).mpr (h i t hone hexp)
    constructor
    · intro i t sig his hone hfree
      rw [osTimerUpdate_timerPool] at hfree
      have hexp := (tick_free_iff his hone).mp hfree
      obtain ⟨-, hqueue, haccepted⟩ := osPostMessage_accepted sig (hroom i t hone hexp)
      obtain ⟨hturn, htrace⟩ := reaching_expired his hexp
      dsimp only
      rw [hturn, htrace, hqueue, haccepted, Function.update_self]
      exact ⟨rfl, rfl⟩
    · intro i t sig his hone hexp hfull
      rw [(osPostMessage_accepted sig (hroom i t hone hexp)).1] at hfull
      cases hfull

/-- A run loses no expiry exactly if no update lets a one-shot timer run out whose queue is full by
then. -/
theorem no_expiry_lost_iff (code : Code H W) (s : Os H W) (ops : List Op) :
    (∀ pre post, ops = pre ++ .timerUpdate :: post →
        KeepsExpiries (run code (osInitTasks s) pre)) ↔
      ∀ pre post, ops = pre ++ .timerUpdate :: post →
        RoomAtExpiry (run code (osInitTasks s) pre) := by
  simp only [keepsExpiries_iff]

theorem full_queue_loses_expiry :
    let code : Code Unit Unit := fun _ _ w => .ret w
    ¬ ∀ pre post, List.replicate 7 (Op.post 0 5) ++ [.timerSet 0 9 0, .timerUpdate] =
        pre ++ .timerUpdate :: post →
      KeepsExpiries (run code (osInitTasks (boot (fun _ => ()) () false ())) pre) := by
  intro code h
  have hkept := h (List.replicate 7 (Op.post 0 5) ++ [.timerSet 0 9 0]) [] rfl
  have hactive := hkept.refused 0 0 9 (by decide +kernel) (by unfold Timer.oneShot; decide +kernel)
    (by decide +kernel) (by decide +kernel)
  revert hactive
  decide +kernel

end Mangoxx.Fsm
