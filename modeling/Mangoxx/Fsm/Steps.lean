import Mangoxx.Fsm.Defs

/-! Every function of the module is made of a few atomic steps.  What holds after every atomic
step holds at every point of every run, in the middle of a handler too. -/

namespace Mangoxx.Fsm

open Mangoxx.Lib Relation

variable {H W : Type}

inductive Atom : Os H W → Os H W → Prop
  | post (s t e) : Atom s (osPostMessage t e s).2
  | take (s t) : (s.tasksQueue t).used ≠ 0 →
      Atom s ((s.take t).log (.call t .message (s.tasksPool t) (s.tasksQueue t).front
        (s.tasksQueue t).drop))
  | signal (s t h e) : p ≠ .message → Atom s (s.log (.call t p h e (s.tasksQueue t)))
  | tran (s t p h) : Atom s ((osStmTran h s).log (.tran t p h))
  | install (s t) : Atom s (s.install t)
  | sleep (s) : Atom s (s.log .sleep)
  | rest (s s') : s'.tasksPool = s.tasksPool → s'.tasksQueue = s.tasksQueue →
      s'.trace = s.trace → Atom s s'

/-- What the calls of a handler do one by one, and so in any order, the handler does. -/
theorem runAct_rel {R : Os H W → Os H W → Prop} {i : TaskId} {p : Phase}
    (htrans : ∀ {s s' s''}, R s s' → R s' s'' → R s s'')
    (hpost : ∀ s t e, R s (osPostMessage t e s).2)
    (htran : ∀ s h, R s ((osStmTran h s).log (.tran i p h)))
    (hrest : ∀ s pool w, R s { s with timerPool := pool, world := w }) (a : Act H W)
    (s : Os H W) : R s (runAct i p a s) := by
  induction a generalizing s with
  | ret w => exact hrest s s.timerPool w
  | post t e k ih => exact htrans (hpost s t e) (ih _ _)
  | tran h k ih => exact htrans (htran s h) (ih _)
  | timerSet t sig n k ih => exact htrans (hrest s (timerSet t sig n s.timerPool) s.world) (ih _)
  | reloadTimerSet t sig n k ih =>
    exact htrans (hrest s (reloadTimerSet t sig n s.timerPool) s.world) (ih _)
  | timerDel t sig k ih => exact htrans (hrest s (timerDel t sig s.timerPool) s.world) (ih _)

theorem runAct_reaches (i : TaskId) (p : Phase) (a : Act H W) (s : Os H W) :
    ReflTransGen Atom s (runAct i p a s) :=
  runAct_rel .trans (fun s t e => .single (.post s t e)) (fun s h => .single (.tran s i p h))
    (fun s _ _ => .single (.rest s _ rfl rfl rfl)) a s

theorem callHandler_reaches (code : Code H W) (i : TaskId) (h : H) (e : Sig) (s : Os H W)
    (hp : p ≠ .message) : ReflTransGen Atom s (callHandler code i p h e s) :=
  .head (.signal s i h e hp) (runAct_reaches i p _ _)

theorem deliver_reaches (code : Code H W) (i : TaskId) (s : Os H W)
    (h : (s.tasksQueue i).used ≠ 0) : ReflTransGen Atom s (deliver code i s) := by
  refine .head (.take s i h) ?_
  simpa [deliver, callHandler, Os.take, Os.setQueue] using runAct_reaches i .message _ _

theorem leave_reaches (code : Code H W) (i : TaskId) (s : Os H W) :
    ReflTransGen Atom s (leave code i s) :=
  .head (.rest s { s with stmRetValue := .retSuccess } rfl rfl rfl)
    (callHandler_reaches code i _ _ _ (by decide))

theorem transition_reaches (code : Code H W) (i : TaskId) (s : Os H W) :
    ReflTransGen Atom s (transition code i s) :=
  .tail ((leave_reaches code i s).trans (callHandler_reaches code i _ _ _ (by decide)))
    (.install _ i)

theorem dispatchTask_reaches (code : Code H W) (s : Os H W) (i : TaskId) :
    ReflTransGen Atom s (dispatchTask code s i) := by
  unfold dispatchTask
  split
  · rename_i h
    dsimp only
    split
    · exact (deliver_reaches code i s h).trans (transition_reaches code i _)
    · exact deliver_reaches code i s h
  · exact .refl

theorem osDispatch_cases (code : Code H W) (s : Os H W) :
    (osDispatch code s = dispatchTasks code s ∧ (dispatchTasks code s).nextDispatch = true) ∨
      (osDispatch code s = (dispatchTasks code s).log .sleep ∧
        (dispatchTasks code s).nextDispatch = false) := by
  cases h : (dispatchTasks code s).nextDispatch <;> simp [osDispatch, h]

theorem osDispatch_reaches (code : Code H W) (s : Os H W) :
    ReflTransGen Atom s (osDispatch code s) := by
  have htasks : ReflTransGen Atom s (dispatchTasks code s) :=
    .head (.rest s { s with nextDispatch := false } rfl rfl rfl)
      (History.run_reaches (dispatchTask code) (dispatchTask_reaches code) _ _)
  rcases osDispatch_cases code s with ⟨heq, -⟩ | ⟨heq, -⟩
  · rw [heq]
    exact htasks
  · rw [heq]
    exact htasks.tail (.sleep _)

theorem osTimerUpdateSlot_reaches (s : Os H W) (i : Slot) :
    ReflTransGen Atom s (osTimerUpdateSlot s i) := by
  unfold osTimerUpdateSlot
  dsimp only
  split
  · exact .refl
  · split
    · exact .single (.rest _ _ rfl rfl rfl)
    · split <;> exact .head (.post s _ _) (.single (.rest _ _ rfl rfl rfl))

theorem osInitTasks_reaches (s : Os H W) : ReflTransGen Atom s (osInitTasks s) :=
  have hposts := History.run_reaches (fun s i => (osPostMessage i stmEntrySig s).2)
    (fun s i => .single (.post s i stmEntrySig)) s (List.finRange tasksCnt)
  have hreset (s : Os H W) : Atom s
      { s with timerPool := fun i => { s.timerPool i with taskId := none } } :=
        .rest _ _ rfl rfl rfl
  hposts.tail (hreset _)

theorem step_reaches (code : Code H W) (s : Os H W) (o : Op) :
    ReflTransGen Atom s (step code s o) := by
  cases o with
  | initTasks => exact osInitTasks_reaches s
  | post t e => exact .single (.post s t e)
  | timerUpdate =>
    exact History.run_reaches osTimerUpdateSlot osTimerUpdateSlot_reaches s (List.finRange timerCnt)
  | timerSet t sig n => exact .single (.rest _ _ rfl rfl rfl)
  | reloadTimerSet t sig n => exact .single (.rest _ _ rfl rfl rfl)
  | timerDel t sig => exact .single (.rest _ _ rfl rfl rfl)
  | dispatch => exact osDispatch_reaches code s

theorem requestDispatch_eq (s : Os H W) : ∃ hooks, (hooks = [] ∨ hooks = [.hook]) ∧
    s.requestDispatch = { s with nextDispatch := true, trace := s.trace ++ hooks } := by
  unfold Os.requestDispatch
  dsimp only
  split
  · rename_i hflag
    refine ⟨[], .inl rfl, ?_⟩
    rw [List.append_nil, ← hflag]
  · split
    · exact ⟨[.hook], .inr rfl, rfl⟩
    · refine ⟨[], .inl rfl, ?_⟩
      rw [List.append_nil]

theorem requestDispatch_trace (s : Os H W) : s.trace <+: s.requestDispatch.trace := by
  obtain ⟨hooks, -, heq⟩ := requestDispatch_eq s
  rw [heq]
  exact List.prefix_append _ _

theorem Atom.trace {s s' : Os H W} (h : Atom s s') : s.trace <+: s'.trace := by
  cases h with
  | post _ t e =>
    unfold osPostMessage
    split
    · exact List.prefix_append _ _
    · refine List.IsPrefix.trans ?_ (requestDispatch_trace _)
      exact List.prefix_append _ _
  | take | signal | tran | install | sleep => exact List.prefix_append _ _
  | rest _ _ _ _ htrace => exact htrace ▸ List.prefix_refl _

theorem reaches_trace {s s' : Os H W} (h : ReflTransGen Atom s s') : s.trace <+: s'.trace := by
  induction h with
  | refl => exact List.prefix_refl _
  | tail _ hatom ih => exact ih.trans hatom.trace

/-- The invariant rule of the module. -/
theorem run_atoms {I : Os H W → Prop} (hatom : ∀ s s', Atom s s' → I s → I s') (code : Code H W)
    (s : Os H W) (ops : List Op) (hs : I s) : I (run code s ops) :=
  History.reaches_invariant hatom (History.run_reaches (step code) (step_reaches code) s ops) hs

end Mangoxx.Fsm
