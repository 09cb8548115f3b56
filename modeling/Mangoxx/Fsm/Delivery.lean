import Mangoxx.Fsm.Queue
import Mathlib.Data.List.FinRange

namespace Mangoxx.Fsm

open Mangoxx.Lib

variable {H W : Type}

/-- What a handler sees: the message it is called with and the results of its posts. -/
inductive Seen (H : Type)
  | called (h : H) (e : Sig)
  | posted (t : TaskId) (e : Sig) (r : Ret)

def Event.seen : Event H → Option (Seen H)
  | .call _ _ h e _ => some (.called h e)
  | .post t e r _ => some (.posted t e r)
  | _ => none

/-- The same calls, by a handler that also writes down what it sees. -/
def Act.noting : Act H W → List (Seen H) → Act H (W × List (Seen H))
  | .ret w, notes => .ret (w, notes)
  | .post t e k, notes => .post t e fun r => (k r).noting (notes ++ [.posted t e r])
  | .tran h k, notes => .tran h (k.noting notes)
  | .timerSet t sig n k, notes => .timerSet t sig n (k.noting notes)
  | .reloadTimerSet t sig n k, notes => .reloadTimerSet t sig n (k.noting notes)
  | .timerDel t sig k, notes => .timerDel t sig (k.noting notes)

def noting (code : Code H W) : Code H (W × List (Seen H)) := fun h e w =>
  (code h e w.1).noting (w.2 ++ [.called h e])

def Os.noted (s : Os H W) (notes : List (Seen H)) : Os H (W × List (Seen H)) :=
  { s with world := (s.world, notes) }

/-- `notes'` goes on behind `notes` with what can be seen in the history from `s` to `s'`. -/
def Sees (s s' : Os H W) (notes notes' : List (Seen H)) : Prop :=
  ∃ evs, s'.trace = s.trace ++ evs ∧ notes' = notes ++ evs.filterMap Event.seen

namespace Sees

variable {s s' s'' : Os H W} {notes notes' notes'' : List (Seen H)}

theorem refl (s : Os H W) (notes : List (Seen H)) : Sees s s notes notes := ⟨[], by simp, by simp⟩

theorem trans (h : Sees s s' notes notes') (h' : Sees s' s'' notes' notes'') :
    Sees s s'' notes notes'' := by
  obtain ⟨evs, htrace, rfl⟩ := h
  obtain ⟨evs', htrace', rfl⟩ := h'
  exact ⟨evs ++ evs', by simp [htrace, htrace'], by simp⟩

theorem single (ev : Event H) (h : s'.trace = s.trace ++ [ev]) :
    Sees s s' notes (notes ++ ev.seen.toList) := by
  refine ⟨[ev], h, ?_⟩
  cases hev : ev.seen <;> simp [hev]

end Sees

theorem requestDispatch_noted (s : Os H W) (notes : List (Seen H)) :
    (s.noted notes).requestDispatch = s.requestDispatch.noted notes := by
  unfold Os.requestDispatch
  cases hflag : s.nextDispatch <;> cases hhook : s.dispatchHook <;>
    simp [Os.noted, Os.log, hflag, hhook]

theorem osPostMessage_noted (t : TaskId) (e : Sig) (s : Os H W) (notes : List (Seen H)) :
    osPostMessage t e (s.noted notes) =
      ((osPostMessage t e s).1, (osPostMessage t e s).2.noted notes) := by
  by_cases hfull : (s.tasksQueue t).used ≥ queueSize
  · have hfull' : ((s.noted notes).tasksQueue t).used ≥ queueSize := hfull
    simp only [osPostMessage, if_pos hfull, if_pos hfull']
    rfl
  · have hroom : ¬ ((s.noted notes).tasksQueue t).used ≥ queueSize := hfull
    simp only [osPostMessage, if_neg hfull, if_neg hroom]
    exact congrArg (Prod.mk _) (requestDispatch_noted ((s.setQueue t ((s.tasksQueue t).put e)).log
      (.post t e .retSuccess ((s.tasksQueue t).put e))) notes)

def Answered (s : Os H W) (t : TaskId) (e : Sig) : Ret × Os H W → Prop
  | (.queueFulled, s') => queueSize ≤ (s.tasksQueue t).used ∧
      s' = s.log (.post t e .queueFulled (s.tasksQueue t))
  | (.retSuccess, s') => (s.tasksQueue t).used < queueSize ∧
      ((s.tasksQueue t).Wf → (s'.tasksQueue t).Wf ∧
        (s'.tasksQueue t).contents = (s.tasksQueue t).contents ++ [e]) ∧
      (∀ t', t' ≠ t → s'.tasksQueue t' = s.tasksQueue t') ∧
      ∃ hooks, (hooks = [] ∨ hooks = [.hook]) ∧
        s'.trace = s.trace ++ .post t e .retSuccess (s'.tasksQueue t) :: hooks
  | (.stmTran, _) => False

theorem osPostMessage_answered (t : TaskId) (e : Sig) (s : Os H W) :
    Answered s t e (osPostMessage t e s) := by
  unfold osPostMessage
  split
  · rename_i hfull
    exact ⟨hfull, rfl⟩
  · rename_i hroom
    have hroom : (s.tasksQueue t).used < queueSize := Nat.lt_of_not_ge hroom
    obtain ⟨hooks, hhooks, heq⟩ := requestDispatch_eq ((s.setQueue t ((s.tasksQueue t).put e)).log
      (.post t e .retSuccess ((s.tasksQueue t).put e)))
    simp only [heq]
    refine ⟨hroom, fun hq => ?_, fun t' ht => ?_, hooks, hhooks, ?_⟩
    · simpa [Os.log, Os.setQueue] using ⟨hq.put e hroom, hq.contents_put e hroom⟩
    · simp [Os.log, Os.setQueue, ht]
    · simp [Os.log, Os.setQueue]

theorem osPostMessage_sees (t : TaskId) (e : Sig) (s : Os H W) (notes : List (Seen H)) :
    Sees s (osPostMessage t e s).2 notes (notes ++ [.posted t e (osPostMessage t e s).1]) := by
  have h := osPostMessage_answered t e s
  generalize osPostMessage t e s = r at h
  obtain ⟨r, s'⟩ := r
  cases r with
  | queueFulled =>
    obtain ⟨-, rfl⟩ := h
    exact .single (.post t e .queueFulled (s.tasksQueue t)) rfl
  | retSuccess =>
    obtain ⟨-, -, -, hooks, hhooks, htrace⟩ := h
    refine ⟨_, htrace, ?_⟩
    rcases hhooks with rfl | rfl <;> rfl
  | stmTran => exact h.elim

/-- The memory is written when the handler returns, so `old` does not matter. -/
theorem runAct_noted (i : TaskId) (p : Phase) (a : Act H W) (s : Os H W)
    (notes old : List (Seen H)) : ∃ notes', Sees s (runAct i p a s) notes notes' ∧
      runAct i p (a.noting notes) (s.noted old) = (runAct i p a s).noted notes' := by
  induction a generalizing s notes with
  | ret w => exact ⟨notes, .refl _ _, rfl⟩
  | post t e k ih =>
    obtain ⟨notes', hsees, heq⟩ := ih (osPostMessage t e s).1 (osPostMessage t e s).2
      (notes ++ [.posted t e (osPostMessage t e s).1])
    refine ⟨notes', (osPostMessage_sees t e s notes).trans hsees, ?_⟩
    simp only [Act.noting, runAct, osPostMessage_noted, heq]
  | tran h k ih =>
    obtain ⟨notes', hsees, heq⟩ := ih ((osStmTran h s).log (.tran i p h)) notes
    have htran : Sees s ((osStmTran h s).log (.tran i p h)) notes notes :=
      ⟨[.tran i p h], rfl, by simp [Event.seen]⟩
    exact ⟨notes', htran.trans hsees, heq⟩
  | timerSet t sig n k ih => exact ih (osTimerSet t sig n s) notes
  | reloadTimerSet t sig n k ih => exact ih (osReloadTimerSet t sig n s) notes
  | timerDel t sig k ih => exact ih (osTimerDel t sig s) notes

theorem callHandler_noted (code : Code H W) (i : TaskId) (p : Phase) (h : H) (e : Sig)
    (s : Os H W) (notes : List (Seen H)) :
    ∃ notes', Sees s (callHandler code i p h e s) notes notes' ∧
      callHandler (noting code) i p h e (s.noted notes) =
        (callHandler code i p h e s).noted notes' := by
  obtain ⟨notes', hsees, heq⟩ := runAct_noted i p (code h e s.world)
    (s.log (.call i p h e (s.tasksQueue i))) (notes ++ [.called h e]) notes
  exact ⟨notes', .trans (.single (.call i p h e (s.tasksQueue i)) rfl) hsees, heq⟩

theorem transition_noted (code : Code H W) (i : TaskId) (s : Os H W) (notes : List (Seen H)) :
    ∃ notes', Sees s (transition code i s) notes notes' ∧
      transition (noting code) i (s.noted notes) = (transition code i s).noted notes' := by
  obtain ⟨left, hleft, hleave⟩ := callHandler_noted code i .exit (s.tasksPool i) stmExitSig
    { s with stmRetValue := .retSuccess } notes
  obtain ⟨entered, hentered, henter⟩ := callHandler_noted code i .entry
    (leave code i s).stmStateTemp stmEntrySig (leave code i s) left
  have hleave' : leave (noting code) i (s.noted notes) = (leave code i s).noted left := hleave
  have henter' : enter (noting code) i ((leave code i s).noted left) =
    (enter code i (leave code i s)).noted entered := henter
  refine ⟨entered, (hleft.trans hentered).trans ?_, ?_⟩
  · exact ⟨[.install i (enter code i (leave code i s)).stmStateTemp], rfl, by simp [Event.seen]⟩
  · rw [transition, hleave', henter']
    rfl

theorem dispatchTask_noted (code : Code H W) (i : TaskId) (s : Os H W) (notes : List (Seen H)) :
    ∃ notes', Sees s (dispatchTask code s i) notes notes' ∧
      dispatchTask (noting code) (s.noted notes) i = (dispatchTask code s i).noted notes' := by
  by_cases hu : (s.tasksQueue i).used ≠ 0
  · obtain ⟨given, hgiven, hdeliver⟩ := callHandler_noted code i .message (s.tasksPool i)
      (s.tasksQueue i).front (s.take i) notes
    have hdeliver' : deliver (noting code) i (s.noted notes) = (deliver code i s).noted given :=
      hdeliver
    have hu' : ((s.noted notes).tasksQueue i).used ≠ 0 := hu
    simp only [dispatchTask, if_pos hu, if_pos hu', hdeliver']
    by_cases htran : (deliver code i s).stmRetValue = .stmTran
    · have htran' : ((deliver code i s).noted given).stmRetValue = .stmTran := htran
      obtain ⟨notes', hsees, heq⟩ := transition_noted code i (deliver code i s) given
      rw [if_pos htran, if_pos htran']
      exact ⟨notes', .trans hgiven hsees, heq⟩
    · have htran' : ¬ ((deliver code i s).noted given).stmRetValue = .stmTran := htran
      rw [if_neg htran, if_neg htran']
      exact ⟨given, hgiven, rfl⟩
  · have hu' : ¬ ((s.noted notes).tasksQueue i).used ≠ 0 := hu
    rw [dispatchTask, dispatchTask, if_neg hu, if_neg hu']
    exact ⟨notes, .refl _ _, rfl⟩

theorem round_noted (code : Code H W) (l : List TaskId) (s : Os H W) (notes : List (Seen H)) :
    ∃ notes', Sees s (l.foldl (dispatchTask code) s) notes notes' ∧
      l.foldl (dispatchTask (noting code)) (s.noted notes) =
        (l.foldl (dispatchTask code) s).noted notes' := by
  induction l generalizing s notes with
  | nil => exact ⟨notes, .refl _ _, rfl⟩
  | cons i l ih =>
    obtain ⟨turn, hturn, heq⟩ := dispatchTask_noted code i s notes
    obtain ⟨notes', hrest, heq'⟩ := ih (dispatchTask code s i) turn
    refine ⟨notes', hturn.trans hrest, ?_⟩
    rw [List.foldl_cons, heq, heq', List.foldl_cons]

theorem osDispatch_noted (code : Code H W) (s : Os H W) (notes : List (Seen H)) :
    ∃ notes', Sees s (osDispatch code s) notes notes' ∧
      osDispatch (noting code) (s.noted notes) = (osDispatch code s).noted notes' := by
  obtain ⟨notes', hsees, heq⟩ := round_noted code (List.finRange tasksCnt)
    { s with nextDispatch := false } notes
  have hround : dispatchTasks (noting code) (s.noted notes) =
      (dispatchTasks code s).noted notes' := heq
  refine ⟨notes', ?_, ?_⟩
  · rcases osDispatch_cases code s with ⟨h, -⟩ | ⟨h, -⟩
    · exact h ▸ hsees
    · exact h ▸ Sees.trans hsees ⟨[.sleep], rfl, by simp [Event.seen]⟩
  · simp only [osDispatch, hround]
    cases hflag : (dispatchTasks code s).nextDispatch <;> simp [Os.noted, Os.log, hflag]

structure Kept (t : TaskId) (s s' : Os H W) : Prop where
  wf : (s'.tasksQueue t).Wf
  delivered : delivered t s'.trace = delivered t s.trace
  contents : (s.tasksQueue t).contents <+: (s'.tasksQueue t).contents

namespace Kept

variable {t : TaskId} {s s' s'' : Os H W}

theorem of_eq (hq : (s.tasksQueue t).Wf) (hqueue : s'.tasksQueue t = s.tasksQueue t)
    (hdelivered : Fsm.delivered t s'.trace = Fsm.delivered t s.trace) : Kept t s s' where
  wf := hqueue ▸ hq
  delivered := hdelivered
  contents := hqueue ▸ List.prefix_refl _

theorem trans (h : Kept t s s') (h' : Kept t s' s'') : Kept t s s'' where
  wf := h'.wf
  delivered := h'.delivered.trans h.delivered
  contents := h.contents.trans h'.contents

theorem post (hq : (s.tasksQueue t).Wf) (t' : TaskId) (e : Sig) :
    Kept t s (osPostMessage t' e s).2 := by
  have h := osPostMessage_answered t' e s
  generalize osPostMessage t' e s = r at h
  obtain ⟨r, s'⟩ := r
  cases r with
  | queueFulled =>
    obtain ⟨-, rfl⟩ := h
    exact .of_eq hq rfl (by simp [Os.log, Event.delivers])
  | retSuccess =>
    obtain ⟨-, hput, hother, hooks, hhooks, htrace⟩ := h
    have hdelivered : Fsm.delivered t s'.trace = Fsm.delivered t s.trace := by
      rcases hhooks with rfl | rfl <;>
        simp [htrace, Fsm.delivered, List.filterMap_append, Event.delivers]
    by_cases ht : t = t'
    · subst ht
      obtain ⟨hwf, hcontents⟩ := hput hq
      exact ⟨hwf, hdelivered, hcontents ▸ List.prefix_append _ _⟩
    · exact .of_eq hq (hother t ht) hdelivered
  | stmTran => exact h.elim

theorem runAct (hq : (s.tasksQueue t).Wf) (i : TaskId) (p : Phase) (a : Act H W) :
    Kept t s (runAct i p a s) :=
  runAct_rel (R := fun s s' => (s.tasksQueue t).Wf → Kept t s s')
    (fun h h' hq => (h hq).trans (h' (h hq).wf)) (fun _ t' e hq => .post hq t' e)
    (fun _ _ hq => .of_eq hq rfl (by simp [osStmTran, Os.log, Event.delivers]))
    (fun _ _ _ hq => .of_eq hq rfl rfl) a s hq

theorem callHandler (hq : (s.tasksQueue t).Wf) (code : Code H W) {i : TaskId} {p : Phase}
    (hp : i ≠ t ∨ p ≠ .message) (h : H) (e : Sig) : Kept t s (callHandler code i p h e s) := by
  have hcall : Kept t s (s.log (.call i p h e (s.tasksQueue i))) := by
    refine .of_eq hq rfl ?_
    cases p <;> simp_all [Os.log, Event.delivers]
  exact hcall.trans (runAct hcall.wf i p (code h e s.world))

theorem transition (hq : (s.tasksQueue t).Wf) (code : Code H W) (i : TaskId) :
    Kept t s (transition code i s) := by
  have hreset : Kept t s { s with stmRetValue := .retSuccess } := .of_eq hq rfl rfl
  have hleave : Kept t s (leave code i s) :=
    hreset.trans (callHandler hreset.wf code (.inr (by decide)) (s.tasksPool i) stmExitSig)
  have henter : Kept t s (enter code i (leave code i s)) :=
    hleave.trans (callHandler hleave.wf code (.inr (by decide)) _ stmEntrySig)
  refine henter.trans (.of_eq henter.wf rfl ?_)
  simp [Fsm.transition, Os.install, Os.log, Event.delivers]

theorem after_deliver {s₁ : Os H W} (code : Code H W) {i : TaskId}
    (h : Kept t s (deliver code i s₁)) (hu : (s₁.tasksQueue i).used ≠ 0) :
    Kept t s (dispatchTask code s₁ i) := by
  simp only [dispatchTask, if_pos hu]
  split
  · exact h.trans (transition h.wf code i)
  · exact h

theorem dispatchTask (hq : (s.tasksQueue t).Wf) (code : Code H W) {i : TaskId} (hi : i ≠ t) :
    Kept t s (dispatchTask code s i) := by
  by_cases hu : (s.tasksQueue i).used ≠ 0
  · have htake : Kept t s (s.take i) :=
      .of_eq hq (by simp [Os.take, Os.setQueue, Ne.symm hi]) rfl
    exact after_deliver code (htake.trans (callHandler htake.wf code (.inl hi) _ _)) hu
  · rw [Fsm.dispatchTask, if_neg hu]
    exact .of_eq hq rfl rfl

theorem round (hq : (s.tasksQueue t).Wf) (code : Code H W) {l : List TaskId} (hl : t ∉ l) :
    Kept t s (l.foldl (Fsm.dispatchTask code) s) := by
  induction l generalizing s with
  | nil => exact .of_eq hq rfl rfl
  | cons i l ih =>
    obtain ⟨hi, hl⟩ := not_or.mp (mt List.mem_cons.mpr hl)
    have hturn : Kept t s (Fsm.dispatchTask code s i) := dispatchTask hq code (Ne.symm hi)
    exact hturn.trans (ih hturn.wf hl)

end Kept

theorem dispatchTask_delivers {s : Os H W} {t : TaskId} (hq : (s.tasksQueue t).Wf)
    (code : Code H W) {e : Sig} {rest : List Sig} (hc : (s.tasksQueue t).contents = e :: rest) :
    (((dispatchTask code s t).tasksQueue t)).Wf ∧
      delivered t (dispatchTask code s t).trace = delivered t s.trace ++ [e] := by
  have hu : (s.tasksQueue t).used ≠ 0 := by
    rw [← Queue.contents_length, hc]
    exact Nat.succ_ne_zero _
  have hfront : (s.tasksQueue t).front = e := by
    have hdrop := hq.contents_drop hu
    rw [hc] at hdrop
    exact (List.head_eq_of_cons_eq hdrop).symm
  have htaken : ((s.take t).tasksQueue t).Wf := by
    simpa [Os.take, Os.setQueue] using hq.drop hu
  have hcalled : Kept t ((s.take t).log (.call t .message (s.tasksPool t) e
      ((s.take t).tasksQueue t))) (deliver code t s) := by
    rw [deliver, hfront]
    exact Kept.runAct (s := (s.take t).log _) htaken t .message _
  have hturn := Kept.after_deliver code hcalled hu
  refine ⟨hturn.wf, hturn.delivered.trans ?_⟩
  simp [Os.log, Os.take, Os.setQueue, Event.delivers]

/-- A round gives each task with messages exactly the oldest one. -/
theorem osDispatch_delivers {s : Os H W} {t : TaskId} (hq : (s.tasksQueue t).Wf)
    (code : Code H W) {e : Sig} {rest : List Sig} (hc : (s.tasksQueue t).contents = e :: rest) :
    delivered t (osDispatch code s).trace = delivered t s.trace ++ [e] := by
  obtain ⟨before, after, hsplit⟩ := List.append_of_mem (List.mem_finRange t)
  have hnodup := List.nodup_finRange tasksCnt
  rw [hsplit, List.nodup_append, List.nodup_cons] at hnodup
  obtain ⟨-, ⟨hafter, -⟩, hbefore⟩ := hnodup
  have hbefore : t ∉ before := fun ht => hbefore t ht t List.mem_cons_self rfl
  have hround : delivered t (dispatchTasks code s).trace = delivered t s.trace ++ [e] := by
    rw [dispatchTasks, hsplit, List.foldl_append, List.foldl_cons]
    have h₁ := Kept.round (s := { s with nextDispatch := false }) hq code hbefore
    obtain ⟨tail, htail⟩ := h₁.contents
    obtain ⟨hwf, hdelivered⟩ := dispatchTask_delivers h₁.wf code
      (htail.symm.trans (congrArg (· ++ tail) hc))
    rw [(Kept.round hwf code hafter).delivered, hdelivered, h₁.delivered]
  rcases osDispatch_cases code s with ⟨h, -⟩ | ⟨h, -⟩
  · rw [h, hround]
  · rw [h, ← hround]
    simp [Os.log, Event.delivers]

/-- Over any run the queue of every task is a bounded first-in first-out queue, its history is the
results of the posts and the calls the handlers see, and the next round takes the oldest message. -/
theorem queues_refine_fifo (code : Code H W) (pool : TaskId → H) (null : H) (hook : Bool) (w : W)
    (ops : List Op) :
    let s := run code (boot pool null hook w) ops
    (∀ t, ∃ hq : (s.tasksQueue t).Wf,
      fifoRun t s.trace = some ((s.tasksQueue t).fifo hq) ∧
        accepted t s.trace = delivered t s.trace ++ (s.tasksQueue t).contents) ∧
      History.Holds (Event.InOrder pool) s.trace ∧
      (∀ (s : Os H W) t e, Answered s t e (osPostMessage t e s)) ∧
      (∀ t e rest, (s.tasksQueue t).contents = e :: rest →
        delivered t (osDispatch code s).trace = delivered t s.trace ++ [e]) ∧
      ∀ notes, ∃ notes', Sees s (osDispatch code s) notes notes' ∧
        osDispatch (noting code) (s.noted notes) = (osDispatch code s).noted notes' := by
  intro s
  have h : FifoInv pool s := FifoInv.run code pool null hook w ops
  refine ⟨fun t => ⟨h.wf t, h.refines t, fifoRun_conserves (h.refines t)⟩,
    h.events.mono fun _ _ => Event.Refines.inOrder, fun s t e => osPostMessage_answered t e s,
    fun t e rest hc => osDispatch_delivers (h.wf t) code hc, osDispatch_noted code s⟩

end Mangoxx.Fsm
