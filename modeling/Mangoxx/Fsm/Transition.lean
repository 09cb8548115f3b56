import Mangoxx.Fsm.Queue

/-! State transitions: `stm_ret_value` and `stm_state_temp` are shared by all tasks, so a request
moves the right task only as long as none is left over from a turn of the dispatch loop. -/

namespace Mangoxx.Fsm

open Mangoxx.Lib

variable {H W : Type}

def Event.Inner (i : TaskId) (p : Phase) : Event H → Prop
  | .post _ _ _ _ | .hook => True
  | .tran i' p' _ => i' = i ∧ p' = p
  | .call _ _ _ _ _ | .install _ _ | .sleep => False

def Event.Outer : Event H → Prop
  | .post _ _ _ _ | .hook => True
  | .call _ _ _ _ _ | .tran _ _ _ | .install _ _ | .sleep => False

/-- The history up to the point where task `t` becomes `new`, in a transition as it should be: in
one turn of the loop the old state got its message and `STM_EXIT_SIG`, the new state got
`STM_ENTRY_SIG`, and one of these handlers of `t` asked for the new state. -/
inductive Transition (pool : TaskId → H) (t : TaskId) (new : H) : List (Event H) → Prop
  | intro (before A B C e q q₁ q₂) (hA : ∀ ev ∈ A, ev.Inner t .message)
      (hB : ∀ ev ∈ B, ev.Inner t .exit) (hC : ∀ ev ∈ C, ev.Inner t .entry)
      (hnew : ∃ p, .tran t p new ∈ A ++ B ++ C) :
      Transition pool t new
        (before ++ .call t .message (handlerOf pool before t) e q :: A ++
          .call t .exit (handlerOf pool before t) stmExitSig q₁ :: B ++
          .call t .entry new stmEntrySig q₂ :: C)

def Event.Orderly (pool : TaskId → H) (pre : List (Event H)) : Event H → Prop
  | .install t new => Transition pool t new pre
  | _ => True

structure OrderlyMoves (pool : TaskId → H) (s : Os H W) : Prop where
  current : ∀ t, s.tasksPool t = handlerOf pool s.trace t
  orderly : History.Holds (Event.Orderly pool) s.trace

def Event.Settled : Event H → Prop
  | .tran _ p _ => p = .message
  | .post _ _ _ _ | .hook | .call _ _ _ _ _ | .install _ _ | .sleep => True

instance : DecidablePred (Event.Settled (H := H))
  | .tran _ p _ => inferInstanceAs (Decidable (p = .message))
  | .post _ _ _ _ | .hook | .call _ _ _ _ _ | .install _ _ | .sleep => .isTrue trivial

/-- No handler asks for a state while it leaves or enters one. -/
def Settled (tr : List (Event H)) : Prop := ∀ ev ∈ tr, ev.Settled

instance (tr : List (Event H)) : Decidable (Settled tr) :=
  inferInstanceAs (Decidable (∀ ev ∈ tr, ev.Settled))

theorem Settled.of_earlier {tr tr' : List (Event H)} (h : Settled tr') (hp : tr <+: tr') :
    Settled tr :=
  fun ev hmem => h ev (hp.subset hmem)

theorem Transition.requested {pool : TaskId → H} {pre : List (Event H)}
    (h : Transition pool t new pre) : ∃ p, .tran t p new ∈ pre := by
  obtain ⟨before, A, B, C, e, q, q₁, q₂, hA, hB, hC, p, hp⟩ := h
  refine ⟨p, ?_⟩
  simp only [List.mem_append] at hp
  rcases hp with (hp | hp) | hp <;> simp [hp]

/-- From `s` to `s'` the events `evs` happen, no task is moved, and a request is made if at all by
one of the events. -/
structure Ran (evs : List (Event H)) (s s' : Os H W) : Prop where
  trace : s'.trace = s.trace ++ evs
  pool : s'.tasksPool = s.tasksPool
  request : (s'.stmRetValue = s.stmRetValue ∧ s'.stmStateTemp = s.stmStateTemp) ∨
    (s'.stmRetValue = .stmTran ∧ ∃ t p, .tran t p s'.stmStateTemp ∈ evs)

def Runs (Q : Event H → Prop) (s s' : Os H W) : Prop :=
  ∃ evs, Ran evs s s' ∧ ∀ ev ∈ evs, Q ev

namespace Runs

variable {Q : Event H → Prop} {s s' s'' : Os H W}

theorem quiet (htrace : s'.trace = s.trace) (hpool : s'.tasksPool = s.tasksPool)
    (hret : s'.stmRetValue = s.stmRetValue) (htemp : s'.stmStateTemp = s.stmStateTemp) :
    Runs Q s s' :=
  ⟨[], ⟨by simpa using htrace, hpool, .inl ⟨hret, htemp⟩⟩, by simp⟩

theorem log (s : Os H W) {ev : Event H} (hev : Q ev) : Runs Q s (s.log ev) :=
  ⟨[ev], ⟨rfl, rfl, .inl ⟨rfl, rfl⟩⟩, by simpa using hev⟩

theorem trans (h : Runs Q s s') (h' : Runs Q s' s'') : Runs Q s s'' := by
  obtain ⟨evs, hr, hQ⟩ := h
  obtain ⟨evs', hr', hQ'⟩ := h'
  refine ⟨evs ++ evs', ⟨by rw [hr'.trace, hr.trace, List.append_assoc], hr'.pool.trans hr.pool, ?_⟩,
    fun ev hev => (List.mem_append.mp hev).elim (hQ ev) (hQ' ev)⟩
  rcases hr'.request with ⟨hret', htemp'⟩ | ⟨hret', t, p, hmem⟩
  · rcases hr.request with ⟨hret, htemp⟩ | ⟨hret, t, p, hmem⟩
    · exact .inl ⟨hret'.trans hret, htemp'.trans htemp⟩
    · exact .inr ⟨hret'.trans hret, t, p, by rw [htemp']; exact List.mem_append_left _ hmem⟩
  · exact .inr ⟨hret', t, p, List.mem_append_right _ hmem⟩

theorem requestDispatch (hhook : Q .hook) (s : Os H W) : Runs Q s s.requestDispatch := by
  have hflag : Runs Q s { s with nextDispatch := true } := quiet rfl rfl rfl rfl
  obtain ⟨hooks, rfl | rfl, heq⟩ := requestDispatch_eq s
  · rw [heq, List.append_nil]
    exact hflag
  · rw [heq]
    exact hflag.trans (log _ hhook)

theorem post (hhook : Q .hook) (hpost : ∀ t e r q, Q (.post t e r q)) (s : Os H W) (t : TaskId)
    (e : Sig) : Runs Q s (osPostMessage t e s).2 := by
  unfold osPostMessage
  split
  · exact log s (hpost _ _ _ _)
  · have hput : Runs Q s (s.setQueue t ((s.tasksQueue t).put e)) := quiet rfl rfl rfl rfl
    exact (hput.trans (log _ (hpost _ _ _ _))).trans (requestDispatch hhook _)

end Runs

theorem runAct_runs (i : TaskId) (p : Phase) (a : Act H W) (s : Os H W) :
    Runs (Event.Inner i p) s (runAct i p a s) := by
  refine runAct_rel Runs.trans (Runs.post trivial fun _ _ _ _ => trivial) (fun s h => ?_)
    (fun s _ _ => Runs.quiet rfl rfl rfl rfl) a s
  exact ⟨[.tran i p h], ⟨rfl, rfl, .inr ⟨rfl, i, p, List.mem_singleton_self _⟩⟩,
    by simp [Event.Inner]⟩

/-- Between two turns of the loop no request is pending. -/
structure Between (pool : TaskId → H) (s : Os H W) : Prop extends OrderlyMoves pool s where
  idle : s.stmRetValue ≠ .stmTran

def Event.Keeps (ev : Event H) : Prop := ∀ t h, ev ≠ .install t h

theorem Event.keeps_call {t : TaskId} {p : Phase} {hd : H} {e : Sig} {q : Queue} :
    (Event.call t p hd e q).Keeps := by
  intro t' hd' h
  cases h

theorem Event.Inner.keeps {i : TaskId} {p : Phase} {ev : Event H} (h : ev.Inner i p) :
    ev.Keeps := by
  rintro t hd rfl
  exact h

theorem Event.Keeps.orderly {pool : TaskId → H} {pre : List (Event H)} {ev : Event H}
    (h : ev.Keeps) : ev.Orderly pool pre := by
  cases ev with
  | install t hd => exact absurd rfl (h t hd)
  | post | hook | call | tran | sleep => trivial

theorem handlerOf_append (pool : TaskId → H) {tr evs : List (Event H)}
    (hevs : ∀ ev ∈ evs, ev.Keeps) (t : TaskId) :
    handlerOf pool (tr ++ evs) t = handlerOf pool tr t := by
  induction evs using List.reverseRecOn with
  | nil => simp
  | append_singleton evs ev ih =>
    have hev : ev.Keeps := hevs ev (by simp)
    rw [← List.append_assoc, handlerOf_snoc, ih fun ev' hmem => hevs ev' (by simp [hmem])]
    cases ev with
    | install t' hd => exact absurd rfl (hev t' hd)
    | post | hook | call | tran | sleep => rfl

theorem Between.extend {pool : TaskId → H} {s s' : Os H W} {evs : List (Event H)}
    (h : Between pool s) (htrace : s'.trace = s.trace ++ evs) (hevs : ∀ ev ∈ evs, ev.Keeps)
    (hpool : s'.tasksPool = s.tasksPool) (hidle : s'.stmRetValue ≠ .stmTran) : Between pool s' where
  current t := by rw [htrace, hpool, handlerOf_append pool hevs, h.current t]
  orderly := by
    rw [htrace]
    exact h.orderly.append fun ev hmem _ => (hevs ev hmem).orderly
  idle := hidle

theorem callHandler_settled {code : Code H W} {i : TaskId} {p : Phase} {h : H} {e : Sig}
    {s : Os H W} (hp : p ≠ .message) (hset : Settled (callHandler code i p h e s).trace) :
    ∃ evs, (callHandler code i p h e s).trace =
        s.trace ++ .call i p h e (s.tasksQueue i) :: evs ∧
      (∀ ev ∈ evs, ev.Inner i p) ∧
      (callHandler code i p h e s).tasksPool = s.tasksPool ∧
      (callHandler code i p h e s).stmRetValue = s.stmRetValue ∧
      (callHandler code i p h e s).stmStateTemp = s.stmStateTemp := by
  obtain ⟨evs, hr, hinner⟩ :=
    runAct_runs i p (code h e s.world) (s.log (.call i p h e (s.tasksQueue i)))
  refine ⟨evs, by simpa [callHandler, Os.log] using hr.trace, hinner, hr.pool, ?_⟩
  rcases hr.request with hkeep | ⟨-, t, p', hmem⟩
  · exact hkeep
  · have hp' : p' = p := (hinner _ hmem).2
    have hset' : Event.Settled (.tran t p' (runAct i p (code h e s.world) _).stmStateTemp) :=
      hset _ (by rw [callHandler, hr.trace]; exact List.mem_append_right _ hmem)
    have hmess : p' = .message := hset'
    exact absurd (hp'.symm.trans hmess) hp

theorem Between.install {pool : TaskId → H} {s : Os H W} {i : TaskId} (h : Between pool s)
    (htran : Transition pool i s.stmStateTemp s.trace) : Between pool (s.install i) where
  current t := by
    by_cases ht : t = i
    · simp [Os.install, Os.log, Event.installs, ht]
    · simpa [Os.install, Os.log, Event.installs, ht, Ne.symm ht] using h.current t
  orderly := (History.holds_snoc _ _ _).mpr ⟨h.orderly, htran⟩
  idle := h.idle

theorem Between.transition {code : Code H W} {pool : TaskId → H} {i : TaskId} {s s₁ : Os H W}
    {A : List (Event H)} {e : Sig} {q : Queue} (h : Between pool s)
    (htrace : s₁.trace = s.trace ++ .call i .message (s.tasksPool i) e q :: A)
    (hA : ∀ ev ∈ A, ev.Inner i .message) (hpool : s₁.tasksPool = s.tasksPool)
    (hreq : ∃ p, .tran i p s₁.stmStateTemp ∈ A) (hset : Settled (transition code i s₁).trace) :
    Between pool (transition code i s₁) := by
  have hentered : Settled (enter code i (leave code i s₁)).trace :=
    hset.of_earlier (List.prefix_append _ _)
  have hleft : Settled (leave code i s₁).trace :=
    hentered.of_earlier (reaches_trace (callHandler_reaches code i _ _ _ (by decide)))
  obtain ⟨B, htraceB, hB, hpoolB, hretB, htempB⟩ := callHandler_settled (by decide) hleft
  obtain ⟨C, htraceC, hC, hpoolC, hretC, htempC⟩ := callHandler_settled (by decide) hentered
  rw [← leave] at htraceB hpoolB hretB htempB
  rw [← enter] at htraceC hpoolC hretC htempC
  dsimp only at htraceB hpoolB hretB htempB
  rw [hpool] at htraceB
  rw [htraceB, htrace, htempB] at htraceC
  have hidle : (enter code i (leave code i s₁)).stmRetValue = .retSuccess := hretC.trans hretB
  have hnew : (enter code i (leave code i s₁)).stmStateTemp = s₁.stmStateTemp :=
    htempC.trans htempB
  have hmoved : (enter code i (leave code i s₁)).tasksPool = s.tasksPool :=
    hpoolC.trans (hpoolB.trans hpool)
  have hbetween : Between pool (enter code i (leave code i s₁)) := by
    rw [List.append_assoc, List.append_assoc] at htraceC
    refine h.extend htraceC ?_ hmoved (by simp [hidle])
    intro ev hev
    simp only [List.mem_append, List.mem_cons] at hev
    rcases hev with (rfl | hev) | (rfl | hev) | (rfl | hev)
    · exact Event.keeps_call
    · exact (hA ev hev).keeps
    · exact Event.keeps_call
    · exact (hB ev hev).keeps
    · exact Event.keeps_call
    · exact (hC ev hev).keeps
  refine hbetween.install ?_
  obtain ⟨p, hp⟩ := hreq
  rw [hnew, htraceC, h.current i]
  exact .intro s.trace A B C e q _ _ hA hB hC ⟨p, by simp [hp]⟩

theorem Between.dispatchTask {code : Code H W} {pool : TaskId → H} {i : TaskId} {s : Os H W}
    (h : Between pool s) (hset : Settled (dispatchTask code s i).trace) :
    Between pool (dispatchTask code s i) := by
  by_cases hu : (s.tasksQueue i).used = 0
  · simpa [Fsm.dispatchTask, hu] using h
  · obtain ⟨A, hr, hA⟩ := runAct_runs i .message
      (code (s.tasksPool i) (s.tasksQueue i).front s.world)
      ((s.take i).log (.call i .message (s.tasksPool i) (s.tasksQueue i).front
        ((s.take i).tasksQueue i)))
    have htrace : (deliver code i s).trace = s.trace ++ .call i .message (s.tasksPool i)
        (s.tasksQueue i).front ((s.take i).tasksQueue i) :: A := by
      simpa [deliver, callHandler, Os.log, Os.take, Os.setQueue] using hr.trace
    have hpool : (deliver code i s).tasksPool = s.tasksPool := hr.pool
    by_cases hreq : (deliver code i s).stmRetValue = .stmTran
    · have hturn : Fsm.dispatchTask code s i = Fsm.transition code i (deliver code i s) := by
        simp [Fsm.dispatchTask, hu, hreq]
      rw [hturn] at hset ⊢
      refine h.transition htrace hA hpool ?_ hset
      rcases hr.request with ⟨hret, -⟩ | ⟨-, t, p, hmem⟩
      · exact absurd (hret.symm.trans hreq) h.idle
      · obtain ⟨rfl, -⟩ := hA _ hmem
        exact ⟨p, hmem⟩
    · have hturn : Fsm.dispatchTask code s i = deliver code i s := by
        simp [Fsm.dispatchTask, hu, hreq]
      rw [hturn]
      refine h.extend htrace ?_ hpool hreq
      intro ev hev
      rcases List.mem_cons.mp hev with rfl | hev
      · exact Event.keeps_call
      · exact (hA ev hev).keeps

theorem Between.round {code : Code H W} {pool : TaskId → H} {s : Os H W} {l : List TaskId}
    (h : Between pool s) (hset : Settled (l.foldl (Fsm.dispatchTask code) s).trace) :
    Between pool (l.foldl (Fsm.dispatchTask code) s) := by
  apply History.run_invariant (Fsm.dispatchTask code) (C := fun s => Settled s.trace) _ _ hset h
  · exact fun s i hi => hi.of_earlier (reaches_trace (dispatchTask_reaches code s i))
  · exact fun s i hi hs => hs.dispatchTask hi

theorem Between.of_runs {pool : TaskId → H} {s s' : Os H W} (h : Between pool s)
    (hruns : Runs Event.Outer s s') : Between pool s' := by
  obtain ⟨evs, hr, houter⟩ := hruns
  refine h.extend hr.trace (fun ev hev t hd hinst => ?_) hr.pool ?_
  · simpa [hinst, Event.Outer] using houter ev hev
  · rcases hr.request with ⟨hret, -⟩ | ⟨-, t, p, hmem⟩
    · rw [hret]
      exact h.idle
    · exact (houter _ hmem).elim

theorem osTimerUpdateSlot_runs (s : Os H W) (i : Slot) :
    Runs Event.Outer s (osTimerUpdateSlot s i) := by
  have hpost : ∀ t e, Runs Event.Outer s (osPostMessage t e s).2 :=
    Runs.post trivial (fun _ _ _ _ => trivial) s
  unfold osTimerUpdateSlot
  dsimp only
  split
  · exact .quiet rfl rfl rfl rfl
  · split
    · exact .quiet rfl rfl rfl rfl
    · split <;> exact (hpost _ _).trans (.quiet rfl rfl rfl rfl)

theorem osInitTasks_runs (s : Os H W) : Runs Event.Outer s (osInitTasks s) := by
  have hposts := History.run_rel (R := Runs Event.Outer)
    (fun s i => (osPostMessage i stmEntrySig s).2) (fun _ => .quiet rfl rfl rfl rfl) Runs.trans
    (fun s i => Runs.post trivial (fun _ _ _ _ => trivial) s i stmEntrySig) s
    (List.finRange tasksCnt)
  have hreset (s : Os H W) : Runs Event.Outer s
      { s with timerPool := fun i => { s.timerPool i with taskId := none } } :=
    .quiet rfl rfl rfl rfl
  exact hposts.trans (hreset _)

theorem Between.osDispatch {code : Code H W} {pool : TaskId → H} {s : Os H W}
    (h : Between pool s) (hset : Settled (osDispatch code s).trace) :
    Between pool (osDispatch code s) := by
  have hstart : Between pool { s with nextDispatch := false } := ⟨⟨h.current, h.orderly⟩, h.idle⟩
  rcases osDispatch_cases code s with ⟨heq, -⟩ | ⟨heq, -⟩
  · rw [heq] at hset ⊢
    exact hstart.round hset
  · rw [heq] at hset ⊢
    have hround : Between pool (dispatchTasks code s) :=
      hstart.round (hset.of_earlier (List.prefix_append _ _))
    refine hround.extend rfl ?_ rfl hround.idle
    simp [Event.Keeps]

theorem Between.step {code : Code H W} {pool : TaskId → H} {s : Os H W} {o : Op}
    (h : Between pool s) (hset : Settled (step code s o).trace) : Between pool (step code s o) := by
  cases o with
  | initTasks => exact h.of_runs (osInitTasks_runs s)
  | post t e => exact h.of_runs (Runs.post trivial (fun _ _ _ _ => trivial) s t e)
  | timerUpdate =>
    exact h.of_runs (History.run_rel (R := Runs Event.Outer) osTimerUpdateSlot
      (fun _ => .quiet rfl rfl rfl rfl) Runs.trans osTimerUpdateSlot_runs s _)
  | timerSet t sig n => exact ⟨⟨h.current, h.orderly⟩, h.idle⟩
  | reloadTimerSet t sig n => exact ⟨⟨h.current, h.orderly⟩, h.idle⟩
  | timerDel t sig => exact ⟨⟨h.current, h.orderly⟩, h.idle⟩
  | dispatch => exact h.osDispatch hset

theorem Between.run {code : Code H W} {pool : TaskId → H} {s : Os H W} {ops : List Op}
    (h : Between pool s) (hset : Settled (run code s ops).trace) :
    Between pool (run code s ops) := by
  apply History.run_invariant (Fsm.step code) (C := fun s => Settled s.trace) _ _ hset h
  · exact fun s o ho => ho.of_earlier (reaches_trace (step_reaches code s o))
  · exact fun s o ho hs => hs.step ho

theorem Between.boot (pool : TaskId → H) (null : H) (hook : Bool) (w : W) :
    Between pool (boot pool null hook w) where
  current _ := rfl
  orderly := History.holds_nil _
  idle := nofun

/-- In a run without requests from inside a transition, every task is where its own handlers moved
it, and every move is a complete transition. -/
theorem transitions_orderly (code : Code H W) (pool : TaskId → H) (null : H) (hook : Bool) (w : W)
    (ops : List Op) (hset : Settled (run code (boot pool null hook w) ops).trace) :
    OrderlyMoves pool (run code (boot pool null hook w) ops) :=
  ((Between.boot pool null hook w).run hset).toOrderlyMoves

section Examples

def lamp : Code Nat Unit
  | 0, 5, w => .tran 7 (.ret w)
  | _, _, w => .ret w

def restlessLamp : Code Nat Unit
  | 0, 5, w => .tran 7 (.ret w)
  | 0, 1, w => .tran 7 (.ret w)
  | _, _, w => .ret w

def lampRun (code : Code Nat Unit) : Os Nat Unit :=
  run code (boot (fun t => t.val) 0 false ()) [.post 0 5, .post 1 6, .dispatch]

theorem lamp_orderly :
    Settled (lampRun lamp).trace ∧ OrderlyMoves (fun t => t.val) (lampRun lamp) :=
  ⟨by decide, transitions_orderly lamp _ 0 false () _ (by decide)⟩

/-- Task 1 is moved to state 7, which none of its handlers asked for. -/
theorem restlessLamp_moves_other : ¬ OrderlyMoves (fun t => t.val) (lampRun restlessLamp) := by
  intro h
  obtain ⟨pre, post, htrace⟩ := List.append_of_mem
    (show Event.install 1 7 ∈ (lampRun restlessLamp).trace by decide)
  obtain ⟨p, hp⟩ := Transition.requested (h.orderly pre _ post htrace)
  have hmem : Event.tran 1 p 7 ∈ (lampRun restlessLamp).trace := by
    rw [htrace]
    exact List.mem_append_left _ hp
  revert hmem
  cases p <;> decide

end Examples

end Mangoxx.Fsm
