import Mangoxx.Fsm.Queue
import Mathlib.Data.List.FinRange

/-! Requests for another round: `os_dispatch` takes one message from every queue and clears the
request of all posts before it. -/

namespace Mangoxx.Fsm

open Mangoxx.Lib

variable {H W : Type}

/-- The variables by which the handlers of a round depend on those called before them. -/
structure Left (H W : Type) where
  stmRetValue : Ret
  stmStateTemp : H
  world : W

def Os.left (s : Os H W) : Left H W := ⟨s.stmRetValue, s.stmStateTemp, s.world⟩

/-- What the calls of a handler leave if they post to full queues only, else `none`. -/
def Act.silent (full : TaskId → Bool) : Act H W → Left H W → Option (Left H W)
  | .ret w, m => some { m with world := w }
  | .post t _ k, m => if full t then (k .queueFulled).silent full m else none
  | .tran h k, m => k.silent full { m with stmRetValue := .stmTran, stmStateTemp := h }
  | .timerSet _ _ _ k, m => k.silent full m
  | .reloadTimerSet _ _ _ k, m => k.silent full m
  | .timerDel _ _ k, m => k.silent full m

def silentTurn (code : Code H W) (full : TaskId → Bool) (h : H) (e : Sig) (m : Left H W) :
    Option (Left H W) :=
  ((code h e m.world).silent full m).bind fun m =>
    if m.stmRetValue = .stmTran then
      ((code h stmExitSig m.world).silent full { m with stmRetValue := .retSuccess }).bind fun m =>
        (code m.stmStateTemp stmEntrySig m.world).silent full m
    else some m

/-- The handlers of the tasks of `l` that have a message in `s`.  A queue that holds `QUEUE_SIZE`
messages is full until its task has had its turn. -/
def silentRound (code : Code H W) (s : Os H W) : List TaskId → Left H W → Option (Left H W)
  | [], m => some m
  | i :: l, m =>
    if (s.tasksQueue i).used ≠ 0 then
      (silentTurn code (fun t => decide (t ∈ l ∧ (s.tasksQueue t).used = queueSize))
        (s.tasksPool i) (s.tasksQueue i).front m).bind (silentRound code s l)
    else silentRound code s l m

/-- One of the handlers that get a message of `s` posts to a queue that has room. -/
def HandlersPost (code : Code H W) (s : Os H W) : Prop :=
  silentRound code s (List.finRange tasksCnt) s.left = none

/-- `r` foretells what happens between `s` and `s'`: a message is posted, or what is left. -/
inductive Foretells (s s' : Os H W) : Option (Left H W) → Prop
  | posts (hflag : s'.nextDispatch = true) : Foretells s s' none
  | silent (hflag : s'.nextDispatch = s.nextDispatch) (hqueue : s'.tasksQueue = s.tasksQueue)
      (hpool : s'.tasksPool = s.tasksPool) : Foretells s s' (some s'.left)

theorem osPostMessage_requests (t : TaskId) (e : Sig) (s : Os H W)
    (h : s.nextDispatch = true ∨ (s.tasksQueue t).used < queueSize) :
    (osPostMessage t e s).2.nextDispatch = true := by
  unfold osPostMessage
  split
  · rename_i hfull
    exact h.resolve_right (Nat.not_lt.mpr hfull)
  · obtain ⟨hooks, -, heq⟩ := requestDispatch_eq ((s.setQueue t ((s.tasksQueue t).put e)).log
      (.post t e .retSuccess ((s.tasksQueue t).put e)))
    simp [heq]

theorem runAct_requests (i : TaskId) (p : Phase) (a : Act H W) (s : Os H W) :
    s.nextDispatch = true → (runAct i p a s).nextDispatch = true :=
  runAct_rel (R := fun s s' => s.nextDispatch = true → s'.nextDispatch = true)
    (fun h h' hs => h' (h hs)) (fun s t e hs => osPostMessage_requests t e s (.inl hs))
    (fun _ _ hs => hs) (fun _ _ _ hs => hs) a s

theorem callHandler_requests (code : Code H W) (i : TaskId) (p : Phase) (h : H) (e : Sig)
    (s : Os H W) (hs : s.nextDispatch = true) : (callHandler code i p h e s).nextDispatch = true :=
  runAct_requests i p _ _ hs

theorem transition_requests (code : Code H W) (i : TaskId) (s : Os H W)
    (hs : s.nextDispatch = true) : (transition code i s).nextDispatch = true :=
  callHandler_requests code i .entry _ _ _ (callHandler_requests code i .exit _ _ _ hs)

theorem dispatchTask_requests (code : Code H W) (i : TaskId) (s : Os H W)
    (hs : s.nextDispatch = true) : (dispatchTask code s i).nextDispatch = true := by
  unfold dispatchTask
  split
  · have hdeliver : (deliver code i s).nextDispatch = true :=
      callHandler_requests code i .message _ _ _ hs
    dsimp only
    split
    · exact transition_requests code i _ hdeliver
    · exact hdeliver
  · exact hs

namespace Foretells

variable {s s' s'' : Os H W} {r : Option (Left H W)} {f : Left H W → Option (Left H W)}

theorem congr (h : Foretells s' s'' r) (hflag : s'.nextDispatch = s.nextDispatch)
    (hqueue : s'.tasksQueue = s.tasksQueue) (hpool : s'.tasksPool = s.tasksPool) :
    Foretells s s'' r := by
  cases h with
  | posts hflag' => exact .posts hflag'
  | silent hflag' hqueue' hpool' =>
    exact .silent (hflag'.trans hflag) (hqueue'.trans hqueue) (hpool'.trans hpool)

theorem bind (h : Foretells s s' r) (hrequests : s'.nextDispatch = true → s''.nextDispatch = true)
    (h' : s'.tasksQueue = s.tasksQueue → s'.tasksPool = s.tasksPool →
      Foretells s' s'' (f s'.left)) : Foretells s s'' (r.bind f) := by
  cases h with
  | posts hflag => exact .posts (hrequests hflag)
  | silent hflag hqueue hpool => exact (h' hqueue hpool).congr hflag hqueue hpool

theorem runAct (full : TaskId → Bool) (i : TaskId) (p : Phase) (a : Act H W) (s : Os H W)
    (hfull : ∀ t, full t = true ↔ queueSize ≤ (s.tasksQueue t).used) :
    Foretells s (runAct i p a s) (a.silent full s.left) := by
  induction a generalizing s with
  | ret w => exact .silent rfl rfl rfl
  | post t e k ih =>
    by_cases ht : queueSize ≤ (s.tasksQueue t).used
    · have hrefused : osPostMessage t e s =
          (.queueFulled, s.log (.post t e .queueFulled (s.tasksQueue t))) := by
        simp [osPostMessage, ht]
      simp only [Fsm.runAct, Act.silent, hrefused, (hfull t).mpr ht, if_true]
      exact (ih .queueFulled (s.log _) hfull).congr rfl rfl rfl
    · have hroom : full t = false := Bool.eq_false_iff.mpr fun h => ht ((hfull t).mp h)
      simp only [Fsm.runAct, Act.silent, hroom, Bool.false_eq_true, if_false]
      exact .posts (runAct_requests i p _ _
        (osPostMessage_requests t e s (.inr (Nat.lt_of_not_ge ht))))
  | tran h k ih => exact (ih ((osStmTran h s).log (.tran i p h)) hfull).congr rfl rfl rfl
  | timerSet t sig n k ih => exact (ih (osTimerSet t sig n s) hfull).congr rfl rfl rfl
  | reloadTimerSet t sig n k ih => exact (ih (osReloadTimerSet t sig n s) hfull).congr rfl rfl rfl
  | timerDel t sig k ih => exact (ih (osTimerDel t sig s) hfull).congr rfl rfl rfl

theorem callHandler (code : Code H W) {full : TaskId → Bool} (i : TaskId) (p : Phase) (h : H)
    (e : Sig) (s : Os H W) (hfull : ∀ t, full t = true ↔ queueSize ≤ (s.tasksQueue t).used) :
    Foretells s (callHandler code i p h e s) ((code h e s.world).silent full s.left) :=
  (runAct full i p (code h e s.world) (s.log _) hfull).congr rfl rfl rfl

end Foretells

theorem silentTurn_foretells (code : Code H W) {full : TaskId → Bool} (i : TaskId) (s : Os H W)
    (hfull : ∀ t, full t = true ↔ queueSize ≤ ((s.take i).tasksQueue t).used) :
    Foretells (s.take i)
      (if (deliver code i s).stmRetValue = .stmTran then
        enter code i (leave code i (deliver code i s)) else deliver code i s)
      (silentTurn code full (s.tasksPool i) (s.tasksQueue i).front s.left) := by
  have hdeliver : Foretells (s.take i) (deliver code i s)
      ((code (s.tasksPool i) (s.tasksQueue i).front s.world).silent full s.left) :=
    Foretells.callHandler code i .message _ _ (s.take i) hfull
  generalize hs' : deliver code i s = s' at hdeliver
  refine hdeliver.bind ?_ fun hqueue hpool => ?_
  · intro hflag
    split
    · exact callHandler_requests code i .entry _ _ _ (callHandler_requests code i .exit _ _ _ hflag)
    · exact hflag
  by_cases htran : s'.stmRetValue = .stmTran
  · have hfull' : ∀ t, full t = true ↔ queueSize ≤ (s'.tasksQueue t).used := hqueue ▸ hfull
    have hleave := Foretells.callHandler code i .exit (s.tasksPool i) stmExitSig
      { s' with stmRetValue := .retSuccess } hfull'
    have hhandler : s'.tasksPool i = s.tasksPool i := congrFun hpool i
    simp only [htran, if_true, Os.left]
    rw [leave, hhandler]
    refine (hleave.bind (callHandler_requests code i .entry _ _ _) fun hqueue' hpool' => ?_).congr
      rfl rfl rfl
    rw [← hqueue'] at hfull'
    exact Foretells.callHandler code i .entry _ _ _ hfull'
  · simp only [htran, if_false, Os.left]
    exact .silent rfl rfl rfl

/-- `r` foretells where a round that began in `s` is when the turns of the tasks of `l` are still
to come. -/
inductive RoundAt (s : Os H W) (l : List TaskId) (s' : Os H W) : Option (Left H W) → Prop
  | posts (hflag : s'.nextDispatch = true) : RoundAt s l s' none
  | silent (hflag : s'.nextDispatch = false)
      (hrest : ∀ t ∈ l, s'.tasksQueue t = s.tasksQueue t ∧ s'.tasksPool t = s.tasksPool t)
      (hdone : ∀ t, t ∉ l → (s'.tasksQueue t).used = (s.tasksQueue t).used - 1) :
      RoundAt s l s' (some s'.left)

theorem dispatchTask_eq (code : Code H W) (s : Os H W) (i : TaskId)
    (h : (s.tasksQueue i).used ≠ 0) :
    ∃ s', s' = (if (deliver code i s).stmRetValue = .stmTran then
        enter code i (leave code i (deliver code i s)) else deliver code i s) ∧
      (dispatchTask code s i = s' ∨ dispatchTask code s i = s'.install i) := by
  refine ⟨_, rfl, ?_⟩
  simp only [dispatchTask, h, ne_eq, not_false_eq_true, if_true]
  split
  · exact .inr rfl
  · exact .inl rfl

theorem RoundAt.turn (code : Code H W) {s s' : Os H W} {i : TaskId} {l : List TaskId}
    (hused : ∀ t, (s.tasksQueue t).used ≤ queueSize) (hi : i ∉ l)
    (hflag : s'.nextDispatch = false)
    (hrest : ∀ t ∈ i :: l, s'.tasksQueue t = s.tasksQueue t ∧ s'.tasksPool t = s.tasksPool t)
    (hdone : ∀ t, t ∉ i :: l → (s'.tasksQueue t).used = (s.tasksQueue t).used - 1)
    (hmsg : (s.tasksQueue i).used ≠ 0) :
    RoundAt s l (dispatchTask code s' i)
      (silentTurn code (fun t => decide (t ∈ l ∧ (s.tasksQueue t).used = queueSize))
        (s.tasksPool i) (s.tasksQueue i).front s'.left) := by
  obtain ⟨hqueue, hhandler⟩ := hrest i List.mem_cons_self
  have htaken : ∀ t, ((s'.take i).tasksQueue t).used =
      if t ∈ l then (s.tasksQueue t).used else (s.tasksQueue t).used - 1 := by
    intro t
    by_cases hti : t = i
    · subst hti
      simp [Os.take, Os.setQueue, Queue.drop, hqueue, hi]
    · by_cases htl : t ∈ l
      · simp [Os.take, Os.setQueue, hti, htl, (hrest t (List.mem_cons_of_mem i htl)).1]
      · simp [Os.take, Os.setQueue, hti, htl, hdone t (by simp [hti, htl])]
  have hfull : ∀ t, decide (t ∈ l ∧ (s.tasksQueue t).used = queueSize) = true ↔
      queueSize ≤ ((s'.take i).tasksQueue t).used := by
    intro t
    have hle := hused t
    have hpos : 0 < queueSize := by decide
    rw [htaken t, decide_eq_true_eq]
    split
    · rename_i ht
      simp only [ht, true_and]
      omega
    · rename_i ht
      simp only [ht, false_and, false_iff]
      omega
  have hturn := silentTurn_foretells code i s' hfull
  obtain ⟨s'', hs'', hend⟩ := dispatchTask_eq code s' i (hqueue ▸ hmsg)
  rw [← hs'', hhandler, hqueue] at hturn
  generalize silentTurn code _ (s.tasksPool i) (s.tasksQueue i).front s'.left = r at hturn
  cases hturn with
  | posts hflag' => rcases hend with hend | hend <;> exact hend ▸ .posts hflag'
  | silent hflag' hqueue' hpool' =>
    have hrest' : ∀ t ∈ l, s''.tasksQueue t = s.tasksQueue t ∧ s''.tasksPool t = s.tasksPool t := by
      intro t ht
      have hti : t ≠ i := fun h => hi (h ▸ ht)
      obtain ⟨hq, hp⟩ := hrest t (List.mem_cons_of_mem i ht)
      rw [hqueue', hpool']
      simpa [Os.take, Os.setQueue, hti] using ⟨hq, hp⟩
    have hdone' : ∀ t, t ∉ l → (s''.tasksQueue t).used = (s.tasksQueue t).used - 1 := by
      intro t ht
      rw [hqueue', htaken t, if_neg ht]
    rcases hend with hend | hend
    · rw [hend]
      exact .silent (hflag'.trans hflag) hrest' hdone'
    · rw [hend]
      have hrest'' : ∀ t ∈ l, (s''.install i).tasksQueue t = s.tasksQueue t ∧
          (s''.install i).tasksPool t = s.tasksPool t := by
        intro t ht
        have hti : t ≠ i := fun h => hi (h ▸ ht)
        simpa [Os.install, Os.log, hti] using hrest' t ht
      exact .silent (hflag'.trans hflag) hrest'' hdone'

theorem RoundAt.idle (code : Code H W) {s s' : Os H W} {i : TaskId} {l : List TaskId}
    (hflag : s'.nextDispatch = false)
    (hrest : ∀ t ∈ i :: l, s'.tasksQueue t = s.tasksQueue t ∧ s'.tasksPool t = s.tasksPool t)
    (hdone : ∀ t, t ∉ i :: l → (s'.tasksQueue t).used = (s.tasksQueue t).used - 1)
    (hmsg : (s.tasksQueue i).used = 0) :
    RoundAt s l (dispatchTask code s' i) (some s'.left) := by
  obtain ⟨hqueue, -⟩ := hrest i List.mem_cons_self
  have hskip : dispatchTask code s' i = s' := by simp [dispatchTask, hqueue, hmsg]
  rw [hskip]
  refine .silent hflag (fun t ht => hrest t (List.mem_cons_of_mem i ht)) fun t ht => ?_
  by_cases hti : t = i
  · rw [hti, hqueue, hmsg]
  · exact hdone t (by simp [hti, ht])

theorem silentRound_foretells (code : Code H W) {s : Os H W}
    (hused : ∀ t, (s.tasksQueue t).used ≤ queueSize) (l : List TaskId) (hnodup : l.Nodup)
    (s' : Os H W) {r : Option (Left H W)} (h : RoundAt s l s' r) :
    RoundAt s [] (l.foldl (dispatchTask code) s') (r.bind (silentRound code s l)) := by
  induction l generalizing s' r with
  | nil =>
    cases h with
    | posts hflag => exact .posts hflag
    | silent hflag hrest hdone => exact .silent hflag hrest hdone
  | cons i l ih =>
    obtain ⟨hi, hl⟩ := List.nodup_cons.mp hnodup
    cases h with
    | posts hflag => exact ih hl _ (.posts (dispatchTask_requests code i s' hflag))
    | silent hflag hrest hdone =>
      rw [List.foldl_cons, Option.bind_some, silentRound]
      split
      · rename_i hmsg
        exact ih hl _ (.turn code hused hi hflag hrest hdone hmsg)
      · rename_i hmsg
        exact ih hl _ (.idle code hflag hrest hdone (not_not.mp hmsg))

def Drained (s : Os H W) : Prop := s.nextDispatch = false → ∀ t, (s.tasksQueue t).used = 0

theorem osDispatch_drained_iff (code : Code H W) (s : Os H W)
    (hused : ∀ t, (s.tasksQueue t).used ≤ queueSize) :
    Drained (osDispatch code s) ↔
      (∀ t, (s.tasksQueue t).used ≤ 1) ∨ HandlersPost code s := by
  have hlog : (osDispatch code s).nextDispatch = (dispatchTasks code s).nextDispatch ∧
      (osDispatch code s).tasksQueue = (dispatchTasks code s).tasksQueue := by
    rcases osDispatch_cases code s with ⟨heq, -⟩ | ⟨heq, -⟩ <;> simp [heq, Os.log]
  have hround : RoundAt s [] (dispatchTasks code s)
      (silentRound code s (List.finRange tasksCnt) s.left) :=
    silentRound_foretells code hused (List.finRange tasksCnt) (List.nodup_finRange _)
      { s with nextDispatch := false }
      (.silent rfl (fun _ _ => ⟨rfl, rfl⟩) fun t ht => absurd (List.mem_finRange t) ht)
  rw [Drained, hlog.1, hlog.2, HandlersPost]
  generalize silentRound code s (List.finRange tasksCnt) s.left = r at hround
  cases hround with
  | posts hflag => simp [hflag]
  | silent hflag hrest hdone =>
    simp [hflag, hdone, Nat.sub_eq_zero_iff_le]

/-- A dispatch ends asleep with a message left exactly if it began with two messages for one task
and none of the handlers it calls posts to a queue that has room. -/
theorem no_lost_wakeup_iff (code : Code H W) (pool : TaskId → H) (null : H) (hook : Bool) (w : W)
    (ops : List Op) :
    (∀ pre post, ops = pre ++ .dispatch :: post →
        Drained (osDispatch code (run code (boot pool null hook w) pre))) ↔
      ∀ pre post, ops = pre ++ .dispatch :: post →
        let s := run code (boot pool null hook w) pre
        (∀ t, (s.tasksQueue t).used ≤ 1) ∨ HandlersPost code s := by
  have hused (pre : List Op) (t : TaskId) :
      ((run code (boot pool null hook w) pre).tasksQueue t).used ≤ queueSize :=
    ((FifoInv.run code pool null hook w pre).wf t).used_le
  simp only [osDispatch_drained_iff code _ (hused _)]

theorem two_posts_lost :
    let code : Code Unit Unit := fun _ _ w => .ret w
    ¬ ∀ pre post, [Op.post 0 5, .post 0 6, .dispatch] = pre ++ .dispatch :: post →
      Drained (osDispatch code (run code (boot (fun _ => ()) () false ()) pre)) := by
  intro code h
  have hdrained := h [.post 0 5, .post 0 6] [] rfl (by decide) 0
  revert hdrained
  decide

end Mangoxx.Fsm
