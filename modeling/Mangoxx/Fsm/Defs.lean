import Mangoxx.Lib.Ring
import Mangoxx.Lib.History
import Mathlib.Data.Fin.Tuple.Basic

/-! The event-driven task system of `fsm.c`: message queues, state handlers with transitions, and
software timers.  Handlers are arbitrary C functions, so they are given by what they do to the
system: a tree of API calls that branches on the values the calls return. -/

namespace Mangoxx.Fsm

open Mangoxx.Lib

abbrev tasksCnt : Nat := 3
abbrev queueSize : Nat := 8
abbrev timerCnt : Nat := 32

abbrev TaskId := Fin tasksCnt

instance : NeZero tasksCnt := ⟨by decide⟩

abbrev Sig := UInt8

def stmEntrySig : Sig := 0
def stmExitSig : Sig := 1

inductive Ret
  | retSuccess | stmTran | queueFulled
  deriving DecidableEq

/-- `queue_t`.  The counters are `uint8_t` in the source; `Queue.Wf` keeps them far below 256. -/
structure Queue where
  head : Nat
  tail : Nat
  used : Nat
  buf : Vector UInt8 queueSize
  deriving DecidableEq

def Queue.put (q : Queue) (e : Sig) : Queue where
  head := q.head
  tail := Ring.next queueSize q.tail
  used := q.used + 1
  buf := q.buf.setIfInBounds q.tail e

def Queue.front (q : Queue) : Sig := q.buf[q.head]?.getD 0

def Queue.drop (q : Queue) : Queue where
  head := Ring.next queueSize q.head
  tail := q.tail
  used := q.used - 1
  buf := q.buf

def timerReloadFlag : UInt8 := 0x80

/-- `timer_t`; a `task_id` of `none` is `INVALID_TASK_ID`, the mark of a free slot. -/
structure Timer where
  sig : Sig
  taskId : Option TaskId
  flag : UInt8
  timeout : UInt16
  reload : UInt16
  deriving DecidableEq

abbrev Slot := Fin timerCnt
abbrev Pool := Slot → Timer

/-- The point of `os_dispatch` that calls a handler: with a message of the queue, with
`STM_EXIT_SIG` or with `STM_ENTRY_SIG` of a transition. -/
inductive Phase
  | message | exit | entry
  deriving DecidableEq

/-- What can be seen of a run.  `post` and `call` show the queue of their task at that point;
`tran t p h` is a call `os_stm_tran(h)` made by the handler that runs for `t` in phase `p`. -/
inductive Event (H : Type)
  | post (t : TaskId) (e : Sig) (r : Ret) (q : Queue)
  | hook
  | call (t : TaskId) (p : Phase) (h : H) (e : Sig) (q : Queue)
  | tran (t : TaskId) (p : Phase) (h : H)
  | install (t : TaskId) (h : H)
  | sleep
  deriving DecidableEq

/-- The calls a handler makes before it returns.  `H` are the handler functions themselves, `W` is
the memory of the program outside this module. -/
inductive Act (H W : Type)
  | ret (w : W)
  | post (t : TaskId) (e : Sig) (k : Ret → Act H W)
  | tran (h : H) (k : Act H W)
  | timerSet (t : TaskId) (sig : Sig) (timeout : UInt16) (k : Act H W)
  | reloadTimerSet (t : TaskId) (sig : Sig) (timeout : UInt16) (k : Act H W)
  | timerDel (t : TaskId) (sig : Sig) (k : Act H W)

abbrev Code (H W : Type) := H → Sig → W → Act H W

/-- The static variables of the module, the memory of the handlers and the history. -/
structure Os (H W : Type) where
  tasksPool : TaskId → H
  tasksQueue : TaskId → Queue
  stmRetValue : Ret
  stmStateTemp : H
  dispatchHook : Bool
  nextDispatch : Bool
  timerPool : Pool
  world : W
  trace : List (Event H)

variable {H W : Type}

def Os.log (s : Os H W) (e : Event H) : Os H W := { s with trace := s.trace ++ [e] }

def Os.setQueue (s : Os H W) (t : TaskId) (q : Queue) : Os H W :=
  { s with tasksQueue := Function.update s.tasksQueue t q }

def Os.setTimer (s : Os H W) (i : Slot) (tm : Timer) : Os H W :=
  { s with timerPool := Function.update s.timerPool i tm }

/-- Raise the request flag; the hook is called only if the flag was not up already. -/
def Os.requestDispatch (s : Os H W) : Os H W :=
  if s.nextDispatch then s
  else
    let s := { s with nextDispatch := true }
    if s.dispatchHook then s.log .hook else s

def osPostMessage (t : TaskId) (e : Sig) (s : Os H W) : Ret × Os H W :=
  if (s.tasksQueue t).used ≥ queueSize then
    (.queueFulled, s.log (.post t e .queueFulled (s.tasksQueue t)))
  else
    let q := (s.tasksQueue t).put e
    (.retSuccess, ((s.setQueue t q).log (.post t e .retSuccess q)).requestDispatch)

def osStmTran (state : H) (s : Os H W) : Os H W :=
  { s with stmRetValue := .stmTran, stmStateTemp := state }

def osTimerUpdateSlot (s : Os H W) (i : Slot) : Os H W :=
  let tm := s.timerPool i
  match tm.taskId with
  | none => s
  | some t =>
    if tm.timeout > 0 then s.setTimer i { tm with timeout := tm.timeout - 1 }
    else
      let s := (osPostMessage t tm.sig s).2
      if tm.flag &&& timerReloadFlag ≠ 0 then s.setTimer i { tm with timeout := tm.reload }
      else s.setTimer i { tm with taskId := none }

def osTimerUpdate (s : Os H W) : Os H W := (List.finRange timerCnt).foldl osTimerUpdateSlot s

def Timer.is (tm : Timer) (t : TaskId) (sig : Sig) : Prop := tm.taskId = some t ∧ tm.sig = sig

instance (tm : Timer) (t : TaskId) (sig : Sig) : Decidable (tm.is t sig) :=
  inferInstanceAs (Decidable (_ ∧ _))

/-- The loops of `os_timer_set` and `os_reload_timer_set`: they break at the first slot that holds
the pair, which is changed by `found`, or is free, which is taken by `fresh`. -/
def claimSlot (t : TaskId) (sig : Sig) (found fresh : Timer → Timer) (pool : Pool) : Pool :=
  match Fin.find? fun i => (pool i).is t sig ∨ (pool i).taskId = none with
  | none => pool
  | some i =>
    Function.update pool i (if (pool i).is t sig then found (pool i) else fresh (pool i))

def timerSet (t : TaskId) (sig : Sig) (timeout : UInt16) : Pool → Pool :=
  claimSlot t sig (fun tm => { tm with timeout := timeout })
    fun tm => { tm with sig := sig, timeout := timeout, taskId := some t, flag := 0 }

def osTimerSet (t : TaskId) (sig : Sig) (timeout : UInt16) (s : Os H W) : Os H W :=
  { s with timerPool := timerSet t sig timeout s.timerPool }

/-- For a pair that has a timer only the reload value changes, with effect from the next round. -/
def reloadTimerSet (t : TaskId) (sig : Sig) (timeout : UInt16) : Pool → Pool :=
  claimSlot t sig (fun tm => { tm with reload := timeout }) fun tm =>
    { sig := sig
      timeout := timeout
      reload := timeout
      taskId := some t
      flag := tm.flag ||| timerReloadFlag }

def osReloadTimerSet (t : TaskId) (sig : Sig) (timeout : UInt16) (s : Os H W) : Os H W :=
  { s with timerPool := reloadTimerSet t sig timeout s.timerPool }

def timerDel (t : TaskId) (sig : Sig) (pool : Pool) : Pool :=
  match Fin.find? fun i => (pool i).is t sig with
  | none => pool
  | some i => Function.update pool i { pool i with taskId := none, flag := 0 }

def osTimerDel (t : TaskId) (sig : Sig) (s : Os H W) : Os H W :=
  { s with timerPool := timerDel t sig s.timerPool }

def runAct (i : TaskId) (p : Phase) : Act H W → Os H W → Os H W
  | .ret w, s => { s with world := w }
  | .post t e k, s => let r := osPostMessage t e s; runAct i p (k r.1) r.2
  | .tran h k, s => runAct i p k ((osStmTran h s).log (.tran i p h))
  | .timerSet t sig n k, s => runAct i p k (osTimerSet t sig n s)
  | .reloadTimerSet t sig n k, s => runAct i p k (osReloadTimerSet t sig n s)
  | .timerDel t sig k, s => runAct i p k (osTimerDel t sig s)

def callHandler (code : Code H W) (i : TaskId) (p : Phase) (h : H) (e : Sig) (s : Os H W) :
    Os H W :=
  runAct i p (code h e s.world) (s.log (.call i p h e (s.tasksQueue i)))

def Os.install (s : Os H W) (i : TaskId) : Os H W :=
  { s with tasksPool := Function.update s.tasksPool i s.stmStateTemp }.log
    (.install i s.stmStateTemp)

def Os.take (s : Os H W) (i : TaskId) : Os H W := s.setQueue i (s.tasksQueue i).drop

/-- `e` is read and removed before the handler runs. -/
def deliver (code : Code H W) (i : TaskId) (s : Os H W) : Os H W :=
  callHandler code i .message (s.tasksPool i) (s.tasksQueue i).front (s.take i)

def leave (code : Code H W) (i : TaskId) (s : Os H W) : Os H W :=
  callHandler code i .exit (s.tasksPool i) stmExitSig { s with stmRetValue := .retSuccess }

def enter (code : Code H W) (i : TaskId) (s : Os H W) : Os H W :=
  callHandler code i .entry s.stmStateTemp stmEntrySig s

def transition (code : Code H W) (i : TaskId) (s : Os H W) : Os H W :=
  (enter code i (leave code i s)).install i

def dispatchTask (code : Code H W) (s : Os H W) (i : TaskId) : Os H W :=
  if (s.tasksQueue i).used ≠ 0 then
    let s := deliver code i s
    if s.stmRetValue = .stmTran then transition code i s else s
  else s

def dispatchTasks (code : Code H W) (s : Os H W) : Os H W :=
  (List.finRange tasksCnt).foldl (dispatchTask code) { s with nextDispatch := false }

/-- Without a request for another round the system goes to `os_power_sleep`. -/
def osDispatch (code : Code H W) (s : Os H W) : Os H W :=
  let s := dispatchTasks code s
  if s.nextDispatch then s else s.log .sleep

def osInitTasks (s : Os H W) : Os H W :=
  let s := (List.finRange tasksCnt).foldl (fun s i => (osPostMessage i stmEntrySig s).2) s
  { s with timerPool := fun i => { s.timerPool i with taskId := none } }

/-- The static variables at program start; `null` is the null handler in `stm_state_temp`. -/
def boot (pool : TaskId → H) (null : H) (hook : Bool) (w : W) : Os H W where
  tasksPool := pool
  tasksQueue := fun _ => ⟨0, 0, 0, .replicate queueSize 0⟩
  stmRetValue := .retSuccess
  stmStateTemp := null
  dispatchHook := hook
  nextDispatch := false
  timerPool := fun _ => ⟨0, some 0, 0, 0, 0⟩
  world := w
  trace := []

inductive Op
  | initTasks
  | post (t : TaskId) (e : Sig)
  | timerUpdate
  | timerSet (t : TaskId) (sig : Sig) (timeout : UInt16)
  | reloadTimerSet (t : TaskId) (sig : Sig) (timeout : UInt16)
  | timerDel (t : TaskId) (sig : Sig)
  | dispatch
  deriving DecidableEq

def step (code : Code H W) (s : Os H W) : Op → Os H W
  | .initTasks => osInitTasks s
  | .post t e => (osPostMessage t e s).2
  | .timerUpdate => osTimerUpdate s
  | .timerSet t sig n => osTimerSet t sig n s
  | .reloadTimerSet t sig n => osReloadTimerSet t sig n s
  | .timerDel t sig => osTimerDel t sig s
  | .dispatch => osDispatch code s

abbrev run (code : Code H W) (s : Os H W) (ops : List Op) : Os H W :=
  History.run (step code) s ops

end Mangoxx.Fsm
