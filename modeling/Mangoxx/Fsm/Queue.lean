import Mangoxx.Fsm.Steps

namespace Mangoxx.Fsm

open Mangoxx.Lib

variable {H W : Type}

structure Queue.Wf (q : Queue) : Prop where
  head_lt : q.head < queueSize
  tail_lt : q.tail < queueSize
  used_le : q.used ≤ queueSize
  tail_eq : q.tail = (q.head + q.used) % queueSize

namespace Queue

def cell (q : Queue) (i : Nat) : Sig := q.buf[i]?.getD 0

def contents (q : Queue) : List Sig := Ring.window queueSize q.cell q.head q.used

@[simp] theorem contents_length (q : Queue) : q.contents.length = q.used := by
  simp [contents]

theorem put_cell (q : Queue) (e : Sig) (h : q.tail < queueSize) :
    (q.put e).cell = Function.update q.cell q.tail e := by
  funext i
  by_cases hi : i = q.tail
  · simp [cell, put, hi, Vector.getElem?_setIfInBounds_self_of_lt h]
  · simp [cell, put, hi, Vector.getElem?_setIfInBounds_ne (Ne.symm hi)]

theorem Wf.put {q : Queue} (h : q.Wf) (e : Sig) (hu : q.used < queueSize) : (q.put e).Wf where
  head_lt := h.head_lt
  tail_lt := Ring.next_lt h.tail_lt
  used_le := hu
  tail_eq := by
    calc
      Ring.next queueSize q.tail = (q.tail + 1) % queueSize := Ring.next_eq_mod h.tail_lt
      _ = (q.head + (q.used + 1)) % queueSize := by
        rw [h.tail_eq, Nat.mod_add_mod, Nat.add_assoc]

theorem Wf.drop {q : Queue} (h : q.Wf) (hu : q.used ≠ 0) : q.drop.Wf where
  head_lt := Ring.next_lt h.head_lt
  tail_lt := h.tail_lt
  used_le := Nat.le_trans (Nat.sub_le _ _) h.used_le
  tail_eq := by
    calc
      q.tail = (q.head + 1 + (q.used - 1)) % queueSize := by
        rw [h.tail_eq]
        congr 1
        omega
      _ = (Ring.next queueSize q.head + (q.used - 1)) % queueSize := by
        rw [Ring.next_eq_mod h.head_lt, Nat.mod_add_mod]

theorem Wf.contents_put {q : Queue} (h : q.Wf) (e : Sig) (hu : q.used < queueSize) :
    (q.put e).contents = q.contents ++ [e] := by
  have hpush := Ring.window_push q.cell q.head e hu
  rw [← h.tail_eq, ← put_cell q e h.tail_lt] at hpush
  exact hpush

theorem Wf.contents_drop {q : Queue} (h : q.Wf) (hu : q.used ≠ 0) :
    q.contents = q.front :: q.drop.contents := by
  obtain ⟨n, hn⟩ := Nat.exists_eq_succ_of_ne_zero hu
  have hpop := Ring.window_pop queueSize q.cell q.head n
  rw [Nat.mod_eq_of_lt h.head_lt, ← Ring.next_eq_mod h.head_lt] at hpop
  have hlen : q.drop.used = n := by simp [Queue.drop, hn]
  rw [contents, contents, hn, hlen]
  exact hpop

def fifo (q : Queue) (h : q.Wf) : Fifo Sig queueSize := ⟨q.contents, by simpa using h.used_le⟩

theorem push_fifo {q : Queue} (h : q.Wf) (e : Sig) (hu : q.used < queueSize) :
    (q.fifo h).push e = some ((q.put e).fifo (h.put e hu)) := by
  have hlen : (q.fifo h).items.length < queueSize := by simpa [fifo] using hu
  simp only [Fifo.push, dif_pos hlen]
  exact congrArg some (Fifo.ext (h.contents_put e hu).symm)

theorem push_fifo_full {q : Queue} (h : q.Wf) (e : Sig) :
    (q.fifo h).push e = none ↔ q.used = queueSize := by
  rw [Fifo.push_eq_none]
  simp [fifo]

theorem pop_fifo {q : Queue} (h : q.Wf) (hu : q.used ≠ 0) :
    (q.fifo h).pop = some (q.front, q.drop.fifo (h.drop hu)) := by
  simp only [fifo, Fifo.pop, h.contents_drop hu]

theorem wf_empty (buf : Vector UInt8 queueSize) : (Queue.mk 0 0 0 buf).Wf :=
  ⟨Nat.zero_lt_succ _, Nat.zero_lt_succ _, Nat.zero_le _, rfl⟩

end Queue

section History

def Event.accepts (t : TaskId) : Event H → Option Sig
  | .post t' e .retSuccess _ => if t' = t then some e else none
  | _ => none

def Event.delivers (t : TaskId) : Event H → Option Sig
  | .call t' .message _ e _ => if t' = t then some e else none
  | _ => none

def Event.installs (t : TaskId) (h : H) : Event H → H
  | .install t' h' => if t' = t then h' else h
  | _ => h

def accepted (t : TaskId) (tr : List (Event H)) : List Sig := tr.filterMap (·.accepts t)

def delivered (t : TaskId) (tr : List (Event H)) : List Sig := tr.filterMap (·.delivers t)

def handlerOf (pool : TaskId → H) (tr : List (Event H)) (t : TaskId) : H :=
  tr.foldl (Event.installs t) (pool t)

@[simp] theorem accepted_snoc (t : TaskId) (tr : List (Event H)) (ev : Event H) :
    accepted t (tr ++ [ev]) = accepted t tr ++ (ev.accepts t).toList := by
  cases h : ev.accepts t <;> simp [accepted, h]

@[simp] theorem delivered_snoc (t : TaskId) (tr : List (Event H)) (ev : Event H) :
    delivered t (tr ++ [ev]) = delivered t tr ++ (ev.delivers t).toList := by
  cases h : ev.delivers t <;> simp [delivered, h]

@[simp] theorem handlerOf_snoc (pool : TaskId → H) (tr : List (Event H)) (ev : Event H)
    (t : TaskId) : handlerOf pool (tr ++ [ev]) t = ev.installs t (handlerOf pool tr t) := by
  simp [handlerOf]

/-- The event as a step of the abstract queue of `t`; `none` if a bounded queue does not do this. -/
def Event.onFifo (t : TaskId) (f : Fifo Sig queueSize) : Event H → Option (Fifo Sig queueSize)
  | .post t' e r _ =>
    if t' = t then
      match r, f.push e with
      | .retSuccess, some g => some g
      | .queueFulled, none => some f
      | _, _ => none
    else some f
  | .call t' .message _ e _ =>
    if t' = t then
      match f.pop with
      | some (x, g) => if x = e then some g else none
      | none => none
    else some f
  | _ => some f

def fifoRun (t : TaskId) (tr : List (Event H)) : Option (Fifo Sig queueSize) :=
  tr.foldlM (Event.onFifo t) Fifo.empty

theorem fifoRun_snoc (t : TaskId) (tr : List (Event H)) (ev : Event H) :
    fifoRun t (tr ++ [ev]) = (fifoRun t tr).bind fun f => ev.onFifo t f := by
  simp only [fifoRun, List.foldlM_append, List.foldlM_cons, List.foldlM_nil]
  cases List.foldlM (Event.onFifo t) Fifo.empty tr with
  | none => rfl
  | some f => exact bind_pure (ev.onFifo t f)

theorem onFifo_conserves {t : TaskId} {f g : Fifo Sig queueSize} {ev : Event H}
    (h : ev.onFifo t f = some g) :
    f.items ++ (ev.accepts t).toList = (ev.delivers t).toList ++ g.items := by
  cases ev with
  | post t' e r q =>
    by_cases ht : t' = t
    · cases r with
      | retSuccess =>
        cases hp : f.push e with
        | none => simp [Event.onFifo, ht, hp] at h
        | some g' =>
          obtain rfl : g' = g := by simpa [Event.onFifo, ht, hp] using h
          simp [Event.accepts, Event.delivers, ht, Fifo.push_items hp]
      | queueFulled =>
        cases hp : f.push e with
        | none =>
          obtain rfl : f = g := by simpa [Event.onFifo, ht, hp] using h
          simp [Event.accepts, Event.delivers]
        | some g' => simp [Event.onFifo, ht, hp] at h
      | stmTran => simp [Event.onFifo, ht] at h
    · obtain rfl : f = g := by simpa [Event.onFifo, ht] using h
      cases r <;> simp [Event.accepts, Event.delivers, ht]
  | call t' p hd e q =>
    cases p with
    | message =>
      by_cases ht : t' = t
      · cases hp : f.pop with
        | none => simp [Event.onFifo, ht, hp] at h
        | some xg =>
          obtain ⟨x, g'⟩ := xg
          obtain ⟨rfl, rfl⟩ : x = e ∧ g' = g := by simpa [Event.onFifo, ht, hp] using h
          simp [Event.accepts, Event.delivers, ht, Fifo.pop_items hp]
      · obtain rfl : f = g := by simpa [Event.onFifo, ht] using h
        simp [Event.accepts, Event.delivers, ht]
    | exit => cases h; simp [Event.accepts, Event.delivers]
    | entry => cases h; simp [Event.accepts, Event.delivers]
  | hook | tran | install | sleep => cases h; simp [Event.accepts, Event.delivers]

/-- What goes through a bounded queue: the accepted messages are the delivered ones and, behind
them, those still in the queue. -/
theorem fifoRun_conserves {t : TaskId} {tr : List (Event H)} {f : Fifo Sig queueSize}
    (h : fifoRun t tr = some f) : accepted t tr = delivered t tr ++ f.items := by
  induction tr using List.reverseRecOn generalizing f with
  | nil => cases h; rfl
  | append_singleton tr ev ih =>
    rw [fifoRun_snoc, Option.bind_eq_some_iff] at h
    obtain ⟨g, hg, hev⟩ := h
    rw [accepted_snoc, delivered_snoc, ih hg, List.append_assoc, onFifo_conserves hev,
      List.append_assoc]

/-- The events of a history at which the queue is looked at: it is what the abstract queue is. -/
def Event.Refines (pool : TaskId → H) (pre : List (Event H)) : Event H → Prop
  | .post t e r q => ∃ hq : q.Wf, fifoRun t (pre ++ [.post t e r q]) = some (q.fifo hq)
  | .call t .message h e q =>
    h = handlerOf pool pre t ∧
      ∃ hq : q.Wf, fifoRun t (pre ++ [.call t .message h e q]) = some (q.fifo hq)
  | _ => True

structure FifoInv (pool : TaskId → H) (s : Os H W) : Prop where
  wf : ∀ t, (s.tasksQueue t).Wf
  current : ∀ t, s.tasksPool t = handlerOf pool s.trace t
  refines : ∀ t, fifoRun t s.trace = some ((s.tasksQueue t).fifo (wf t))
  events : History.Holds (Event.Refines pool) s.trace

namespace FifoInv

variable {pool : TaskId → H} {s : Os H W}

theorem log (h : FifoInv pool s) {ev : Event H} (hf : ∀ t f, ev.onFifo t f = some f)
    (hi : ∀ t h, ev.installs t h = h) (hev : ev.Refines pool s.trace) :
    FifoInv pool (s.log ev) where
  wf := h.wf
  current t := by simpa [Os.log, hi] using h.current t
  refines t := by
    simp only [Os.log, fifoRun_snoc, h.refines t, Option.bind_some]
    exact hf t _
  events := (History.holds_snoc _ _ _).mpr ⟨h.events, hev⟩

theorem logQueue (h : FifoInv pool s) (t : TaskId) {q : Queue} (hq : q.Wf) {ev : Event H}
    (hi : ∀ t h, ev.installs t h = h)
    (hf : ev.onFifo t ((s.tasksQueue t).fifo (h.wf t)) = some (q.fifo hq))
    (hother : ∀ t' f, t' ≠ t → ev.onFifo t' f = some f)
    (hev : fifoRun t (s.trace ++ [ev]) = some (q.fifo hq) → ev.Refines pool s.trace) :
    FifoInv pool ((s.setQueue t q).log ev) := by
  have hrun : fifoRun t (s.trace ++ [ev]) = some (q.fifo hq) := by
    rw [fifoRun_snoc, h.refines t]
    exact hf
  have hwf : ∀ t', (((s.setQueue t q).log ev).tasksQueue t').Wf := by
    intro t'
    by_cases ht : t' = t
    · subst ht
      simpa [Os.log, Os.setQueue] using hq
    · simpa [Os.log, Os.setQueue, ht] using h.wf t'
  refine ⟨hwf, ?_, ?_, (History.holds_snoc _ _ _).mpr ⟨h.events, hev hrun⟩⟩
  · intro t'
    simpa [Os.log, Os.setQueue, hi] using h.current t'
  · intro t'
    by_cases ht : t' = t
    · subst ht
      simpa [Os.log, Os.setQueue] using hrun
    · simp only [Os.log, Os.setQueue, fifoRun_snoc, h.refines t', Option.bind_some,
        Function.update_of_ne ht]
      exact hother t' _ ht

theorem post_full (h : FifoInv pool s) (t : TaskId) (e : Sig)
    (hfull : (s.tasksQueue t).used ≥ queueSize) :
    FifoInv pool (s.log (.post t e .queueFulled (s.tasksQueue t))) := by
  have hused : (s.tasksQueue t).used = queueSize := Nat.le_antisymm (h.wf t).used_le hfull
  have hfull : ((s.tasksQueue t).fifo (h.wf t)).push e = none :=
    (Queue.push_fifo_full (h.wf t) e).mpr hused
  have hlog : FifoInv pool ((s.setQueue t (s.tasksQueue t)).log
      (.post t e .queueFulled (s.tasksQueue t))) :=
    h.logQueue t (h.wf t) (fun _ _ => rfl) (by simp [Event.onFifo, hfull])
      (fun t' f ht => by simp [Event.onFifo, Ne.symm ht]) (fun hrun => ⟨h.wf t, hrun⟩)
  simpa [Os.setQueue] using hlog

theorem post_ok (h : FifoInv pool s) (t : TaskId) (e : Sig)
    (hroom : (s.tasksQueue t).used < queueSize) :
    FifoInv pool ((s.setQueue t ((s.tasksQueue t).put e)).log
      (.post t e .retSuccess ((s.tasksQueue t).put e))) :=
  h.logQueue t ((h.wf t).put e hroom) (fun _ _ => rfl)
    (by simp [Event.onFifo, Queue.push_fifo (h.wf t) e hroom])
    (fun t' f ht => by simp [Event.onFifo, Ne.symm ht]) (fun hrun => ⟨_, hrun⟩)

theorem requestDispatch (h : FifoInv pool s) : FifoInv pool s.requestDispatch := by
  have hflag : FifoInv pool { s with nextDispatch := true } :=
    ⟨h.wf, h.current, h.refines, h.events⟩
  obtain ⟨hooks, rfl | rfl, heq⟩ := requestDispatch_eq s
  · rw [heq, List.append_nil]
    exact hflag
  · rw [heq]
    exact hflag.log (fun _ _ => rfl) (fun _ _ => rfl) trivial

theorem post (h : FifoInv pool s) (t : TaskId) (e : Sig) :
    FifoInv pool (osPostMessage t e s).2 := by
  unfold osPostMessage
  split
  · rename_i hfull
    exact h.post_full t e hfull
  · rename_i hroom
    exact (h.post_ok t e (Nat.lt_of_not_ge hroom)).requestDispatch

theorem take (h : FifoInv pool s) (t : TaskId) (hu : (s.tasksQueue t).used ≠ 0) :
    FifoInv pool ((s.take t).log (.call t .message (s.tasksPool t) (s.tasksQueue t).front
      (s.tasksQueue t).drop)) :=
  h.logQueue t ((h.wf t).drop hu) (fun _ _ => rfl)
    (by simp [Event.onFifo, Queue.pop_fifo (h.wf t) hu])
    (fun t' f ht => by simp [Event.onFifo, Ne.symm ht]) (fun hrun => ⟨h.current t, _, hrun⟩)

theorem install (h : FifoInv pool s) (t : TaskId) : FifoInv pool (s.install t) where
  wf := h.wf
  current t' := by
    by_cases ht : t' = t
    · simp [Os.install, Os.log, Event.installs, ht]
    · simpa [Os.install, Os.log, Event.installs, ht, Ne.symm ht] using h.current t'
  refines t' := by
    simp only [Os.install, Os.log, fifoRun_snoc, h.refines t', Option.bind_some]
    rfl
  events := (History.holds_snoc _ _ _).mpr ⟨h.events, trivial⟩

theorem atom {s' : Os H W} (hatom : Atom s s') (h : FifoInv pool s) : FifoInv pool s' := by
  cases hatom with
  | post _ t e => exact h.post t e
  | take _ t hu => exact h.take t hu
  | @signal p _ t hd e hp =>
    cases p with
    | message => exact absurd rfl hp
    | exit => exact h.log (fun _ _ => rfl) (fun _ _ => rfl) trivial
    | entry => exact h.log (fun _ _ => rfl) (fun _ _ => rfl) trivial
  | tran _ t p hd =>
    have hset : FifoInv pool (osStmTran hd s) := ⟨h.wf, h.current, h.refines, h.events⟩
    exact hset.log (fun _ _ => rfl) (fun _ _ => rfl) trivial
  | install _ t => exact h.install t
  | sleep => exact h.log (fun _ _ => rfl) (fun _ _ => rfl) trivial
  | rest _ _ hpool hqueue htrace =>
    exact ⟨by simpa [hqueue] using h.wf, by simpa [hpool, htrace] using h.current,
      by simpa [hqueue, htrace] using h.refines, by simpa [htrace] using h.events⟩

theorem boot (pool : TaskId → H) (null : H) (hook : Bool) (w : W) :
    FifoInv pool (boot pool null hook w) where
  wf _ := Queue.wf_empty _
  current _ := rfl
  refines _ := rfl
  events := History.holds_nil _

theorem run (code : Code H W) (pool : TaskId → H) (null : H) (hook : Bool) (w : W)
    (ops : List Op) : FifoInv pool (run code (Fsm.boot pool null hook w) ops) :=
  run_atoms (fun _ _ => FifoInv.atom) code _ ops (FifoInv.boot pool null hook w)

end FifoInv

/-- What each event says about the messages before it: `QUEUE_FULLED` is returned exactly when
`QUEUE_SIZE` accepted messages are undelivered, and the handler that runs gets the oldest one. -/
def Event.InOrder (pool : TaskId → H) (pre : List (Event H)) : Event H → Prop
  | .post t e r q =>
    q.Wf ∧
      (r = .queueFulled ∨ r = .retSuccess) ∧
      (r = .queueFulled ↔ (accepted t pre).length = (delivered t pre).length + queueSize) ∧
      accepted t (pre ++ [.post t e r q]) = delivered t pre ++ q.contents
  | .call t .message h e q =>
    q.Wf ∧ h = handlerOf pool pre t ∧ accepted t pre = delivered t pre ++ e :: q.contents
  | _ => True

theorem Event.Refines.inOrder {pool : TaskId → H} {pre : List (Event H)} {ev : Event H}
    (h : ev.Refines pool pre) : ev.InOrder pool pre := by
  cases ev with
  | post t e r q =>
    obtain ⟨hq, hrun⟩ := h
    have hafter := fifoRun_conserves hrun
    rw [fifoRun_snoc, Option.bind_eq_some_iff] at hrun
    obtain ⟨f, hf, hev⟩ := hrun
    have hbefore := congrArg List.length (fifoRun_conserves hf)
    refine ⟨hq, ?_, ?_, by simpa [Queue.fifo, Event.delivers] using hafter⟩
    · cases r with
      | stmTran => simp [Event.onFifo] at hev
      | retSuccess => exact .inr rfl
      | queueFulled => exact .inl rfl
    · have hpush := Fifo.push_eq_none f e
      rw [List.length_append] at hbefore
      cases r with
      | stmTran => simp [Event.onFifo] at hev
      | retSuccess =>
        have hne : f.items.length ≠ queueSize := by
          intro hlen
          simp [Event.onFifo, hpush.mpr hlen] at hev
        simp only [reduceCtorEq, false_iff]
        omega
      | queueFulled =>
        have hlen : f.items.length = queueSize := by
          cases hp : f.push e with
          | none => exact hpush.mp hp
          | some g => simp [Event.onFifo, hp] at hev
        simp only [true_iff]
        omega
  | call t p hd e q =>
    cases p with
    | message =>
      obtain ⟨hcur, hq, hrun⟩ := h
      have hafter := fifoRun_conserves hrun
      exact ⟨hq, hcur, by simpa [Queue.fifo, Event.accepts, Event.delivers] using hafter⟩
    | exit => trivial
    | entry => trivial
  | hook | tran | install | sleep => trivial

end History

end Mangoxx.Fsm
