import Mangoxx.Fsm.Expiry
import Mangoxx.Fsm.TimerRuns

namespace Mangoxx.Fsm

open Mangoxx.Lib

variable {H W : Type} {t : TaskId} {sig : Sig}

def claimedSlot (t : TaskId) (sig : Sig) (pool : Pool) : Option Slot :=
  Fin.find? fun i => (pool i).is t sig ∨ (pool i).taskId = none

/-- Whatever happens to other pairs, no slot of the pair becomes inactive, and from some update on,
the next firing, its signal is posted every `n + 1` updates. -/
structure KeepsPeriod (code : Code H W) (t : TaskId) (sig : Sig) (n : Nat) (s : Os H W) : Prop where
  active : ∀ i, (s.timerPool i).is t sig → ∀ ops, (∀ o ∈ ops, o.Elsewhere t sig) →
    ((run code s ops).timerPool i).is t sig
  posts : ∃ first, ∀ ops, (∀ o ∈ ops, o.Elsewhere t sig) →
    let s' := run code s ops
    let k := ops.count .timerUpdate
    postCalls t sig (osTimerUpdate s').trace = postCalls t sig s'.trace +
      if first ≤ k ∧ (n + 1) ∣ (k - first) then 1 else 0

def BecomesPeriodic (code : Code H W) (t : TaskId) (sig : Sig) (n : UInt16) (s : Os H W) : Prop :=
  KeepsPeriod code t sig n.toNat (osReloadTimerSet t sig n s)

/-- Every active slot of the pair holds a reload timer, and the operation stops at it. -/
def StopsAtReload (t : TaskId) (sig : Sig) (pool : Pool) : Prop :=
  ∀ i, (pool i).is t sig → ¬ (pool i).oneShot ∧ claimedSlot t sig pool = some i

instance (tm : Timer) : Decidable tm.oneShot := inferInstanceAs (Decidable (_ = _))

instance (t : TaskId) (sig : Sig) (pool : Pool) : Decidable (StopsAtReload t sig pool) :=
  inferInstanceAs (Decidable (∀ i, (pool i).is t sig → _ ∧ _))

section Lives

structure Beats (t : TaskId) (sig : Sig) (n m k : Nat) (tm : Timer) : Prop where
  is : tm.is t sig
  reload : tm.reload.toNat = n
  flag : tm.flag &&& timerReloadFlag ≠ 0
  left : k ≤ m ∧ tm.timeout.toNat + k = m ∨
    m < k ∧ tm.timeout.toNat + (k - (m + 1)) % (n + 1) = n

def CountsDown (t : TaskId) (sig : Sig) (m k : Nat) (tm : Timer) : Prop :=
  (k ≤ m → tm.is t sig ∧ tm.oneShot ∧ tm.timeout.toNat + k = m) ∧ (k = m + 1 → ¬ tm.is t sig)

theorem Timer.tick_wait {tm : Timer} (h : tm.is t sig) (hpos : 0 < tm.timeout.toNat) :
    tm.tick = { tm with timeout := tm.timeout - 1 } := by
  simp only [Timer.tick, h.1, if_pos (timeout_pos.mpr hpos)]

theorem Timer.tick_fire {tm : Timer} (h : tm.is t sig) (hzero : tm.timeout.toNat = 0) :
    tm.tick = if tm.flag &&& timerReloadFlag ≠ 0 then { tm with timeout := tm.reload }
      else { tm with taskId := none } := by
  have hnot : ¬ tm.timeout > 0 := fun hpos => by have := timeout_pos.mp hpos; omega
  simp only [Timer.tick, h.1, if_neg hnot]

theorem Timer.due_iff {tm : Timer} (h : tm.is t sig) : tm.due t sig ↔ tm.timeout.toNat = 0 := by
  unfold Timer.due
  rw [timeout_pos]
  constructor
  · rintro ⟨-, hzero⟩
    omega
  · intro hzero
    exact ⟨h, by omega⟩

theorem Beats.tick {tm : Timer} (h : Beats t sig n m k tm) : Beats t sig n m (k + 1) tm.tick := by
  obtain ⟨his, hreload, hflag, hleft⟩ := h
  have hmod := Nat.mod_lt (k - (m + 1)) (Nat.succ_pos n)
  by_cases hpos : 0 < tm.timeout.toNat
  · have hpred := timeout_pred (timeout_pos.mpr hpos)
    rw [Timer.tick_wait his hpos]
    refine ⟨his, hreload, hflag, ?_⟩
    dsimp only
    rcases hleft with hleft | ⟨hk, hleft⟩
    · left
      omega
    · right
      have hsucc : (k + 1 - (m + 1)) % (n + 1) = (k - (m + 1)) % (n + 1) + 1 := by
        rw [show k + 1 - (m + 1) = k - (m + 1) + 1 by omega, ← Nat.mod_add_mod,
          Nat.mod_eq_of_lt (by omega)]
      omega
  · rw [Timer.tick_fire his (by omega), if_pos hflag]
    refine ⟨his, hreload, hflag, .inr ?_⟩
    dsimp only
    rcases hleft with hleft | ⟨hk, hleft⟩
    · rw [show k + 1 - (m + 1) = 0 by omega, Nat.zero_mod]
      omega
    · have hnext : (k + 1 - (m + 1)) % (n + 1) = 0 := by
        rw [show k + 1 - (m + 1) = k - (m + 1) + 1 by omega, ← Nat.mod_add_mod,
          show (k - (m + 1)) % (n + 1) = n by omega, Nat.mod_self]
      omega

theorem Beats.due_iff {tm : Timer} (h : Beats t sig n m k tm) :
    tm.due t sig ↔ m ≤ k ∧ (n + 1) ∣ (k - m) := by
  have hmod := Nat.mod_lt (k - (m + 1)) (Nat.succ_pos n)
  rw [Timer.due_iff h.is, Nat.dvd_iff_mod_eq_zero]
  rcases h.left with hleft | ⟨hk, hleft⟩
  · constructor
    · intro hzero
      rw [show k - m = 0 by omega]
      exact ⟨by omega, Nat.zero_mod _⟩
    · rintro ⟨hk, -⟩
      omega
  · rw [show k - m = k - (m + 1) + 1 by omega, ← Nat.mod_add_mod]
    constructor
    · intro hzero
      rw [show (k - (m + 1)) % (n + 1) + 1 = n + 1 by omega, Nat.mod_self]
      exact ⟨by omega, rfl⟩
    · rintro ⟨-, hdvd⟩
      by_contra hne
      rw [Nat.mod_eq_of_lt (by omega)] at hdvd
      omega

theorem CountsDown.tick {tm : Timer} (h : CountsDown t sig m k tm) :
    CountsDown t sig m (k + 1) tm.tick := by
  constructor
  · intro hk
    obtain ⟨his, hone, hleft⟩ := h.1 (by omega)
    have hpos : 0 < tm.timeout.toNat := by omega
    have hpred := timeout_pred (timeout_pos.mpr hpos)
    rw [Timer.tick_wait his hpos]
    exact ⟨his, hone, by dsimp only; omega⟩
  · intro hk
    obtain ⟨his, hone, hleft⟩ := h.1 (by omega)
    rw [Timer.tick_fire his (by omega), if_neg fun hflag => hflag hone]
    simp [Timer.is]

/-- What a slot of the pair goes through over a run, counted in updates. -/
theorem slot_run {L : Nat → Timer → Prop} {i : Slot} (hkeep : ∀ k tm, L k tm → tm.is t sig)
    (htick : ∀ k tm, L k tm → L (k + 1) tm.tick) (code : Code H W) (s : Os H W) (ops : List Op)
    (hops : ∀ o ∈ ops, o.Elsewhere t sig) (h : L 0 (s.timerPool i)) :
    L (ops.count .timerUpdate) ((run code s ops).timerPool i) := by
  refine life_run (L := fun k pool => L k (pool i)) (fun k pool pool' hs hL => ?_)
    (fun k pool hL => htick k _ hL) code s ops hops h
  rw [hs i (.inl (hkeep k _ hL))]
  exact hL

theorem CountsDown.updates {i : Slot} (code : Code H W) (s : Os H W) (k : Nat)
    (h : CountsDown t sig m 0 (s.timerPool i)) :
    CountsDown t sig m k ((run code s (.replicate k .timerUpdate)).timerPool i) := by
  induction k with
  | zero => exact h
  | succ k ih =>
    simp only [run, List.replicate_succ', List.foldl_append, List.foldl_cons, List.foldl_nil, step,
      osTimerUpdate_timerPool]
    exact ih.tick

end Lives

theorem claimedSlot_isSome {pool : Pool} (h : ∃ i, (pool i).is t sig ∨ (pool i).taskId = none) :
    ∃ i, claimedSlot t sig pool = some i ∧ ((pool i).is t sig ∨ (pool i).taskId = none) := by
  obtain ⟨j, hj⟩ := h
  unfold claimedSlot
  cases hfind : Fin.find? fun i => decide ((pool i).is t sig ∨ (pool i).taskId = none) with
  | none =>
    have hnone := Fin.eq_false_of_find?_eq_none hfind j
    exact absurd hj (of_decide_eq_false hnone)
  | some i => exact ⟨i, rfl, of_decide_eq_true (Fin.eq_true_of_find?_eq_some hfind)⟩

theorem claimSlot_claimed {found fresh : Timer → Timer} {pool : Pool} {i : Slot}
    (h : claimedSlot t sig pool = some i) : claimSlot t sig found fresh pool =
      Function.update pool i (if (pool i).is t sig then found (pool i) else fresh (pool i)) := by
  unfold claimedSlot at h
  unfold claimSlot
  rw [h]

def Timer.reloaded (tm : Timer) (t : TaskId) (sig : Sig) (n : UInt16) : Timer :=
  if tm.is t sig then { tm with reload := n } else ⟨sig, some t, tm.flag ||| timerReloadFlag, n, n⟩

theorem reloadTimerSet_claimed {pool : Pool} {i : Slot} (h : claimedSlot t sig pool = some i)
    (n : UInt16) :
    reloadTimerSet t sig n pool = Function.update pool i ((pool i).reloaded t sig n) :=
  claimSlot_claimed h

theorem Timer.reloaded_is (tm : Timer) (t : TaskId) (sig : Sig) (n : UInt16) :
    (tm.reloaded t sig n).is t sig := by
  unfold Timer.reloaded
  split
  · assumption
  · exact ⟨rfl, rfl⟩

theorem Timer.reloaded_reload (tm : Timer) (t : TaskId) (sig : Sig) (n : UInt16) :
    (tm.reloaded t sig n).reload = n := by
  unfold Timer.reloaded
  split <;> rfl

theorem Timer.reloaded_oneShot {tm : Timer} (n : UInt16) :
    (tm.reloaded t sig n).oneShot ↔ tm.is t sig ∧ tm.oneShot := by
  unfold Timer.reloaded
  split
  · rename_i his
    exact ⟨fun hone => ⟨his, hone⟩, fun h => h.2⟩
  · rename_i his
    exact iff_of_false (reload_flag tm.flag) fun h => his h.1

theorem Beats.start {tm : Timer} (his : tm.is t sig) (hflag : ¬ tm.oneShot) :
    Beats t sig tm.reload.toNat tm.timeout.toNat 0 tm :=
  ⟨his, rfl, hflag, .inl ⟨Nat.zero_le _, rfl⟩⟩

theorem Beats.updates {i : Slot} {n m : Nat} (code : Code H W) (s : Os H W) (k : Nat)
    (h : Beats t sig n m 0 (s.timerPool i)) :
    Beats t sig n m k ((run code s (.replicate k .timerUpdate)).timerPool i) := by
  have hrun := slot_run (L := fun k tm => Beats t sig n m k tm) (fun _ _ hb => hb.is)
    (fun _ _ hb => hb.tick) code s (.replicate k .timerUpdate)
    (fun o ho => List.eq_of_mem_replicate ho ▸ trivial) h
  simpa using hrun

theorem due_unique {pool : Pool}
    (h : ((List.finRange timerCnt).countP fun i => (pool i).due t sig) = 1) {i j : Slot}
    (hi : (pool i).due t sig) (hj : (pool j).due t sig) : i = j := by
  rw [List.countP_eq_length_filter, List.length_eq_one_iff] at h
  obtain ⟨x, hx⟩ := h
  have hmem : ∀ k, (pool k).due t sig → k = x := by
    intro k hk
    have hk : k ∈ (List.finRange timerCnt).filter fun i => decide ((pool i).due t sig) :=
      List.mem_filter.mpr ⟨List.mem_finRange k, decide_eq_true hk⟩
    rw [hx] at hk
    exact List.mem_singleton.mp hk
  rw [hmem i hi, hmem j hj]

namespace KeepsPeriod

variable {code : Code H W} {n : Nat} {s : Os H W}

theorem of_sole {m : Nat} (h : SoleSlot t sig (Beats t sig n m 0) s.timerPool) :
    KeepsPeriod code t sig n s := by
  constructor
  · intro i his ops hops
    obtain ⟨j, -, honly, hbeats⟩ := h
    obtain rfl := honly i his
    exact (slot_run (L := fun k tm => Beats t sig n m k tm) (fun _ _ hb => hb.is)
      (fun _ _ hb => hb.tick) code s ops hops hbeats).is
  · refine ⟨m, fun ops hops => ?_⟩
    have hrun := life_run (L := fun k pool => SoleSlot t sig (Beats t sig n m k) pool)
      (fun _ _ _ hspares hsole => hspares.soleSlot hsole)
      (fun _ _ hsole => hsole.tick fun _ _ hb => ⟨hb.tick.is, hb.tick⟩) code s ops hops h
    exact SoleSlot.calls _ hrun fun _ _ hb => hb.due_iff

theorem not_oneShot (h : KeepsPeriod code t sig n s) {i : Slot} (his : (s.timerPool i).is t sig) :
    ¬ (s.timerPool i).oneShot := by
  intro hone
  have hstart : CountsDown t sig (s.timerPool i).timeout.toNat 0 (s.timerPool i) :=
    ⟨fun _ => ⟨his, hone, rfl⟩, fun hk => absurd hk (by omega)⟩
  have hend := CountsDown.updates code s ((s.timerPool i).timeout.toNat + 1) hstart
  exact hend.2 rfl (h.active i his _ fun o ho => List.eq_of_mem_replicate ho ▸ trivial)

theorem due_count (h : KeepsPeriod code t sig n s) : ∃ first, ∀ k,
    ((List.finRange timerCnt).countP fun i =>
      ((run code s (.replicate k .timerUpdate)).timerPool i).due t sig) =
        if first ≤ k ∧ (n + 1) ∣ (k - first) then 1 else 0 := by
  obtain ⟨first, hposts⟩ := h.posts
  refine ⟨first, fun k => ?_⟩
  have hk := hposts (.replicate k .timerUpdate) fun o ho => List.eq_of_mem_replicate ho ▸ trivial
  simp only [osTimerUpdate_postCalls, List.count_replicate_self] at hk
  exact Nat.add_left_cancel hk

theorem sole (h : KeepsPeriod code t sig n s) {i j : Slot} (hi : (s.timerPool i).is t sig)
    (hreload : (s.timerPool i).reload.toNat = n) (hj : (s.timerPool j).is t sig) : j = i := by
  obtain ⟨first, hcount⟩ := h.due_count
  have hbi := fun k => Beats.updates code s k (Beats.start hi (h.not_oneShot hi))
  have hbj := fun k => Beats.updates code s k (Beats.start hj (h.not_oneShot hj))
  rw [hreload] at hbi
  generalize (s.timerPool i).timeout.toNat = m at hbi
  generalize (s.timerPool j).reload.toNat = n' at hbj
  generalize (s.timerPool j).timeout.toNat = m' at hbj
  have hdue : ∀ k i, ((run code s (.replicate k .timerUpdate)).timerPool i).due t sig →
      first ≤ k ∧ (n + 1) ∣ (k - first) := by
    intro k i hi
    by_contra hnot
    have hzero := hcount k
    rw [if_neg hnot, List.countP_eq_zero] at hzero
    exact hzero i (List.mem_finRange i) (decide_eq_true hi)
  -- the firing number `m` of slot `j` is not before the first one of slot `i`
  let k := m' + m * (n' + 1)
  have hjk : ((run code s (.replicate k .timerUpdate)).timerPool j).due t sig :=
    (hbj k).due_iff.mpr ⟨Nat.le_add_right _ _, by simp [k]⟩
  have hm : ((run code s (.replicate m .timerUpdate)).timerPool i).due t sig :=
    (hbi m).due_iff.mpr ⟨le_refl _, by simp⟩
  obtain ⟨hfirst, hdvd⟩ := hdue k j hjk
  obtain ⟨hfirst', hdvd'⟩ := hdue m i hm
  have hle : m ≤ k := by
    have : m * 1 ≤ m * (n' + 1) := Nat.mul_le_mul_left m (Nat.succ_pos n')
    omega
  have hik : ((run code s (.replicate k .timerUpdate)).timerPool i).due t sig := by
    refine (hbi k).due_iff.mpr ⟨hle, ?_⟩
    have hsub := Nat.dvd_sub hdvd hdvd'
    rwa [show k - first - (m - first) = k - m by omega] at hsub
  exact due_unique ((hcount k).trans (if_pos ⟨hfirst, hdvd⟩)) hjk hik

end KeepsPeriod

/-- The pair is periodic unless the operation leaves a timer of it as it is: an active one-shot
timer keeps its mode, and an active slot behind a free one is not found. -/
theorem reload_timer_periodic_iff (code : Code H W) (s : Os H W) (t : TaskId) (sig : Sig)
    (n : UInt16) (h : ∃ i, (s.timerPool i).is t sig ∨ (s.timerPool i).taskId = none) :
    BecomesPeriodic code t sig n s ↔ StopsAtReload t sig s.timerPool := by
  obtain ⟨i, hi, -⟩ := claimedSlot_isSome h
  have hpool : (osReloadTimerSet t sig n s).timerPool =
      Function.update s.timerPool i ((s.timerPool i).reloaded t sig n) :=
        reloadTimerSet_claimed hi n
  have hset : (osReloadTimerSet t sig n s).timerPool i = (s.timerPool i).reloaded t sig n := by
    rw [hpool, Function.update_self]
  have hkept : ∀ j, j ≠ i → (osReloadTimerSet t sig n s).timerPool j = s.timerPool j := by
    intro j hj
    rw [hpool, Function.update_of_ne hj]
  have his := Timer.reloaded_is (s.timerPool i) t sig n
  have hreload := congrArg UInt16.toNat (Timer.reloaded_reload (s.timerPool i) t sig n)
  constructor
  · intro hperiod j hj
    have hji : j = i := by
      by_contra hne
      rw [← hset] at his hreload
      exact hne (hperiod.sole his hreload ((hkept j hne).symm ▸ hj))
    subst hji
    refine ⟨fun hone => ?_, hi⟩
    refine hperiod.not_oneShot (hset ▸ his) ?_
    rw [hset, Timer.reloaded_oneShot]
    exact ⟨hj, hone⟩
  · intro hstops
    refine KeepsPeriod.of_sole (m := ((s.timerPool i).reloaded t sig n).timeout.toNat)
      ⟨i, hset ▸ his, fun j hj => ?_, ?_⟩
    · by_contra hne
      rw [hkept j hne] at hj
      exact hne (Option.some.inj ((hstops j hj).2.symm.trans hi))
    · rw [hset, ← hreload]
      refine .start his fun hone => ?_
      obtain ⟨hactive, hone⟩ := (Timer.reloaded_oneShot n).mp hone
      exact (hstops i hactive).1 hone

theorem changed_period_kept : BecomesPeriodic idle 0 1 3
    (run idle fresh [.timerSet 0 9 8, .reloadTimerSet 0 1 5, .timerUpdate]) :=
  (reload_timer_periodic_iff idle _ 0 1 3 ⟨1, by decide +kernel⟩).mpr (by decide +kernel)

/-- A one-shot timer stays one: it is inactive after its only firing. -/
theorem one_shot_stays :
    ¬ BecomesPeriodic idle 0 1 3 (run idle fresh [.timerSet 0 1 1]) := by
  intro hperiod
  have his := hperiod.active 0 (by decide +kernel) [.timerUpdate, .timerUpdate]
    (by simp [Op.Elsewhere])
  exact absurd his (by decide +kernel)

end Mangoxx.Fsm
