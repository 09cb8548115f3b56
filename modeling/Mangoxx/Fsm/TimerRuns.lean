import Mangoxx.Fsm.Timer

namespace Mangoxx.Fsm

open Mangoxx.Lib

variable {H W : Type} {t : TaskId} {sig : Sig}

section Firing

def Op.Elsewhere (t : TaskId) (sig : Sig) : Op → Prop
  | .timerUpdate => True
  | .timerSet t' sig' _ | .reloadTimerSet t' sig' _ | .timerDel t' sig' => ¬ (t' = t ∧ sig' = sig)
  | .initTasks | .post _ _ | .dispatch => False

def SoleSlot (t : TaskId) (sig : Sig) (P : Timer → Prop) (pool : Pool) : Prop :=
  ∃ i, (pool i).is t sig ∧ (∀ j, (pool j).is t sig → j = i) ∧ P (pool i)

def Silent (t : TaskId) (sig : Sig) (pool : Pool) : Prop := ∀ i, ¬ (pool i).is t sig

theorem Spares.soleSlot {P : Timer → Prop} {pool pool' : Pool} (h : Spares t sig pool pool')
    (hs : SoleSlot t sig P pool) : SoleSlot t sig P pool' := by
  obtain ⟨i, his, honly, hP⟩ := hs
  have hi : pool' i = pool i := h i (.inl his)
  exact ⟨i, hi ▸ his, fun j hj => honly j ((h.is_iff j).mp hj), hi ▸ hP⟩

theorem Spares.silent {pool pool' : Pool} (h : Spares t sig pool pool')
    (hs : Silent t sig pool) : Silent t sig pool' := fun i hi => hs i ((h.is_iff i).mp hi)

theorem Silent.tick {pool : Pool} (h : Silent t sig pool) :
    Silent t sig fun i => (pool i).tick := fun i hi => h i (Timer.tick_is hi)

theorem SoleSlot.tick {P Q : Timer → Prop} {pool : Pool} (h : SoleSlot t sig P pool)
    (htick : ∀ tm, tm.is t sig → P tm → tm.tick.is t sig ∧ Q tm.tick) :
    SoleSlot t sig Q fun i => (pool i).tick := by
  obtain ⟨i, his, honly, hP⟩ := h
  obtain ⟨htis, hQ⟩ := htick _ his hP
  exact ⟨i, htis, fun j hj => honly j (Timer.tick_is hj), hQ⟩

theorem SoleSlot.tick_silent {P : Timer → Prop} {pool : Pool} (h : SoleSlot t sig P pool)
    (htick : ∀ tm, tm.is t sig → P tm → ¬ tm.tick.is t sig) :
    Silent t sig fun i => (pool i).tick := by
  obtain ⟨i, his, honly, hP⟩ := h
  intro j hj
  obtain rfl := honly j (Timer.tick_is hj)
  exact htick _ his hP hj

theorem Silent.no_calls (s : Os H W) (h : Silent t sig s.timerPool) :
    postCalls t sig (osTimerUpdate s).trace = postCalls t sig s.trace := by
  have hcount : ((List.finRange timerCnt).countP fun i => (s.timerPool i).due t sig) = 0 := by
    rw [List.countP_eq_zero]
    intro i _ hi
    simp only [decide_eq_true_eq] at hi
    exact h i hi.1
  rw [osTimerUpdate_postCalls, hcount, Nat.add_zero]

theorem SoleSlot.calls {P : Timer → Prop} {fires : Prop} [Decidable fires] (s : Os H W)
    (h : SoleSlot t sig P s.timerPool)
    (hfires : ∀ tm, tm.is t sig → P tm → (tm.due t sig ↔ fires)) :
    postCalls t sig (osTimerUpdate s).trace =
      postCalls t sig s.trace + if fires then 1 else 0 := by
  obtain ⟨i, his, honly, hP⟩ := h
  have hdue : ∀ j, (s.timerPool j).due t sig ↔ j = i ∧ fires := by
    intro j
    constructor
    · intro hj
      obtain rfl := honly j hj.1
      exact ⟨rfl, (hfires _ his hP).mp hj⟩
    · rintro ⟨rfl, hf⟩
      exact (hfires _ his hP).mpr hf
  rw [osTimerUpdate_postCalls]
  congr 1
  simp only [hdue]
  split
  · rename_i hf
    have hone := List.count_eq_one_of_mem (List.nodup_finRange timerCnt) (List.mem_finRange i)
    simpa [hf, List.count, BEq.beq] using hone
  · rename_i hf
    simp [hf]

/-- What a pair goes through over a run, counted in updates: operations on other pairs do not
matter. -/
theorem life_run {L : Nat → Pool → Prop}
    (hspare : ∀ k pool pool', Spares t sig pool pool' → L k pool → L k pool')
    (htick : ∀ k pool, L k pool → L (k + 1) fun i => (pool i).tick) (code : Code H W)
    (s : Os H W) (ops : List Op) (hops : ∀ o ∈ ops, o.Elsewhere t sig) (h : L 0 s.timerPool) :
    L (ops.count .timerUpdate) (run code s ops).timerPool := by
  induction ops using List.reverseRecOn with
  | nil => exact h
  | append_singleton ops o ih =>
    have hrun := ih fun o' ho' => hops o' (by simp [ho'])
    have ho : o.Elsewhere t sig := hops o (by simp)
    simp only [run, List.foldl_append, List.foldl_cons, List.foldl_nil, List.count_append]
    cases o with
    | timerUpdate => simpa [step, osTimerUpdate_timerPool] using htick _ _ hrun
    | timerSet t' sig' n => simpa [step, osTimerSet] using hspare _ _ _ (timerSet_spares ho n) hrun
    | reloadTimerSet t' sig' n =>
      simpa [step, osReloadTimerSet] using hspare _ _ _ (reloadTimerSet_spares ho n) hrun
    | timerDel t' sig' =>
      simpa [step, osTimerDel] using hspare _ _ _ (timerDel_spares ho) hrun
    | initTasks | post | dispatch => exact ho.elim

def OneShot (t : TaskId) (sig : Sig) (n k : Nat) (pool : Pool) : Prop :=
  if k ≤ n then
    SoleSlot t sig (fun tm => tm.timeout.toNat + k = n ∧ tm.flag &&& timerReloadFlag = 0) pool
  else Silent t sig pool

def Periodic (t : TaskId) (sig : Sig) (n k : Nat) (pool : Pool) : Prop :=
  SoleSlot t sig (fun tm => tm.timeout.toNat + k % (n + 1) = n ∧ tm.reload.toNat = n ∧
    tm.flag &&& timerReloadFlag ≠ 0) pool

theorem timeout_pos {n : UInt16} : n > 0 ↔ 0 < n.toNat := UInt16.lt_iff_toNat_lt

theorem timeout_pred {n : UInt16} (h : n > 0) : (n - 1).toNat + 1 = n.toNat := by
  have hpos := timeout_pos.mp h
  have hone : 1 ≤ n := UInt16.le_iff_toNat_le.mpr hpos
  rw [UInt16.toNat_sub_of_le _ _ hone]
  exact Nat.sub_add_cancel hpos

theorem OneShot.spares (k : Nat) (pool pool' : Pool) (hs : Spares t sig pool pool')
    (h : OneShot t sig n k pool) : OneShot t sig n k pool' := by
  unfold OneShot at h ⊢
  split
  · rename_i hk
    exact hs.soleSlot (by simpa [hk] using h)
  · rename_i hk
    exact hs.silent (by simpa [hk] using h)

theorem OneShot.tick (k : Nat) (pool : Pool) (h : OneShot t sig n k pool) :
    OneShot t sig n (k + 1) fun i => (pool i).tick := by
  unfold OneShot at h ⊢
  rcases Nat.lt_trichotomy k n with hk | rfl | hk
  · rw [if_pos (Nat.le_of_lt hk)] at h
    rw [if_pos (Nat.succ_le_of_lt hk)]
    refine h.tick ?_
    rintro tm his ⟨hleft, hflag⟩
    have hpos : tm.timeout > 0 := timeout_pos.mpr (by omega)
    have hpred := timeout_pred hpos
    simp only [Timer.tick, his.1, if_pos hpos]
    exact ⟨⟨rfl, his.2⟩, by omega, hflag⟩
  · rw [if_pos (Nat.le_refl k)] at h
    rw [if_neg (by omega)]
    refine h.tick_silent ?_
    rintro tm his ⟨hleft, hflag⟩
    have hzero : ¬ tm.timeout > 0 := fun hpos => by have := timeout_pos.mp hpos; omega
    simp [Timer.tick, Timer.is, his.1, hzero, hflag]
  · rw [if_neg (by omega)] at h ⊢
    exact h.tick

theorem Periodic.tick (k : Nat) (pool : Pool) (h : Periodic t sig n k pool) :
    Periodic t sig n (k + 1) fun i => (pool i).tick := by
  refine SoleSlot.tick h fun tm his ⟨hleft, hreload, hflag⟩ => ?_
  have hmod := Nat.mod_lt k (Nat.succ_pos n)
  have hsucc : (k + 1) % (n + 1) = (k % (n + 1) + 1) % (n + 1) := (Nat.mod_add_mod k (n + 1) 1).symm
  by_cases hpos : tm.timeout > 0
  · have hpred := timeout_pred hpos
    have hnext : (k + 1) % (n + 1) = k % (n + 1) + 1 := by
      rw [hsucc, Nat.mod_eq_of_lt (by omega)]
    simp only [Timer.tick, his.1, if_pos hpos]
    exact ⟨⟨rfl, his.2⟩, by omega, hreload, hflag⟩
  · have hzero : ¬ 0 < tm.timeout.toNat := fun h => hpos (timeout_pos.mpr h)
    have hnext : (k + 1) % (n + 1) = 0 := by
      rw [hsucc, show k % (n + 1) = n by omega, Nat.mod_self]
    simp only [Timer.tick, his.1, if_neg hpos, if_pos hflag]
    exact ⟨⟨rfl, his.2⟩, by omega, hreload, hflag⟩

theorem reload_flag (flag : UInt8) : (flag ||| timerReloadFlag) &&& timerReloadFlag ≠ 0 := by
  have habsorb : (flag ||| timerReloadFlag) &&& timerReloadFlag = timerReloadFlag := by
    apply UInt8.toBitVec_inj.mp
    ext i hi
    simp only [UInt8.toBitVec_and, UInt8.toBitVec_or, BitVec.getElem_and, BitVec.getElem_or]
    cases timerReloadFlag.toBitVec[i] <;> simp
  rw [habsorb]
  decide

/-- A pair without a timer gets the first free slot, and only that. -/
theorem claimSlot_sole {found fresh : Timer → Timer} {P : Timer → Prop} {pool : Pool}
    (hnew : Silent t sig pool) (hroom : ∃ i, (pool i).taskId = none)
    (hfresh : ∀ tm, (fresh tm).is t sig ∧ P (fresh tm)) :
    SoleSlot t sig P (claimSlot t sig found fresh pool) := by
  cases claimSlot_claims t sig found fresh pool with
  | found i his _ _ => exact absurd his (hnew i)
  | fresh i _ _ heq =>
    rw [heq]
    refine ⟨i, by simpa using (hfresh (pool i)).1, ?_, by simpa using (hfresh (pool i)).2⟩
    intro j hj
    by_contra hji
    rw [Function.update_of_ne hji] at hj
    exact hnew j hj
  | full hfull _ =>
    obtain ⟨i, hi⟩ := hroom
    exact absurd hi (hfull i).1

theorem timerSet_oneShot {pool : Pool} (hnew : Silent t sig pool)
    (hroom : ∃ i, (pool i).taskId = none) (n : UInt16) :
    OneShot t sig n.toNat 0 (timerSet t sig n pool) := by
  rw [OneShot, if_pos (Nat.zero_le _), timerSet]
  refine claimSlot_sole hnew hroom fun tm => ?_
  exact ⟨⟨rfl, rfl⟩, rfl, UInt8.zero_and⟩

theorem reloadTimerSet_periodic {pool : Pool} (hnew : Silent t sig pool)
    (hroom : ∃ i, (pool i).taskId = none) (n : UInt16) :
    Periodic t sig n.toNat 0 (reloadTimerSet t sig n pool) := by
  rw [Periodic, reloadTimerSet]
  refine claimSlot_sole hnew hroom fun tm => ?_
  exact ⟨⟨rfl, rfl⟩, by simp, rfl, reload_flag tm.flag⟩

theorem OneShot.calls (s : Os H W) (h : OneShot t sig n k s.timerPool) :
    postCalls t sig (osTimerUpdate s).trace =
      postCalls t sig s.trace + if k = n then 1 else 0 := by
  unfold OneShot at h
  by_cases hk : k ≤ n
  · rw [if_pos hk] at h
    refine SoleSlot.calls s h fun tm his ⟨hleft, _⟩ => ?_
    simp only [Timer.due, his, true_and, timeout_pos]
    omega
  · rw [if_neg hk] at h
    rw [Silent.no_calls s h, if_neg (by omega), Nat.add_zero]

theorem Periodic.calls (s : Os H W) (h : Periodic t sig n k s.timerPool) :
    postCalls t sig (osTimerUpdate s).trace =
      postCalls t sig s.trace + if (n + 1) ∣ (k + 1) then 1 else 0 := by
  refine SoleSlot.calls s h fun tm his ⟨hleft, _, _⟩ => ?_
  simp only [Timer.due, his, true_and, timeout_pos, Nat.dvd_iff_mod_eq_zero]
  have hmod := Nat.mod_lt k (Nat.succ_pos n)
  rw [← Nat.mod_add_mod]
  constructor
  · intro hzero
    rw [show k % (n + 1) + 1 = n + 1 by omega, Nat.mod_self]
  · intro hdvd hpos
    rw [Nat.mod_eq_of_lt (by omega)] at hdvd
    omega

/-- The update number `k + 1` after `os_timer_set(t, sig, n)` posts `sig` once if `k = n` and not
otherwise; after `os_reload_timer_set(t, sig, n)` it does so if `n + 1` divides `k + 1`.  In
between any operations on other pairs may happen. -/
theorem timer_fires_on_time (code : Code H W) (s : Os H W) (t : TaskId) (sig : Sig) (n : UInt16)
    (hnew : ∀ i, ¬ (s.timerPool i).is t sig) (hroom : ∃ i, (s.timerPool i).taskId = none)
    (ops : List Op) (hops : ∀ o ∈ ops, o.Elsewhere t sig) :
    let oneShot := run code (osTimerSet t sig n s) ops
    let periodic := run code (osReloadTimerSet t sig n s) ops
    let k := ops.count .timerUpdate
    postCalls t sig (osTimerUpdate oneShot).trace =
        postCalls t sig oneShot.trace + (if k = n.toNat then 1 else 0) ∧
      postCalls t sig (osTimerUpdate periodic).trace =
        postCalls t sig periodic.trace + (if (n.toNat + 1) ∣ (k + 1) then 1 else 0) ∧
      ∀ i t' sig', (s.timerPool i).is t' sig' → ¬ (t = t' ∧ sig = sig') →
        (osTimerSet t sig n s).timerPool i = s.timerPool i ∧
          (osReloadTimerSet t sig n s).timerPool i = s.timerPool i := by
  intro oneShot periodic k
  have hone := timerSet_oneShot hnew hroom n
  have hper := reloadTimerSet_periodic hnew hroom n
  refine ⟨?_, ?_, ?_⟩
  · exact OneShot.calls _ (life_run OneShot.spares OneShot.tick code _ ops hops hone)
  · refine Periodic.calls _ (life_run (fun k pool pool' hs h => ?_) Periodic.tick code _ ops hops
      hper)
    exact hs.soleSlot h
  · intro i t' sig' his hne
    exact ⟨timerSet_spares hne n i (.inl his), reloadTimerSet_spares hne n i (.inl his)⟩

def idle : Code Unit Unit := fun _ _ w => .ret w

def fresh : Os Unit Unit := osInitTasks (boot (fun _ => ()) () false ())

theorem init_silent (s : Os H W) (t : TaskId) (sig : Sig) :
    Silent t sig (osInitTasks s).timerPool := by
  intro i
  simp [osInitTasks, Timer.is]

theorem third_update_fires :
    let s := run idle (osTimerSet 1 7 2 fresh) [.timerUpdate, .timerSet 1 8 0, .timerUpdate]
    postCalls 1 7 (osTimerUpdate s).trace = postCalls 1 7 s.trace + 1 := by
  have h := (timer_fires_on_time idle fresh 1 7 2 (init_silent _ 1 7) ⟨0, rfl⟩
    [.timerUpdate, .timerSet 1 8 0, .timerUpdate] (by simp [Op.Elsewhere])).1
  rwa [if_pos (by decide)] at h

end Firing

section Duplicates

def Unique (pool : Pool) : Prop :=
  ∀ i j t sig, (pool i).is t sig → (pool j).is t sig → i = j

/-- No free slot lies in front of an active slot of the pair. -/
def NoHole (t : TaskId) (sig : Sig) (pool : Pool) : Prop :=
  ∀ i j, (pool i).is t sig → (pool j).taskId = none → i < j

theorem Unique.tick {pool : Pool} (h : Unique pool) : Unique fun i => (pool i).tick :=
  fun i j t sig hi hj => h i j t sig (Timer.tick_is hi) (Timer.tick_is hj)

theorem Unique.of_spares {pool pool' : Pool} (h : Unique pool)
    (hspares : ∀ t' sig', ¬ (t = t' ∧ sig = sig') → Spares t' sig' pool pool')
    (hown : ∀ i j, (pool' i).is t sig → (pool' j).is t sig → i = j) : Unique pool' := by
  intro i j t' sig' hi hj
  by_cases hpair : t = t' ∧ sig = sig'
  · obtain ⟨rfl, rfl⟩ := hpair
    exact hown i j hi hj
  · have hs := hspares t' sig' hpair
    exact h i j t' sig' ((hs.is_iff i).mp hi) ((hs.is_iff j).mp hj)

theorem slot_of_update {pool : Pool} {tm : Timer} {i k : Slot}
    (h : ∀ j, (pool j).is t sig → j = i) (hk : (Function.update pool i tm k).is t sig) : k = i := by
  by_contra hne
  rw [Function.update_of_ne hne] at hk
  exact hne (h k hk)

theorem claimSlot_unique_iff {found fresh : Timer → Timer} {pool : Pool} (h : Unique pool)
    (hfound : ∀ tm, tm.is t sig → (found tm).is t sig) (hfresh : ∀ tm, (fresh tm).is t sig) :
    Unique (claimSlot t sig found fresh pool) ↔ NoHole t sig pool := by
  have hspares : ∀ t' sig', ¬ (t = t' ∧ sig = sig') →
      Spares t' sig' pool (claimSlot t sig found fresh pool) :=
    fun t' sig' hne => claimSlot_spares hne hfound hfresh
  revert hspares
  cases claimSlot_claims t sig found fresh pool with
  | found i his hbefore heq =>
    rw [heq]
    intro hspares
    refine iff_of_true (h.of_spares hspares fun j j' hj hj' => ?_) ?_
    · have hsole : ∀ k, (pool k).is t sig → k = i := fun k hk => h k i t sig hk his
      rw [slot_of_update hsole hj, slot_of_update hsole hj']
    · intro j k hj hk
      obtain rfl := h j i t sig hj his
      by_contra hnlt
      rcases lt_or_eq_of_le (not_lt.mp hnlt) with hlt | rfl
      · exact (hbefore k hlt).1 hk
      · exact Timer.not_free hj hk
  | fresh i hfree hbefore heq =>
    rw [heq]
    intro hspares
    constructor
    · intro huniq j k hj _
      have hji : j ≠ i := fun e => Timer.not_free hj (e ▸ hfree)
      have hjj : (Function.update pool i (fresh (pool i)) j).is t sig := by
        rwa [Function.update_of_ne hji]
      exact absurd (huniq j i t sig hjj (by simpa using hfresh (pool i))) hji
    · intro hhole
      have hnone : ∀ k, (pool k).is t sig → k = i := fun k hk =>
        absurd hk (hbefore k (hhole k i hk hfree)).2
      refine h.of_spares hspares fun j j' hj hj' => ?_
      rw [slot_of_update hnone hj, slot_of_update hnone hj']
  | full hfull heq =>
    rw [heq]
    exact fun _ => iff_of_true h fun j k hj _ => absurd hj (hfull j).2

theorem timerSet_unique_iff {pool : Pool} (h : Unique pool) (n : UInt16) :
    Unique (timerSet t sig n pool) ↔ NoHole t sig pool :=
  claimSlot_unique_iff h (fun _ his => his) fun _ => ⟨rfl, rfl⟩

theorem reloadTimerSet_unique_iff {pool : Pool} (h : Unique pool) (n : UInt16) :
    Unique (reloadTimerSet t sig n pool) ↔ NoHole t sig pool :=
  claimSlot_unique_iff h (fun _ his => his) fun _ => ⟨rfl, rfl⟩

theorem Unique.timerDel {pool : Pool} (h : Unique pool) (t : TaskId) (sig : Sig) :
    Unique (timerDel t sig pool) ∧ Silent t sig (timerDel t sig pool) := by
  unfold Fsm.timerDel
  split
  · rename_i hnone
    exact ⟨h, fun i his => by simpa [his] using Fin.eq_false_of_find?_eq_none hnone i⟩
  · rename_i i hsome
    have his : (pool i).is t sig := by simpa using Fin.eq_true_of_find?_eq_some hsome
    have hold : ∀ j t' sig',
        (Function.update pool i { pool i with taskId := none, flag := 0 } j).is t' sig' →
          j ≠ i ∧ (pool j).is t' sig' := by
      intro j t' sig' hj
      by_cases hji : j = i
      · subst hji
        simp [Timer.is] at hj
      · rw [Function.update_of_ne hji] at hj
        exact ⟨hji, hj⟩
    refine ⟨fun j k t' sig' hj hk => ?_, fun j hj => ?_⟩
    · exact h j k t' sig' (hold j t' sig' hj).2 (hold k t' sig' hk).2
    · obtain ⟨hji, hj⟩ := hold j t sig hj
      exact hji (h j i t sig hj his)

theorem timerDel_of_silent {pool : Pool} (h : Silent t sig pool) :
    timerDel t sig pool = pool := by
  unfold timerDel
  split
  · rfl
  · rename_i i hsome
    exact absurd (by simpa using Fin.eq_true_of_find?_eq_some hsome) (h i)

def Op.IsTimer : Op → Prop
  | .timerUpdate | .timerSet _ _ _ | .reloadTimerSet _ _ _ | .timerDel _ _ => True
  | .initTasks | .post _ _ | .dispatch => False

def Op.Sets (t : TaskId) (sig : Sig) : Op → Prop
  | .timerSet t' sig' _ | .reloadTimerSet t' sig' _ => t' = t ∧ sig' = sig
  | _ => False

/-- At most one active slot for each pair, and a deleted timer is gone until it is set again. -/
structure OneSlotEach (code : Code H W) (s : Os H W) (ops : List Op) : Prop where
  unique : ∀ pre post, ops = pre ++ post → Unique (run code s pre).timerPool
  deleted : ∀ pre t sig quiet post, ops = pre ++ .timerDel t sig :: (quiet ++ post) →
    (∀ o ∈ quiet, ¬ o.Sets t sig) →
      let s' := step code (run code s pre) (.timerDel t sig)
      Silent t sig s'.timerPool ∧
        postCalls t sig (run code s' quiet).trace = postCalls t sig s'.trace

theorem step_unique {code : Code H W} {s : Os H W} {o : Op} (ho : o.IsTimer)
    (h : Unique s.timerPool) :
    Unique (step code s o).timerPool ↔ ∀ t sig, o.Sets t sig → NoHole t sig s.timerPool := by
  cases o with
  | timerUpdate =>
    simp only [step, osTimerUpdate_timerPool]
    exact iff_of_true h.tick fun _ _ hset => hset.elim
  | timerSet t' sig' n =>
    refine (timerSet_unique_iff h n).trans ⟨?_, fun hhole => hhole t' sig' ⟨rfl, rfl⟩⟩
    rintro hhole t sig ⟨rfl, rfl⟩
    exact hhole
  | reloadTimerSet t' sig' n =>
    refine (reloadTimerSet_unique_iff h n).trans ⟨?_, fun hhole => hhole t' sig' ⟨rfl, rfl⟩⟩
    rintro hhole t sig ⟨rfl, rfl⟩
    exact hhole
  | timerDel t' sig' => exact iff_of_true (h.timerDel t' sig').1 fun _ _ hset => hset.elim
  | initTasks | post | dispatch => exact ho.elim

theorem step_silent {code : Code H W} {s : Os H W} {o : Op} (ho : o.IsTimer)
    (hset : ¬ o.Sets t sig) (h : Silent t sig s.timerPool) :
    Silent t sig (step code s o).timerPool ∧
      postCalls t sig (step code s o).trace = postCalls t sig s.trace := by
  cases o with
  | timerUpdate =>
    refine ⟨?_, Silent.no_calls s h⟩
    simp only [step, osTimerUpdate_timerPool]
    exact h.tick
  | timerSet t' sig' n =>
    have hspares : Spares t sig s.timerPool (timerSet t' sig' n s.timerPool) :=
      timerSet_spares hset n
    exact ⟨hspares.silent h, rfl⟩
  | reloadTimerSet t' sig' n =>
    have hspares : Spares t sig s.timerPool (reloadTimerSet t' sig' n s.timerPool) :=
      reloadTimerSet_spares hset n
    exact ⟨hspares.silent h, rfl⟩
  | timerDel t' sig' =>
    by_cases hpair : t' = t ∧ sig' = sig
    · obtain ⟨rfl, rfl⟩ := hpair
      have hpool := timerDel_of_silent h
      exact ⟨by rw [step, osTimerDel, hpool]; exact h, rfl⟩
    · have hspares : Spares t sig s.timerPool (timerDel t' sig' s.timerPool) :=
        timerDel_spares hpair
      exact ⟨hspares.silent h, rfl⟩
  | initTasks | post | dispatch => exact ho.elim

theorem run_silent {code : Code H W} {s : Os H W} {ops : List Op} (hops : ∀ o ∈ ops, o.IsTimer)
    (hset : ∀ o ∈ ops, ¬ o.Sets t sig) (h : Silent t sig s.timerPool) :
    postCalls t sig (run code s ops).trace = postCalls t sig s.trace := by
  induction ops generalizing s with
  | nil => rfl
  | cons o ops ih =>
    obtain ⟨hs, hcalls⟩ := step_silent (hops o (by simp)) (hset o (by simp)) h
    rw [← hcalls]
    exact ih (fun o' ho' => hops o' (by simp [ho'])) (fun o' ho' => hset o' (by simp [ho'])) hs

theorem run_unique {code : Code H W} {s : Os H W} {ops : List Op} (hops : ∀ o ∈ ops, o.IsTimer)
    (hs : Unique s.timerPool)
    (hhole : ∀ pre o post, ops = pre ++ o :: post → ∀ t sig, o.Sets t sig →
      NoHole t sig (run code s pre).timerPool) : Unique (run code s ops).timerPool := by
  induction ops using List.reverseRecOn with
  | nil => exact hs
  | append_singleton ops o ih =>
    have hrun := ih (fun o' ho' => hops o' (by simp [ho'])) fun pre o' post heq =>
      hhole pre o' (post ++ [o]) (by simp [heq])
    have hnext : Unique (step code (run code s ops) o).timerPool :=
      (step_unique (hops o (by simp)) hrun).mpr (hhole ops o [] rfl)
    simpa [run] using hnext

theorem init_unique (s : Os H W) : Unique (osInitTasks s).timerPool :=
  fun i _ t sig hi _ => absurd hi (init_silent s t sig i)

/-- A run keeps one slot for each pair exactly if no pair is set while a free slot lies in front of
its active one. -/
theorem one_slot_each_iff (code : Code H W) (s : Os H W) (ops : List Op)
    (hops : ∀ o ∈ ops, o.IsTimer) :
    OneSlotEach code (osInitTasks s) ops ↔
      ∀ pre o post, ops = pre ++ o :: post → ∀ t sig, o.Sets t sig →
        NoHole t sig (run code (osInitTasks s) pre).timerPool := by
  constructor
  · rintro ⟨hunique, -⟩ pre o post rfl
    have hpre := hunique pre (o :: post) rfl
    have hnext := hunique (pre ++ [o]) post (by simp)
    simp only [run, List.foldl_append, List.foldl_cons, List.foldl_nil] at hnext
    exact (step_unique (hops o (by simp)) hpre).mp hnext
  · intro hhole
    have hunique : ∀ pre post, ops = pre ++ post →
        Unique (run code (osInitTasks s) pre).timerPool := by
      rintro pre post rfl
      refine run_unique (fun o ho => hops o (by simp [ho])) (init_unique s) ?_
      rintro pre' o post' rfl
      exact hhole pre' o (post' ++ post) (by simp)
    refine ⟨hunique, ?_⟩
    rintro pre t sig quiet post rfl hquiet
    have hsilent := ((hunique pre _ rfl).timerDel t sig).2
    refine ⟨hsilent, run_silent (fun o ho => hops o (by simp [ho])) hquiet hsilent⟩

instance (t : TaskId) (sig : Sig) (pool : Pool) : Decidable (NoHole t sig pool) :=
  inferInstanceAs (Decidable (∀ i j, (pool i).is t sig → (pool j).taskId = none → i < j))

theorem reset_timers_one_slot :
    OneSlotEach idle fresh [.timerSet 0 1 5, .timerSet 0 2 5, .timerSet 0 3 0, .timerUpdate,
      .timerSet 0 2 9, .timerDel 0 2, .reloadTimerSet 0 1 7] := by
  refine (one_slot_each_iff idle _ _ (by simp [Op.IsTimer])).mpr ?_
  change History.Holds (fun pre o => ∀ t sig, Op.Sets t sig o →
    NoHole t sig (run idle fresh pre).timerPool) _
  simp only [History.holds_cons, History.holds_nil, and_true]
  refine ⟨?_, ?_, ?_, ?_, ?_, ?_, ?_⟩
  · rintro t sig ⟨rfl, rfl⟩
    decide +kernel
  · rintro t sig ⟨rfl, rfl⟩
    decide +kernel
  · rintro t sig ⟨rfl, rfl⟩
    decide +kernel
  · exact fun _ _ hset => hset.elim
  · rintro t sig ⟨rfl, rfl⟩
    decide +kernel
  · exact fun _ _ hset => hset.elim
  · rintro t sig ⟨rfl, rfl⟩
    decide +kernel

/-- The deleted timer leaves slot 0 free in front of slot 1, which holds the pair set again. -/
theorem deleted_slot_duplicates :
    ¬ OneSlotEach idle fresh
    [.timerSet 0 1 5, .timerSet 0 2 5, .timerDel 0 1, .timerSet 0 2 5] := by
  intro h
  have hsame : (0 : Slot) = 1 :=
    h.unique [.timerSet 0 1 5, .timerSet 0 2 5, .timerDel 0 1, .timerSet 0 2 5] [] rfl 0 1 0 2
      (by decide +kernel) (by decide +kernel)
  exact absurd hsame (by decide)

end Duplicates

end Mangoxx.Fsm
