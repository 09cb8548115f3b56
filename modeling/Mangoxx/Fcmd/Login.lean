import Mangoxx.Fcmd.Exec

namespace Mangoxx.Fcmd

/-- Behind its leading blanks the line is `id@password`. -/
def IsLogin (f : FcmdT) (cmd : Line) : Prop :=
  (pcmd cmd).val = f.loginId.val ++ '@'.toUInt8 :: f.loginPasswd.val

def hello : Event := .printf (text "Hello World!\n")

inductive Run (T : Program W) : Shell W → List Line → List Event → Shell W → Prop
  | nil : Run T s [] [] s
  | cons (fuel stack) (h : fcmdExec T fuel stack cmd s = some (.ok (out, s'))) :
    Run T s' cmds outs s'' → Run T s (cmd :: cmds) (out ++ outs) s''

theorem login_check {p i w : List UInt8} :
    (p.length = i.length + w.length + 1 ∧ strncmpEq p i i.length ∧
      Buf.peek p i.length = '@'.toUInt8 ∧ strncmpEq (p.drop (i.length + 1)) w w.length) ↔
        p = i ++ '@'.toUInt8 :: w := by
  constructor
  · rintro ⟨hlen, hid, hat, hpasswd⟩
    obtain ⟨r, rfl⟩ := strncmpEq_length.mp hid
    cases r with
    | nil =>
      rw [List.append_nil] at hlen
      omega
    | cons c r =>
      obtain rfl : c = '@'.toUInt8 := by simpa [Buf.peek] using hat
      rw [← List.drop_drop, List.drop_left, List.drop_succ_cons, List.drop_zero] at hpasswd
      obtain ⟨t, rfl⟩ := strncmpEq_length.mp hpasswd
      simp only [List.length_append, List.length_cons] at hlen
      obtain rfl : t = [] := List.eq_nil_of_length_eq_zero (by omega)
      rw [List.append_nil]
  · rintro rfl
    refine ⟨?_, strncmpEq_length.mpr (List.prefix_append _ _), ?_, ?_⟩
    · rw [List.length_append, List.length_cons, Nat.add_assoc]
    · simp [Buf.peek]
    · rw [← List.drop_drop, List.drop_left, List.drop_succ_cons, List.drop_zero]
      exact strncmpEq_length.mpr (List.prefix_refl w)

section Exec

variable {T : Program W} {s s₁ : Shell W} {cmd : Line} {fuel : Nat}
  {stack : Vector Int (paramsNum + 1)} {out : List Event}

theorem IsLogin.ne_nil {f : FcmdT} (h : IsLogin f cmd) : cmd.val ≠ [] := by
  intro hnil
  rw [IsLogin, pcmd] at h
  simp [hnil] at h

theorem fcmdExec_logged_out (T : Program W) (fuel stack) (hout : s.sFcmd.loginFlag = 0)
    (h : ¬ IsLogin s.sFcmd cmd) : fcmdExec T fuel stack cmd s = some (.ok ([], s)) := by
  rw [fcmdExec, if_pos hout, login, if_neg (mt login_check.mp h), ite_self]

theorem fcmdExec_login (T : Program W) (fuel stack) (hout : s.sFcmd.loginFlag = 0)
    (h : IsLogin s.sFcmd cmd) : fcmdExec T fuel stack cmd s =
      some (.ok ([hello], { s with sFcmd := { s.sFcmd with loginFlag := 1 } })) := by
  rw [fcmdExec, if_neg h.ne_nil, if_pos hout, login, if_pos (login_check.mpr h), hello]

theorem fcmdExec_dispatched (h : fcmdExec T fuel stack cmd s = some (.ok (out, s₁)))
    (hevent : e ∈ out) (hrun : ∀ m, e ≠ .printf m) :
    ∃ str args, getArgs fuel (pcmd cmd).val (clearArgs stack) = some (.ok (str, args)) ∧
      Dispatched T str args s out s₁ := by
  rw [fcmdExec] at h
  split at h
  · cases h
    cases hevent
  split at h
  · rw [login] at h
    split at h
    · cases h
      exact absurd (List.mem_singleton.mp hevent) (hrun _)
    · cases h
      cases hevent
  · obtain ⟨r, hr, hok⟩ := Option.map_eq_some_iff.mp h
    cases r with
    | error f => cases hok
    | ok r => exact ⟨r.1, r.2, hr, dispatch_cases hok⟩

theorem findSys_get {tbl : List (CmdTbl SysFunc)} {str : Buf} {e : CmdTbl SysFunc} {n i : Nat}
    (h : findSys str tbl n = some (i, e)) : n ≤ i ∧ tbl[i - n]? = some e := by
  induction tbl generalizing n with
  | nil => cases h
  | cons d tbl ih =>
    rw [findSys] at h
    split at h
    · cases h
      simp
    · obtain ⟨hle, hget⟩ := ih h
      have hindex : i - n = i - (n + 1) + 1 := by omega
      exact ⟨Nat.le_of_succ_le hle, by rw [hindex, List.getElem?_cons_succ, hget]⟩

theorem entries_get {tbl : List α} {x : α} {i : Nat} (h : (entries tbl)[i]? = some x) :
    tbl[i]? = some x := by
  rw [entries, List.getElem?_take] at h
  split at h
  · exact h
  · cases h

theorem sysFunc_event {f : SysFunc} (he : e ∈ (f.run T s).1) : ∃ m, e = .printf m := by
  cases f with
  | ls =>
    obtain ⟨m, -, rfl⟩ := List.mem_map.mp he
    exact ⟨m, rfl⟩
  | h => exact ⟨_, List.mem_singleton.mp he⟩
  | q => cases he

theorem sysFunc_run (hexec : fcmdExec T fuel stack cmd s = some (.ok (out, s₁)))
    (hi : .sys i ∈ out) : ∃ e, T.cmdSysTbl[i]? = some e ∧ s₁ = (e.pfunc.run T s).2 := by
  obtain ⟨str, args, -, hdispatched⟩ := fcmdExec_dispatched hexec hi nofun
  cases hdispatched with
  | message m => simp at hi
  | @sys j e _ hfind =>
    have hij : i = j := by
      rcases List.mem_cons.mp hi with hij | hmem
      · exact Event.sys.inj hij
      · obtain ⟨m, hm⟩ := sysFunc_event hmem
        cases hm
    subst hij
    have hget := (findSys_get hfind).2
    exact ⟨e, entries_get hget, rfl⟩
  | call =>
    rw [callCmd] at hi
    split at hi <;> simp [printRet] at hi

variable {cmds : List Line}

theorem run_logged_out (hout : s.sFcmd.loginFlag = 0) (hno : ∀ cmd ∈ cmds, ¬ IsLogin s.sFcmd cmd) :
    Run T s cmds [] s := by
  induction cmds with
  | nil => exact .nil
  | cons cmd cmds ih =>
    have hfirst := fcmdExec_logged_out T 0 (.replicate _ 0) hout (hno cmd (by simp))
    have hrun := Run.cons 0 (.replicate _ 0) hfirst (ih fun c hc => hno c (by simp [hc]))
    exact hrun

theorem Run.logged_out (h : Run T s cmds outs s₁) (hout : s.sFcmd.loginFlag = 0)
    (hno : ∀ cmd ∈ cmds, ¬ IsLogin s.sFcmd cmd) : outs = [] ∧ s₁ = s := by
  induction h with
  | nil => exact ⟨rfl, rfl⟩
  | cons fuel stack hexec _ ih =>
    rw [fcmdExec_logged_out _ fuel stack hout (hno _ (by simp))] at hexec
    cases hexec
    exact ih hout fun c hc => hno c (by simp [hc])

/-- After `q` only the login line is answered. -/
theorem logged_out_until_login (hexec : fcmdExec T fuel stack cmd s = some (.ok (out, s₁)))
    (hi : .sys i ∈ out) (hq : T.cmdSysTbl[i]?.map CmdTbl.pfunc = some .q) :
    s₁.sFcmd = { s.sFcmd with loginFlag := 0 } ∧
      (∀ cmds, (∀ cmd ∈ cmds, ¬ IsLogin s.sFcmd cmd) →
        Run T s₁ cmds [] s₁ ∧ ∀ outs s₂, Run T s₁ cmds outs s₂ → outs = [] ∧ s₂ = s₁) ∧
      ∀ fuel stack cmd, IsLogin s.sFcmd cmd → fcmdExec T fuel stack cmd s₁ =
        some (.ok ([hello], { s₁ with sFcmd := { s.sFcmd with loginFlag := 1 } })) := by
  obtain ⟨e, he, rfl⟩ := sysFunc_run hexec hi
  obtain hq : e.pfunc = .q := by simpa [he] using hq
  rw [hq, SysFunc.run]
  refine ⟨rfl, fun cmds hno => ⟨run_logged_out rfl hno, ?_⟩, ?_⟩
  · exact fun outs s₂ hrun => hrun.logged_out rfl hno
  · exact fun fuel stack cmd hlogin => fcmdExec_login T fuel stack rfl hlogin

def mallocOnly : Program Unit where
  cmdSysTbl := cmdSysTbl
  cmdTbl := [⟨⟨text "void *malloc(size_t size)", by decide⟩, 0⟩]
  addr _ := 0
  code _ _ _ s := (0, s)

def rootShell : Shell Unit := ⟨sFcmd, ()⟩

theorem malloc_refused_until_login :
    Run mallocOnly (sysQ rootShell) [⟨text "malloc(1024)", by decide⟩, ⟨text "l", by decide⟩] []
        (sysQ rootShell) ∧
      fcmdExec mallocOnly 0 (.replicate _ 0) ⟨text " root@c0dec0ffee", by decide⟩
        (sysQ rootShell) = some (.ok ([hello], rootShell)) := by
  have hexec : fcmdExec mallocOnly 0 (.replicate _ 0) ⟨text "q", by decide⟩ rootShell =
      some (.ok ([.sys 2], sysQ rootShell)) := rfl
  obtain ⟨-, hlocked, hlogin⟩ := logged_out_until_login hexec (List.mem_singleton_self _) rfl
  constructor
  · apply (hlocked _ ?_).1
    simp only [IsLogin, List.forall_mem_cons]
    decide
  · exact hlogin _ _ _ (by rw [IsLogin]; decide)

end Exec

end Mangoxx.Fcmd
