import Mangoxx.Fcmd.Format
import Mangoxx.Fcmd.Login
import Mangoxx.Fcmd.Prototype

namespace Mangoxx.Fcmd

def callName (cmd : Line) : List UInt8 :=
  (callHead (pcmd cmd).val).rdropWhile (· = ' '.toUInt8)

def Named (T : Program W) (protos : List Proto) (cmd : Line) : Event → Prop
  | .printf _ => True
  | .sys i => ∃ e, T.cmdSysTbl[i]? = some e ∧ e.fname.val = (pcmd cmd).val
  | .call i _ => ∃ p, protos[i]? = some p ∧ p.name = callName cmd

def Accepts (p : Proto) (k : Nat) : Prop :=
  ∃ num, getArgsNum p.text.val (text "(,)") = .ok num ∧ (num = -2 ∨ num = k)

/-- The first entry that compares equal has the name that the line gives. -/
structure Unmistaken (T : Program W) (protos : List Proto) (cmd : Line) (args : Args) : Prop where
  sys : args.first = .int (-1) → cmd.val ≠ [] →
    ∀ e ∈ (entries T.cmdSysTbl).find? ((pcmd cmd).val <+: ·.fname.val), e.fname.val = (pcmd cmd).val
  call : ∀ k : Nat, args.first = .int k → callName cmd ≠ [] →
    ∀ p ∈ (entries protos).find? (Taken ·.name (callName cmd)), Accepts p k → p.name = callName cmd

theorem callHead_split (s : List UInt8) :
    ∃ k, callHead s = (callHead s).rdropWhile (· = ' '.toUInt8) ++ blanks k := by
  have hsplit := List.rdropWhile_append_rtakeWhile (p := (· = ' '.toUInt8)) (l := callHead s)
  refine ⟨((callHead s).rtakeWhile (· = ' '.toUInt8)).length, ?_⟩
  have hblanks : blanks ((callHead s).rtakeWhile (· = ' '.toUInt8)).length =
      (callHead s).rtakeWhile (· = ' '.toUInt8) := by
    symm
    apply List.eq_replicate_of_mem
    intro c hc
    simpa using List.mem_rtakeWhile_imp hc
  rw [hblanks, hsplit]

theorem callName_last (cmd : Line) : ∀ c ∈ (callName cmd).getLast?, c ≠ ' '.toUInt8 := by
  intro c hc
  have hne : callName cmd ≠ [] := by
    rintro h
    rw [h] at hc
    cases hc
  rw [List.getLast?_eq_some_getLast hne] at hc
  obtain rfl := Option.some.inj hc
  have hlast := List.rdropWhile_last_not (· = ' '.toUInt8) _ hne
  exact fun h => hlast (decide_eq_true h)

theorem callName_open (cmd : Line) : '('.toUInt8 ∉ callName cmd := by
  intro hmem
  have hhead := (List.rdropWhile_prefix _ _).subset hmem
  simpa using List.mem_takeWhile_imp hhead

theorem findSys_find (tbl : List (CmdTbl SysFunc)) (n : Nat) {str : Buf} (h : str.cstr 0 = s) :
    (findSys str tbl n).map (·.2) = tbl.find? (s <+: ·.fname.val) := by
  induction tbl generalizing n with
  | nil => rfl
  | cons e tbl ih =>
    rw [findSys, h, strncmpEq_comm]
    by_cases hs : s <+: e.fname.val
    · rw [if_pos (strncmpEq_length.mpr hs), List.find?_cons_of_pos (by simpa using hs)]
      rfl
    · rw [if_neg (mt strncmpEq_length.mp hs), List.find?_cons_of_neg (by simpa using hs), ih]

theorem entries_map (f : α → β) (tbl : List α) : (entries tbl).map f = entries (tbl.map f) := by
  rw [entries, entries, List.map_take, List.length_map]

section Exec

variable {T : Program W} {protos : List Proto} {s s' : Shell W} {cmd : Line} {fuel : Nat}
  {stack : Vector Int (paramsNum + 1)} {str : Buf} {args : Args} {out : List Event}

theorem fcmdExec_eq (hcmd : cmd.val ≠ []) (hin : s.sFcmd.loginFlag ≠ 0)
    (hargs : getArgs fuel (pcmd cmd).val (clearArgs stack) = some (.ok (str, args))) :
    fcmdExec T fuel stack cmd s = some (dispatch T str args s) := by
  rw [fcmdExec, if_neg hcmd, if_neg hin, hargs]
  rfl

theorem argCount_nat (hk : k ≤ paramsNum) : argCount (.int (k : Nat)) = some k := by
  rw [argCount, if_pos ⟨Int.natCast_nonneg k, Int.ofNat_le.mpr hk⟩, Int.toNat_natCast]

theorem findCmd_callName (hT : T.cmdTbl.map (·.fname) = protos.map Proto.text)
    (hhead : str.cstr 0 = callHead (pcmd cmd).val) :
    (∀ i e, findCmd str (entries T.cmdTbl) 0 = .ok (some (i, e)) → callName cmd ≠ [] ∧
      ∃ p, protos[i]? = some p ∧ e.fname = p.text ∧
        p ∈ (entries protos).find? (Taken ·.name (callName cmd))) ∧
    (callName cmd ≠ [] → ∀ p ∈ (entries protos).find? (Taken ·.name (callName cmd)),
      ∃ i e, findCmd str (entries T.cmdTbl) 0 = .ok (some (i, e)) ∧ e.fname = p.text ∧
        protos[i]? = some p) := by
  have hentries : (entries T.cmdTbl).map (·.fname) = (entries protos).map Proto.text := by
    rw [entries_map, entries_map, hT]
  obtain ⟨k, hk⟩ := callHead_split (pcmd cmd).val
  rw [hk] at hhead
  by_cases hne : callName cmd = []
  · constructor
    · intro i e hfind
      rw [← callName, hne] at hhead
      exact absurd hfind (findCmd_blanks hhead hentries)
    · exact fun h => absurd hne h
  · rcases findCmd_spec (n := 0) hhead hne (callName_last cmd) (callName_open cmd) hentries with
      ⟨hnone, hfind⟩ | ⟨i, e, p, hfind, he, hp, hfirst⟩
    · constructor
      · intro i e h
        rw [hfind] at h
        cases h
      · intro _ p hp
        rw [← callName, hp] at hnone
        cases hnone
    · rw [Nat.zero_add] at hfind
      constructor
      · intro i' e' h
        rw [hfind] at h
        cases h
        exact ⟨hne, p, entries_get hp, he, hfirst⟩
      · intro _ p' hp'
        obtain rfl : p = p' := Option.some.inj (hfirst.symm.trans hp')
        exact ⟨i, e, hfind, he, entries_get hp⟩

theorem callCmd_event (he : e ∈ (callCmd T i d str args s).1) :
    (∃ m, e = .printf m) ∨ ∃ k, args.first = .int (k : Nat) ∧ ∃ params, e = .call i params := by
  rw [callCmd] at he
  split at he
  · rename_i k hk
    rw [List.mem_pair] at he
    rcases he with rfl | rfl
    · refine .inr ⟨k, ?_, _, rfl⟩
      cases ha : args.first with
      | str => simp [ha, argCount] at hk
      | int v =>
        rw [ha, argCount] at hk
        split at hk
        · rename_i hv
          cases hk
          rw [Int.toNat_of_nonneg hv.1]
        · cases hk
    · exact .inl ⟨_, rfl⟩
  · rw [List.mem_pair] at he
    rcases he with rfl | rfl <;> exact .inl ⟨_, rfl⟩

theorem dispatch_sys (hsys : args.first = .int (-1))
    (hfind : findSys str (entries T.cmdSysTbl) 0 = some (i, e)) :
    dispatch T str args s = .ok (.sys i :: (e.pfunc.run T s).1, (e.pfunc.run T s).2) := by
  rw [dispatch, if_neg (by rw [hsys]; decide), if_pos hsys, hfind]

theorem dispatch_call {k : Nat} (hk : args.first = .int k)
    (hfind : findCmd str (entries T.cmdTbl) 0 = .ok (some (i, e)))
    (hnum : getArgsNum e.fname.val (text "(,)") = .ok num) (haccept : num = -2 ∨ num = k) :
    dispatch T str args s = .ok (callCmd T i e str args s) := by
  have hneg : ∀ z < 0, args.first ≠ .int z := by
    intro z hz h
    have hkz := Arg.int.inj (hk.symm.trans h)
    omega
  have hok : ¬ (num ≠ -2 ∧ args.first ≠ .int num) := by
    rintro ⟨hvar, hne⟩
    rcases haccept with rfl | rfl
    · exact hvar rfl
    · exact hne hk
  rw [dispatch, if_neg (hneg _ (by decide)), if_neg (hneg _ (by decide))]
  simp only [hfind, hnum, bind, Except.bind]
  rw [if_neg hok]
  rfl

theorem callCmd_mem (hk : args.first = .int (k : Nat)) (hle : k ≤ paramsNum) :
    .call i ((args.toList.drop 1).take k) ∈ (callCmd T i d str args s).1 := by
  rw [callCmd, hk, argCount_nat hle]
  exact List.mem_cons_self ..

theorem format_sys (hargs : getArgs fuel (pcmd cmd).val (clearArgs stack) = some (.ok (str, args)))
    (hsys : args.first = .int (-1)) : str.cstr 0 = (pcmd cmd).val := by
  cases getArgs_format hargs with
  | system hstr =>
    rw [hstr, Buf.cstr_of_line (pcmd cmd).property, List.drop_zero]
  | error h =>
    rw [hsys] at h
    cases h
  | call k _ h =>
    rw [hsys] at h
    cases h

theorem format_call (hargs : getArgs fuel (pcmd cmd).val (clearArgs stack) = some (.ok (str, args)))
    (hk : args.first = .int (k : Nat)) : k ≤ paramsNum ∧ str.cstr 0 = callHead (pcmd cmd).val := by
  cases getArgs_format hargs with
  | system _ h =>
    rw [hk] at h
    cases h
  | error h =>
    rw [hk] at h
    cases h
  | call k' hle h hhead =>
    rw [hk] at h
    cases h
    exact ⟨hle, hhead⟩

theorem Unmistaken.named (hT : T.cmdTbl.map (·.fname) = protos.map Proto.text)
    (hargs : getArgs fuel (pcmd cmd).val (clearArgs stack) = some (.ok (str, args)))
    (h : Unmistaken T protos cmd args)
    (hexec : fcmdExec T fuel stack cmd s = some (.ok (out, s'))) (he : e ∈ out) :
    Named T protos cmd e := by
  by_cases hprint : ∃ m, e = .printf m
  · obtain ⟨m, rfl⟩ := hprint
    trivial
  obtain ⟨str', args', hargs', hdispatched⟩ :=
    fcmdExec_dispatched hexec he fun m hm => hprint ⟨m, hm⟩
  obtain ⟨rfl, rfl⟩ : str = str' ∧ args = args' := by simpa [hargs] using hargs'
  cases hdispatched with
  | message m => exact absurd ⟨m, List.mem_singleton.mp he⟩ hprint
  | @sys i d hsys hfind =>
    have hcmd : cmd.val ≠ [] := by
      intro hnil
      rw [fcmdExec, if_pos hnil] at hexec
      cases hexec
    rcases List.mem_cons.mp he with rfl | hrun
    · have hfirst := findSys_find (entries T.cmdSysTbl) 0 (format_sys hargs hsys)
      rw [hfind, Option.map_some] at hfirst
      exact ⟨d, entries_get (findSys_get hfind).2, h.sys hsys hcmd d hfirst.symm⟩
    · exact absurd (sysFunc_event hrun) hprint
  | @call i d num _ _ hfind hnum haccept =>
    rcases callCmd_event he with hm | ⟨k, hk, params, rfl⟩
    · exact absurd hm hprint
    · obtain ⟨hne, p, hp, hd, hfirst⟩ :=
        (findCmd_callName hT (format_call hargs hk).2).1 i d hfind
      refine ⟨p, hp, h.call k hk hne p hfirst ⟨num, hd ▸ hnum, ?_⟩⟩
      apply haccept.imp_right
      intro h
      rw [hk] at h
      exact (Arg.int.inj h).symm

theorem Unmistaken.of_named (hT : T.cmdTbl.map (·.fname) = protos.map Proto.text)
    (hin : s.sFcmd.loginFlag ≠ 0)
    (hargs : getArgs fuel (pcmd cmd).val (clearArgs stack) = some (.ok (str, args)))
    (h : ∀ out s', fcmdExec T fuel stack cmd s = some (.ok (out, s')) →
      ∀ e ∈ out, Named T protos cmd e) : Unmistaken T protos cmd args where
  sys hsys hcmd e hfirst := by
    have hfind := findSys_find (entries T.cmdSysTbl) 0 (format_sys hargs hsys)
    rw [hfirst] at hfind
    obtain ⟨⟨i, d⟩, hi, rfl⟩ := Option.map_eq_some_iff.mp hfind
    have hexec := fcmdExec_eq (T := T) hcmd hin hargs
    rw [dispatch_sys hsys hi] at hexec
    obtain ⟨d', hd', hname⟩ := h _ _ hexec (.sys i) (List.mem_cons_self ..)
    have hd : T.cmdSysTbl[i]? = some d := entries_get (findSys_get hi).2
    rw [hd] at hd'
    cases hd'
    exact hname
  call k hk hne p hfirst hnum := by
    obtain ⟨num, hnum, haccept⟩ := hnum
    obtain ⟨hle, hhead⟩ := format_call hargs hk
    obtain ⟨i, d, hfind, hd, hp⟩ := (findCmd_callName hT hhead).2 hne p hfirst
    have hcmd : cmd.val ≠ [] := by
      intro hnil
      apply hne
      rw [callName, pcmd]
      simp [hnil, callHead]
    have hexec := fcmdExec_eq (T := T) hcmd hin hargs
    rw [dispatch_call hk hfind (by rwa [hd]) haccept] at hexec
    obtain ⟨p', hp', hname⟩ := h _ _ hexec _ (callCmd_mem hk hle)
    rw [hp] at hp'
    cases hp'
    exact hname

theorem taken_named (ht : (callName cmd).length < 256) (hnames : ∀ p ∈ protos, p.name.length < 256)
    (hp : p ∈ (entries protos).find? (Taken ·.name (callName cmd))) : p.name = callName cmd := by
  have hmem : p ∈ protos := List.mem_of_mem_take (List.mem_of_find?_eq_some hp)
  have htaken : Taken p.name (callName cmd) := by simpa using List.find?_some hp
  exact (taken_short (hnames p hmem) ht).mp htaken

/-- Only the named entry is run, exactly for these lines. -/
theorem fcmdExec_named_iff (hT : T.cmdTbl.map (·.fname) = protos.map Proto.text)
    (hin : s.sFcmd.loginFlag ≠ 0)
    (hargs : getArgs fuel (pcmd cmd).val (clearArgs stack) = some (.ok (str, args))) :
    (∀ out s', fcmdExec T fuel stack cmd s = some (.ok (out, s')) →
      ∀ e ∈ out, Named T protos cmd e) ↔ Unmistaken T protos cmd args :=
  ⟨.of_named hT hin hargs, fun h _ _ hexec _ he => h.named hT hargs hexec he⟩

def mallocProto : Proto where
  ret := text "void "
  gap := '*'.toUInt8
  name := text "malloc"
  params := text "size_t size"
  gap_isGap := by decide
  name_ne_nil := by decide
  name_word := by decide +kernel
  noOpen := by decide
  noNul := by decide

def mallocLine : Line := ⟨text " malloc (1024)", by decide⟩

theorem malloc_named :
    Named mallocOnly [mallocProto] mallocLine (.call 0 [.int 1024]) := by
  have hargs : getArgs 0 (pcmd mallocLine).val (clearArgs (.replicate _ 0)) = some (.ok
      ((pcmd mallocLine).val.set 7 0,
        ((clearArgs (.replicate _ 0)).setFirst (.int 1)).setSecond (.int 1024))) := by
    decide +kernel
  have hexec : fcmdExec mallocOnly 0 (.replicate _ 0) mallocLine rootShell =
      some (.ok ([.call 0 [.int 1024], printRet 0], rootShell)) := by
    rw [fcmdExec_eq (by decide) (by decide) hargs]
    rfl
  have hline : Unmistaken mallocOnly [mallocProto] mallocLine
      (((clearArgs (.replicate _ 0)).setFirst (.int 1)).setSecond (.int 1024)) := by
    constructor
    · decide
    · intro k _ _ p hp _
      exact taken_named (by decide +kernel) (by decide) hp
  exact (fcmdExec_named_iff rfl (by decide) hargs).mpr hline _ _ hexec _ (List.mem_cons_self ..)

def blankLine : Line := ⟨text "  ", by decide⟩

theorem blank_runs_ls :
    (∃ r, getArgs 0 (pcmd blankLine).val (clearArgs (.replicate _ 0)) = some (.ok r)) ∧
      ¬ ∀ out s', fcmdExec mallocOnly 0 (.replicate _ 0) blankLine rootShell =
          some (.ok (out, s')) →
        ∀ e ∈ out, Named mallocOnly [mallocProto] blankLine e := by
  refine ⟨⟨_, rfl⟩, fun h => ?_⟩
  obtain ⟨e, he, hname⟩ := h _ _ rfl (.sys 0) (List.mem_cons_self ..)
  cases he
  revert hname
  decide

end Exec

end Mangoxx.Fcmd
