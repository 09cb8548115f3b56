import Mangoxx.Fcmd.Seps
import Mathlib.Data.List.Infix

namespace Mangoxx.Fcmd

def strncmpEq (s t : List UInt8) (n : Nat) : Bool := s.take n = t.take n

theorem strncmpEq_comm (s t : List UInt8) (n : Nat) : strncmpEq s t n = strncmpEq t s n := by
  simp only [strncmpEq, eq_comm]

theorem strncmpEq_length {s t : List UInt8} : strncmpEq s t t.length = true ↔ t <+: s := by
  rw [List.prefix_iff_eq_take]
  simp [strncmpEq, eq_comm]

def strstr (s sub : List UInt8) : Bool := sub <:+: s

def scanBack (m : Buf) (skip : UInt8 → Bool) : Nat → Except Fault Nat
  | 0 => .error .line
  | n + 1 => if skip (m.peek n) then scanBack m skip n else .ok n

structure FcmdT where
  loginFlag : Int
  loginId : Line
  loginPasswd : Line
  idFits : loginId.val.length < 32
  passwdFits : loginPasswd.val.length < 64

def sFcmd : FcmdT where
  loginFlag := 1
  loginId := ⟨text "root", by decide⟩
  loginPasswd := ⟨text "c0dec0ffee", by decide⟩
  idFits := by decide
  passwdFits := by decide

inductive SysFunc
  | ls | h | q
  deriving DecidableEq

structure CmdTbl (F : Type) where
  fname : Line
  pfunc : F

def cmdSysTbl : List (CmdTbl SysFunc) :=
  [⟨⟨text "l", by decide⟩, .ls⟩, ⟨⟨text "h", by decide⟩, .h⟩, ⟨⟨text "q", by decide⟩, .q⟩]

/-- The state of the shell, and of the rest of the firmware. -/
structure Shell (W : Type) where
  sFcmd : FcmdT
  world : W

/-- The tables, and what the function at an address does with its arguments. -/
structure Program (W : Type) where
  cmdSysTbl : List (CmdTbl SysFunc)
  cmdTbl : List (CmdTbl Nat)
  addr : SysFunc → Nat
  code : Nat → List Arg → Buf → Shell W → Int × Shell W

/-- The entries of a table that are searched: `CmdSysTblSize` and `CmdTblSize` have eight bits. -/
def entries (tbl : List α) : List α := tbl.take (tbl.length % 256)

inductive Event
  | printf (s : List UInt8)
  | sys (i : Nat)
  | call (i : Nat) (args : List Arg)
  deriving DecidableEq

def hex8 (v : Int) : List UInt8 :=
  let d := Nat.toDigits 16 (v % 4294967296).toNat
  (List.replicate (8 - d.length) '0' ++ d).map Char.toUInt8

section Sys

variable (T : Program W)

def lsEntry (addr : Nat) (fname : Line) : List UInt8 :=
  text "0x" ++ hex8 addr ++ text ": " ++ fname.val ++ text "\n"

def sysLs : List (List UInt8) :=
  text "------------- function list --------------\n" ::
    ((entries T.cmdSysTbl).map (fun e => lsEntry (T.addr e.pfunc) e.fname) ++
      (entries T.cmdTbl).map (fun e => lsEntry e.pfunc e.fname) ++
      [text "-------------------------------------------\n"])

def fcmdVersion : List UInt8 := text "1.0.4"

def sysH : List UInt8 :=
  text "---------------------------------------------\nfcmd v" ++ fcmdVersion ++
    text ("  Robin Zhou\nUsage:\n  md(0x00141280, 512, 1)\n  memset(0x00141280, 65, 512)\n" ++
      "  malloc(1024)\n  free(0x00141280)\n---------------------------------------------\n")

def sysQ (s : Shell W) : Shell W := { s with sFcmd := { s.sFcmd with loginFlag := 0 } }

def SysFunc.run (s : Shell W) : SysFunc → List Event × Shell W
  | .ls => ((sysLs T).map .printf, s)
  | .h => ([.printf sysH], s)
  | .q => ([], sysQ s)

end Sys

def getArgsNum (str : Buf) (key : List UInt8) : Except Fault Int :=
  -- one turn more than `pbrk` has room for
  let brk := findBrk str key (paramsNum * 2 + 1) (strpbrk str 0 key)
  if brk.length > paramsNum * 2 then .error (.pbrk (paramsNum * 2))
  else
    let first := brk.getD 0 0
    if brk.length = 2 then
      if strstr (str.cstr (first + 1)) (text "void") then
        .ok (if '*'.toUInt8 ∈ str.cstr (first + 1) then 1 else 0)
      else if ((str.drop (first + 1)).take (brk.getD 1 0 - (first + 1))).all (· = ' '.toUInt8) then
        .ok 0
      else .ok 1
    else if brk.length = 3 ∧ strstr (str.cstr first) (text "..") then .ok (-2)
    else .ok (brk.length - 1)

/-- The place of the name in a prototype, and its length in eight bits. -/
def getFname (str : Buf) : Except Fault (Nat × Nat) :=
  match str.findIdx? (· = '('.toUInt8) with
  | none => .error .line
  | some paren => do
    let pend ← scanBack str (fun c => c = ' '.toUInt8 ∨ c = '\t'.toUInt8) paren
    let phead ← scanBack str
      (fun c => c ≠ ' '.toUInt8 ∧ c ≠ '*'.toUInt8 ∧ c ≠ '\t'.toUInt8) (pend + 1)
    return (phead + 1, (pend + 1 - (phead + 1)) % 256)

def findCmd (pcmd : Buf) : List (CmdTbl Nat) → Nat → Except Fault (Option (Nat × CmdTbl Nat))
  | [], _ => .ok none
  | e :: es, i => do
    let (pfname, pfnameLen) ← getFname e.fname.val
    let pcmdEnd ← scanBack pcmd (· = ' '.toUInt8) (pcmd.cstr 0).length
    let pcmdLen := (pcmdEnd + 1) % 256
    if strncmpEq (e.fname.val.drop pfname) (pcmd.cstr 0) (max pcmdLen pfnameLen) then
      return some (i, e)
    else findCmd pcmd es (i + 1)

def findSys (pcmd : Buf) : List (CmdTbl SysFunc) → Nat → Option (Nat × CmdTbl SysFunc)
  | [], _ => none
  | e :: es, i =>
    if strncmpEq (pcmd.cstr 0) e.fname.val (pcmd.cstr 0).length then some (i, e)
    else findSys pcmd es (i + 1)

def argCount : Arg → Option Nat
  | .int v => if 0 ≤ v ∧ v ≤ paramsNum then some v.toNat else none
  | .str _ => none

def printRet (ret : Int) : Event :=
  .printf (text "=0x" ++ hex8 ret ++ text "," ++ decimal ret ++ text ";\n")

section Exec

variable (T : Program W)

def callCmd (i : Nat) (e : CmdTbl Nat) (str : Buf) (args : Args) (s : Shell W) :
    List Event × Shell W :=
  match argCount args.first with
  | some k =>
    let params := (args.toList.drop 1).take k
    let (ret, s) := T.code e.pfunc params str s
    ([.call i params, printRet ret], s)
  | none => ([.printf (text "err:params num err\n"), printRet 0], s)

def dispatch (str : Buf) (args : Args) (s : Shell W) : Except Fault (List Event × Shell W) :=
  if args.first = .int (-2) then .ok ([.printf (text "err:fmt err\n")], s)
  else if args.first = .int (-1) then
    match findSys str (entries T.cmdSysTbl) 0 with
    | none => .ok ([.printf (text "err:system cmd err\n")], s)
    | some (i, e) =>
      let (out, s) := e.pfunc.run T s
      .ok (.sys i :: out, s)
  else do
    match ← findCmd str (entries T.cmdTbl) 0 with
    | none => return ([.printf (text "err:no such cmd\n")], s)
    | some (i, e) =>
      let num ← getArgsNum e.fname.val (text "(,)")
      if num ≠ -2 ∧ args.first ≠ .int num then return ([.printf (text "err:param err\n")], s)
      else return callCmd T i e str args s

def pcmd (cmd : Line) : Line :=
  ⟨cmd.val.dropWhile (· = ' '.toUInt8), fun h => cmd.property (List.dropWhile_subset _ h)⟩

def login (pcmd : Line) (s : Shell W) : List Event × Shell W :=
  let loginId := s.sFcmd.loginId.val
  let loginPasswd := s.sFcmd.loginPasswd.val
  if pcmd.val.length = loginId.length + loginPasswd.length + 1 ∧
      strncmpEq pcmd.val loginId loginId.length ∧
      Buf.peek pcmd.val loginId.length = '@'.toUInt8 ∧
      strncmpEq (pcmd.val.drop (loginId.length + 1)) loginPasswd loginPasswd.length then
    ([.printf (text "Hello World!\n")], { s with sFcmd := { s.sFcmd with loginFlag := 1 } })
  else ([], s)

/-- `memset(args, 0, PARAMS_NUM + 1)` clears eleven bytes of what is on the stack. -/
def clearArgs (stack : Vector Int (paramsNum + 1)) : Args :=
  stack.mapIdx fun i v => .int (if i < 2 then 0 else if i = 2 then v - v % 16777216 else v)

/-- The output and the state after a line, if `fuel` turns of the loop of `get_args` are enough. -/
def fcmdExec (fuel : Nat) (stack : Vector Int (paramsNum + 1)) (cmd : Line) (s : Shell W) :
    Option (Except Fault (List Event × Shell W)) :=
  if cmd.val = [] then some (.ok ([], s))
  else if s.sFcmd.loginFlag = 0 then some (.ok (login (pcmd cmd) s))
  else (getArgs fuel (pcmd cmd).val (clearArgs stack)).map fun r => do
    let (str, args) ← r
    dispatch T str args s

inductive Dispatched (str : Buf) (args : Args) (s : Shell W) : List Event → Shell W → Prop
  | message (m : List UInt8) : Dispatched str args s [.printf m] s
  | sys (hargs : args.first = .int (-1))
    (hfind : findSys str (entries T.cmdSysTbl) 0 = some (i, e)) :
    Dispatched str args s (.sys i :: (e.pfunc.run T s).1) (e.pfunc.run T s).2
  | call (hsys : args.first ≠ .int (-1)) (hfmt : args.first ≠ .int (-2))
    (hfind : findCmd str (entries T.cmdTbl) 0 = .ok (some (i, e)))
    (hnum : getArgsNum e.fname.val (text "(,)") = .ok num)
    (haccept : num = -2 ∨ args.first = .int num) :
    Dispatched str args s (callCmd T i e str args s).1 (callCmd T i e str args s).2

variable {T} {str : Buf} {args : Args} {s s' : Shell W} {out : List Event}

theorem dispatch_cases (h : dispatch T str args s = .ok (out, s')) :
    Dispatched T str args s out s' := by
  rw [dispatch] at h
  split at h
  · cases h
    exact .message _
  rename_i hfmt
  split at h
  · rename_i hsys
    cases hfind : findSys str (entries T.cmdSysTbl) 0 with
    | none =>
      rw [hfind] at h
      cases h
      exact .message _
    | some r =>
      rw [hfind] at h
      cases h
      exact .sys hsys hfind
  · rename_i hsys
    cases hfind : findCmd str (entries T.cmdTbl) 0 with
    | error f => simp [hfind, bind, Except.bind] at h
    | ok r =>
      cases r with
      | none =>
        simp only [hfind, bind, Except.bind] at h
        cases h
        exact .message _
      | some r =>
        cases hnum : getArgsNum r.2.fname.val (text "(,)") with
        | error f => simp [hfind, hnum, bind, Except.bind] at h
        | ok num =>
          simp only [hfind, hnum, bind, Except.bind] at h
          split at h
          · cases h
            exact .message _
          · rename_i haccept
            have hcall : callCmd T r.1 r.2 str args s = (out, s') := Except.ok.inj h
            obtain rfl : (callCmd T r.1 r.2 str args s).1 = out := congrArg Prod.fst hcall
            obtain rfl : (callCmd T r.1 r.2 str args s).2 = s' := congrArg Prod.snd hcall
            exact .call hsys hfmt hfind hnum (by tauto)

end Exec

end Mangoxx.Fcmd
