import Mangoxx.Fcmd.CStr
import Mangoxx.Lib.Loop

namespace Mangoxx.Fcmd

open Mangoxx.Lib

abbrev paramsNum : Nat := 10

def key : List UInt8 := text "(,)\""

/-- `_args_t`: a number, or the address of a string as its place in the line. -/
inductive Arg
  | int (v : Int)
  | str (p : Nat)
  deriving DecidableEq

abbrev Args := Vector Arg (paramsNum + 1)

abbrev Args.first (args : Args) : Arg := args[0]

abbrev Args.setFirst (args : Args) (a : Arg) : Args := args.set 0 a

abbrev Args.setSecond (args : Args) (a : Arg) : Args := args.set 1 a

inductive Fault
  | args (i : Nat)
  | pbrk (i : Nat)
  | line
  deriving DecidableEq

def Args.store (args : Args) (i : Nat) (a : Arg) : Except Fault Args :=
  if h : i < paramsNum + 1 then .ok (args.set i a) else .error (.args i)

theorem Args.first_setFirst (args : Args) (a : Arg) : (args.setFirst a).first = a :=
  Vector.getElem_set_self _

theorem Args.store_lt {args : Args} {a : Arg} (h : i < paramsNum + 1) :
    args.store i a = .ok (args.set i a) := by
  rw [Args.store, dif_pos h]

theorem Args.store_ge {args : Args} {a : Arg} (h : ¬ i < paramsNum + 1) :
    args.store i a = .error (.args i) := by
  rw [Args.store, dif_neg h]

def findBrk (str : Buf) (key : List UInt8) : Nat → Option Nat → List Nat
  | 0, _ => []
  | _, none => []
  | n + 1, some pch => pch :: findBrk str key n (strpbrk str (pch + 1) key)

def pbrk (str : Buf) : List Nat := findBrk str key (paramsNum * 3) (strpbrk str 0 key)

def deref (brk : List Nat) (m : Buf) (i : Nat) : Except Fault UInt8 :=
  match brk[i]? with
  | some p => .ok (m.peek p)
  | none => .error (.pbrk i)

def spanIsspace (m : Buf) (head tail : Nat) : Bool :=
  ((m.drop head).take (tail - head)).all isspace

def seekQuote (m : Buf) : List Nat → Nat → Except Fault Nat
  | [], i => .error (.pbrk i)
  | p :: ps, i => if m.peek p = '"'.toUInt8 then .ok i else seekQuote m ps (i + 1)

/-- `while (!is_string_end)`, entered at the opening quote; the result is `i` and the line with the
closing quote overwritten.  Every turn passes a separator, so there are at most `brk_cnt` turns. -/
def stringLoop (brk : List Nat) (m : Buf) : Nat → Nat → Except Fault (Nat × Buf)
  | 0, i => .error (.pbrk (i + 1))
  | turns + 1, i => do
    let i ← seekQuote m (brk.drop (i + 1)) (i + 1)
    let i := i + 1
    if i ≥ brk.length - 1 then return (i, m.set (brk.getD (i - 1) 0) 0)
    else
      let c ← deref brk m i
      if c = ','.toUInt8 then
        if spanIsspace m (brk.getD (i - 1) 0 + 1) (brk.getD i 0) then
          return (i, m.set (brk.getD (i - 1) 0) 0)
        else
          let i ← seekQuote m (brk.drop (i + 1)) (i + 1)
          stringLoop brk m turns i
      else stringLoop brk m turns i

inductive State
  | detect | int | string
  deriving DecidableEq

structure Scan where
  i : Nat
  argsCnt : Nat
  state : State
  finding : Bool
  str : Buf
  args : Args

def detect (brk : List Nat) (s : Scan) : Except Fault Scan := do
  if s.i = 0 then
    let next ← deref brk s.str (s.i + 1)
    if next = '"'.toUInt8 then return { s with i := s.i + 1, state := .string }
    else if next = ','.toUInt8 then return { s with state := .int }
    else return s
  else
    let here ← deref brk s.str s.i
    if here = ','.toUInt8 then
      let next ← deref brk s.str (s.i + 1)
      if next = ','.toUInt8 ∨ next = ')'.toUInt8 then return { s with state := .int }
      else if next = '"'.toUInt8 then return { s with i := s.i + 1, state := .string }
      else return s
    else return s

def intArg (brk : List Nat) (s : Scan) : Except Fault Scan := do
  let args ← s.args.store s.argsCnt (.int (strtol (s.str.cstr (brk.getD s.i 0 + 1))))
  return { s with
    args := args
    argsCnt := s.argsCnt + 1
    i := s.i + 1
    finding := false
    state := .detect }

def stringArg (brk : List Nat) (s : Scan) : Except Fault Scan := do
  let args ← s.args.store s.argsCnt (.str (brk.getD s.i 0 + 1))
  let (i, str) ← stringLoop brk s.str brk.length s.i
  return { s with
    args := args
    argsCnt := s.argsCnt + 1
    i := i
    str := str
    finding := false
    state := .detect }

def goOn : Except Fault Scan → Turn Scan (Except Fault Scan)
  | .ok s => .again s
  | .error f => .stop (.error f)

def scanTurn (brk : List Nat) (s : Scan) : Turn Scan (Except Fault Scan) :=
  if s.finding then
    match s.state with
    | .detect => goOn (detect brk s)
    | .int => goOn (intArg brk s)
    | .string => goOn (stringArg brk s)
  else if s.i < brk.length - 1 then .again { s with finding := true }
  else .stop (.ok s)

def scanStart (str : Buf) (args : Args) : Scan where
  i := 0
  argsCnt := 1
  state := .detect
  finding := false
  str := str
  args := args

def intArgs (m : Buf) : List Nat → Nat → Args → Except Fault Args
  | [], _, args => .ok args
  | p :: ps, i, args => do
    let args ← args.store (i + 1) (.int (strtol (m.cstr (p + 1))))
    intArgs m ps (i + 1) args

def zeroBrk (m : Buf) (brk : List Nat) : Buf := brk.foldl (fun m p => m.set p 0) m

def quotationCnt (m : Buf) (brk : List Nat) : Nat :=
  brk.tail.countP fun p => m.peek p = '"'.toUInt8

/-- The line and the arguments that `get_args` leaves behind, if `fuel` turns of its loop are
enough. -/
def getArgs (fuel : Nat) (str : Buf) (args : Args) : Option (Except Fault (Buf × Args)) :=
  let brk := pbrk str
  if brk.length = 0 then some (.ok (str, args.setFirst (.int (-1))))
  else if brk.length = 1 then some (.ok (str, args.setFirst (.int (-2))))
  else
    let first := brk.getD 0 0
    let last := brk.getD (brk.length - 1) 0
    if str.peek first = '('.toUInt8 ∧ str.peek last = ')'.toUInt8 then
      if brk.length = 2 then
        if ((str.drop (first + 1)).take (last - (first + 1))).all (· = ' '.toUInt8) then
          some (.ok (str.set first 0, args.setFirst (.int 0)))
        else
          let v := strtol (str.cstr (first + 1))
          some (.ok (str.set first 0, (args.setFirst (.int 1)).setSecond (.int v)))
      else if quotationCnt str brk = 0 then
        let str := zeroBrk str brk
        some ((intArgs str brk 0 (args.setFirst (.int 0))).map fun args =>
          (str, args.setFirst (.int (brk.length - 1))))
      else if quotationCnt str brk % 2 ≠ 0 then some (.ok (str, args.setFirst (.int (-2))))
      else
        (Loop.iterate (scanTurn brk) fuel (scanStart str (args.setFirst (.int 0)))).map fun r =>
          r.map fun s => (s.str.set first 0, s.args.setFirst (.int (s.argsCnt - 1)))
    else some (.ok (str, args.setFirst (.int (-2))))

end Mangoxx.Fcmd
