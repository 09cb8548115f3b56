import Mangoxx.Lib.Triple
import Mathlib.Algebra.Group.Int.Defs
import Mathlib.Algebra.Group.Nat.Defs

/-! `lzo1x_decompress` and `lzo1x_decompress_safe` of `minilzo.c`: one body, without and with
`LZO_TEST_OVERRUN`.  `lzo_uint` has 32 bits, and bytes are copied one at a time. -/

namespace Mangoxx.Lzo

open Lib Lib.Program

inductive Code
  | ok | inputOverrun | outputOverrun | lookbehindOverrun | inputNotConsumed
  deriving DecidableEq, Repr

/-- Why the function is left early: it returns, it touches memory outside the buffers or an
assertion fails, or a loop goes on for ever. -/
inductive Halt
  | returned (code : Code)
  | fault
  | spin
  deriving DecidableEq, Repr

/-- The arguments: the input, the room `*out_len` at `out`, and whether overruns are tested. -/
structure Args where
  input : List UInt8
  room : Nat
  safe : Bool

structure State where
  ip : Nat
  out : List UInt8
  deriving DecidableEq, Repr

abbrev LzoM := EStateM Halt State

def lzoUint (n : Nat) : Nat := n % 2 ^ 32

inductive Label
  | literalRun
  | firstLiteralRun
  | isMatch (t : Nat)
  | matchNext (t : Nat)
  deriving DecidableEq, Repr

namespace Args

variable (args : Args)

def peek (offset : Int) : LzoM UInt8 := do
  let s ← get
  let place := s.ip + offset
  if place < 0 then throw .fault
  match args.input[place.toNat]? with
  | some byte => return byte
  | none => throw .fault

def skip (n : Nat) : LzoM Unit := modify fun s => { s with ip := s.ip + n }

def fetch : LzoM UInt8 := do
  let byte ← args.peek 0
  skip 1
  return byte

def put (byte : UInt8) : LzoM Unit := do
  if args.room ≤ (← get).out.length then throw .fault
  modify fun s => { s with out := s.out ++ [byte] }

def lookAt (mPos : Int) : LzoM UInt8 := do
  let s ← get
  if mPos < 0 then throw .fault
  match s.out[mPos.toNat]? with
  | some byte => return byte
  | none => throw .fault

def assert (cond : Prop) [Decidable cond] : LzoM Unit := if cond then return else throw .fault

def overrun (code : Code) (cond : Prop) [Decidable cond] : LzoM Unit :=
  if args.safe ∧ cond then throw (.returned code) else return

def needIp (x : Nat) : LzoM Unit := do
  args.overrun .inputOverrun (args.input.length - (← get).ip < lzoUint x)

def needOp (x : Nat) : LzoM Unit := do
  args.overrun .outputOverrun (args.room - (← get).out.length < lzoUint x)

def testIv (x : Nat) : LzoM Unit := args.overrun .inputOverrun (2 ^ 32 - 511 < x)

def testOv (x : Nat) : LzoM Unit := args.overrun .outputOverrun (2 ^ 32 - 511 < x)

def testLb (mPos : Int) : LzoM Unit := do
  args.overrun .lookbehindOverrun (mPos < 0 ∨ (← get).out.length ≤ mPos)

def copyIn : (n : Nat) → LzoM Unit
  | 0 => return
  | n + 1 => do
    args.put (← args.fetch)
    copyIn n

def copyMatch (mPos : Int) : (n : Nat) → LzoM Unit
  | 0 => return
  | n + 1 => do
    args.put (← lookAt mPos)
    copyMatch (mPos + 1) n

def zeros (test : Nat → LzoM Unit) (t : Nat) : LzoM (Turn Nat Nat) := do
  if (← args.peek 0) = 0 then
    let t := lzoUint (t + 255)
    skip 1
    test t
    args.needIp 1
    return .again t
  else
    return .stop t

def longLength (test : Nat → LzoM Unit) (short : Nat) : LzoM Nat := do
  let t ← loop .spin (args.zeros test) (args.input.length + 1) 0
  return lzoUint (t + (short + (← args.fetch).toNat))

def literalLength (t : Nat) : LzoM Nat := if t = 0 then args.longLength args.testIv 15 else pure t

def matchLength (short t : Nat) : LzoM Nat := do
  if t = 0 then
    let t ← args.longLength args.testOv short
    args.needIp 2
    return t
  else
    return t

def matchDone : LzoM Label := do
  let t := ((← args.peek (-2)) &&& 3).toNat
  return if t = 0 then .literalRun else .matchNext t

def copy (mPos : Int) (t : Nat) : LzoM Label := do
  args.testLb mPos
  assert (0 < t)
  args.needOp (lzoUint (t + 3 - 1))
  args.copyMatch mPos (t + 2)
  args.matchDone

def turnLiteralRun : LzoM Label := do
  args.needIp 3
  let t := (← args.fetch).toNat
  if 16 ≤ t then return .isMatch t
  let t ← args.literalLength t
  assert (0 < t)
  args.needOp (t + 3)
  args.needIp (t + 6)
  args.copyIn (t + 3)
  return .firstLiteralRun

def turnFirstLiteralRun : LzoM Label := do
  let t := (← args.fetch).toNat
  if 16 ≤ t then return .isMatch t
  let op : Int := (← get).out.length
  let mPos := op - (1 + 0x800) - (t >>> 2 : Nat) - ((← args.fetch).toNat <<< 2 : Nat)
  args.testLb mPos
  args.needOp 3
  args.copyMatch mPos 3
  args.matchDone

def turnMatch (t : Nat) : LzoM (Turn Label Code) := do
  let op : Int := (← get).out.length
  if 64 ≤ t then
    let mPos := op - 1 - (t >>> 2 &&& 7 : Nat) - ((← args.fetch).toNat <<< 3 : Nat)
    return .again (← args.copy mPos (t >>> 5 - 1))
  else if 32 ≤ t then
    let t ← args.matchLength 31 (t &&& 31)
    let mPos := op - 1 - ((← args.peek 0).toNat >>> 2 + (← args.peek 1).toNat <<< 6 : Nat)
    skip 2
    return .again (← args.copy mPos t)
  else if 16 ≤ t then
    let mPos := op - ((t &&& 8) <<< 11 : Nat)
    let t ← args.matchLength 7 (t &&& 7)
    let mPos := mPos - ((← args.peek 0).toNat >>> 2 + (← args.peek 1).toNat <<< 6 : Nat)
    skip 2
    if mPos = op then
      let ip := (← get).ip
      return .stop (if ip = args.input.length then .ok
        else if ip < args.input.length then .inputNotConsumed else .inputOverrun)
    return .again (← args.copy (mPos - 0x4000) t)
  else
    let mPos := op - 1 - (t >>> 2 : Nat) - ((← args.fetch).toNat <<< 2 : Nat)
    args.testLb mPos
    args.needOp 2
    args.copyMatch mPos 2
    return .again (← args.matchDone)

def turnMatchNext (t : Nat) : LzoM Label := do
  assert (0 < t)
  assert (t < 4)
  args.needOp t
  args.needIp (t + 3)
  args.copyIn t
  return .isMatch (← args.fetch).toNat

def turn : Label → LzoM (Turn Label Code)
  | .literalRun => return .again (← args.turnLiteralRun)
  | .firstLiteralRun => return .again (← args.turnFirstLiteralRun)
  | .isMatch t => args.turnMatch t
  | .matchNext t => return .again (← args.turnMatchNext t)

def start : LzoM Label := do
  args.needIp 1
  if 17 < (← args.peek 0).toNat then
    let t := (← args.fetch).toNat - 17
    if t < 4 then return .matchNext t
    assert (0 < t)
    args.needOp t
    args.needIp (t + 3)
    args.copyIn t
    return .firstLiteralRun
  else
    return .literalRun

def body : LzoM Code := do
  loop .spin args.turn (args.input.length + 1) (← args.start)

/-- The value that is returned and the `*out_len` bytes at `out`; `none` if the function touches
memory that is not its own. -/
def decompress : Option (Code × List UInt8) :=
  match args.body ⟨0, []⟩ with
  | .ok code s => some (code, s.out)
  | .error (.returned code) s => some (code, s.out)
  | .error _ _ => none

end Args

def lzo1xDecompress (input : List UInt8) (room : Nat) : Option (Code × List UInt8) :=
  Args.decompress ⟨input, room, false⟩

def lzo1xDecompressSafe (input : List UInt8) (room : Nat) : Option (Code × List UInt8) :=
  Args.decompress ⟨input, room, true⟩

end Mangoxx.Lzo
