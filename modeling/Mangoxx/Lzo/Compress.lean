import Mangoxx.Lzo.Decompress

/-! `lzo1x_1_compress` of `minilzo.c`, with the dictionary of offsets that is cleared for every
block. Positions count from the start of the whole input; bytes are compared and copied one at a
time. -/

namespace Mangoxx.Lzo

open Lib Lib.Program

structure Work where
  dict : Vector UInt16 (2 ^ 14)
  out : List UInt8

abbrev CompressM := EStateM Halt Work

def dindex (dv : BitVec 32) : Fin (2 ^ 14) :=
  ((0x1824429d#32 * dv) >>> (32 - 14)).setWidth 14 |>.toFin

/-- The input and the address it stands at. -/
structure Source where
  input : List UInt8
  addr : Nat

namespace Source

variable (src : Source)

def byteAt (place : Nat) : CompressM UInt8 :=
  match src.input[place]? with
  | some byte => return byte
  | none => throw .fault

def getLE32 (place : Nat) : CompressM (BitVec 32) := do
  let b0 ← src.byteAt place
  let b1 ← src.byteAt (place + 1)
  let b2 ← src.byteAt (place + 2)
  let b3 ← src.byteAt (place + 3)
  return b3.toBitVec ++ b2.toBitVec ++ b1.toBitVec ++ b0.toBitVec

def emit (bytes : List UInt8) : CompressM Unit := modify fun w => { w with out := w.out ++ bytes }

def orBack (t : Nat) : CompressM Unit := do
  let w ← get
  if w.out.length < 2 then throw .fault
  set { w with out := w.out.modify (w.out.length - 2) (· ||| UInt8.ofNat t) }

def copyLiterals (ii : Nat) : (t : Nat) → CompressM Unit
  | 0 => return
  | t + 1 => do
    emit [← src.byteAt ii]
    copyLiterals (ii + 1) t

def lengthBytes (tt : Nat) : List UInt8 :=
  if 255 < tt then 0 :: lengthBytes (tt - 255) else [UInt8.ofNat tt]
termination_by tt
decreasing_by omega

def runHeader (t : Nat) : List UInt8 :=
  if t ≤ 18 then [UInt8.ofNat (t - 3)] else 0 :: lengthBytes (t - 18)

def literals (ii t : Nat) : CompressM Unit := do
  if t ≠ 0 then
    if t ≤ 3 then
      orBack t
      src.copyLiterals ii t
    else
      emit (runHeader t)
      src.copyLiterals ii t

def matchBytes (mLen mOff : Nat) : List UInt8 :=
  if mLen ≤ 8 ∧ mOff ≤ 0x800 then
    let mOff := mOff - 1
    [UInt8.ofNat ((mLen - 1) <<< 5 ||| (mOff &&& 7) <<< 2), UInt8.ofNat (mOff >>> 3)]
  else if mOff ≤ 0x4000 then
    let mOff := mOff - 1
    (if mLen ≤ 33 then [UInt8.ofNat (32 ||| (mLen - 2))]
      else (32 ||| 0) :: lengthBytes (mLen - 33)) ++
      [UInt8.ofNat (mOff <<< 2), UInt8.ofNat (mOff >>> 6)]
  else
    let mOff := mOff - 0x4000
    (if mLen ≤ 9 then [UInt8.ofNat (16 ||| (mOff >>> 11 &&& 8) ||| (mLen - 2))]
      else UInt8.ofNat (16 ||| (mOff >>> 11 &&& 8)) :: lengthBytes (mLen - 9)) ++
      [UInt8.ofNat (mOff <<< 2), UInt8.ofNat (mOff >>> 6)]

/-- One comparison behind the first four bytes; the end of the block is looked at after every
eighth. -/
def extendTurn (ip mPos ipEnd mLen : Nat) : CompressM (Turn Nat Nat) := do
  if (← src.byteAt (ip + mLen)) ≠ (← src.byteAt (mPos + mLen)) then return .stop mLen
  let mLen := mLen + 1
  if (mLen - 4) % 8 = 0 ∧ ipEnd ≤ ip + mLen then return .stop mLen
  return .again mLen

def matchLen (ip mPos ipEnd : Nat) : CompressM Nat :=
  loop .spin (src.extendTurn ip mPos ipEnd) (src.input.length + 1) 4

inductive CoreLabel
  | literal
  | next
  deriving DecidableEq

structure Core where
  label : CoreLabel
  ip : Nat
  ii : Nat
  ti : Nat

/-- From one label of `do_compress` to the next; `base` is its `in`.  At the end `ii - ti` is
left. -/
def coreTurn (base ipEnd : Nat) (c : Core) : CompressM (Turn Core Nat) := do
  match c.label with
  | .literal => return .again { c with label := .next, ip := c.ip + (1 + (c.ip - c.ii) >>> 5) }
  | .next =>
    if ipEnd ≤ c.ip then return .stop (c.ii - c.ti)
    let dv ← src.getLE32 c.ip
    let mPos := base + ((← get).dict[dindex dv]).toNat
    modify fun w => { w with dict := w.dict.set (dindex dv) (UInt16.ofNat (c.ip - base)) }
    if dv ≠ (← src.getLE32 mPos) then return .again { c with label := .literal }
    let ii := c.ii - c.ti
    src.literals ii (c.ip - ii)
    let mLen ← src.matchLen c.ip mPos ipEnd
    emit (matchBytes mLen (c.ip - mPos))
    return .again { label := .next, ip := c.ip + mLen, ii := c.ip + mLen, ti := 0 }

def doCompress (base len ti : Nat) : CompressM Nat := do
  let ip := base + (if ti < 4 then 4 - ti else 0)
  let left ← loop .spin (src.coreTurn base (base + len - 20)) (2 * src.input.length + 1)
    ⟨.literal, ip, base, ti⟩
  return base + len - left

/-- One block, with `l` bytes left and `t` bytes not yet written; `l + t` if the blocks end here. -/
def blockTurn (v : Nat × Nat) : CompressM (Turn (Nat × Nat) Nat) := do
  let (l, t) := v
  if l ≤ 20 then return .stop (t + l)
  let ip := src.input.length - l
  let ll := min l 49152
  let llEnd := lzoUint (src.addr + ip + ll)
  if lzoUint (llEnd + (t + ll) >>> 5) ≤ llEnd then return .stop (t + l)
  modify fun w => { w with dict := .replicate _ 0 }
  let t ← src.doCompress ip ll t
  return .again (l - ll, t)

def lastLiterals (t : Nat) : CompressM Unit := do
  if 0 < t then
    let ii := src.input.length - t
    if (← get).out = [] ∧ t ≤ 238 then emit [UInt8.ofNat (17 + t)]
    else if t ≤ 3 then orBack t
    else emit (runHeader t)
    src.copyLiterals ii t

def compress : CompressM Unit := do
  let t ← loop .spin src.blockTurn (src.input.length + 1) (src.input.length, 0)
  src.lastLiterals t
  emit [16 ||| 1, 0, 0]

end Source

/-- The bytes that are written for an input at an address, whatever `wrkmem` holds; `none` if other
memory is touched. -/
def lzo1x1Compress (input : List UInt8) (addr : Nat) (wrkmem : Vector UInt16 (2 ^ 14)) :
    Option (List UInt8) :=
  match (Source.mk input addr).compress ⟨wrkmem, []⟩ with
  | .ok _ w => some w.out
  | .error _ _ => none

end Mangoxx.Lzo
