import Mathlib.Algebra.Group.Nat.Defs
import Mathlib.Logic.Function.Basic

namespace Mangoxx.Jpge

def outBufSize : Nat := 512

/-- A call of `m_pPut_buf`: a block of bytes, or `NULL` at the end of the image. -/
abbrev PutBufCall := Option (List UInt8)

/-- The fields of `struct jpeg_encoder` that the output uses.  `mPutBuf` answers the last of the
calls so far; beside the fields stand these calls and all bytes that were emitted. -/
structure Output where
  mPutBuf : List PutBufCall → Bool
  mOutBuf : Nat → UInt8
  /-- as an index into `m_out_buf` -/
  mPOutBuf : Nat
  mOutBufLeft : Nat
  mAllStreamWritesSucceeded : Bool
  calls : List PutBufCall
  emitted : List UInt8

namespace Output

def start (mPutBuf : List PutBufCall → Bool) (mOutBuf : Nat → UInt8) : Output :=
  ⟨mPutBuf, mOutBuf, 0, outBufSize, true, [], []⟩

def putBuf (data : PutBufCall) (o : Output) : Output :=
  if o.mAllStreamWritesSucceeded then
    let calls := o.calls ++ [data]
    { o with calls := calls, mAllStreamWritesSucceeded := o.mPutBuf calls }
  else o

def flushOutputBuffer (o : Output) : Output :=
  let o :=
    if o.mOutBufLeft ≠ outBufSize then
      o.putBuf (some ((List.range (outBufSize - o.mOutBufLeft)).map o.mOutBuf))
    else o
  { o with mPOutBuf := 0, mOutBufLeft := outBufSize }

def emitByte (i : UInt8) (o : Output) : Output :=
  let o := { o with
    mOutBuf := Function.update o.mOutBuf o.mPOutBuf i
    mPOutBuf := o.mPOutBuf + 1
    mOutBufLeft := (o.mOutBufLeft + (2 ^ 32 - 1)) % 2 ^ 32
    emitted := o.emitted ++ [i] }
  if o.mOutBufLeft = 0 then o.flushOutputBuffer else o

def emitWord (i : Nat) (o : Output) : Output :=
  emitByte (.ofNat (i &&& 0xFF)) (emitByte (.ofNat (i >>> 8)) o)

def emitMarker (marker : UInt8) (o : Output) : Output := emitByte marker (emitByte 0xFF o)

def emitBytes (bytes : List UInt8) (o : Output) : Output := bytes.foldl (fun o b => emitByte b o) o

variable (o : Output)

@[simp] theorem putBuf_emitted (data : PutBufCall) : (o.putBuf data).emitted = o.emitted := by
  rw [putBuf]
  split <;> rfl

@[simp] theorem flushOutputBuffer_emitted : o.flushOutputBuffer.emitted = o.emitted := by
  simp only [flushOutputBuffer]
  split
  · exact putBuf_emitted o _
  · rfl

@[simp] theorem emitByte_emitted (i : UInt8) : (emitByte i o).emitted = o.emitted ++ [i] := by
  simp only [emitByte]
  split
  · rw [flushOutputBuffer_emitted]
  · rfl

@[simp] theorem emitWord_emitted (i : Nat) :
    (emitWord i o).emitted = o.emitted ++ [.ofNat (i >>> 8), .ofNat (i &&& 0xFF)] := by
  simp [emitWord]

@[simp] theorem emitMarker_emitted (marker : UInt8) :
    (emitMarker marker o).emitted = o.emitted ++ [0xFF, marker] := by
  simp [emitMarker]

@[simp] theorem emitBytes_emitted (bytes : List UInt8) :
    (emitBytes bytes o).emitted = o.emitted ++ bytes := by
  induction bytes generalizing o with
  | nil => simp [emitBytes]
  | cons b bytes ih =>
    rw [emitBytes, List.foldl_cons, ← emitBytes, ih, emitByte_emitted, List.append_assoc]
    rfl

end Output

end Mangoxx.Jpge
