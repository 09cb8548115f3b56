import Mangoxx.Mango.Client

namespace Mangoxx.Mango

def payloadLen (n : Nat) : List UInt8 :=
  if n ≤ 125 then [0x80 ||| n.toUInt8]
  else if n ≤ 0xffff then [0x80 ||| 126, (n >>> 8).toUInt8, n.toUInt8]
  else [0x80 ||| 127, 0, 0, 0, 0, (n >>> 24).toUInt8, (n >>> 16).toUInt8, (n >>> 8).toUInt8,
    n.toUInt8]

structure MaskingKey where
  bytes : List UInt8
  length_eq : bytes.length = 4

def maskingKey (now now' : UInt32) : MaskingKey :=
  let key0 := now.toUInt8
  let key1 := (now' >>> 8).toUInt8
  let key2 := key0 &&& key1
  ⟨[key0, key1, key2, key1 ^^^ key2], rfl⟩

def MaskingKey.mask (key : MaskingKey) (payload : List UInt8) : List UInt8 :=
  payload.mapIdx fun k c => c ^^^ key.bytes.getD (k % 4) 0

def frame (type : WsFrameType) (key : MaskingKey) (payload : List UInt8) : List UInt8 :=
  (0x80 ||| type.opcode) :: payloadLen payload.length ++ key.bytes ++ key.mask payload

/-- What is sent: a pong has no payload, a close frame has status code 1000. -/
def framePayload (buf : List UInt8) : WsFrameType → List UInt8
  | .pong => []
  | .close => [0x03, 0xe8]
  | _ => buf

section Calls

variable (ans : Answers)

/-- Memory for a frame; the frames without data of the application are built on the stack. -/
def allocFrame (type : WsFrameType) (buflen : Nat) : MangoM Bool :=
  if type = .pong ∨ type = .close then return true
  else mangoPortMalloc ans (buflen + 14)

def sendFrame (socketfd : Int) (frame : List UInt8) : MangoM MangoErr := do
  let retval ←
    mangoPortWrite ans socketfd (frame.take (frame.length % 65536)) socketWriteTimeoutMs
  return if retval = frame.length then .ok else .mangoErr

def mangoWSFrameSend (socketfd : Int) (buf : List UInt8) (type : WsFrameType) :
    MangoM MangoErr := do
  let now ← mangoPortTimeNow ans
  let now' ← mangoPortTimeNow ans
  mangoEnsure (type ≠ .cont ∧ type ≠ .ping)
  let allocated ← allocFrame ans type (framePayload buf type).length
  if allocated then
    sendFrame ans socketfd (frame type (maskingKey now now') (framePayload buf type))
  else return .ok

def mangoWSClose (socketfd : Int) : MangoM MangoErr := mangoWSFrameSend ans socketfd [] .close

def mangoWSPong (socketfd : Int) : MangoM MangoErr := mangoWSFrameSend ans socketfd [] .pong

end Calls

end Mangoxx.Mango
