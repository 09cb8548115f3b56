import Mangoxx.Mango.Helper
import Mangoxx.Mango.WebSocket

/-! `mangoDP.c`: the processors of what comes in behind the headers, and of what goes out. -/

namespace Mangoxx.Mango

open Mangoxx.Lib Mangoxx.Lib.Program Mangoxx.Fcmd

structure Processed where
  err : MangoErr
  processed : Nat
  completed : Bool

structure DpVars where
  buf : Nat
  buflen : Nat
  processed : Nat

def DpVars.ret (v : DpVars) : Processed :=
  ⟨if v.processed ≠ 0 then .ok else .moreDataNeeded, v.processed, false⟩

def DpVars.fail (v : DpVars) (err : MangoErr) : Processed := ⟨err, v.processed, false⟩

def DpVars.finish (v : DpVars) : Processed := ⟨.ok, v.processed, true⟩

/-- `MOVETO` without the state; `buflen` has 16 bits. -/
def DpVars.advance (v : DpVars) (processSz : Nat) : DpVars :=
  ⟨v.buf + processSz, (v.buflen + 65536 - processSz) % 65536, v.processed + processSz⟩

section Raw

variable (ans : Answers)

def mangoIDPRaw (buf buflen : Nat) : MangoM Processed := do
  let hc ← client
  let args := hc.idpArgsRaw
  if args.fileSz = 0 then return ⟨.ok, 0, true⟩
  else if buflen = 0 then return ⟨.moreDataNeeded, 0, false⟩
  else
    let fileSzProcessed := args.fileSzProcessed + buflen.toUInt32
    update fun hc =>
      { hc.store (buf + buflen) [0] with idpArgsRaw.fileSzProcessed := fileSzProcessed }
    let err ← userFunc ans (.httpDataReceived (hc.bytes buf buflen))
    return ⟨if err ≠ .ok then .appAborted else .ok, buflen, fileSzProcessed = args.fileSz⟩

def mangoODPRaw (buf : List UInt8) : MangoM Processed := do
  let hc ← client
  let args := hc.odpArgsRaw
  let fileSzProcessed := args.fileSzProcessed + buf.length.toUInt32
  if fileSzProcessed > args.fileSz then return ⟨.contentLength, 0, false⟩
  else if buf.length = 0 then return ⟨.ok, 0, true⟩
  else
    let retval ← mangoSocketWrite ans buf socketWriteTimeoutMs
    if retval = buf.length then
      update fun hc => { hc with odpArgsRaw.fileSzProcessed := fileSzProcessed }
      return ⟨.ok, buf.length, false⟩
    else return ⟨.writeTimeout, 0, false⟩

end Raw

section Chunked

variable (ans : Answers)

/-- What stands in the working buffer from `i` on up to the end of the line or a NUL. -/
def MangoHttpClient.line (hc : MangoHttpClient) (i : Nat) : List UInt8 :=
  (hc.workingBuffer.drop i).takeWhile fun c => c ≠ 10 ∧ c ≠ 0

/-- `sz`, which has 8 bits, is counted; the place in the buffer is moved by the whole line. -/
def DpVars.nextLine (v : DpVars) (len : Nat) : DpVars :=
  ⟨v.buf + len, (v.buflen + 65536 - len % 256) % 65536, v.processed + len % 256⟩

def chunkSize (v : DpVars) : MangoM (Turn DpVars Processed) := do
  let hc ← client
  match hc.workingBuffer[v.buf + (hc.line v.buf).length]? with
  | none => throw .fault
  | some c =>
    if c = 0 then return .stop v.ret
    else
      match mangoHelperHexstr2dec (hc.workingBuffer.drop v.buf) with
      | none =>
        update fun hc => { hc with idpArgsChunked.chunkSz := 0 }
        return .stop (v.fail .dataProcessing)
      | some chunkSz =>
        update fun hc => { hc with idpArgsChunked := ⟨if chunkSz ≠ 0 then 2 else 4, chunkSz, 0⟩ }
        return .again (v.nextLine ((hc.line v.buf).length + 1))

def IDPArgsChunked.maxReadSz (args : IDPArgsChunked) (buflen : Nat) : Nat :=
  min buflen (args.chunkSz - args.chunkSzProcessed).toNat

def IDPArgsChunked.data (args : IDPArgsChunked) (n : Nat) : IDPArgsChunked :=
  ⟨if args.chunkSz = args.chunkSzProcessed + n.toUInt32 then 3 else 2, args.chunkSz,
    args.chunkSzProcessed + n.toUInt32⟩

def chunkData (v : DpVars) : MangoM (Turn DpVars Processed) := do
  let hc ← client
  let maxReadSz := hc.idpArgsChunked.maxReadSz v.buflen
  mangoEnsure (maxReadSz ≠ 0)
  let err ← userFunc ans (.httpDataReceived (hc.bytes v.buf maxReadSz))
  if err ≠ .ok then return .stop (v.fail .appAborted)
  else
    update fun hc => { hc with idpArgsChunked := hc.idpArgsChunked.data maxReadSz }
    return .again (v.advance maxReadSz)

def chunkEnd (v : DpVars) : MangoM (Turn DpVars Processed) := do
  let hc ← client
  if v.buflen < 2 then return .stop v.ret
  else if hc.bytes v.buf 2 = text "\r\n" then
    update fun hc => { hc with idpArgsChunked.state := 1 }
    return .again (v.advance 2)
  else return .stop (v.fail .dataProcessing)

def trailer (v : DpVars) : MangoM (Turn DpVars Processed) := do
  let hc ← client
  if v.buflen < 2 then return .stop v.ret
  else if v.buflen = 2 ∧ hc.bytes v.buf 2 = text "\r\n" then return .stop v.finish
  else if v.buflen > 3 ∧ hc.bytes (v.buf + v.buflen - 4) 4 = text "\r\n\r\n" then
    let _ ← userFunc ans (.httpRespReceived (hc.bytes v.buf v.buflen) 0)
    return .stop v.finish
  else return .stop v.ret

def chunkedTurn (v : DpVars) : MangoM (Turn DpVars Processed) := do
  let hc ← client
  if v.buflen = 0 then return .stop v.ret
  else
    match hc.idpArgsChunked.state with
    | 1 => chunkSize v
    | 2 => chunkData ans v
    | 3 => chunkEnd v
    | 4 => trailer ans v
    | _ => throw .spin

def mangoIDPChunked (buf buflen : Nat) : MangoM Processed := do
  let hc ← client
  loop .spin (chunkedTurn ans) (2 * hc.workingBuffer.length + 2) ⟨buf, buflen, 0⟩

/-- The bytes that a chunk has beside its data, and its string termination; the working buffer has
more. -/
def extraChunkSz : Nat := 13

def chunk (data : List UInt8) : List UInt8 :=
  mangoHelperDec2hexstr data.length.toUInt32 ++ text "\r\n" ++ data ++ text "\r\n"

/-- One turn of the loop; what is left to send stands in `sent.2`, what has been sent is counted in
`sent.1`. -/
def odpChunkedTurn (sent : Nat × List UInt8) : MangoM (Turn (Nat × List UInt8) Processed) := do
  if sent.2 = [] then return .stop ⟨.ok, sent.1, false⟩
  else
    let data := sent.2.take (wbTotSz - extraChunkSz)
    let chunk := chunk data
    update fun hc => hc.store 0 (chunk ++ [0])
    let retval ← mangoSocketWrite ans chunk socketWriteTimeoutMs
    if retval = chunk.length then
      return .again (sent.1 + data.length, sent.2.drop (wbTotSz - extraChunkSz))
    else return .stop ⟨.writeTimeout, sent.1, false⟩

def mangoODPChunked (buf : List UInt8) : MangoM Processed := do
  if buf = [] then
    let chunk := text "0\r\n\r\n"
    update fun hc => hc.store 0 chunk
    let retval ← mangoSocketWrite ans chunk socketWriteTimeoutMs
    return if retval = chunk.length then ⟨.ok, chunk.length, true⟩ else ⟨.writeTimeout, 0, false⟩
  else loop .spin (odpChunkedTurn ans) (buf.length + 1) (0, buf)

end Chunked

section Websocket

namespace IDPArgsWebsocket

def fin (args : IDPArgsWebsocket) : Bool := args.header.1 &&& 0x80 ≠ 0

def opcode (args : IDPArgsWebsocket) : UInt8 := args.header.1 &&& 0x0F

def control (args : IDPArgsWebsocket) : Bool := args.opcode &&& 0x08 ≠ 0

def maxReadSz (args : IDPArgsWebsocket) (buflen : Nat) : Option Nat :=
  if args.frameSz.toNat ≤ wbTotSz then
    if args.frameSz.toNat > buflen then none else some args.frameSz.toNat
  else some (min buflen (args.frameSz - args.frameSzProcessed).toNat)

def lastBytes (args : IDPArgsWebsocket) (n : Nat) : Bool :=
  args.frameSzProcessed + n.toUInt32 = args.frameSz

def payload (args : IDPArgsWebsocket) (n : Nat) : IDPArgsWebsocket :=
  { args with
    state := if args.lastBytes n then 1 else 2
    frameSzProcessed := args.frameSzProcessed + n.toUInt32
    frameID :=
      if args.lastBytes n ∧ args.fin ∧ ¬ args.control then args.frameID + 1 else args.frameID }

end IDPArgsWebsocket

inductive FrameTurn
  | ret (args : IDPArgsWebsocket)
  | error (args : IDPArgsWebsocket)
  | moveTo (args : IDPArgsWebsocket) (processSz : Nat)
  | payload (maxReadSz : Nat)
  | spin

def bigEndian (m : Buf) (i n : Nat) : UInt32 :=
  ((m.drop i).take n).foldl (fun acc c => acc <<< 8 ||| c.toUInt32) 0

/-- One turn, up to the point where the bytes of a payload are processed. -/
def frameTurn (m : Buf) (args : IDPArgsWebsocket) (v : DpVars) : FrameTurn :=
  if v.buflen = 0 then .ret args
  else
    match args.state with
    | 1 =>
      if v.buflen < 2 then .ret args
      else
        let args := { args with
          header := (m.peek v.buf, m.peek (v.buf + 1))
          frameSzProcessed := 0 }
        let len := args.header.2 &&& 0x7F
        if args.header.2 &&& 0x80 ≠ 0 then .error args
        else if len < 126 then
          .moveTo { args with
            state := 2
            frameSz := len.toUInt32 } 2
        else if len = 126 then
          if v.buflen < 4 then .ret args
          else .moveTo { args with
            state := 2
            frameSz := bigEndian m (v.buf + 2) 2 } 4
        else
          if v.buflen < 10 then .ret args
          else if bigEndian m (v.buf + 2) 4 ≠ 0 then .error args
          else .moveTo { args with
            state := 2
            frameSz := bigEndian m (v.buf + 6) 4 } 10
    | 2 =>
      match args.maxReadSz v.buflen with
      | none => .ret args
      | some n => .payload n
    | _ => .spin

variable (ans : Answers)

def setArgs (args : IDPArgsWebsocket) : MangoM PUnit :=
  update fun hc => { hc with idpArgsWebsocket := args }

def processPayload (v : DpVars) (maxReadSz : Nat) : MangoM (Turn DpVars Processed) := do
  let hc ← client
  let args := hc.idpArgsWebsocket
  if args.control then
    if args.opcode = WsFrameType.close.opcode then
      let _ ← userFunc ans .websocketClose
      let _ ← mangoWSClose ans hc.socketfd
      return .stop (v.fail .websocketClosed)
    else if args.opcode = WsFrameType.ping.opcode then
      let _ ← userFunc ans .websocketPing
      let _ ← mangoWSPong ans hc.socketfd
      setArgs (args.payload maxReadSz)
      return .again (v.advance maxReadSz)
    else return .stop (v.fail .dataProcessing)
  else
    let _ ← userFunc ans (.websocketDataReceived (hc.bytes v.buf maxReadSz) args.frameID)
    setArgs (args.payload maxReadSz)
    return .again (v.advance maxReadSz)

def websocketTurn (v : DpVars) : MangoM (Turn DpVars Processed) := do
  let hc ← client
  match frameTurn hc.workingBuffer hc.idpArgsWebsocket v with
  | .ret args =>
    setArgs args
    return .stop v.ret
  | .error args =>
    setArgs args
    return .stop (v.fail .dataProcessing)
  | .moveTo args processSz =>
    setArgs args
    return .again (v.advance processSz)
  | .payload maxReadSz => processPayload ans v maxReadSz
  | .spin => throw .spin

def mangoIDPWebsocket (buf buflen : Nat) : MangoM Processed :=
  loop .spin (websocketTurn ans) (2 * buflen + 2) ⟨buf, buflen, 0⟩

end Websocket

end Mangoxx.Mango
