import Mangoxx.Fcmd.CStr
import Mangoxx.Lib.Program

namespace Mangoxx.Mango

open Mangoxx.Lib Mangoxx.Fcmd

inductive MangoErr
  | ok
  | mangoErr
  | connection
  | aborted
  | apiCallNotSupported
  | invalidReqHeaders
  | respTimeout
  | respFormat
  | dataProcessing
  | workBufSmall
  | contentLength
  | writeTimeout
  | tempBufSmall
  | appAborted
  | moreDataNeeded
  | websocketClosed
  | http (statusCode : Nat)
  deriving DecidableEq

inductive MangoEvent
  | none
  | entry
  | process
  | read
  | write
  | timeout
  | apicallHttpRequestProcess
  | apicallHttpDataSend
  | apicallWsPoll
  | apicallWsFrameSend
  | apicallWsClose
  deriving DecidableEq

inductive MangoHttpMethod
  | head
  | get
  | post
  | postChunked
  | put
  deriving DecidableEq

inductive WsFrameType
  | cont
  | text
  | binary
  | close
  | ping
  | pong
  deriving DecidableEq

def WsFrameType.opcode : WsFrameType → UInt8
  | cont => 0x00
  | text => 0x01
  | binary => 0x02
  | close => 0x08
  | ping => 0x09
  | pong => 0x0A

abbrev DataFrameType := { type : WsFrameType // type = .text ∨ type = .binary }

/-- What the callback of the application gets, with the fields that are set for it. -/
inductive MangoArg
  | httpRequestReady (buf : List UInt8)
  | httpRespReceived (buf : List UInt8) (statusCode : Nat)
  | httpDataReceived (buf : List UInt8)
  | websocketDataReceived (buf : List UInt8) (frameID : UInt8)
  | websocketClose
  | websocketPing
  deriving DecidableEq

inductive SmState
  | aborted
  | disconnected
  | httpConnected
  | httpSendingHeaders
  | httpRecvingHeaders
  | httpRecvingData
  | httpSendingData
  | httpSendingPacket
  | wsConnected
  | wsPolling
  | wsSendingFrame
  | wsClosing
  deriving DecidableEq

inductive InputDataProcessor
  | raw
  | chunked
  | websocket
  deriving DecidableEq

/-- `mangoODP_websocket` is never assigned. -/
inductive OutputDataProcessor
  | raw
  | chunked
  deriving DecidableEq

inductive ApiCallArgs
  | null
  | httpDataSend (buf : List UInt8)
  | wsPoll (timeout : UInt32)
  | wsFrameSend (buf : List UInt8) (type : DataFrameType)
  deriving DecidableEq

structure ArgsRaw where
  fileSz : UInt32
  fileSzProcessed : UInt32

structure IDPArgsChunked where
  state : UInt8
  chunkSz : UInt32
  chunkSzProcessed : UInt32

structure IDPArgsWebsocket where
  state : UInt8
  header : UInt8 × UInt8
  frameSz : UInt32
  frameSzProcessed : UInt32
  frameID : UInt8

structure Stats where
  txBytes : UInt32
  rxBytes : UInt32
  time : UInt32

def workingBufferSz : Nat := 4096

/-- The buffer without its last byte, which is for string termination. -/
def wbTotSz : Nat := workingBufferSz - 1

/-- `mangoHttpClient_t`.  Every data processor is assigned together with its own arguments, so
`dataProcessorArgs` is left out. -/
structure MangoHttpClient where
  socketfd : Int
  secure : UInt8
  httpMethod : MangoHttpMethod
  httpResponseStatusCode : Nat
  workingBuffer : Buf
  workingBufferIndexLeft : Nat
  workingBufferIndexRight : Nat
  smExitError : MangoErr
  smTimeout : UInt32
  smEventTimeout : UInt32
  smAPICallArgs : ApiCallArgs
  smEntryTimestamp : UInt32
  subscribedEvent : MangoEvent
  curState : SmState
  nxtState : SmState
  /-- Whether it is not `NULL`. -/
  userFunc : Bool
  dataProcessorCompleted : Bool
  inputDataProcessor : Option InputDataProcessor
  outputDataProcessor : Option OutputDataProcessor
  idpArgsRaw : ArgsRaw
  idpArgsChunked : IDPArgsChunked
  idpArgsWebsocket : IDPArgsWebsocket
  odpArgsRaw : ArgsRaw
  stats : Stats

inductive Action
  | timeNow
  | malloc (sz : Nat)
  | read (socketfd : Int) (datalen : Nat) (timeout : UInt32)
  | write (socketfd : Int) (data : List UInt8) (timeout : UInt32)
  | sslread (socketfd : Int) (datalen : Nat) (timeout : UInt32)
  | sslwrite (socketfd : Int) (data : List UInt8) (timeout : UInt32)
  | userFunc (arg : MangoArg)
  deriving DecidableEq

/-- The client, and the calls it has made, the last one first. -/
structure World where
  hc : MangoHttpClient
  trace : List Action

inductive Stop
  /-- `MANGO_ENSURE` found a condition violated and loops. -/
  | ensure
  /-- The behaviour is undefined. -/
  | fault
  /-- A loop was not left. -/
  | spin
  deriving DecidableEq

abbrev MangoM := EStateM Stop World

/-- The answers to the calls of one step, by the number of calls that have been made before. -/
structure Answers where
  timeNow : Nat → UInt32
  malloc : Nat → Bool
  /-- The bytes that are read, `none` for a connection error. -/
  read : Nat → Option (List UInt8)
  write : Nat → Int
  userFunc : Nat → MangoErr

def client : MangoM MangoHttpClient := return (← get).hc

def edit {α : Type} (f : MangoHttpClient → α × MangoHttpClient) : MangoM α :=
  modifyGet fun w => ((f w.hc).1, { w with hc := (f w.hc).2 })

def update (f : MangoHttpClient → MangoHttpClient) : MangoM PUnit :=
  modify fun w => { w with hc := f w.hc }

def act (a : Action) : MangoM Nat :=
  modifyGet fun w => (w.trace.length, { w with trace := a :: w.trace })

def mangoEnsure (cond : Prop) [Decidable cond] : MangoM PUnit :=
  if cond then pure () else throw .ensure

section Calls

variable (ans : Answers)

def mangoPortTimeNow : MangoM UInt32 := do
  let n ← act .timeNow
  return ans.timeNow n

def mangoPortMalloc (sz : Nat) : MangoM Bool := do
  let n ← act (.malloc sz)
  return ans.malloc n

def Answers.received (n datalen : Nat) : Option (List UInt8) := (ans.read n).map (List.take datalen)

def mangoPortRead (socketfd : Int) (datalen : Nat) (timeout : UInt32) :
    MangoM (Option (List UInt8)) := do
  let n ← act (.read socketfd datalen timeout)
  return ans.received n datalen

def mangoPortWrite (socketfd : Int) (data : List UInt8) (timeout : UInt32) : MangoM Int := do
  let n ← act (.write socketfd data timeout)
  return ans.write n

def callSslread (hc : MangoHttpClient) (datalen : Nat) (timeout : UInt32) :
    MangoM (Option (List UInt8)) := do
  let n ← act (.sslread hc.socketfd datalen timeout)
  return ans.received n datalen

def callSslwrite (hc : MangoHttpClient) (data : List UInt8) (timeout : UInt32) : MangoM Int := do
  let n ← act (.sslwrite hc.socketfd data timeout)
  return ans.write n

def userFunc (arg : MangoArg) : MangoM MangoErr := do
  let hc ← client
  if hc.userFunc then
    let n ← act (.userFunc arg)
    return ans.userFunc n
  else throw .fault

def socketWriteTimeoutMs : UInt32 := 10000

def portRead (hc : MangoHttpClient) (datalen : Nat) (timeout : UInt32) :
    MangoM (Option (List UInt8)) :=
  if hc.secure = 0 then mangoPortRead ans hc.socketfd datalen timeout
  else callSslread ans hc datalen timeout

def portWrite (hc : MangoHttpClient) (data : List UInt8) (timeout : UInt32) : MangoM Int :=
  if hc.secure = 0 then mangoPortWrite ans hc.socketfd data timeout
  else callSslwrite ans hc data timeout

def mangoSocketRead (datalen : Nat) (timeout : UInt32) : MangoM (Option (List UInt8)) := do
  let hc ← client
  let retval ← portRead ans hc datalen (if timeout = 0 then 1 else timeout)
  update fun hc =>
    { hc with stats.rxBytes := hc.stats.rxBytes + (retval.getD []).length.toUInt32 }
  return retval

def mangoSocketWrite (data : List UInt8) (timeout : UInt32) : MangoM Int := do
  let hc ← client
  let retval ← portWrite ans hc data (if timeout = 0 then 1 else timeout)
  update fun hc => { hc with stats.txBytes := hc.stats.txBytes + retval.toNat.toUInt32 }
  return retval

end Calls

section WorkingBuffer

def MangoHttpClient.bytes (hc : MangoHttpClient) (i n : Nat) : List UInt8 :=
  (hc.workingBuffer.drop i).take n

def MangoHttpClient.store (hc : MangoHttpClient) (i : Nat) (data : List UInt8) : MangoHttpClient :=
  { hc with
    workingBuffer := hc.workingBuffer.take i ++ data ++ hc.workingBuffer.drop (i + data.length) }

def MangoHttpClient.wbUsedSz (hc : MangoHttpClient) : Nat :=
  hc.workingBufferIndexRight - hc.workingBufferIndexLeft

def MangoHttpClient.wbFreeSz (hc : MangoHttpClient) : Nat :=
  workingBufferSz - hc.workingBufferIndexRight - 1

def MangoHttpClient.wbNullTerminate (hc : MangoHttpClient) : MangoHttpClient :=
  hc.store hc.workingBufferIndexRight [0]

def MangoHttpClient.shrink (hc : MangoHttpClient) : MangoHttpClient :=
  if hc.workingBufferIndexLeft = 0 then hc.wbNullTerminate
  else
    { hc.store 0 (hc.bytes hc.workingBufferIndexLeft hc.wbUsedSz) with
      workingBufferIndexLeft := 0
      workingBufferIndexRight := hc.wbUsedSz }.wbNullTerminate

def mangoWBShrink : MangoM PUnit := do
  let hc ← client
  mangoEnsure (hc.workingBufferIndexRight ≤ wbTotSz)
  mangoEnsure (hc.workingBufferIndexLeft ≤ hc.workingBufferIndexRight)
  update MangoHttpClient.shrink

end WorkingBuffer

end Mangoxx.Mango
