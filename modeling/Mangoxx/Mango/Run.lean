import Mangoxx.Lib.History
import Mangoxx.Mango.StateMachine

namespace Mangoxx.Mango

open Mangoxx.Lib.Program Mangoxx.Fcmd

section Requests

def MangoHttpClient.token (token : List UInt8) (hc : MangoHttpClient) : Option MangoHttpClient :=
  if hc.workingBufferIndexRight + token.length > wbTotSz then none
  else some { hc.store hc.workingBufferIndexRight token with
    workingBufferIndexRight := hc.workingBufferIndexRight + token.length }

def appendToken (r : MangoHttpClient × Bool) (token : List UInt8) : MangoHttpClient × Bool :=
  if r.2 then
    match r.1.token token with
    | some hc => (hc, true)
    | none => (r.1, false)
  else r

def MangoHttpClient.tokens (hc : MangoHttpClient) (tokens : List (List UInt8)) :
    MangoHttpClient × Bool :=
  tokens.foldl appendToken (hc, true)

def MangoHttpMethod.token : MangoHttpMethod → Option (List UInt8)
  | get => some (text "GET ")
  | head => some (text "HEAD ")
  | post => some (text "POST ")
  | put => some (text "PUT ")
  | postChunked => none

def requestNew (URI : List UInt8) (method : MangoHttpMethod) (hc : MangoHttpClient) :
    MangoErr × MangoHttpClient :=
  let hc := { hc with
    httpMethod := method
    workingBufferIndexRight := 0
    workingBufferIndexLeft := 0 }
  let request :=
    match method.token with
    | some token => hc.tokens [token, URI, text " HTTP/1.1\r\n\r\n"]
    | none => (hc, false)
  if request.2 then (.ok, request.1.wbNullTerminate)
  else
    (.mangoErr, { request.1 with
      workingBuffer := List.replicate workingBufferSz 0
      workingBufferIndexLeft := 0
      workingBufferIndexRight := 0 })

def mangoHttpRequestNew (URI : List UInt8) (method : MangoHttpMethod) : MangoM MangoErr :=
  edit (requestNew URI method)

/-- Headers go in front of the last end of line of the request, which is restored on an error. -/
def headerSet (headerName headerValue : List UInt8) (hc : MangoHttpClient) :
    MangoErr × MangoHttpClient :=
  let prevRequestLen := hc.workingBufferIndexRight - 2
  let request := { hc with workingBufferIndexRight := prevRequestLen }.tokens
    [headerName, text ": ", headerValue, text "\r\n\r\n"]
  if request.2 then (.ok, request.1)
  else
    (.mangoErr, { request.1.store prevRequestLen (text "\r\n") with
      workingBufferIndexRight := prevRequestLen + 2 })

def mangoHttpHeaderSet (headerName headerValue : List UInt8) : MangoM MangoErr := do
  let hc ← client
  mangoEnsure (hc.workingBufferIndexRight > 2)
  edit (headerSet headerName headerValue)

end Requests

/-- A call of the client API.  The functions that only build a request come first. -/
inductive Call
  | httpRequestNew (URI : List UInt8) (method : MangoHttpMethod)
  | httpHeaderSet (headerName headerValue : List UInt8)
  | httpRequestProcess (userFunc : Bool)
  | httpDataSend (buf : List UInt8)
  | wsPoll (timeout : UInt32)
  | wsFrameSend (buf : List UInt8) (type : WsFrameType)
  | wsClose

section Calls

variable (ans : Answers)

/-- What a call does before `mangoSM_PROCESS`; its result is the event that is processed, if any.
`buflen` has 16 bits in the arguments of the state machine. -/
def Call.exec : Call → MangoM (Option MangoEvent)
  | httpRequestNew URI method => do
    let _ ← mangoHttpRequestNew URI method
    return none
  | httpHeaderSet headerName headerValue => do
    let _ ← mangoHttpHeaderSet headerName headerValue
    return none
  | httpRequestProcess func => do
    update fun hc => { hc with userFunc := func }
    if func then
      update MangoHttpClient.wbNullTerminate
      let hc ← client
      let _ ← userFunc ans (.httpRequestReady (hc.bytes 0 hc.wbUsedSz))
      let now ← mangoPortTimeNow ans
      update fun hc => { hc with
        stats := ⟨0, 0, now⟩
        smAPICallArgs := .null }
      return some .apicallHttpRequestProcess
    else return none
  | httpDataSend buf => do
    update fun hc => { hc with smAPICallArgs := .httpDataSend (buf.take (buf.length % 65536)) }
    return some .apicallHttpDataSend
  | wsPoll timeout => do
    update fun hc => { hc with smAPICallArgs := .wsPoll timeout }
    return some .apicallWsPoll
  | wsFrameSend buf type =>
    if h : type = .text ∨ type = .binary then do
      update fun hc =>
        { hc with smAPICallArgs := .wsFrameSend (buf.take (buf.length % 65536)) ⟨type, h⟩ }
      return some .apicallWsFrameSend
    else throw .ensure
  | wsClose => do
    update fun hc => { hc with smAPICallArgs := .null }
    return some .apicallWsClose

end Calls

inductive Caller
  /-- `mangoSM_INIT`, which returns. -/
  | init
  /-- `mangoSM_PROCESS`, at the top of its loop. -/
  | turn
  /-- `mangoSM_PROCESS`, at the switch on the subscribed event. -/
  | switch
  deriving DecidableEq

inductive Control
  /-- No call is being made. -/
  | idle
  /-- `mangoSM_THROW` calls `hc->curState(event, hc)` next. -/
  | throw (event : MangoEvent) (caller : Caller)
  | process (caller : Caller)
  | stopped (why : Stop)
  deriving DecidableEq

structure Machine extends World where
  control : Control

def MangoHttpClient.nextState (hc : MangoHttpClient) : MangoHttpClient :=
  { hc with
    curState := hc.nxtState
    subscribedEvent := .none }

def MangoHttpClient.timeLeft (elapsed : UInt32) (hc : MangoHttpClient) : MangoHttpClient :=
  { hc with smEventTimeout := hc.smTimeout - elapsed }

inductive Op
  | call (ans : Answers) (c : Call)
  | go (ans : Answers)

namespace Machine

def returned (m : Machine) : Caller → Machine
  | .init => { m with control := .idle }
  | caller => { m with control := .process caller }

def call (ans : Answers) (c : Call) (m : Machine) : Machine :=
  match c.exec ans m.toWorld with
  | .ok none w => ⟨w, .idle⟩
  | .ok (some event) w => ⟨after (mangoSMExitErr .ok) w, .throw event .turn⟩
  | .error why w => ⟨w, .stopped why⟩

def thrown (ans : Answers) (caller : Caller) (w : World) : Machine :=
  if w.hc.nxtState = w.hc.curState then returned ⟨w, .idle⟩ caller
  else
    let w := after (mangoSMTimeout ans timeoutInfinite) w
    ⟨after (update MangoHttpClient.nextState) w, .throw .entry caller⟩

def throw (ans : Answers) (event : MangoEvent) (caller : Caller) (m : Machine) : Machine :=
  match m.hc.curState.handle ans event m.toWorld with
  | .ok _ w => thrown ans caller w
  | .error why w => ⟨w, .stopped why⟩

def turn (ans : Answers) (m : Machine) : Machine :=
  if m.hc.smTimeout ≠ timeoutInfinite then
    let w := after (mangoPortTimeNow ans) m.toWorld
    let elapsed := elapsedTime (ans.timeNow m.trace.length) m.hc.smEntryTimestamp
    if elapsed ≥ m.hc.smTimeout then ⟨w, .throw .timeout .switch⟩
    else ⟨after (update (MangoHttpClient.timeLeft elapsed)) w, .process .switch⟩
  else { m with control := .process .switch }

def switch (m : Machine) : Machine :=
  match m.hc.subscribedEvent with
  | .read => { m with control := .throw .read .turn }
  | .write => { m with control := .throw .write .turn }
  | .process => { m with control := .throw .process .turn }
  | .none => { m with control := .idle }
  | _ => { m with control := .stopped .ensure }

def step (m : Machine) : Op → Machine
  | .call ans c =>
    match m.control with
    | .idle => m.call ans c
    | _ => m
  | .go ans =>
    match m.control with
    | .throw event caller => m.throw ans event caller
    | .process .turn => m.turn ans
    | .process .switch => m.switch
    | _ => m

end Machine

section Connect

/-- The client that `memset` leaves, with a connected socket. -/
def blank (secure : UInt8) (socketfd : Int) : MangoHttpClient where
  socketfd := socketfd
  secure := secure
  httpMethod := .head
  httpResponseStatusCode := 0
  workingBuffer := List.replicate workingBufferSz 0
  workingBufferIndexLeft := 0
  workingBufferIndexRight := 0
  smExitError := .ok
  smTimeout := 0
  smEventTimeout := 0
  smAPICallArgs := .null
  smEntryTimestamp := 0
  subscribedEvent := .none
  curState := .httpConnected
  nxtState := .httpConnected
  userFunc := false
  dataProcessorCompleted := false
  inputDataProcessor := none
  outputDataProcessor := none
  idpArgsRaw := ⟨0, 0⟩
  idpArgsChunked := ⟨0, 0, 0⟩
  idpArgsWebsocket := ⟨0, (0, 0), 0, 0, 0⟩
  odpArgsRaw := ⟨0, 0⟩
  stats := ⟨0, 0, 0⟩

def mangoSMInit (ans : Answers) (hc : MangoHttpClient) : Machine :=
  let hc := { hc with
    curState := .httpConnected
    nxtState := .httpConnected
    subscribedEvent := .none }
  ⟨after (mangoSMTimeout ans timeoutInfinite) ⟨hc, []⟩, .throw .entry .init⟩

def mangoConnect (ans : Answers) (socketfd : Int) : Machine := mangoSMInit ans (blank 0 socketfd)

def mangoSslconnect (ans : Answers) (socketfd : Int) : Machine :=
  mangoSMInit ans (blank 1 socketfd)

end Connect

end Mangoxx.Mango
