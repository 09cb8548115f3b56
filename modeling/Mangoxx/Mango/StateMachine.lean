import Mangoxx.Mango.DataProcessor

namespace Mangoxx.Mango

open Mangoxx.Fcmd

def timeoutInfinite : UInt32 := 0xffffffff

def fileSzInfinite : UInt32 := 0xffffffff

def httpResponseTimeoutMs : UInt32 := 10000

def hdrContentLength : List UInt8 := text "Content-Length"
def hdrTransferEncoding : List UInt8 := text "Transfer-Encoding"
def hdrExpect : List UInt8 := text "Expect"

def mangoSMExitErr (err : MangoErr) : MangoM PUnit :=
  update fun hc => { hc with smExitError := err }

def mangoSMSubscribe (event : MangoEvent) : MangoM PUnit := do
  mangoEnsure (event = .process ∨ event = .read ∨ event = .write ∨ event = .apicallWsFrameSend)
  update fun hc => { hc with subscribedEvent := event }

def mangoSMEnter (state : SmState) : MangoM PUnit := do
  let hc ← client
  mangoEnsure (hc.curState ≠ state)
  update fun hc => { hc with nxtState := state }

def leave (err : MangoErr) (state : SmState) : MangoM PUnit := do
  mangoSMExitErr err
  mangoSMEnter state

section States

variable (ans : Answers)

def mangoSMTimeout (timeout : UInt32) : MangoM PUnit := do
  let now ← mangoPortTimeNow ans
  update fun hc => { hc with
    smEntryTimestamp := now
    smTimeout := timeout }

def complete (r : Processed) : MangoM Processed := do
  update fun hc => { hc with dataProcessorCompleted := r.completed }
  return r

def callInput (buf buflen : Nat) : Option InputDataProcessor → MangoM Processed
  | some .raw => mangoIDPRaw ans buf buflen
  | some .chunked => mangoIDPChunked ans buf buflen
  | some .websocket => mangoIDPWebsocket ans buf buflen
  | none => throw .fault

def inputDataProcessor : MangoM Processed := do
  update fun hc => { hc with dataProcessorCompleted := false }
  let hc ← client
  let r ← callInput ans hc.workingBufferIndexLeft hc.wbUsedSz hc.inputDataProcessor
  complete r

def callOutput (buf : List UInt8) : Option OutputDataProcessor → MangoM Processed
  | some .raw => mangoODPRaw ans buf
  | some .chunked => mangoODPChunked ans buf
  | none => throw .fault

def outputDataProcessor (buf : List UInt8) : MangoM Processed := do
  let hc ← client
  let r ← callOutput ans buf hc.outputDataProcessor
  complete r

def discard (processed : Nat) : MangoM PUnit := do
  update fun hc =>
    { hc with workingBufferIndexLeft := (hc.workingBufferIndexLeft + processed) % 65536 }
  mangoWBShrink

def readWhenEmpty : MangoM PUnit := do
  let hc ← client
  if hc.wbUsedSz = 0 then mangoSMSubscribe .read
  else return ()

def readMore : MangoM PUnit := do
  let hc ← client
  if hc.wbFreeSz = 0 then leave .workBufSmall .aborted
  else mangoSMSubscribe .read

def MangoHttpClient.received (data : List UInt8) (hc : MangoHttpClient) : MangoHttpClient :=
  if data = [] then hc
  else { hc.store hc.workingBufferIndexRight data with
    workingBufferIndexRight := hc.workingBufferIndexRight + data.length }.wbNullTerminate

def receive : MangoM (Option (List UInt8)) := do
  let hc ← client
  let retval ← mangoSocketRead ans hc.wbFreeSz hc.smEventTimeout
  update (MangoHttpClient.received (retval.getD []))
  return retval

/-- The states that wait for the application and refuse the calls `refused` with `err`. -/
def refuse (err : MangoErr) (event : MangoEvent) (refused : List MangoEvent) : MangoM PUnit :=
  if event ∈ refused then mangoSMExitErr err
  else throw .ensure

def apicalls : List MangoEvent :=
  [.apicallHttpRequestProcess, .apicallHttpDataSend, .apicallWsPoll, .apicallWsFrameSend,
    .apicallWsClose]

def mangoSMAborted : MangoEvent → MangoM PUnit
  | .entry => return ()
  | event => refuse .aborted event apicalls

def mangoSMDisconnected : MangoEvent → MangoM PUnit
  | .entry => return ()
  | event => refuse .connection event apicalls

def mangoSMHttpConnected : MangoEvent → MangoM PUnit
  | .entry => do
    let now ← mangoPortTimeNow ans
    update fun hc => { hc with
      workingBufferIndexLeft := 0
      workingBufferIndexRight := 0
      stats.time := elapsedTime now hc.stats.time }
  | .apicallHttpRequestProcess => mangoSMEnter .httpSendingHeaders
  | event => refuse .apiCallNotSupported event apicalls

def MangoHttpClient.header (hc : MangoHttpClient) (name : List UInt8) (len : Nat) :
    Int × List UInt8 :=
  mangoHelperHttpHeaderGet hc.workingBuffer name len

def sendBody : MangoM PUnit := do
  let hc ← client
  let chunked := 0 ≤ (hc.header hdrTransferEncoding 0).1
  if chunked ∧ hc.outputDataProcessor ≠ none then leave .invalidReqHeaders .aborted
  else
    update fun hc => if chunked then { hc with outputDataProcessor := some .chunked } else hc
    let hc ← client
    if hc.outputDataProcessor = none then leave .invalidReqHeaders .aborted
    else if (hc.header hdrExpect 0).1 < 0 then leave (.http 100) .httpSendingData
    else mangoSMEnter .httpRecvingHeaders

def attachProcessor : MangoM PUnit := do
  let hc ← client
  update fun hc => { hc with outputDataProcessor := none }
  if (hc.header hdrContentLength 11).1 < 0 then sendBody
  else
    update fun hc => { hc with outputDataProcessor := some .raw }
    match mangoHelperDecstr2dec (hc.header hdrContentLength 11).2 with
    | none => leave .invalidReqHeaders .aborted
    | some fileSz =>
      update fun hc => { hc with odpArgsRaw := ⟨fileSz, 0⟩ }
      if fileSz = 0 then mangoSMEnter .httpRecvingHeaders
      else sendBody

def mangoSMHttpSendingHeaders : MangoEvent → MangoM PUnit
  | .entry => do
    let hc ← client
    mangoEnsure (hc.workingBufferIndexLeft = 0)
    mangoEnsure (hc.workingBufferIndexRight > 0)
    mangoSMSubscribe .write
  | .write => do
    let hc ← client
    let retval ←
      mangoSocketWrite ans (hc.bytes hc.workingBufferIndexLeft hc.wbUsedSz) socketWriteTimeoutMs
    if retval < 0 then leave .connection .disconnected
    else
      update fun hc =>
        { hc with workingBufferIndexLeft := (hc.workingBufferIndexLeft + retval.toNat) % 65536 }
      let hc ← client
      mangoEnsure (hc.workingBufferIndexLeft ≤ hc.workingBufferIndexRight)
      if hc.workingBufferIndexLeft = hc.workingBufferIndexRight then mangoSMSubscribe .process
      else return ()
  | .process => do
    let hc ← client
    match hc.httpMethod with
    | .head | .get => mangoSMEnter .httpRecvingHeaders
    | .put | .post => attachProcessor
    | .postChunked => throw .ensure
  | _ => throw .ensure

def recvBody (assign : MangoHttpClient → MangoHttpClient) : MangoM PUnit := do
  update assign
  mangoSMEnter .httpRecvingData

def assignRaw (fileSz : UInt32) (hc : MangoHttpClient) : MangoHttpClient :=
  { hc with
    inputDataProcessor := some .raw
    idpArgsRaw := ⟨fileSz, 0⟩ }

def assignChunked (hc : MangoHttpClient) : MangoHttpClient :=
  { hc with
    inputDataProcessor := some .chunked
    idpArgsChunked := ⟨1, 0, 0⟩ }

def assignWebsocket (hc : MangoHttpClient) : MangoHttpClient :=
  { hc with
    inputDataProcessor := some .websocket
    idpArgsWebsocket.state := 1
    idpArgsWebsocket.frameID := 0 }

def recvSpecial (hc : MangoHttpClient) : MangoM PUnit := do
  if hc.httpResponseStatusCode = 200 ∧ hc.bytes 0 4 = text "ICY " then
    recvBody (assignRaw fileSzInfinite)
  else if hc.httpResponseStatusCode = 101 then
    update assignWebsocket
    leave (.http 101) .wsConnected
  else if hc.httpResponseStatusCode = 100 ∧ (hc.httpMethod = .post ∨ hc.httpMethod = .put) then
    leave (.http 100) .httpSendingData
  else recvBody (assignRaw 0)

def recvResponse (hc : MangoHttpClient) : MangoM PUnit :=
  let contentLength := hc.header hdrContentLength 32
  let transferEncoding := hc.header hdrTransferEncoding 32
  if contentLength.1 = 0 then leave .tempBufSmall .aborted
  else if contentLength.1 > 0 then
    if hc.httpMethod = .head then leave (.http hc.httpResponseStatusCode) .httpConnected
    else
      match mangoHelperDecstr2dec contentLength.2 with
      | none => do
        update fun hc => { hc with inputDataProcessor := some .raw }
        leave .respFormat .aborted
      | some fileSz => recvBody (assignRaw fileSz)
  else if transferEncoding.1 = 0 then leave .tempBufSmall .aborted
  else if transferEncoding.1 > 0 then
    if hc.httpMethod = .head then leave (.http hc.httpResponseStatusCode) .httpConnected
    else recvBody assignChunked
  else recvSpecial hc

/-- What has been read, with the last end of line taken off once the response is complete. -/
def MangoHttpClient.verified (hc : MangoHttpClient) : Int × MangoHttpClient :=
  let r := mangoHelperHttpReponseVerify hc.workingBuffer
  (r.1, { hc with workingBuffer := r.2 })

def mangoSMHttpRecvingHeaders : MangoEvent → MangoM PUnit
  | .entry => do
    mangoSMTimeout ans httpResponseTimeoutMs
    mangoSMSubscribe .read
    update fun hc => { hc with
      workingBufferIndexLeft := 0
      workingBufferIndexRight := 0 }
  | .read => do
    let retval ← receive ans
    match retval with
    | none => leave .connection .disconnected
    | some [] => return ()
    | some _ =>
      let retval ← edit MangoHttpClient.verified
      let hc ← client
      if retval < 0 then leave .respFormat .aborted
      else if retval = 0 then
        if hc.wbFreeSz = 0 then leave .workBufSmall .aborted
        else return ()
      else
        update fun hc => { hc with
          httpResponseStatusCode := retval.toNat
          workingBufferIndexLeft := (hc.workingBuffer.cstr 0).length + 2 }
        mangoSMSubscribe .process
  | .process => do
    let hc ← client
    let _ ← userFunc ans
      (.httpRespReceived (hc.bytes 0 hc.workingBufferIndexLeft) hc.httpResponseStatusCode)
    recvResponse hc
  | .timeout => leave .respTimeout .aborted
  | _ => throw .ensure

def recvProcessed (r : Processed) : MangoM PUnit := do
  let hc ← client
  if r.err = .moreDataNeeded then readMore
  else if r.err ≠ .ok then leave r.err .aborted
  else if r.completed then leave (.http hc.httpResponseStatusCode) .httpConnected
  else
    discard r.processed
    readWhenEmpty

def mangoSMHttpRecvingData : MangoEvent → MangoM PUnit
  | .entry => do
    mangoSMTimeout ans httpResponseTimeoutMs
    mangoSMSubscribe .process
    mangoWBShrink
  | .read => do
    let retval ← receive ans
    match retval with
    | none => leave .connection .disconnected
    | some [] => return ()
    | some _ =>
      let hc ← client
      mangoEnsure (hc.workingBufferIndexRight ≤ wbTotSz)
      mangoSMTimeout ans httpResponseTimeoutMs
      mangoSMSubscribe .process
  | .process => do
    let r ← inputDataProcessor ans
    recvProcessed r
  | .timeout => leave .respTimeout .aborted
  | _ => throw .ensure

def mangoSMHttpSendingData : MangoEvent → MangoM PUnit
  | .entry => update fun hc => { hc with
      workingBufferIndexLeft := 0
      workingBufferIndexRight := 0 }
  | .apicallHttpDataSend => mangoSMEnter .httpSendingPacket
  | event => refuse .apiCallNotSupported event apicalls

def mangoSMHttpSendingPacket : MangoEvent → MangoM PUnit
  | .entry => mangoSMSubscribe .write
  | .write => do
    let hc ← client
    match hc.smAPICallArgs with
    | .httpDataSend buf =>
      let r ← outputDataProcessor ans buf
      if r.err ≠ .ok then leave r.err .aborted
      else if r.completed then mangoSMEnter .httpRecvingHeaders
      else mangoSMEnter .httpSendingData
    | _ => throw .fault
  | .timeout => mangoSMEnter .aborted
  | _ => throw .ensure

def mangoSMWsConnected : MangoEvent → MangoM PUnit
  | .entry => mangoWBShrink
  | .apicallWsPoll => mangoSMEnter .wsPolling
  | .apicallWsFrameSend => mangoSMEnter .wsSendingFrame
  | .apicallWsClose => mangoSMEnter .wsClosing
  | event => refuse .apiCallNotSupported event apicalls

def wsProcessed (r : Processed) : MangoM PUnit := do
  if r.err = .moreDataNeeded then readMore
  else if r.err = .websocketClosed then leave .websocketClosed .disconnected
  else if r.err ≠ .ok then leave r.err .aborted
  else
    discard r.processed
    readWhenEmpty

def wsProcess : MangoM PUnit := do
  let r ← inputDataProcessor ans
  wsProcessed r

def mangoSMWsPolling : MangoEvent → MangoM PUnit
  | .entry => do
    let hc ← client
    match hc.smAPICallArgs with
    | .wsPoll timeout =>
      mangoSMTimeout ans timeout
      mangoSMSubscribe .process
      wsProcess ans
    | _ => throw .fault
  | .process => wsProcess ans
  | .read => do
    let retval ← receive ans
    match retval with
    | none => leave .connection .disconnected
    | some [] => return ()
    | some _ =>
      let hc ← client
      mangoEnsure (hc.workingBufferIndexRight ≤ wbTotSz)
      mangoSMSubscribe .process
  | .timeout => mangoSMEnter .wsConnected
  | _ => throw .ensure

def mangoSMWsSendingFrame : MangoEvent → MangoM PUnit
  | .entry => mangoSMSubscribe .write
  | .write => do
    let hc ← client
    match hc.smAPICallArgs with
    | .wsFrameSend buf type =>
      let err ← mangoWSFrameSend ans hc.socketfd buf type.val
      if err ≠ .ok then mangoSMEnter .aborted
      else mangoSMEnter .wsConnected
    | _ => throw .fault
  | .timeout => mangoSMEnter .aborted
  | _ => throw .ensure

def mangoSMWsClosing : MangoEvent → MangoM PUnit
  | .entry => mangoSMSubscribe .write
  | .write => do
    let hc ← client
    let err ← mangoWSClose ans hc.socketfd
    if err ≠ .ok then mangoSMEnter .aborted
    else mangoSMEnter .disconnected
  | .timeout => mangoSMEnter .aborted
  | _ => throw .ensure

def SmState.handle (event : MangoEvent) : SmState → MangoM PUnit
  | aborted => mangoSMAborted event
  | disconnected => mangoSMDisconnected event
  | httpConnected => mangoSMHttpConnected ans event
  | httpSendingHeaders => mangoSMHttpSendingHeaders ans event
  | httpRecvingHeaders => mangoSMHttpRecvingHeaders ans event
  | httpRecvingData => mangoSMHttpRecvingData ans event
  | httpSendingData => mangoSMHttpSendingData event
  | httpSendingPacket => mangoSMHttpSendingPacket ans event
  | wsConnected => mangoSMWsConnected event
  | wsPolling => mangoSMWsPolling ans event
  | wsSendingFrame => mangoSMWsSendingFrame ans event
  | wsClosing => mangoSMWsClosing ans event

end States

end Mangoxx.Mango
