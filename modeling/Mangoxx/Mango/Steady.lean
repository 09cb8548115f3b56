import Mangoxx.Mango.Loops

namespace Mangoxx.Mango

open Mangoxx.Lib Mangoxx.Lib.Program Mangoxx.Lib.History

theorem steady_of_eq {hc hc' : MangoHttpClient} (h : hc.Steady)
    (hidp : hc'.inputDataProcessor = hc.inputDataProcessor)
    (hchunked : hc'.idpArgsChunked = hc.idpArgsChunked)
    (hwebsocket : hc'.idpArgsWebsocket = hc.idpArgsWebsocket)
    (hright : hc'.workingBufferIndexRight ≤ wbTotSz) : hc'.Steady := by
  obtain ⟨idp, hidp', -, hargs⟩ := h
  refine ⟨idp, hidp.trans hidp', hright, ?_⟩
  rw [hchunked, hwebsocket]
  exact hargs

theorem Steady.right_le {hc : MangoHttpClient} (h : hc.Steady) :
    hc.workingBufferIndexRight ≤ wbTotSz := h.choose_spec.2.1

section Calls

variable (ans : Answers) {I : MangoHttpClient → Prop}

theorem edit_sustains {f : MangoHttpClient → α × MangoHttpClient} (h : ∀ hc, I hc → I (f hc).2) :
    Sustains I (edit f) := fun w => h w.hc

theorem mangoPortTimeNow_sustains : Sustains I (mangoPortTimeNow ans) :=
  (act_sustains _).bind fun _ => .pure _

theorem mangoPortMalloc_sustains (sz : Nat) : Sustains I (mangoPortMalloc ans sz) :=
  (act_sustains _).bind fun _ => .pure _

theorem mangoWSFrameSend_sustains (socketfd : Int) (buf : List UInt8) (type : WsFrameType) :
    Sustains I (mangoWSFrameSend ans socketfd buf type) := by
  refine (mangoPortTimeNow_sustains ans).bind fun now => ?_
  refine (mangoPortTimeNow_sustains ans).bind fun now' => ?_
  refine (mangoEnsure_sustains _).bind fun _ => .bind ?_ fun allocated => ?_
  · exact .ite (.pure _) (mangoPortMalloc_sustains ans _)
  · exact .ite (.bind (.bind (act_sustains _) fun _ => .pure _) fun _ => .pure _) (.pure _)

end Calls

section Processors

variable (ans : Answers)

theorem mangoIDPRaw_sustains (buf buflen : Nat) :
    Sustains (·.Steady) (mangoIDPRaw ans buf buflen) := by
  refine .bind client_sustains fun hc => .ite (.pure _) (.ite (.pure _) ?_)
  exact .bind (update_sustains fun _ h => h) fun _ => .bind (userFunc_sustains ans _)
    fun _ => .pure _

theorem mangoODPRaw_sustains (buf : List UInt8) : Sustains (·.Steady) (mangoODPRaw ans buf) := by
  refine .bind client_sustains fun hc => .ite (.pure _) (.ite (.pure _) ?_)
  refine .bind (mangoSocketWrite_sustains ans _ _) fun retval => .ite ?_ (.pure _)
  exact .bind (update_sustains fun _ h => h) fun _ => .pure _

theorem complete_sustains (r : Processed) : Sustains (·.Steady) (complete r) :=
  .bind (update_sustains fun _ h => h) fun _ => .pure _

theorem callOutput_sustains (buf : List UInt8) (odp : Option OutputDataProcessor) :
    Sustains (·.Steady) (callOutput ans buf odp) := by
  match odp with
  | some .raw => exact mangoODPRaw_sustains ans buf
  | some .chunked => exact mangoODPChunked_sustains ans buf
  | none => exact .throw nofun

theorem outputDataProcessor_sustains (buf : List UInt8) :
    Sustains (·.Steady) (outputDataProcessor ans buf) :=
  .bind client_sustains fun _ => .bind (callOutput_sustains ans buf _) complete_sustains

theorem callInput_within {w : World} {idp : Option InputDataProcessor} (h : w.hc.Receives idp)
    (buf : Nat) {buflen : Nat} (hbuflen : buflen < 65536) :
    Within (fun w => w.hc.Steady) (· ≠ .spin) (callInput ans buf buflen idp w) := by
  match idp with
  | some .raw => exact mangoIDPRaw_sustains ans buf buflen w ⟨_, h⟩
  | some .chunked =>
    exact within_mono (mangoIDPChunked_within ans h buf hbuflen) fun _ h => ⟨_, h⟩
  | some .websocket =>
    exact within_mono (mangoIDPWebsocket_within ans h buf hbuflen) fun _ h => ⟨_, h⟩
  | none => exact nofun

theorem inputDataProcessor_sustains : Sustains (·.Steady) (inputDataProcessor ans) := by
  refine .bind (update_sustains fun _ h => h) fun _ w hw => ?_
  obtain ⟨idp, hidp, hright, hargs⟩ := hw
  have hsz : wbTotSz = 4095 := rfl
  have hused : w.hc.wbUsedSz < 65536 := by
    unfold MangoHttpClient.wbUsedSz
    omega
  rw [client_bind, hidp]
  exact within_bind (callInput_within ans ⟨hidp, hright, hargs⟩ _ hused) complete_sustains

end Processors

section States

variable (ans : Answers)

theorem mangoSMEnter_sustains (state : SmState) : Sustains (·.Steady) (mangoSMEnter state) :=
  .bind client_sustains fun _ => .bind (mangoEnsure_sustains _) fun _ => update_sustains
    fun _ h => h

theorem mangoSMExitErr_sustains (err : MangoErr) : Sustains (·.Steady) (mangoSMExitErr err) :=
  update_sustains fun _ h => h

theorem leave_sustains (err : MangoErr) (state : SmState) : Sustains (·.Steady) (leave err state) :=
  .bind (mangoSMExitErr_sustains err) fun _ => mangoSMEnter_sustains state

theorem mangoSMSubscribe_sustains (event : MangoEvent) :
    Sustains (·.Steady) (mangoSMSubscribe event) :=
  .bind (mangoEnsure_sustains _) fun _ => update_sustains fun _ h => h

theorem mangoSMTimeout_sustains (timeout : UInt32) :
    Sustains (·.Steady) (mangoSMTimeout ans timeout) :=
  .bind (mangoPortTimeNow_sustains ans) fun _ => update_sustains fun _ h => h

theorem shrink_steady {hc : MangoHttpClient} (h : hc.Steady) : hc.shrink.Steady := by
  unfold MangoHttpClient.shrink
  split
  · exact h
  · exact steady_of_eq h rfl rfl rfl (Nat.le_trans (Nat.sub_le _ _) (Steady.right_le h))

theorem mangoWBShrink_sustains : Sustains (·.Steady) mangoWBShrink := by
  refine .bind client_sustains fun _ => .bind (mangoEnsure_sustains _) fun _ => ?_
  exact .bind (mangoEnsure_sustains _) fun _ => update_sustains fun _ => shrink_steady

theorem received_length (n datalen : Nat) :
    ((ans.received n datalen).getD []).length ≤ datalen := by
  unfold Answers.received
  cases ans.read n with
  | none => exact Nat.zero_le _
  | some data => exact List.length_take_le _ _

theorem mangoSocketRead_fits (datalen : Nat) (timeout : UInt32) (w : World) : ∃ retval w',
    mangoSocketRead ans datalen timeout w = .ok retval w' ∧ (retval.getD []).length ≤ datalen ∧
      w'.hc.workingBufferIndexRight = w.hc.workingBufferIndexRight ∧
      (w.hc.Steady → w'.hc.Steady) := by
  rw [mangoSocketRead, client_bind, portRead]
  split
  · exact ⟨_, _, rfl, received_length ans _ _, rfl, id⟩
  · exact ⟨_, _, rfl, received_length ans _ _, rfl, id⟩

theorem receive_sustains : Sustains (·.Steady) (receive ans) := by
  intro w hw
  obtain ⟨retval, w', hread, hlen, hright, hsteady⟩ :=
    mangoSocketRead_fits ans w.hc.wbFreeSz w.hc.smEventTimeout w
  rw [receive, client_bind, bind_ok hread]
  show (MangoHttpClient.received (retval.getD []) w'.hc).Steady
  have hw' := hsteady hw
  unfold MangoHttpClient.received
  split
  · exact hw'
  · refine steady_of_eq hw' rfl rfl rfl ?_
    have hbound := Steady.right_le hw
    unfold MangoHttpClient.wbFreeSz at hlen
    unfold wbTotSz at hbound
    have hfits : w'.hc.workingBufferIndexRight + (retval.getD []).length ≤ workingBufferSz - 1 := by
      have hsz : workingBufferSz = 4096 := rfl
      omega
    exact hfits

theorem discard_sustains (processed : Nat) : Sustains (·.Steady) (discard processed) :=
  .bind (update_sustains fun _ h => h) fun _ => mangoWBShrink_sustains

theorem readWhenEmpty_sustains : Sustains (·.Steady) readWhenEmpty :=
  .bind client_sustains fun _ => .ite (mangoSMSubscribe_sustains _) (.pure _)

theorem readMore_sustains : Sustains (·.Steady) readMore :=
  .bind client_sustains fun _ => .ite (leave_sustains _ _) (mangoSMSubscribe_sustains _)

theorem refuse_sustains (err : MangoErr) (event : MangoEvent) (refused : List MangoEvent) :
    Sustains (·.Steady) (refuse err event refused) :=
  .ite (update_sustains fun _ h => h) (.throw nofun)

theorem sendBody_sustains : Sustains (·.Steady) sendBody := by
  refine .bind client_sustains fun hc => .ite (leave_sustains _ _) ?_
  refine .bind (update_sustains fun hc h => ?_) fun _ => .bind client_sustains fun hc => ?_
  · split
    · exact h
    · exact h
  · exact .ite (leave_sustains _ _) (.ite (leave_sustains _ _) (mangoSMEnter_sustains _))

theorem attachProcessor_sustains : Sustains (·.Steady) attachProcessor := by
  refine .bind client_sustains fun hc => .bind (update_sustains fun _ h => h) fun _ => ?_
  refine .ite sendBody_sustains (.bind (update_sustains fun _ h => h) fun _ => ?_)
  split
  · exact leave_sustains _ _
  · refine .bind (update_sustains fun _ h => h) fun _ => ?_
    exact .ite (mangoSMEnter_sustains _) sendBody_sustains

theorem mangoSMHttpSendingHeaders_sustains (event : MangoEvent) :
    Sustains (·.Steady) (mangoSMHttpSendingHeaders ans event) := by
  cases event with
  | entry =>
    refine .bind client_sustains fun hc => .bind (mangoEnsure_sustains _) fun _ => ?_
    exact .bind (mangoEnsure_sustains _) fun _ => mangoSMSubscribe_sustains _
  | write =>
    refine .bind client_sustains fun hc => .bind (mangoSocketWrite_sustains ans _ _)
      fun retval => ?_
    refine .ite (leave_sustains _ _) (.bind (update_sustains fun _ h => h) fun _ => ?_)
    refine .bind client_sustains fun hc => .bind (mangoEnsure_sustains _) fun _ => ?_
    exact .ite (mangoSMSubscribe_sustains _) (.pure _)
  | process =>
    refine .bind client_sustains fun hc => ?_
    split
    · exact mangoSMEnter_sustains _
    · exact mangoSMEnter_sustains _
    · exact attachProcessor_sustains
    · exact attachProcessor_sustains
    · exact .throw nofun
  | _ => exact .throw nofun

theorem recvBody_sustains {assign : MangoHttpClient → MangoHttpClient}
    (h : ∀ hc, hc.Steady → (assign hc).Steady) : Sustains (·.Steady) (recvBody assign) :=
  .bind (update_sustains h) fun _ => mangoSMEnter_sustains _

theorem assignRaw_steady {hc : MangoHttpClient} (fileSz : UInt32) (h : hc.Steady) :
    (assignRaw fileSz hc).Steady := by
  obtain ⟨-, -, hright, -⟩ := h
  exact ⟨some .raw, rfl, hright, trivial⟩

theorem assignChunked_steady {hc : MangoHttpClient} (h : hc.Steady) :
    (assignChunked hc).Steady := by
  obtain ⟨-, -, hright, -⟩ := h
  exact ⟨some .chunked, rfl, hright, .inl rfl⟩

theorem assignWebsocket_steady {hc : MangoHttpClient} (h : hc.Steady) :
    (assignWebsocket hc).Steady := by
  obtain ⟨-, -, hright, -⟩ := h
  exact ⟨some .websocket, rfl, hright, .inl rfl⟩

theorem recvSpecial_sustains (hc : MangoHttpClient) : Sustains (·.Steady) (recvSpecial hc) := by
  refine .ite (recvBody_sustains fun _ => assignRaw_steady _)
    (.ite ?_ (.ite (leave_sustains _ _) ?_))
  · exact .bind (update_sustains fun _ => assignWebsocket_steady) fun _ => leave_sustains _ _
  · exact recvBody_sustains fun _ => assignRaw_steady _

theorem recvResponse_sustains (hc : MangoHttpClient) : Sustains (·.Steady) (recvResponse hc) := by
  refine .ite (leave_sustains _ _) (.ite (.ite (leave_sustains _ _) ?_) ?_)
  · split
    · refine .bind (update_sustains fun _ h => ?_) fun _ => leave_sustains _ _
      obtain ⟨-, -, hright, -⟩ := h
      exact ⟨some .raw, rfl, hright, trivial⟩
    · exact recvBody_sustains fun _ => assignRaw_steady _
  · refine .ite (leave_sustains _ _) (.ite (.ite (leave_sustains _ _) ?_) (recvSpecial_sustains hc))
    exact recvBody_sustains fun _ => assignChunked_steady

theorem mangoSMHttpRecvingHeaders_sustains (event : MangoEvent) :
    Sustains (·.Steady) (mangoSMHttpRecvingHeaders ans event) := by
  cases event with
  | entry =>
    refine .bind (mangoSMTimeout_sustains ans _) fun _ => .bind (mangoSMSubscribe_sustains _)
      fun _ => ?_
    exact update_sustains fun _ h => steady_of_eq h rfl rfl rfl (Nat.zero_le _)
  | read =>
    refine .bind (receive_sustains ans) fun retval => ?_
    split
    · exact leave_sustains _ _
    · exact .pure _
    · refine .bind (edit_sustains fun _ h => h) fun retval => .bind client_sustains fun hc => ?_
      refine .ite (leave_sustains _ _) (.ite (.ite (leave_sustains _ _) (.pure _)) ?_)
      exact .bind (update_sustains fun _ h => h) fun _ => mangoSMSubscribe_sustains _
  | process =>
    refine .bind client_sustains fun hc => .bind (userFunc_sustains ans _) fun _ => ?_
    exact recvResponse_sustains hc
  | timeout => exact leave_sustains _ _
  | _ => exact .throw nofun

theorem recvProcessed_sustains (r : Processed) : Sustains (·.Steady) (recvProcessed r) := by
  refine .bind client_sustains fun hc => .ite readMore_sustains (.ite (leave_sustains _ _) ?_)
  exact .ite (leave_sustains _ _) (.bind (discard_sustains _) fun _ => readWhenEmpty_sustains)

theorem mangoSMHttpRecvingData_sustains (event : MangoEvent) :
    Sustains (·.Steady) (mangoSMHttpRecvingData ans event) := by
  cases event with
  | entry =>
    refine .bind (mangoSMTimeout_sustains ans _) fun _ => ?_
    exact .bind (mangoSMSubscribe_sustains _) fun _ => mangoWBShrink_sustains
  | read =>
    refine .bind (receive_sustains ans) fun retval => ?_
    split
    · exact leave_sustains _ _
    · exact .pure _
    · refine .bind client_sustains fun hc => .bind (mangoEnsure_sustains _) fun _ => ?_
      exact .bind (mangoSMTimeout_sustains ans _) fun _ => mangoSMSubscribe_sustains _
  | process => exact .bind (inputDataProcessor_sustains ans) recvProcessed_sustains
  | timeout => exact leave_sustains _ _
  | _ => exact .throw nofun

theorem wsProcess_sustains : Sustains (·.Steady) (wsProcess ans) := by
  refine .bind (inputDataProcessor_sustains ans) fun r => .ite readMore_sustains ?_
  refine .ite (leave_sustains _ _) (.ite (leave_sustains _ _) ?_)
  exact .bind (discard_sustains _) fun _ => readWhenEmpty_sustains

theorem mangoSMHttpConnected_sustains (event : MangoEvent) :
    Sustains (·.Steady) (mangoSMHttpConnected ans event) := by
  cases event with
  | entry =>
    refine .bind (mangoPortTimeNow_sustains ans) fun _ => update_sustains fun _ h => ?_
    exact steady_of_eq h rfl rfl rfl (Nat.zero_le _)
  | apicallHttpRequestProcess => exact mangoSMEnter_sustains _
  | _ => exact refuse_sustains _ _ _

theorem mangoSMHttpSendingData_sustains (event : MangoEvent) :
    Sustains (·.Steady) (mangoSMHttpSendingData event) := by
  cases event with
  | entry =>
    rw [mangoSMHttpSendingData]
    exact update_sustains fun _ h => steady_of_eq h rfl rfl rfl (Nat.zero_le _)
  | apicallHttpDataSend => exact mangoSMEnter_sustains _
  | _ => exact refuse_sustains _ _ _

theorem mangoSMHttpSendingPacket_sustains (event : MangoEvent) :
    Sustains (·.Steady) (mangoSMHttpSendingPacket ans event) := by
  cases event with
  | entry => exact mangoSMSubscribe_sustains _
  | write =>
    refine .bind client_sustains fun hc => ?_
    split
    · refine .bind (outputDataProcessor_sustains ans _) fun r => .ite (leave_sustains _ _) ?_
      exact .ite (mangoSMEnter_sustains _) (mangoSMEnter_sustains _)
    · exact .throw nofun
  | timeout => exact mangoSMEnter_sustains _
  | _ => exact .throw nofun

theorem mangoSMWsConnected_sustains (event : MangoEvent) :
    Sustains (·.Steady) (mangoSMWsConnected event) := by
  cases event with
  | entry => exact mangoWBShrink_sustains
  | apicallWsPoll => exact mangoSMEnter_sustains _
  | apicallWsFrameSend => exact mangoSMEnter_sustains _
  | apicallWsClose => exact mangoSMEnter_sustains _
  | _ => exact refuse_sustains _ _ _

theorem mangoSMWsPolling_sustains (event : MangoEvent) :
    Sustains (·.Steady) (mangoSMWsPolling ans event) := by
  cases event with
  | entry =>
    refine .bind client_sustains fun hc => ?_
    split
    · refine .bind (mangoSMTimeout_sustains ans _) fun _ => ?_
      exact .bind (mangoSMSubscribe_sustains _) fun _ => wsProcess_sustains ans
    · exact .throw nofun
  | process => exact wsProcess_sustains ans
  | read =>
    refine .bind (receive_sustains ans) fun retval => ?_
    split
    · exact leave_sustains _ _
    · exact .pure _
    · refine .bind client_sustains fun hc => .bind (mangoEnsure_sustains _) fun _ => ?_
      exact mangoSMSubscribe_sustains _
  | timeout => exact mangoSMEnter_sustains _
  | _ => exact .throw nofun

theorem mangoSMWsSendingFrame_sustains (event : MangoEvent) :
    Sustains (·.Steady) (mangoSMWsSendingFrame ans event) := by
  cases event with
  | entry => exact mangoSMSubscribe_sustains _
  | write =>
    refine .bind client_sustains fun hc => ?_
    split
    · refine .bind (mangoWSFrameSend_sustains ans _ _ _) fun err => ?_
      exact .ite (mangoSMEnter_sustains _) (mangoSMEnter_sustains _)
    · exact .throw nofun
  | timeout => exact mangoSMEnter_sustains _
  | _ => exact .throw nofun

theorem mangoSMWsClosing_sustains (event : MangoEvent) :
    Sustains (·.Steady) (mangoSMWsClosing ans event) := by
  cases event with
  | entry => exact mangoSMSubscribe_sustains _
  | write =>
    refine .bind client_sustains fun hc => .bind (mangoWSFrameSend_sustains ans _ _ _) fun err => ?_
    exact .ite (mangoSMEnter_sustains _) (mangoSMEnter_sustains _)
  | timeout => exact mangoSMEnter_sustains _
  | _ => exact .throw nofun

theorem mangoSMAborted_sustains (event : MangoEvent) :
    Sustains (·.Steady) (mangoSMAborted event) := by
  cases event with
  | entry => exact .pure _
  | _ => exact refuse_sustains _ _ _

theorem mangoSMDisconnected_sustains (event : MangoEvent) :
    Sustains (·.Steady) (mangoSMDisconnected event) := by
  cases event with
  | entry => exact .pure _
  | _ => exact refuse_sustains _ _ _

theorem handle_sustains (event : MangoEvent) (state : SmState) :
    Sustains (·.Steady) (state.handle ans event) := by
  cases state with
  | aborted => exact mangoSMAborted_sustains event
  | disconnected => exact mangoSMDisconnected_sustains event
  | httpConnected => exact mangoSMHttpConnected_sustains ans event
  | httpSendingHeaders => exact mangoSMHttpSendingHeaders_sustains ans event
  | httpRecvingHeaders => exact mangoSMHttpRecvingHeaders_sustains ans event
  | httpRecvingData => exact mangoSMHttpRecvingData_sustains ans event
  | httpSendingData => exact mangoSMHttpSendingData_sustains event
  | httpSendingPacket => exact mangoSMHttpSendingPacket_sustains ans event
  | wsConnected => exact mangoSMWsConnected_sustains event
  | wsPolling => exact mangoSMWsPolling_sustains ans event
  | wsSendingFrame => exact mangoSMWsSendingFrame_sustains ans event
  | wsClosing => exact mangoSMWsClosing_sustains ans event

end States

section Requests

theorem token_steady {hc hc' : MangoHttpClient} {token : List UInt8} (h : hc.Steady)
    (htoken : hc.token token = some hc') : hc'.Steady := by
  unfold MangoHttpClient.token at htoken
  split_ifs at htoken with hroom
  obtain rfl := Option.some.inj htoken
  exact steady_of_eq h rfl rfl rfl (Nat.le_of_not_lt hroom)

theorem appendToken_steady {r : MangoHttpClient × Bool} (h : r.1.Steady) (token : List UInt8) :
    (appendToken r token).1.Steady := by
  unfold appendToken
  split
  · split
    · rename_i htoken
      exact token_steady h htoken
    · exact h
  · exact h

theorem tokens_steady {hc : MangoHttpClient} (h : hc.Steady) (tokens : List (List UInt8)) :
    (hc.tokens tokens).1.Steady := by
  induction tokens using List.reverseRecOn with
  | nil => exact h
  | append_singleton tokens token ih =>
    rw [MangoHttpClient.tokens, List.foldl_append]
    exact appendToken_steady ih token

theorem requestNew_steady {hc : MangoHttpClient} (h : hc.Steady) (URI : List UInt8)
    (method : MangoHttpMethod) : (requestNew URI method hc).2.Steady := by
  have hempty : { hc with
      httpMethod := method
      workingBufferIndexRight := 0
      workingBufferIndexLeft := 0 }.Steady := steady_of_eq h rfl rfl rfl (Nat.zero_le _)
  simp only [requestNew]
  split
  · split
    · exact tokens_steady hempty _
    · exact steady_of_eq (tokens_steady hempty _) rfl rfl rfl (Nat.zero_le _)
  · exact steady_of_eq hempty rfl rfl rfl (Nat.zero_le _)

theorem headerSet_steady {hc : MangoHttpClient} (h : hc.Steady)
    (hright : 2 < hc.workingBufferIndexRight) (headerName headerValue : List UInt8) :
    (headerSet headerName headerValue hc).2.Steady := by
  have hbound := Steady.right_le h
  have hless : { hc with workingBufferIndexRight := hc.workingBufferIndexRight - 2 }.Steady :=
    steady_of_eq h rfl rfl rfl (Nat.le_trans (Nat.sub_le _ _) hbound)
  simp only [headerSet]
  split
  · exact tokens_steady hless _
  · exact steady_of_eq (tokens_steady hless _) rfl rfl rfl (by dsimp only; omega)

theorem mangoHttpHeaderSet_sustains (headerName headerValue : List UInt8) :
    Sustains (·.Steady) (mangoHttpHeaderSet headerName headerValue) := by
  intro w hw
  rw [mangoHttpHeaderSet, client_bind, mangoEnsure]
  split_ifs with hright
  · exact headerSet_steady hw hright headerName headerValue
  · exact nofun

theorem exec_sustains (ans : Answers) (c : Call) : Sustains (·.Steady) (c.exec ans) := by
  cases c with
  | httpRequestNew URI method =>
    exact .bind (edit_sustains fun _ h => requestNew_steady h URI method) fun _ => .pure _
  | httpHeaderSet headerName headerValue =>
    exact .bind (mangoHttpHeaderSet_sustains headerName headerValue) fun _ => .pure _
  | httpRequestProcess func =>
    refine .bind (update_sustains fun _ h => h) fun _ => .ite ?_ (.pure _)
    refine .bind (update_sustains fun _ h => h) fun _ => .bind client_sustains fun hc => ?_
    refine .bind (userFunc_sustains ans _) fun _ => .bind (mangoPortTimeNow_sustains ans)
      fun now => ?_
    exact .bind (update_sustains fun _ h => h) fun _ => .pure _
  | wsFrameSend buf type =>
    simp only [Call.exec]
    split
    · exact .bind (update_sustains fun _ h => h) fun _ => .pure _
    · exact .throw nofun
  | _ => exact .bind (update_sustains fun _ h => h) fun _ => .pure _

end Requests

section Runs

namespace Machine

/-- The client is steady as long as it has not stopped, and it has not stopped in a loop. -/
def Steady (m : Machine) : Prop :=
  match m.control with
  | .stopped why => why ≠ .spin
  | _ => m.hc.Steady

variable (ans : Answers) {m : Machine}

theorem call_steady (h : m.hc.Steady) (c : Call) : (m.call ans c).Steady := by
  have hexec := exec_sustains ans c m.toWorld h
  unfold call
  split
  · rename_i w hok
    rw [hok] at hexec
    exact hexec
  · rename_i event w hok
    rw [hok] at hexec
    exact hexec
  · rename_i why w herror
    rw [herror] at hexec
    exact hexec

theorem thrown_steady {w : World} (h : w.hc.Steady) (caller : Caller) :
    (thrown ans caller w).Steady := by
  unfold thrown
  split
  · cases caller with
    | _ => exact h
  · exact h

theorem throw_steady (h : m.hc.Steady) (event : MangoEvent) (caller : Caller) :
    (m.throw ans event caller).Steady := by
  have hhandle := handle_sustains ans event m.hc.curState m.toWorld h
  unfold throw
  split
  · rename_i w hok
    rw [hok] at hhandle
    exact thrown_steady ans hhandle caller
  · rename_i why w herror
    rw [herror] at hhandle
    exact hhandle

theorem turn_steady (h : m.hc.Steady) : (m.turn ans).Steady := by
  unfold turn
  split
  · dsimp only
    split
    · exact h
    · exact h
  · exact h

theorem switch_steady (h : m.hc.Steady) : m.switch.Steady := by
  unfold switch
  split
  · exact h
  · exact h
  · exact h
  · exact h
  · exact nofun

theorem step_steady (h : m.Steady) (op : Op) : (m.step op).Steady := by
  cases hcontrol : m.control with
  | idle =>
    rw [Steady, hcontrol] at h
    cases op with
    | call ans c =>
      simp only [step, hcontrol]
      exact call_steady ans h c
    | go ans =>
      simp only [step, hcontrol, Steady]
      exact h
  | throw event caller =>
    rw [Steady, hcontrol] at h
    cases op with
    | call ans c =>
      simp only [step, hcontrol, Steady]
      exact h
    | go ans =>
      simp only [step, hcontrol]
      exact throw_steady ans h event caller
  | process caller =>
    rw [Steady, hcontrol] at h
    cases op with
    | call ans c =>
      simp only [step, hcontrol, Steady]
      exact h
    | go ans =>
      cases caller with
      | init =>
        simp only [step, hcontrol, Steady]
        exact h
      | turn =>
        simp only [step, hcontrol]
        exact turn_steady ans h
      | switch =>
        simp only [step, hcontrol]
        exact switch_steady h
  | stopped why =>
    have hstopped : m.step op = m := by
      cases op with
      | _ => simp only [step, hcontrol]
    rw [hstopped]
    exact h

end Machine

theorem blank_steady (secure : UInt8) (socketfd : Int) : (blank secure socketfd).Steady :=
  ⟨none, rfl, Nat.zero_le _, trivial⟩

/-- Whatever a server and the application do, every loop of the data processors is left. -/
theorem run_left (ans : Answers) (secure : UInt8) (socketfd : Int) (ops : List Op) :
    (run Machine.step (mangoSMInit ans (blank secure socketfd)) ops).control ≠ .stopped .spin := by
  have hstart : (mangoSMInit ans (blank secure socketfd)).Steady :=
    blank_steady secure socketfd
  have hrun := run_rel Machine.step (R := fun m m' => m.Steady → m'.Steady) (fun _ h => h)
    (fun h h' hm => h' (h hm)) (fun _ op h => Machine.step_steady h op) _ ops hstart
  intro hstopped
  rw [Machine.Steady, hstopped] at hrun
  exact hrun rfl

end Runs

end Mangoxx.Mango
