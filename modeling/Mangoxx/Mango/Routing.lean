import Mangoxx.Mango.Frames

namespace Mangoxx.Mango

open Mangoxx.Lib Mangoxx.Lib.Program Mangoxx.Lib.History Mangoxx.Fcmd

def MangoHttpClient.repliesToFrame (hc : MangoHttpClient) : Bool :=
  hc.inputDataProcessor = some .websocket ∧ hc.userFunc ∧
    replies hc.workingBuffer (2 * hc.wbUsedSz + 2) hc.idpArgsWebsocket
      ⟨hc.workingBufferIndexLeft, hc.wbUsedSz, 0⟩

/-- The state sends a frame of a websocket when it handles the event: one of the application, for
which memory can be allocated, one that closes the connection, or an answer. -/
def World.sendsFrame (ans : Answers) (event : MangoEvent) (w : World) : Bool :=
  match w.hc.curState, event, w.hc.smAPICallArgs with
  | .wsSendingFrame, .write, .wsFrameSend _ _ => ans.malloc (w.trace.length + 2)
  | .wsClosing, .write, _ => true
  | .wsPolling, .entry, .wsPoll _ => w.hc.repliesToFrame
  | .wsPolling, .process, _ => w.hc.repliesToFrame
  | .httpRecvingData, .process, _ => w.hc.repliesToFrame
  | _, _, _ => false

section States

variable (ans : Answers)

theorem sends_rest {p : MangoM α} {f : α → MangoM β} {w : World} (hf : ∀ a, Moves Quiet (f a))
    (h : ¬ (after p w).Routed) : ¬ (after (p >>= f) w).Routed :=
  fun hrouted => h (Grows.routed (Moves.rest (fun a => grows_of_quiet (hf a)) w) hrouted)

theorem callInput_grows (buf buflen : Nat) (idp : Option InputDataProcessor) :
    Moves Grows (callInput ans buf buflen idp) := by
  match idp with
  | some .raw => exact grows_of_quiet (mangoIDPRaw_quiet ans buf buflen)
  | some .chunked => exact grows_of_quiet (mangoIDPChunked_quiet ans buf buflen)
  | some .websocket => exact .loop (websocketTurn_grows ans) _ _
  | none => exact .throw _

theorem inputDataProcessor_grows : Moves Grows (inputDataProcessor ans) := by
  refine .bind (grows_of_quiet (update_quiet fun _ => ⟨rfl, rfl⟩)) fun _ => ?_
  refine .bind (grows_of_quiet client_quiet) fun hc => .bind (callInput_grows ans _ _ _) fun r => ?_
  exact grows_of_quiet (complete_quiet r)

variable {w : World}

theorem callInput_quiet (h : ¬ w.hc.repliesToFrame) : Quiet w (after
    (callInput ans w.hc.workingBufferIndexLeft w.hc.wbUsedSz w.hc.inputDataProcessor) w) := by
  cases hidp : w.hc.inputDataProcessor with
  | none => exact refl_of Quiet w
  | some idp =>
    cases idp with
    | raw => exact mangoIDPRaw_quiet ans _ _ w
    | chunked => exact mangoIDPChunked_quiet ans _ _ w
    | websocket =>
      refine websocket_quiet ans _ fun hreplies => h ?_
      simpa [MangoHttpClient.repliesToFrame, hidp] using hreplies

theorem callInput_sends (h : w.hc.repliesToFrame) :
    ¬ (after (callInput ans w.hc.workingBufferIndexLeft w.hc.wbUsedSz
      w.hc.inputDataProcessor) w).Routed := by
  simp only [MangoHttpClient.repliesToFrame, decide_eq_true_eq] at h
  obtain ⟨hidp, huser, hreplies⟩ := h
  rw [hidp]
  exact websocket_sends ans _ huser hreplies

def World.uncompleted (w : World) : World :=
  { w with hc := { w.hc with dataProcessorCompleted := false } }

theorem inputDataProcessor_call (w : World) : after (inputDataProcessor ans) w =
    after (callInput ans w.hc.workingBufferIndexLeft w.hc.wbUsedSz w.hc.inputDataProcessor >>=
      complete) w.uncompleted := rfl

theorem inputDataProcessor_quiet (h : ¬ w.hc.repliesToFrame) :
    Quiet w (after (inputDataProcessor ans) w) := by
  have hfirst : Quiet w w.uncompleted :=
    update_quiet (f := fun hc => { hc with dataProcessorCompleted := false })
      (fun _ => ⟨rfl, rfl⟩) w
  have hcall := callInput_quiet ans (w := w.uncompleted) h
  rw [inputDataProcessor_call]
  exact trans_of Quiet hfirst (after_bind_rel hcall complete_quiet)

theorem inputDataProcessor_sends (h : w.hc.repliesToFrame) :
    ¬ (after (inputDataProcessor ans) w).Routed := by
  rw [inputDataProcessor_call]
  exact sends_rest complete_quiet (callInput_sends ans (w := w.uncompleted) h)

theorem wsProcess_quiet (h : ¬ w.hc.repliesToFrame) : Quiet w (after (wsProcess ans) w) :=
  after_bind_rel (inputDataProcessor_quiet ans h) wsProcessed_quiet

theorem wsProcess_sends (h : w.hc.repliesToFrame) : ¬ (after (wsProcess ans) w).Routed :=
  sends_rest wsProcessed_quiet (inputDataProcessor_sends ans h)

theorem wsProcess_grows : Moves Grows (wsProcess ans) :=
  .bind (inputDataProcessor_grows ans) fun r => grows_of_quiet (wsProcessed_quiet r)

theorem mangoSMHttpRecvingData_quiet {event : MangoEvent}
    (h : event = .process → ¬ w.hc.repliesToFrame) :
    Quiet w (after (mangoSMHttpRecvingData ans event) w) := by
  cases event with
  | entry =>
    refine (Moves.bind (mangoSMTimeout_quiet ans _) fun _ => ?_) w
    exact .bind (mangoSMSubscribe_quiet _) fun _ => mangoWBShrink_quiet
  | read =>
    refine (Moves.bind (receive_quiet ans) fun retval => ?_) w
    split
    · exact leave_quiet _ _
    · exact .pure _
    · refine .bind client_quiet fun hc => .bind (mangoEnsure_quiet _) fun _ => ?_
      exact .bind (mangoSMTimeout_quiet ans _) fun _ => mangoSMSubscribe_quiet _
  | process => exact after_bind_rel (inputDataProcessor_quiet ans (h rfl)) recvProcessed_quiet
  | timeout => exact leave_quiet _ _ w
  | _ => exact refl_of Quiet w

def World.polls (w : World) (timeout : UInt32) : World :=
  after (mangoSMSubscribe .process) (after (mangoSMTimeout ans timeout) w)

theorem polls_quiet (w : World) (timeout : UInt32) : Quiet w (w.polls ans timeout) :=
  trans_of Quiet (mangoSMTimeout_quiet ans timeout w) (mangoSMSubscribe_quiet .process _)

theorem mangoSMWsPolling_entry (h : w.hc.smAPICallArgs = .wsPoll timeout) :
    after (mangoSMWsPolling ans .entry) w = after (wsProcess ans) (w.polls ans timeout) := by
  simp only [mangoSMWsPolling, after, client_bind, h]
  rfl

theorem mangoSMWsPolling_quiet {event : MangoEvent} (h : event = .process → ¬ w.hc.repliesToFrame)
    (h' : event = .entry → ∀ timeout, w.hc.smAPICallArgs = .wsPoll timeout →
      ¬ w.hc.repliesToFrame) : Quiet w (after (mangoSMWsPolling ans event) w) := by
  cases event with
  | entry =>
    cases hargs : w.hc.smAPICallArgs with
    | wsPoll timeout =>
      rw [mangoSMWsPolling_entry ans hargs]
      have hprocess := wsProcess_quiet ans (w := w.polls ans timeout) (h' rfl timeout hargs)
      exact trans_of Quiet (polls_quiet ans w timeout) hprocess
    | _ =>
      simp only [mangoSMWsPolling, after, client_bind, hargs]
      exact refl_of Quiet w
  | process => exact wsProcess_quiet ans (h rfl)
  | read =>
    refine (Moves.bind (receive_quiet ans) fun retval => ?_) w
    split
    · exact leave_quiet _ _
    · exact .pure _
    · refine .bind client_quiet fun hc => .bind (mangoEnsure_quiet _) fun _ => ?_
      exact mangoSMSubscribe_quiet _
  | timeout => exact mangoSMEnter_quiet _ w
  | _ => exact refl_of Quiet w

theorem entered_quiet (state : SmState) (err : MangoErr) : Moves Quiet
    (if err ≠ .ok then mangoSMEnter .aborted else mangoSMEnter state) :=
  .ite (mangoSMEnter_quiet _) (mangoSMEnter_quiet _)

theorem mangoSMWsSendingFrame_write (h : w.hc.smAPICallArgs = .wsFrameSend buf type) :
    after (mangoSMWsSendingFrame ans .write) w =
      after (mangoWSFrameSend ans w.hc.socketfd buf type.val >>= fun err =>
        if err ≠ .ok then mangoSMEnter .aborted else mangoSMEnter .wsConnected) w := by
  simp only [mangoSMWsSendingFrame, after, client_bind, h]

theorem mangoSMWsSendingFrame_quiet {event : MangoEvent}
    (h : event = .write → ∀ buf type, w.hc.smAPICallArgs = .wsFrameSend buf type →
      ¬ ans.malloc (w.trace.length + 2)) :
    Quiet w (after (mangoSMWsSendingFrame ans event) w) := by
  cases event with
  | entry => exact mangoSMSubscribe_quiet _ w
  | write =>
    cases hargs : w.hc.smAPICallArgs with
    | wsFrameSend buf type =>
      rw [mangoSMWsSendingFrame_write ans hargs]
      have hsend := mangoWSFrameSend_quiet ans (h rfl buf type hargs) w.hc.socketfd buf type
      exact after_bind_rel hsend (entered_quiet _)
    | _ =>
      simp only [mangoSMWsSendingFrame, after, client_bind, hargs]
      exact refl_of Quiet w
  | timeout => exact mangoSMEnter_quiet _ w
  | _ => exact refl_of Quiet w

theorem mangoSMWsClosing_write (w : World) : after (mangoSMWsClosing ans .write) w =
    after (mangoWSClose ans w.hc.socketfd >>= fun err =>
      if err ≠ .ok then mangoSMEnter .aborted else mangoSMEnter .disconnected) w := rfl

theorem mangoSMWsClosing_quiet {event : MangoEvent} (h : event ≠ .write) :
    Quiet w (after (mangoSMWsClosing ans event) w) := by
  cases event with
  | entry => exact mangoSMSubscribe_quiet _ w
  | write => exact absurd rfl h
  | timeout => exact mangoSMEnter_quiet _ w
  | _ => exact refl_of Quiet w

theorem handle_quiet {event : MangoEvent} (h : ¬ w.sendsFrame ans event) :
    Quiet w (after (w.hc.curState.handle ans event) w) := by
  cases hstate : w.hc.curState with
  | aborted => exact mangoSMAborted_quiet event w
  | disconnected => exact mangoSMDisconnected_quiet event w
  | httpConnected => exact mangoSMHttpConnected_quiet ans event w
  | httpSendingHeaders => exact mangoSMHttpSendingHeaders_quiet ans event w
  | httpRecvingHeaders => exact mangoSMHttpRecvingHeaders_quiet ans event w
  | httpRecvingData =>
    refine mangoSMHttpRecvingData_quiet ans fun hprocess => ?_
    simpa only [World.sendsFrame, hstate, hprocess] using h
  | httpSendingData => exact mangoSMHttpSendingData_quiet event w
  | httpSendingPacket => exact mangoSMHttpSendingPacket_quiet ans event w
  | wsConnected => exact mangoSMWsConnected_quiet event w
  | wsPolling =>
    refine mangoSMWsPolling_quiet ans (fun hprocess => ?_) fun hentry timeout hargs => ?_
    · simpa only [World.sendsFrame, hstate, hprocess] using h
    · simpa only [World.sendsFrame, hstate, hentry, hargs] using h
  | wsSendingFrame =>
    refine mangoSMWsSendingFrame_quiet ans fun hwrite buf type hargs => ?_
    simpa only [World.sendsFrame, hstate, hwrite, hargs] using h
  | wsClosing =>
    refine mangoSMWsClosing_quiet ans fun hwrite => h ?_
    simp only [World.sendsFrame, hstate, hwrite]

structure Sends (w w' : World) : Prop extends Grows w w' where
  unrouted : ¬ w'.Routed

theorem sends_bind {p : MangoM α} {f : α → MangoM β} (hp : Moves Grows p)
    (hf : ∀ a, Moves Quiet (f a)) (h : ¬ (after p w).Routed) : Sends w (after (p >>= f) w) :=
  ⟨hp.bind (fun a => grows_of_quiet (hf a)) w, sends_rest hf h⟩

theorem handle_sends {event : MangoEvent} (h : w.sendsFrame ans event) :
    Sends w (after (w.hc.curState.handle ans event) w) := by
  unfold World.sendsFrame at h
  split at h
  · rename_i hstate hargs
    rw [hstate, SmState.handle, mangoSMWsSendingFrame_write ans hargs]
    exact sends_bind (mangoWSFrameSend_grows ans _ _ _) (entered_quiet _)
      (mangoWSFrameSend_sends ans h _ _)
  · rename_i hstate
    rw [hstate, SmState.handle, mangoSMWsClosing_write]
    exact sends_bind (mangoWSFrameSend_grows ans _ _ _) (entered_quiet _) (mangoWSClose_sends ans w)
  · rename_i hstate hargs
    rw [hstate, SmState.handle, mangoSMWsPolling_entry ans hargs]
    exact ⟨trans_of Grows (polls_quiet ans w _).toGrows (wsProcess_grows ans _),
      wsProcess_sends ans (w := w.polls ans _) h⟩
  · rename_i hstate
    rw [hstate]
    exact ⟨wsProcess_grows ans w, wsProcess_sends ans h⟩
  · rename_i hstate
    rw [hstate]
    exact sends_bind (inputDataProcessor_grows ans) recvProcessed_quiet
      (inputDataProcessor_sends ans h)
  · cases h

end States

section Steps

variable (ans : Answers)

theorem token_keeps {hc hc' : MangoHttpClient} (h : hc.token token = some hc') :
    hc'.secure = hc.secure ∧ hc'.socketfd = hc.socketfd := by
  unfold MangoHttpClient.token at h
  split at h
  · cases h
  · cases h
    exact ⟨rfl, rfl⟩

theorem appendToken_keeps (r : MangoHttpClient × Bool) (token : List UInt8) :
    (appendToken r token).1.secure = r.1.secure ∧
      (appendToken r token).1.socketfd = r.1.socketfd := by
  unfold appendToken
  split
  · split
    · rename_i hc htoken
      exact token_keeps htoken
    · exact ⟨rfl, rfl⟩
  · exact ⟨rfl, rfl⟩

theorem tokens_keeps (tokens : List (List UInt8)) : Keeps fun hc => (hc.tokens tokens).1 := by
  intro hc
  induction tokens using List.reverseRecOn with
  | nil => exact ⟨rfl, rfl⟩
  | append_singleton tokens token ih =>
    have hlast := appendToken_keeps (hc.tokens tokens) token
    simp only [MangoHttpClient.tokens, List.foldl_append, List.foldl_cons,
      List.foldl_nil] at ih hlast ⊢
    exact ⟨hlast.1.trans ih.1, hlast.2.trans ih.2⟩

theorem requestNew_keeps (URI : List UInt8) (method : MangoHttpMethod) :
    Keeps fun hc => (requestNew URI method hc).2 := by
  intro hc
  simp only [requestNew]
  split
  · split
    · exact tokens_keeps _ _
    · exact tokens_keeps _ _
  · exact ⟨rfl, rfl⟩

theorem headerSet_keeps (headerName headerValue : List UInt8) :
    Keeps fun hc => (headerSet headerName headerValue hc).2 := by
  intro hc
  simp only [headerSet]
  split
  · exact tokens_keeps _ _
  · exact tokens_keeps _ _

theorem exec_quiet (c : Call) : Moves Quiet (c.exec ans) := by
  cases c with
  | httpRequestNew URI method =>
    exact .bind (edit_quiet (requestNew_keeps URI method)) fun _ => .pure _
  | httpHeaderSet headerName headerValue =>
    refine .bind (.bind client_quiet fun hc => ?_) fun _ => .pure _
    exact .bind (mangoEnsure_quiet _) fun _ => edit_quiet (headerSet_keeps headerName headerValue)
  | httpRequestProcess func =>
    refine .bind (update_quiet fun _ => ⟨rfl, rfl⟩) fun _ => .ite ?_ (.pure _)
    refine .bind (update_quiet fun _ => ⟨rfl, rfl⟩) fun _ => .bind client_quiet fun hc => ?_
    refine .bind (userFunc_quiet ans _) fun _ => .bind (mangoPortTimeNow_quiet ans) fun now => ?_
    exact .bind (update_quiet fun _ => ⟨rfl, rfl⟩) fun _ => .pure _
  | wsFrameSend buf type =>
    simp only [Call.exec]
    split
    · exact .bind (update_quiet fun _ => ⟨rfl, rfl⟩) fun _ => .pure _
    · exact .throw _
  | _ => exact .bind (update_quiet fun _ => ⟨rfl, rfl⟩) fun _ => .pure _

namespace Machine

theorem call_quiet (c : Call) (m : Machine) : Quiet m.toWorld (m.call ans c).toWorld := by
  have hexec := exec_quiet ans c m.toWorld
  unfold call
  split
  · rename_i w hok
    rwa [after_ok hok] at hexec
  · rename_i event w hok
    rw [after_ok hok] at hexec
    exact trans_of Quiet hexec (mangoSMExitErr_quiet .ok w)
  · rename_i why w herror
    rwa [after_error herror] at hexec

theorem thrown_quiet (caller : Caller) (w : World) : Quiet w (thrown ans caller w).toWorld := by
  unfold thrown
  split
  · cases caller with
    | _ => exact refl_of Quiet w
  · refine trans_of Quiet (mangoSMTimeout_quiet ans timeoutInfinite w) ?_
    exact update_quiet (f := MangoHttpClient.nextState) (fun _ => ⟨rfl, rfl⟩) _

theorem throw_after (event : MangoEvent) (caller : Caller) (m : Machine) :
    Quiet (after (m.hc.curState.handle ans event) m.toWorld)
      (m.throw ans event caller).toWorld := by
  unfold Machine.throw
  split
  · rename_i w hok
    rw [after_ok hok]
    exact thrown_quiet ans caller w
  · rename_i why w herror
    rw [after_error herror]
    exact refl_of Quiet w

theorem turn_quiet (m : Machine) : Quiet m.toWorld (m.turn ans).toWorld := by
  unfold turn
  split
  · have htime := mangoPortTimeNow_quiet ans m.toWorld
    simp only
    split
    · exact htime
    · have hleft : Keeps (MangoHttpClient.timeLeft
          (elapsedTime (ans.timeNow m.trace.length) m.hc.smEntryTimestamp)) := fun _ => ⟨rfl, rfl⟩
      exact trans_of Quiet htime (update_quiet hleft _)
  · exact refl_of Quiet m.toWorld

theorem switch_world (m : Machine) : m.switch.toWorld = m.toWorld := by
  unfold switch
  split
  · rfl
  · rfl
  · rfl
  · rfl
  · rfl

def sendsFrame (m : Machine) : Op → Bool
  | .call _ _ => false
  | .go ans =>
    match m.control with
    | .throw event _ => m.toWorld.sendsFrame ans event
    | _ => false

theorem step_quiet {m : Machine} {op : Op} (h : ¬ m.sendsFrame op) :
    Quiet m.toWorld (m.step op).toWorld := by
  cases op with
  | call ans c =>
    simp only [step]
    split
    · exact call_quiet ans c m
    · exact refl_of Quiet m.toWorld
  | go ans =>
    simp only [step]
    split
    · rename_i event caller hcontrol
      rw [sendsFrame, hcontrol] at h
      exact trans_of Quiet (handle_quiet ans h) (throw_after ans event caller m)
    · exact turn_quiet ans m
    · rw [switch_world]
      exact refl_of Quiet m.toWorld
    · exact refl_of Quiet m.toWorld

theorem step_sends {m : Machine} {op : Op} (h : m.sendsFrame op) :
    Sends m.toWorld (m.step op).toWorld := by
  cases op with
  | call ans c => cases h
  | go ans =>
    cases hcontrol : m.control with
    | throw event caller =>
      rw [sendsFrame, hcontrol] at h
      have hhandle := handle_sends ans h
      have hthrow := throw_after ans event caller m
      simp only [step, hcontrol]
      exact ⟨trans_of Grows hhandle.toGrows hthrow.toGrows,
        fun hrouted => hhandle.unrouted (hthrow.toGrows.routed hrouted)⟩
    | _ => simp [sendsFrame, hcontrol] at h

theorem step_grows (m : Machine) (op : Op) : Grows m.toWorld (m.step op).toWorld := by
  by_cases h : m.sendsFrame op
  · exact (step_sends h).toGrows
  · exact (step_quiet h).toGrows

end Machine

end Steps

section Runs

theorem run_grows (m : Machine) (ops : List Op) :
    Grows m.toWorld (run Machine.step m ops).toWorld :=
  run_rel Machine.step (R := fun m m' => Grows m.toWorld m'.toWorld)
    (fun m => refl_of Grows m.toWorld) (fun h h' => trans_of Grows h h') Machine.step_grows m ops

/-- On a secure client, what goes over the socket goes through TLS exactly as long as no state sends
a frame of a websocket. -/
theorem run_routed {m : Machine} (hsecure : m.hc.secure ≠ 0) (hrouted : m.Routed) (ops : List Op) :
    (run Machine.step m ops).Routed ↔ Each Machine.step (fun m op => ¬ m.sendsFrame op) m ops := by
  induction ops generalizing m with
  | nil => simpa using hrouted
  | cons op ops ih =>
    rw [each_cons, run, List.foldl_cons]
    by_cases h : m.sendsFrame op
    · have hrest := run_grows (m.step op) ops
      simp only [h, not_true_eq_false, false_and, iff_false]
      exact fun hrouted => (Machine.step_sends h).unrouted (hrest.routed hrouted)
    · have hquiet := Machine.step_quiet h
      rw [and_iff_right h]
      exact ih (hquiet.secure ▸ hsecure) (hquiet.routed hsecure hrouted)

/-- All calls on the socket of a client of `mango_sslconnect` go through TLS exactly if no state
sends a frame of a websocket. -/
theorem tls_routing (ans : Answers) (socketfd : Int) (ops : List Op) :
    (∀ a ∈ (run Machine.step (mangoSslconnect ans socketfd) ops).trace,
        a.socket = some socketfd → a.tls = true) ↔
      Each Machine.step (fun m op => ¬ m.sendsFrame op) (mangoSslconnect ans socketfd) ops := by
  have hsecure : (mangoSslconnect ans socketfd).hc.secure = 1 := rfl
  have htrace : (mangoSslconnect ans socketfd).trace = [.timeNow] := rfl
  have hsocketfd := (run_grows (mangoSslconnect ans socketfd) ops).socketfd
  have hrouted : (mangoSslconnect ans socketfd).Routed := by
    intro a ha hsocket
    rw [htrace, List.mem_singleton] at ha
    rw [ha] at hsocket
    cases hsocket
  rw [← run_routed (hsecure ▸ by decide) hrouted, World.Routed, hsocketfd]
  rfl

def upgrade : Answers where
  timeNow _ := 0
  malloc _ := true
  read _ := some (text "HTTP/1.1 101 Switching Protocols\r\n\r\n")
  write _ := 18
  userFunc _ := .ok

def closeWebsocket : List Op :=
  [.go upgrade, .call upgrade (.httpRequestNew (text "/") .get),
    .call upgrade (.httpRequestProcess true)] ++ List.replicate 18 (.go upgrade) ++
    [.call upgrade .wsClose] ++ List.replicate 5 (.go upgrade)

/-- The frame that closes the websocket goes over the socket as it is. -/
theorem close_frame_past_tls :
    .write 3 [0x88, 0x82, 0, 0, 0, 0, 0x03, 0xe8] 10000 ∈
        (run Machine.step (mangoSslconnect upgrade 3) closeWebsocket).trace ∧
      ¬ ∀ a ∈ (run Machine.step (mangoSslconnect upgrade 3) closeWebsocket).trace,
        a.socket = some 3 → a.tls = true := by
  have hframe : .write 3 [0x88, 0x82, 0, 0, 0, 0, 0x03, 0xe8] 10000 ∈
      (run Machine.step (mangoSslconnect upgrade 3) closeWebsocket).trace := by decide +kernel
  refine ⟨hframe, fun hrouted => ?_⟩
  have htls := hrouted _ hframe rfl
  cases htls

end Runs

end Mangoxx.Mango
