import Mangoxx.Mango.Run

namespace Mangoxx.Mango

open Mangoxx.Lib Mangoxx.Lib.Program

def Action.socket : Action → Option Int
  | read socketfd _ _ => some socketfd
  | write socketfd _ _ => some socketfd
  | sslread socketfd _ _ => some socketfd
  | sslwrite socketfd _ _ => some socketfd
  | _ => none

def Action.tls : Action → Bool
  | sslread _ _ _ => true
  | sslwrite _ _ _ => true
  | _ => false

/-- What has gone over the socket of the client has gone through TLS. -/
def World.Routed (w : World) : Prop :=
  ∀ a ∈ w.trace, a.socket = some w.hc.socketfd → a.tls = true

structure Grows (w w' : World) : Prop where
  secure : w'.hc.secure = w.hc.secure
  socketfd : w'.hc.socketfd = w.hc.socketfd
  trace : w.trace <:+ w'.trace

/-- On a secure client, the added calls go through TLS if they are about its socket. -/
structure Quiet (w w' : World) : Prop extends Grows w w' where
  routed : w.hc.secure ≠ 0 → w.Routed → w'.Routed

instance : IsPreorder World Grows where
  refl _ := ⟨rfl, rfl, List.suffix_rfl⟩
  trans _ _ _ h h' :=
    ⟨h'.secure.trans h.secure, h'.socketfd.trans h.socketfd, h.trace.trans h'.trace⟩

instance : IsPreorder World Quiet where
  refl w := ⟨refl_of Grows w, fun _ h => h⟩
  trans _ _ _ h h' := ⟨trans_of Grows h.toGrows h'.toGrows, fun hsecure hrouted =>
    h'.routed (h.secure ▸ hsecure) (h.routed hsecure hrouted)⟩

theorem Grows.routed (h : Grows w w') (hw' : w'.Routed) : w.Routed := by
  intro a ha hsocket
  exact hw' a (h.trace.subset ha) (h.socketfd ▸ hsocket)

theorem grows_of_quiet {p : MangoM α} (h : Moves Quiet p) : Moves Grows p :=
  h.mono fun _ _ => Quiet.toGrows

section Calls

variable (ans : Answers)

theorem moves_client {R : World → World → Prop} {f : MangoHttpClient → MangoM α}
    (h : ∀ w, R w (after (f w.hc) w)) : Moves R (client >>= f) := h

theorem client_bind (f : MangoHttpClient → MangoM α) (w : World) :
    (client >>= f) w = f w.hc w := rfl

@[simp] theorem client_quiet : Moves Quiet client := fun w => refl_of Quiet w

def Keeps (f : MangoHttpClient → MangoHttpClient) : Prop :=
  ∀ hc, (f hc).secure = hc.secure ∧ (f hc).socketfd = hc.socketfd

theorem edit_quiet {f : MangoHttpClient → α × MangoHttpClient} (h : Keeps fun hc => (f hc).2) :
    Moves Quiet (edit f) := by
  intro w
  obtain ⟨hsecure, hsocketfd⟩ := h w.hc
  refine ⟨⟨hsecure, hsocketfd, List.suffix_rfl⟩, fun _ hrouted a ha hsocket => ?_⟩
  exact hrouted a ha (hsocket.trans (congrArg some hsocketfd))

theorem update_quiet {f : MangoHttpClient → MangoHttpClient}
    (h : Keeps f) : Moves Quiet (update f) :=
  edit_quiet (f := fun hc => (PUnit.unit, f hc)) h

theorem act_grows (a : Action) : Moves Grows (act a) :=
  fun _ => ⟨rfl, rfl, List.suffix_cons ..⟩

theorem act_quiet {a : Action} (h : a.socket = none ∨ a.tls = true) : Moves Quiet (act a) := by
  intro w
  refine ⟨act_grows a w, fun _ hrouted b hb hsocket => ?_⟩
  rcases List.mem_cons.mp hb with rfl | hb
  · rcases h with h | h
    · rw [h] at hsocket
      cases hsocket
    · exact h
  · exact hrouted b hb hsocket

theorem mangoEnsure_quiet (cond : Prop) [Decidable cond] : Moves Quiet (mangoEnsure cond) :=
  .ite (.pure _) (.throw _)

theorem mangoPortTimeNow_quiet : Moves Quiet (mangoPortTimeNow ans) :=
  (act_quiet (.inl rfl)).bind fun _ => .pure _

theorem mangoPortMalloc_quiet (sz : Nat) : Moves Quiet (mangoPortMalloc ans sz) :=
  (act_quiet (.inl rfl)).bind fun _ => .pure _

theorem userFunc_quiet (arg : MangoArg) : Moves Quiet (userFunc ans arg) := by
  refine client_quiet.bind fun hc => .ite ?_ (.throw _)
  exact (act_quiet (.inl rfl)).bind fun _ => .pure _

theorem secure_quiet {plain tls : MangoM α} {w : World} (hplain : Moves Grows plain)
    (htls : Moves Quiet tls) : Quiet w (after (if w.hc.secure = 0 then plain else tls) w) := by
  split
  · rename_i hsecure
    exact ⟨hplain w, fun h => absurd hsecure h⟩
  · exact htls w

theorem portRead_quiet (w : World) (datalen : Nat) (timeout : UInt32) :
    Quiet w (after (portRead ans w.hc datalen timeout) w) :=
  secure_quiet ((act_grows _).bind fun _ => .pure _)
    ((act_quiet (.inr rfl)).bind fun _ => .pure _)

theorem portWrite_quiet (w : World) (data : List UInt8) (timeout : UInt32) :
    Quiet w (after (portWrite ans w.hc data timeout) w) :=
  secure_quiet ((act_grows _).bind fun _ => .pure _)
    ((act_quiet (.inr rfl)).bind fun _ => .pure _)

theorem mangoSocketRead_quiet (datalen : Nat) (timeout : UInt32) :
    Moves Quiet (mangoSocketRead ans datalen timeout) := by
  refine moves_client fun w => after_bind_rel (portRead_quiet ans w _ _) fun retval => ?_
  exact .bind (update_quiet fun _ => ⟨rfl, rfl⟩) fun _ => .pure _

theorem mangoSocketWrite_quiet (data : List UInt8) (timeout : UInt32) :
    Moves Quiet (mangoSocketWrite ans data timeout) := by
  refine moves_client fun w => after_bind_rel (portWrite_quiet ans w _ _) fun retval => ?_
  exact .bind (update_quiet fun _ => ⟨rfl, rfl⟩) fun _ => .pure _

end Calls

section Processors

variable (ans : Answers)

theorem mangoIDPRaw_quiet (buf buflen : Nat) : Moves Quiet (mangoIDPRaw ans buf buflen) := by
  refine .bind client_quiet fun hc => .ite (.pure _) (.ite (.pure _) ?_)
  exact .bind (update_quiet fun _ => ⟨rfl, rfl⟩) fun _ => .bind (userFunc_quiet ans _)
    fun _ => .pure _

theorem mangoODPRaw_quiet (buf : List UInt8) : Moves Quiet (mangoODPRaw ans buf) := by
  refine .bind client_quiet fun hc => .ite (.pure _) (.ite (.pure _) ?_)
  refine .bind (mangoSocketWrite_quiet ans _ _) fun retval => .ite ?_ (.pure _)
  exact .bind (update_quiet fun _ => ⟨rfl, rfl⟩) fun _ => .pure _

theorem chunkSize_quiet (v : DpVars) : Moves Quiet (chunkSize v) := by
  refine .bind client_quiet fun hc => ?_
  split
  · exact .throw _
  · refine .ite (.pure _) ?_
    split
    · exact .bind (update_quiet fun _ => ⟨rfl, rfl⟩) fun _ => .pure _
    · exact .bind (update_quiet fun _ => ⟨rfl, rfl⟩) fun _ => .pure _

theorem chunkData_quiet (v : DpVars) : Moves Quiet (chunkData ans v) := by
  refine .bind client_quiet fun hc => .bind (mangoEnsure_quiet _) fun _ => ?_
  refine .bind (userFunc_quiet ans _) fun err => ?_
  exact .ite (.pure _) (.bind (update_quiet fun _ => ⟨rfl, rfl⟩) fun _ => .pure _)

theorem chunkEnd_quiet (v : DpVars) : Moves Quiet (chunkEnd v) :=
  .bind client_quiet fun _ =>
    .ite (.pure _) (.ite (.bind (update_quiet fun _ => ⟨rfl, rfl⟩) fun _ => .pure _) (.pure _))

theorem trailer_quiet (v : DpVars) : Moves Quiet (trailer ans v) := by
  refine .bind client_quiet fun hc => .ite (.pure _) (.ite (.pure _) (.ite ?_ (.pure _)))
  exact .bind (userFunc_quiet ans _) fun _ => .pure _

theorem chunkedTurn_quiet (v : DpVars) : Moves Quiet (chunkedTurn ans v) := by
  refine .bind client_quiet fun hc => .ite (.pure _) ?_
  split
  · exact chunkSize_quiet v
  · exact chunkData_quiet ans v
  · exact chunkEnd_quiet v
  · exact trailer_quiet ans v
  · exact .throw _

theorem mangoIDPChunked_quiet (buf buflen : Nat) : Moves Quiet (mangoIDPChunked ans buf buflen) :=
  .bind client_quiet fun _ => .loop (chunkedTurn_quiet ans) _ _

theorem odpChunkedTurn_quiet (sent : Nat × List UInt8) : Moves Quiet (odpChunkedTurn ans sent) := by
  refine .ite (.pure _) (.bind (update_quiet fun _ => ⟨rfl, rfl⟩) fun _ => ?_)
  exact .bind (mangoSocketWrite_quiet ans _ _) fun retval => .ite (.pure _) (.pure _)

theorem mangoODPChunked_quiet (buf : List UInt8) : Moves Quiet (mangoODPChunked ans buf) := by
  refine .ite (.bind (update_quiet fun _ => ⟨rfl, rfl⟩) fun _ => ?_) ?_
  · exact .bind (mangoSocketWrite_quiet ans _ _) fun retval => .pure _
  · exact .loop (odpChunkedTurn_quiet ans) _ _

theorem complete_quiet (r : Processed) : Moves Quiet (complete r) :=
  .bind (update_quiet fun _ => ⟨rfl, rfl⟩) fun _ => .pure _

theorem callOutput_quiet (buf : List UInt8) (odp : Option OutputDataProcessor) :
    Moves Quiet (callOutput ans buf odp) := by
  match odp with
  | some .raw => exact mangoODPRaw_quiet ans buf
  | some .chunked => exact mangoODPChunked_quiet ans buf
  | none => exact .throw _

theorem outputDataProcessor_quiet (buf : List UInt8) :
    Moves Quiet (outputDataProcessor ans buf) :=
  .bind client_quiet fun _ => .bind (callOutput_quiet ans buf _) complete_quiet

end Processors

section States

variable (ans : Answers)

theorem mangoSMEnter_quiet (state : SmState) : Moves Quiet (mangoSMEnter state) :=
  .bind client_quiet fun _ => .bind (mangoEnsure_quiet _) fun _ => update_quiet fun _ => ⟨rfl, rfl⟩

theorem mangoSMExitErr_quiet (err : MangoErr) : Moves Quiet (mangoSMExitErr err) :=
  update_quiet fun _ => ⟨rfl, rfl⟩

theorem leave_quiet (err : MangoErr) (state : SmState) : Moves Quiet (leave err state) :=
  .bind (mangoSMExitErr_quiet err) fun _ => mangoSMEnter_quiet state

theorem mangoSMSubscribe_quiet (event : MangoEvent) : Moves Quiet (mangoSMSubscribe event) :=
  .bind (mangoEnsure_quiet _) fun _ => update_quiet fun _ => ⟨rfl, rfl⟩

theorem mangoSMTimeout_quiet (timeout : UInt32) : Moves Quiet (mangoSMTimeout ans timeout) :=
  .bind (mangoPortTimeNow_quiet ans) fun _ => update_quiet fun _ => ⟨rfl, rfl⟩

theorem shrink_keeps : Keeps MangoHttpClient.shrink := by
  intro hc
  unfold MangoHttpClient.shrink
  split
  · exact ⟨rfl, rfl⟩
  · exact ⟨rfl, rfl⟩

theorem mangoWBShrink_quiet : Moves Quiet mangoWBShrink := by
  refine .bind client_quiet fun _ => .bind (mangoEnsure_quiet _) fun _ => ?_
  exact .bind (mangoEnsure_quiet _) fun _ => update_quiet shrink_keeps

theorem received_keeps (data : List UInt8) : Keeps (MangoHttpClient.received data) := by
  intro hc
  unfold MangoHttpClient.received
  split
  · exact ⟨rfl, rfl⟩
  · exact ⟨rfl, rfl⟩

theorem receive_quiet : Moves Quiet (receive ans) := by
  refine .bind client_quiet fun _ => .bind (mangoSocketRead_quiet ans _ _) fun retval => ?_
  exact .bind (update_quiet (received_keeps _)) fun _ => .pure _

theorem discard_quiet (processed : Nat) : Moves Quiet (discard processed) :=
  .bind (update_quiet fun _ => ⟨rfl, rfl⟩) fun _ => mangoWBShrink_quiet

theorem readWhenEmpty_quiet : Moves Quiet readWhenEmpty :=
  .bind client_quiet fun _ => .ite (mangoSMSubscribe_quiet _) (.pure _)

theorem readMore_quiet : Moves Quiet readMore :=
  .bind client_quiet fun _ => .ite (leave_quiet _ _) (mangoSMSubscribe_quiet _)

theorem refuse_quiet (err : MangoErr) (event : MangoEvent) (refused : List MangoEvent) :
    Moves Quiet (refuse err event refused) :=
  .ite (update_quiet fun _ => ⟨rfl, rfl⟩) (.throw _)

theorem sendBody_quiet : Moves Quiet sendBody := by
  refine .bind client_quiet fun hc => .ite (leave_quiet _ _) ?_
  refine .bind (update_quiet fun hc => ?_) fun _ => .bind client_quiet fun hc => ?_
  · split
    · exact ⟨rfl, rfl⟩
    · exact ⟨rfl, rfl⟩
  · exact .ite (leave_quiet _ _) (.ite (leave_quiet _ _) (mangoSMEnter_quiet _))

theorem attachProcessor_quiet : Moves Quiet attachProcessor := by
  refine .bind client_quiet fun hc => .bind (update_quiet fun _ => ⟨rfl, rfl⟩) fun _ =>
    .ite sendBody_quiet ?_
  refine .bind (update_quiet fun _ => ⟨rfl, rfl⟩) fun _ => ?_
  split
  · exact leave_quiet _ _
  · exact .bind (update_quiet fun _ => ⟨rfl, rfl⟩) fun _ =>
      .ite (mangoSMEnter_quiet _) sendBody_quiet

theorem mangoSMHttpSendingHeaders_quiet (event : MangoEvent) :
    Moves Quiet (mangoSMHttpSendingHeaders ans event) := by
  cases event with
  | entry =>
    refine .bind client_quiet fun hc => .bind (mangoEnsure_quiet _) fun _ => ?_
    exact .bind (mangoEnsure_quiet _) fun _ => mangoSMSubscribe_quiet _
  | write =>
    refine .bind client_quiet fun hc => .bind (mangoSocketWrite_quiet ans _ _) fun retval => ?_
    refine .ite (leave_quiet _ _) (.bind (update_quiet fun _ => ⟨rfl, rfl⟩) fun _ => ?_)
    refine .bind client_quiet fun hc => ?_
    exact .bind (mangoEnsure_quiet _) fun _ => .ite (mangoSMSubscribe_quiet _) (.pure _)
  | process =>
    refine .bind client_quiet fun hc => ?_
    split
    · exact mangoSMEnter_quiet _
    · exact mangoSMEnter_quiet _
    · exact attachProcessor_quiet
    · exact attachProcessor_quiet
    · exact .throw _
  | _ => exact .throw _

theorem recvBody_quiet {assign : MangoHttpClient → MangoHttpClient} (h : Keeps assign) :
    Moves Quiet (recvBody assign) :=
  .bind (update_quiet h) fun _ => mangoSMEnter_quiet _

theorem recvSpecial_quiet (hc : MangoHttpClient) : Moves Quiet (recvSpecial hc) := by
  refine .ite (recvBody_quiet fun _ => ⟨rfl, rfl⟩) (.ite ?_ (.ite (leave_quiet _ _) ?_))
  · exact .bind (update_quiet fun _ => ⟨rfl, rfl⟩) fun _ => leave_quiet _ _
  · exact recvBody_quiet fun _ => ⟨rfl, rfl⟩

theorem recvResponse_quiet (hc : MangoHttpClient) : Moves Quiet (recvResponse hc) := by
  refine .ite (leave_quiet _ _) (.ite (.ite (leave_quiet _ _) ?_) ?_)
  · split
    · exact .bind (update_quiet fun _ => ⟨rfl, rfl⟩) fun _ => leave_quiet _ _
    · exact recvBody_quiet fun _ => ⟨rfl, rfl⟩
  · refine .ite (leave_quiet _ _) (.ite (.ite (leave_quiet _ _) ?_) (recvSpecial_quiet hc))
    exact recvBody_quiet fun _ => ⟨rfl, rfl⟩

theorem mangoSMHttpRecvingHeaders_quiet (event : MangoEvent) :
    Moves Quiet (mangoSMHttpRecvingHeaders ans event) := by
  cases event with
  | entry =>
    refine .bind (mangoSMTimeout_quiet ans _) fun _ => ?_
    exact .bind (mangoSMSubscribe_quiet _) fun _ => update_quiet fun _ => ⟨rfl, rfl⟩
  | read =>
    refine .bind (receive_quiet ans) fun retval => ?_
    split
    · exact leave_quiet _ _
    · exact .pure _
    · refine .bind (edit_quiet fun _ => ⟨rfl, rfl⟩) fun retval => .bind client_quiet fun hc => ?_
      refine .ite (leave_quiet _ _) (.ite (.ite (leave_quiet _ _) (.pure _)) ?_)
      exact .bind (update_quiet fun _ => ⟨rfl, rfl⟩) fun _ => mangoSMSubscribe_quiet _
  | process =>
    refine .bind client_quiet fun hc => .bind (userFunc_quiet ans _) fun _ => ?_
    exact recvResponse_quiet hc
  | timeout => exact leave_quiet _ _
  | _ => exact .throw _

theorem recvProcessed_quiet (r : Processed) : Moves Quiet (recvProcessed r) := by
  refine .bind client_quiet fun hc => .ite readMore_quiet (.ite (leave_quiet _ _) ?_)
  exact .ite (leave_quiet _ _) (.bind (discard_quiet _) fun _ => readWhenEmpty_quiet)

theorem wsProcessed_quiet (r : Processed) : Moves Quiet (wsProcessed r) := by
  refine .ite readMore_quiet (.ite (leave_quiet _ _) (.ite (leave_quiet _ _) ?_))
  exact .bind (discard_quiet _) fun _ => readWhenEmpty_quiet

theorem mangoSMHttpConnected_quiet (event : MangoEvent) :
    Moves Quiet (mangoSMHttpConnected ans event) := by
  cases event with
  | entry => exact .bind (mangoPortTimeNow_quiet ans) fun _ => update_quiet fun _ => ⟨rfl, rfl⟩
  | apicallHttpRequestProcess => exact mangoSMEnter_quiet _
  | _ => exact refuse_quiet _ _ _

theorem mangoSMHttpSendingData_quiet (event : MangoEvent) :
    Moves Quiet (mangoSMHttpSendingData event) := by
  cases event with
  | entry =>
    rw [mangoSMHttpSendingData]
    exact update_quiet fun _ => ⟨rfl, rfl⟩
  | apicallHttpDataSend => exact mangoSMEnter_quiet _
  | _ => exact refuse_quiet _ _ _

theorem mangoSMHttpSendingPacket_quiet (event : MangoEvent) :
    Moves Quiet (mangoSMHttpSendingPacket ans event) := by
  cases event with
  | entry => exact mangoSMSubscribe_quiet _
  | write =>
    refine .bind client_quiet fun hc => ?_
    split
    · refine .bind (outputDataProcessor_quiet ans _) fun r => .ite (leave_quiet _ _) ?_
      exact .ite (mangoSMEnter_quiet _) (mangoSMEnter_quiet _)
    · exact .throw _
  | timeout => exact mangoSMEnter_quiet _
  | _ => exact .throw _

theorem mangoSMWsConnected_quiet (event : MangoEvent) : Moves Quiet (mangoSMWsConnected event) := by
  cases event with
  | entry => exact mangoWBShrink_quiet
  | apicallWsPoll => exact mangoSMEnter_quiet _
  | apicallWsFrameSend => exact mangoSMEnter_quiet _
  | apicallWsClose => exact mangoSMEnter_quiet _
  | _ => exact refuse_quiet _ _ _

theorem mangoSMAborted_quiet (event : MangoEvent) : Moves Quiet (mangoSMAborted event) := by
  cases event with
  | entry => exact .pure _
  | _ => exact refuse_quiet _ _ _

theorem mangoSMDisconnected_quiet (event : MangoEvent) :
    Moves Quiet (mangoSMDisconnected event) := by
  cases event with
  | entry => exact .pure _
  | _ => exact refuse_quiet _ _ _

end States

end Mangoxx.Mango
