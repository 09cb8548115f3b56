import Mangoxx.Mango.Quiet

namespace Mangoxx.Mango

open Mangoxx.Lib Mangoxx.Lib.Program Mangoxx.Fcmd

section Sending

variable (ans : Answers)

theorem sendFrame_grows (socketfd : Int) (frame : List UInt8) :
    Moves Grows (sendFrame ans socketfd frame) :=
  .bind (.bind (act_grows _) fun _ => .pure _) fun _ => .pure _

theorem sendFrame_sends (w : World) (frame : List UInt8) :
    ¬ (after (sendFrame ans w.hc.socketfd frame) w).Routed := by
  intro hrouted
  have htls := hrouted _ (List.mem_cons_self ..) rfl
  cases htls

theorem mangoWSFrameSend_grows (socketfd : Int) (buf : List UInt8) (type : WsFrameType) :
    Moves Grows (mangoWSFrameSend ans socketfd buf type) := by
  have htime := grows_of_quiet (mangoPortTimeNow_quiet ans)
  refine htime.bind fun now => htime.bind fun now' => ?_
  refine (grows_of_quiet (mangoEnsure_quiet _)).bind fun _ => .bind ?_ fun allocated => ?_
  · exact .ite (.pure _) (grows_of_quiet (mangoPortMalloc_quiet ans _))
  · exact .ite (sendFrame_grows ans _ _) (.pure _)

theorem mangoWSFrameSend_data (w : World) (socketfd : Int) (buf : List UInt8)
    (type : DataFrameType) :
    ∃ frame trace, (∀ a ∈ trace, a.socket = none) ∧
      after (mangoWSFrameSend ans socketfd buf type.val) w =
        after (if ans.malloc (w.trace.length + 2) then sendFrame ans socketfd frame
          else return .ok) ⟨w.hc, trace ++ w.trace⟩ := by
  obtain ⟨type, rfl | rfl⟩ := type
  · exact ⟨_, [.malloc (buf.length + 14), .timeNow, .timeNow], by simp [Action.socket], rfl⟩
  · exact ⟨_, [.malloc (buf.length + 14), .timeNow, .timeNow], by simp [Action.socket], rfl⟩

theorem quiet_append (w : World) (h : ∀ a ∈ trace, a.socket = none) :
    Quiet w ⟨w.hc, trace ++ w.trace⟩ := by
  refine ⟨⟨rfl, rfl, List.suffix_append ..⟩, fun _ hrouted a ha hsocket => ?_⟩
  rcases List.mem_append.mp ha with ha | ha
  · rw [h a ha] at hsocket
    cases hsocket
  · exact hrouted a ha hsocket

theorem mangoWSFrameSend_quiet {w : World} (h : ¬ ans.malloc (w.trace.length + 2)) (socketfd : Int)
    (buf : List UInt8) (type : DataFrameType) :
    Quiet w (after (mangoWSFrameSend ans socketfd buf type.val) w) := by
  obtain ⟨frame, trace, htrace, heq⟩ := mangoWSFrameSend_data ans w socketfd buf type
  rw [heq, if_neg h]
  exact quiet_append w htrace

theorem mangoWSFrameSend_sends {w : World} (h : ans.malloc (w.trace.length + 2)) (buf : List UInt8)
    (type : DataFrameType) :
    ¬ (after (mangoWSFrameSend ans w.hc.socketfd buf type.val) w).Routed := by
  obtain ⟨frame, trace, htrace, heq⟩ := mangoWSFrameSend_data ans w w.hc.socketfd buf type
  rw [heq, if_pos h]
  exact sendFrame_sends ans ⟨w.hc, trace ++ w.trace⟩ frame

theorem mangoWSClose_sends (w : World) : ¬ (after (mangoWSClose ans w.hc.socketfd) w).Routed := by
  intro hrouted
  have htls := hrouted _ (List.mem_cons_self ..) rfl
  cases htls

theorem mangoWSPong_sends (w : World) : ¬ (after (mangoWSPong ans w.hc.socketfd) w).Routed := by
  intro hrouted
  have htls := hrouted _ (List.mem_cons_self ..) rfl
  cases htls

end Sending

section Receiving

/-- The control frames that the client answers. -/
def IDPArgsWebsocket.answered (args : IDPArgsWebsocket) : Bool :=
  args.opcode = WsFrameType.close.opcode ∨ args.opcode = WsFrameType.ping.opcode

/-- Within `fuel` turns the processor gets to a complete frame that it answers. -/
def replies (m : Buf) : Nat → IDPArgsWebsocket → DpVars → Bool
  | 0, _, _ => false
  | fuel + 1, args, v =>
    match frameTurn m args v with
    | .moveTo args processSz => replies m fuel args (v.advance processSz)
    | .payload n =>
      if args.control then args.answered else replies m fuel (args.payload n) (v.advance n)
    | _ => false

variable (ans : Answers)

def World.setArgs (args : IDPArgsWebsocket) (w : World) : World :=
  { w with hc := { w.hc with idpArgsWebsocket := args } }

theorem setArgs_quiet (w : World) (args : IDPArgsWebsocket) : Quiet w (w.setArgs args) :=
  update_quiet (f := fun hc => { hc with idpArgsWebsocket := args }) (fun _ => ⟨rfl, rfl⟩) w

variable {w : World} {v : DpVars}

theorem websocketTurn_moveTo
    (h : frameTurn w.hc.workingBuffer w.hc.idpArgsWebsocket v = .moveTo args n) :
    websocketTurn ans v w = .ok (.again (v.advance n)) (w.setArgs args) := by
  simp only [websocketTurn, client_bind, h]
  rfl

theorem websocketTurn_last (h : ∀ args n,
      frameTurn w.hc.workingBuffer w.hc.idpArgsWebsocket v ≠ .moveTo args n)
    (h' : ∀ n, frameTurn w.hc.workingBuffer w.hc.idpArgsWebsocket v ≠ .payload n) :
    ∃ w', Quiet w w' ∧
      (websocketTurn ans v w = .error .spin w' ∨ ∃ r, websocketTurn ans v w =
        .ok (.stop r) w') := by
  simp only [websocketTurn, client_bind]
  cases hturn : frameTurn w.hc.workingBuffer w.hc.idpArgsWebsocket v with
  | ret args => exact ⟨_, setArgs_quiet w args, .inr ⟨_, rfl⟩⟩
  | error args => exact ⟨_, setArgs_quiet w args, .inr ⟨_, rfl⟩⟩
  | moveTo args n => exact absurd hturn (h args n)
  | payload n => exact absurd hturn (h' n)
  | spin => exact ⟨w, refl_of Quiet w, .inl rfl⟩

theorem websocketTurn_payload
    (h : frameTurn w.hc.workingBuffer w.hc.idpArgsWebsocket v = .payload n) :
    websocketTurn ans v w = processPayload ans v n w := by
  simp only [websocketTurn, client_bind, h]

theorem userFunc_ok (h : w.hc.userFunc) (arg : MangoArg) :
    userFunc ans arg w =
      .ok (ans.userFunc w.trace.length) { w with trace := .userFunc arg :: w.trace } := by
  simp only [userFunc, client_bind, h]
  rfl

theorem userFunc_fault (h : ¬ w.hc.userFunc) (arg : MangoArg) :
    userFunc ans arg w = .error .fault w := by
  simp only [userFunc, client_bind, h]
  rfl

theorem processPayload_grows (n : Nat) (v : DpVars) : Moves Grows (processPayload ans v n) := by
  have huser := fun arg => grows_of_quiet (userFunc_quiet ans arg)
  have hset := fun args => grows_of_quiet
    (update_quiet (f := fun hc => { hc with idpArgsWebsocket := args }) fun _ => ⟨rfl, rfl⟩)
  refine .bind (grows_of_quiet client_quiet) fun hc => .ite (.ite ?_ (.ite ?_ (.pure _))) ?_
  · refine .bind (huser _) fun _ => .bind ?_ fun _ => .pure _
    exact mangoWSFrameSend_grows ans _ _ _
  · refine .bind (huser _) fun _ => .bind ?_ fun _ => .bind (hset _) fun _ => .pure _
    exact mangoWSFrameSend_grows ans _ _ _
  · exact .bind (huser _) fun _ => .bind (hset _) fun _ => .pure _

theorem processPayload_fault (huser : ¬ w.hc.userFunc)
    (h : w.hc.idpArgsWebsocket.control → w.hc.idpArgsWebsocket.answered) (n : Nat) :
    processPayload ans v n w = .error .fault w := by
  simp only [processPayload, client_bind]
  simp only [IDPArgsWebsocket.answered, decide_eq_true_eq] at h
  split_ifs with hcontrol hclose hping
  · exact bind_error (userFunc_fault ans huser _)
  · exact bind_error (userFunc_fault ans huser _)
  · exact absurd (h hcontrol) (not_or.mpr ⟨hclose, hping⟩)
  · exact bind_error (userFunc_fault ans huser _)

theorem processPayload_refused (hcontrol : w.hc.idpArgsWebsocket.control)
    (h : ¬ w.hc.idpArgsWebsocket.answered) (n : Nat) :
    processPayload ans v n w = .ok (.stop (v.fail .dataProcessing)) w := by
  simp only [IDPArgsWebsocket.answered, decide_eq_true_eq, not_or] at h
  simp only [processPayload, client_bind, if_pos hcontrol, if_neg h.1, if_neg h.2]
  rfl

theorem processPayload_data (hcontrol : ¬ w.hc.idpArgsWebsocket.control) (huser : w.hc.userFunc)
    (n : Nat) :
    ∃ w', Quiet w w' ∧ processPayload ans v n w = .ok (.again (v.advance n)) w' ∧
      w'.hc = { w.hc with idpArgsWebsocket := w.hc.idpArgsWebsocket.payload n } := by
  simp only [processPayload, client_bind, if_neg hcontrol, bind_ok (userFunc_ok ans huser _)]
  refine ⟨_, trans_of Quiet (@quiet_append [.userFunc _] w ?_) (setArgs_quiet _ _), rfl, rfl⟩
  simp [Action.socket]

theorem processPayload_sends (hcontrol : w.hc.idpArgsWebsocket.control)
    (h : w.hc.idpArgsWebsocket.answered) (huser : w.hc.userFunc) (n : Nat) :
    ¬ (after (processPayload ans v n) w).Routed := by
  simp only [IDPArgsWebsocket.answered, decide_eq_true_eq] at h
  simp only [after, processPayload, client_bind, if_pos hcontrol]
  by_cases hclose : w.hc.idpArgsWebsocket.opcode = WsFrameType.close.opcode
  · rw [if_pos hclose, bind_ok (userFunc_ok ans huser _)]
    exact mangoWSClose_sends ans { w with trace := .userFunc .websocketClose :: w.trace }
  · rw [if_neg hclose, if_pos (h.resolve_left hclose), bind_ok (userFunc_ok ans huser _)]
    exact mangoWSPong_sends ans { w with trace := .userFunc .websocketPing :: w.trace }

theorem websocketTurn_grows (v : DpVars) : Moves Grows (websocketTurn ans v) := by
  have hset := fun args => grows_of_quiet
    (update_quiet (f := fun hc => { hc with idpArgsWebsocket := args }) fun _ => ⟨rfl, rfl⟩)
  refine .bind (grows_of_quiet client_quiet) fun hc => ?_
  split
  · exact .bind (hset _) fun _ => .pure _
  · exact .bind (hset _) fun _ => .pure _
  · exact .bind (hset _) fun _ => .pure _
  · exact processPayload_grows ans _ v
  · exact .throw _

theorem websocket_quiet (fuel : Nat)
    (h : ¬ (w.hc.userFunc ∧ replies w.hc.workingBuffer fuel w.hc.idpArgsWebsocket v)) :
    Quiet w (after (loop .spin (websocketTurn ans) fuel v) w) := by
  induction fuel generalizing w v with
  | zero => exact refl_of Quiet w
  | succ fuel ih =>
    simp only [replies] at h
    cases hturn : frameTurn w.hc.workingBuffer w.hc.idpArgsWebsocket v with
    | moveTo args n =>
      rw [hturn] at h
      rw [after, loop_again (websocketTurn_moveTo ans hturn)]
      exact trans_of Quiet (setArgs_quiet w args) (ih h)
    | payload n =>
      simp only [hturn] at h
      have hpayload := websocketTurn_payload ans hturn
      by_cases hcontrol : w.hc.idpArgsWebsocket.control
      · rw [if_pos hcontrol] at h
        by_cases hanswered : w.hc.idpArgsWebsocket.answered
        · have hfault := processPayload_fault ans (v := v) (fun huser => h ⟨huser, hanswered⟩)
            (fun _ => hanswered) n
          rw [loop, after_error (bind_error (hpayload.trans hfault))]
          exact refl_of Quiet w
        · have hrefused := processPayload_refused ans (v := v) hcontrol hanswered n
          rw [after_ok (loop_stop (hpayload.trans hrefused))]
          exact refl_of Quiet w
      · rw [if_neg hcontrol] at h
        by_cases huser : w.hc.userFunc
        · obtain ⟨w', hquiet, hagain, hhc⟩ := processPayload_data ans (v := v) hcontrol huser n
          rw [after, loop_again (hpayload.trans hagain)]
          exact trans_of Quiet hquiet (ih (by rw [hhc]; exact h))
        · have hfault := processPayload_fault ans (v := v) huser (absurd · hcontrol) n
          rw [loop, after_error (bind_error (hpayload.trans hfault))]
          exact refl_of Quiet w
    | _ =>
      obtain ⟨w', hquiet, hlast | ⟨r, hlast⟩⟩ :=
        websocketTurn_last ans (w := w) (v := v) (by simp [hturn]) (by simp [hturn])
      · rwa [loop, after_error (bind_error hlast)]
      · rwa [after_ok (loop_stop hlast)]

theorem websocket_sends (fuel : Nat) (huser : w.hc.userFunc)
    (h : replies w.hc.workingBuffer fuel w.hc.idpArgsWebsocket v) :
    ¬ (after (loop .spin (websocketTurn ans) fuel v) w).Routed := by
  induction fuel generalizing w v with
  | zero => simp [replies] at h
  | succ fuel ih =>
    simp only [replies] at h
    cases hturn : frameTurn w.hc.workingBuffer w.hc.idpArgsWebsocket v with
    | moveTo args n =>
      rw [hturn] at h
      rw [after, loop_again (websocketTurn_moveTo ans hturn)]
      exact ih huser h
    | payload n =>
      simp only [hturn] at h
      have hpayload := websocketTurn_payload ans hturn
      by_cases hcontrol : w.hc.idpArgsWebsocket.control
      · rw [if_pos hcontrol] at h
        have hsends := processPayload_sends ans (v := v) hcontrol h huser n
        have hrest := loop_rest .spin (websocketTurn_grows ans) fuel v w
        rw [after, hpayload] at hrest
        exact fun hrouted => hsends (hrest.routed hrouted)
      · rw [if_neg hcontrol] at h
        obtain ⟨w', -, hagain, hhc⟩ := processPayload_data ans (v := v) hcontrol huser n
        rw [after, loop_again (hpayload.trans hagain)]
        exact ih (by rw [hhc]; exact huser) (by rw [hhc]; exact h)
    | _ => simp [hturn] at h

end Receiving

end Mangoxx.Mango
