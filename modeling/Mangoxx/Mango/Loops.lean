import Mangoxx.Mango.Frames

namespace Mangoxx.Mango

open Mangoxx.Lib Mangoxx.Lib.Program Mangoxx.Fcmd

def Sustains (I : MangoHttpClient → Prop) (p : MangoM α) : Prop :=
  Maintains (fun w => I w.hc) (· ≠ .spin) p

section Rules

variable {I : MangoHttpClient → Prop}

theorem Sustains.pure (a : α) : Sustains I (Pure.pure a) := Maintains.pure a

theorem Sustains.throw {why : Stop} (h : why ≠ .spin) :
    Sustains I (MonadExcept.throw why : MangoM α) :=
  Maintains.throw h

theorem Sustains.bind {p : MangoM α} {f : α → MangoM β} (hp : Sustains I p)
    (hf : ∀ a, Sustains I (f a)) : Sustains I (p >>= f) := Maintains.bind hp hf

theorem Sustains.ite {c : Prop} [Decidable c] {p q : MangoM α} (hp : Sustains I p)
    (hq : Sustains I q) : Sustains I (if c then p else q) := Maintains.ite hp hq

end Rules

section Calls

variable (ans : Answers) {I : MangoHttpClient → Prop}

theorem client_sustains : Sustains I client := fun _ h => h

theorem update_sustains {f : MangoHttpClient → MangoHttpClient} (h : ∀ hc, I hc → I (f hc)) :
    Sustains I (update f) := fun w => h w.hc

theorem act_sustains (a : Action) : Sustains I (act a) := fun _ h => h

theorem mangoEnsure_sustains (cond : Prop) [Decidable cond] : Sustains I (mangoEnsure cond) :=
  .ite (.pure _) (.throw nofun)

theorem userFunc_sustains (arg : MangoArg) : Sustains I (userFunc ans arg) :=
  client_sustains.bind fun _ => .ite ((act_sustains _).bind fun _ => .pure _) (.throw nofun)

theorem portWrite_sustains (hc : MangoHttpClient) (data : List UInt8) (timeout : UInt32) :
    Sustains I (portWrite ans hc data timeout) :=
  .ite ((act_sustains _).bind fun _ => .pure _) ((act_sustains _).bind fun _ => .pure _)

end Calls

theorem advance_buflen {v : DpVars} (hv : v.buflen < 65536) (hn : n ≤ v.buflen) :
    (v.advance n).buflen = v.buflen - n := by
  simp only [DpVars.advance]
  omega

section Invariant

def IDPArgsChunked.Placed (args : IDPArgsChunked) : Prop :=
  args.state = 1 ∨ args.state = 2 ∨ args.state = 3 ∨ args.state = 4

/-- A payload is being received: it fits in the working buffer and none of it has been processed, or
it does not fit and some of it is missing. -/
def IDPArgsWebsocket.Consistent (args : IDPArgsWebsocket) : Prop :=
  args.state = 1 ∨ args.state = 2 ∧
    (args.frameSz.toNat ≤ wbTotSz → args.frameSzProcessed = 0) ∧
    (wbTotSz < args.frameSz.toNat → args.frameSzProcessed ≠ args.frameSz)

/-- The processor is assigned and its arguments are such as it leaves them; the working buffer has
room for its string termination. -/
def MangoHttpClient.Receives (hc : MangoHttpClient) (idp : Option InputDataProcessor) : Prop :=
  hc.inputDataProcessor = idp ∧ hc.workingBufferIndexRight ≤ wbTotSz ∧
    match idp with
    | some .chunked => hc.idpArgsChunked.Placed
    | some .websocket => hc.idpArgsWebsocket.Consistent
    | _ => True

def MangoHttpClient.Steady (hc : MangoHttpClient) : Prop := ∃ idp, hc.Receives idp

end Invariant

section Websocket

theorem frameTurn_moveTo (h : frameTurn m args v = .moveTo args' n) :
    args'.state = 2 ∧ args'.frameSzProcessed = 0 ∧ 0 < n ∧ n ≤ v.buflen := by
  unfold frameTurn at h
  split at h
  · cases h
  · split at h
    · split at h
      · cases h
      · simp only at h
        split_ifs at h
        all_goals
          cases h
          refine ⟨rfl, rfl, ?_, ?_⟩
          · omega
          · omega
    · split at h
      · cases h
      · cases h
    · cases h

theorem frameTurn_payload (h : frameTurn m args v = .payload n) :
    args.state = 2 ∧ v.buflen ≠ 0 ∧ args.maxReadSz v.buflen = some n := by
  unfold frameTurn at h
  split at h
  · cases h
  · rename_i hbuflen
    split at h
    · simp only at h
      split_ifs at h
    · rename_i hstate
      split at h
      · cases h
      · rename_i hsome
        cases h
        exact ⟨hstate, hbuflen, hsome⟩
    · cases h

theorem frameTurn_stop (hargs : args.Consistent)
    (h : frameTurn m args v = .ret args' ∨ frameTurn m args v = .error args') :
    args'.Consistent := by
  unfold frameTurn at h
  split at h
  · rcases h with h | h
    · cases h
      exact hargs
    · cases h
  · split at h
    · rename_i hone
      split at h
      · rcases h with h | h
        · cases h
          exact hargs
        · cases h
      · simp only at h
        split_ifs at h
        all_goals
          rcases h with h | h
          all_goals
            cases h
            try exact .inl hone
    · split at h
      · rcases h with h | h
        · cases h
          exact hargs
        · cases h
      · rcases h with h | h
        · cases h
        · cases h
    · rcases h with h | h
      · cases h
      · cases h

theorem frameTurn_spin (h : frameTurn m args v = .spin) : args.state ≠ 1 ∧ args.state ≠ 2 := by
  unfold frameTurn at h
  split at h
  · cases h
  · split at h
    · split at h
      · cases h
      · simp only at h
        split_ifs at h
    · split at h
      · cases h
      · cases h
    · rename_i hone htwo
      exact ⟨hone, htwo⟩

theorem Consistent.start {args : IDPArgsWebsocket} (hstate : args.state = 2)
    (hzero : args.frameSzProcessed = 0) : args.Consistent := by
  refine .inr ⟨hstate, fun _ => hzero, fun hlarge heq => ?_⟩
  rw [← heq, hzero] at hlarge
  exact absurd hlarge (by decide)

theorem maxReadSz_le {args : IDPArgsWebsocket} (h : args.maxReadSz buflen = some n) :
    n ≤ buflen := by
  unfold IDPArgsWebsocket.maxReadSz at h
  split_ifs at h
  · obtain rfl := Option.some.inj h
    omega
  · obtain rfl := Option.some.inj h
    exact Nat.min_le_left ..

theorem Consistent.payload {args : IDPArgsWebsocket} (h : args.Consistent) (hstate : args.state = 2)
    (hbuflen : buflen ≠ 0) (hn : args.maxReadSz buflen = some n) :
    (args.payload n).Consistent ∧ ((args.payload n).state = 2 → 0 < n) := by
  obtain ⟨hsmall, hlarge⟩ := (h.resolve_left (by rw [hstate]; decide)).2
  by_cases hlast : args.lastBytes n
  · have hone : (args.payload n).state = 1 := if_pos hlast
    exact ⟨.inl hone, fun htwo => absurd (hone.symm.trans htwo) (by decide)⟩
  · have htwo : (args.payload n).state = 2 := if_neg hlast
    simp only [IDPArgsWebsocket.lastBytes, decide_eq_true_eq] at hlast
    unfold IDPArgsWebsocket.maxReadSz at hn
    split_ifs at hn with hfits
    · -- A payload that fits is processed as a whole.
      obtain rfl := Option.some.inj hn
      rw [hsmall hfits, UInt32.zero_add] at hlast
      exact absurd UInt32.ofNat_toNat hlast
    · obtain rfl := Option.some.inj hn
      refine ⟨.inr ⟨htwo, fun hfits' => absurd hfits' hfits, fun _ => hlast⟩, fun _ => ?_⟩
      have hrest : (args.frameSz - args.frameSzProcessed).toNat ≠ 0 := by
        intro hzero
        have hsub : args.frameSz - args.frameSzProcessed = 0 := UInt32.toNat_inj.mp hzero
        rw [UInt32.sub_eq_iff_eq_add, UInt32.zero_add] at hsub
        exact hlarge (not_le.mp hfits) hsub.symm
      omega

variable (ans : Answers) {w w' : World} {v v' : DpVars}

theorem mangoWSFrameSend_control (w : World) (socketfd : Int) {type : WsFrameType}
    (h : type = .close ∨ type = .pong) :
    ∃ err trace, mangoWSFrameSend ans socketfd [] type w = .ok err ⟨w.hc, trace⟩ := by
  rcases h with rfl | rfl
  · exact ⟨_, _, rfl⟩
  · exact ⟨_, _, rfl⟩

theorem processPayload_answered (hcontrol : w.hc.idpArgsWebsocket.control)
    (h : w.hc.idpArgsWebsocket.answered) (huser : w.hc.userFunc) (n : Nat) :
    (∃ r w', processPayload ans v n w = .ok (.stop r) w' ∧ w'.hc = w.hc) ∨
      ∃ w', processPayload ans v n w = .ok (.again (v.advance n)) w' ∧
        w'.hc = { w.hc with idpArgsWebsocket := w.hc.idpArgsWebsocket.payload n } := by
  simp only [IDPArgsWebsocket.answered, decide_eq_true_eq] at h
  simp only [processPayload, client_bind, if_pos hcontrol]
  by_cases hclose : w.hc.idpArgsWebsocket.opcode = WsFrameType.close.opcode
  · left
    rw [if_pos hclose, bind_ok (userFunc_ok ans huser _)]
    obtain ⟨err, trace, hsend⟩ := mangoWSFrameSend_control ans
      { w with trace := .userFunc .websocketClose :: w.trace } w.hc.socketfd (.inl rfl)
    rw [mangoWSClose, bind_ok hsend]
    exact ⟨_, _, rfl, rfl⟩
  · right
    rw [if_neg hclose, if_pos (h.resolve_left hclose), bind_ok (userFunc_ok ans huser _)]
    obtain ⟨err, trace, hsend⟩ := mangoWSFrameSend_control ans
      { w with trace := .userFunc .websocketPing :: w.trace } w.hc.socketfd (.inr rfl)
    rw [mangoWSPong, bind_ok hsend]
    exact ⟨_, rfl, rfl⟩

theorem processPayload_cases (v : DpVars) (w : World) (n : Nat) :
    processPayload ans v n w = .error .fault w ∨
      (∃ r w', processPayload ans v n w = .ok (.stop r) w' ∧ w'.hc = w.hc) ∨
      ∃ w', processPayload ans v n w = .ok (.again (v.advance n)) w' ∧
        w'.hc = { w.hc with idpArgsWebsocket := w.hc.idpArgsWebsocket.payload n } := by
  by_cases hcontrol : w.hc.idpArgsWebsocket.control
  · by_cases hanswered : w.hc.idpArgsWebsocket.answered
    · by_cases huser : w.hc.userFunc
      · exact .inr (processPayload_answered ans hcontrol hanswered huser n)
      · exact .inl (processPayload_fault ans huser (fun _ => hanswered) n)
    · exact .inr (.inl ⟨_, w, processPayload_refused ans hcontrol hanswered n, rfl⟩)
  · by_cases huser : w.hc.userFunc
    · obtain ⟨w', -, hagain, hhc⟩ := processPayload_data ans (v := v) hcontrol huser n
      exact .inr (.inr ⟨w', hagain, hhc⟩)
    · exact .inl (processPayload_fault ans huser (absurd · hcontrol) n)

/-- The variant: what is left, and whether it starts with a payload. -/
def variant (v : DpVars) (w : World) : Nat :=
  2 * v.buflen + if w.hc.idpArgsWebsocket.state = 2 then 1 else 0

theorem websocketTurn_again (hargs : w.hc.idpArgsWebsocket.Consistent) (hv : v.buflen < 65536)
    (h : websocketTurn ans v w = .ok (.again v') w') :
    v'.buflen < 65536 ∧ variant v' w' < variant v w := by
  cases hturn : frameTurn w.hc.workingBuffer w.hc.idpArgsWebsocket v with
  | moveTo args n =>
    obtain ⟨-, -, hpos, hn⟩ := frameTurn_moveTo hturn
    rw [websocketTurn_moveTo ans hturn] at h
    cases h
    have hbuflen := advance_buflen hv hn
    refine ⟨by omega, ?_⟩
    simp only [variant]
    rw [hbuflen]
    split_ifs
    all_goals omega
  | payload n =>
    obtain ⟨hstate, hbuflen, hread⟩ := frameTurn_payload hturn
    have hn := maxReadSz_le hread
    have hpayload := (Consistent.payload hargs hstate hbuflen hread).2
    rw [websocketTurn_payload ans hturn] at h
    rcases processPayload_cases ans v w n with hfault | ⟨r, w'', hstop, -⟩ | ⟨w'', hagain, hw''⟩
    · cases hfault.symm.trans h
    · cases hstop.symm.trans h
    · cases hagain.symm.trans h
      have hadvance := advance_buflen hv hn
      refine ⟨by omega, ?_⟩
      simp only [variant]
      rw [hadvance, hw'', if_pos hstate]
      split_ifs with hagain
      · have hpos := hpayload hagain
        omega
      · omega
  | _ =>
    obtain ⟨w'', -, hlast | ⟨r, hlast⟩⟩ :=
      websocketTurn_last ans (w := w) (v := v) (by simp [hturn]) (by simp [hturn])
    · cases hlast.symm.trans h
    · cases hlast.symm.trans h

theorem websocketTurn_sustains (v : DpVars) :
    Sustains (·.Receives (some .websocket)) (websocketTurn ans v) := by
  intro w ⟨hidp, hright, hargs⟩
  cases hturn : frameTurn w.hc.workingBuffer w.hc.idpArgsWebsocket v with
  | moveTo args n =>
    obtain ⟨hstate, hzero, -, -⟩ := frameTurn_moveTo hturn
    rw [websocketTurn_moveTo ans hturn]
    exact ⟨hidp, hright, Consistent.start hstate hzero⟩
  | payload n =>
    obtain ⟨hstate, hbuflen, hread⟩ := frameTurn_payload hturn
    have hpayload := (Consistent.payload hargs hstate hbuflen hread).1
    rw [websocketTurn_payload ans hturn]
    rcases processPayload_cases ans v w n with hfault | ⟨r, w', hstop, hw'⟩ | ⟨w', hagain, hw'⟩
    · rw [hfault]
      exact nofun
    · rw [hstop, Within, hw']
      exact ⟨hidp, hright, hargs⟩
    · rw [hagain, Within, hw']
      exact ⟨hidp, hright, hpayload⟩
  | ret args =>
    simp only [websocketTurn, client_bind, hturn]
    exact ⟨hidp, hright, frameTurn_stop hargs (.inl hturn)⟩
  | error args =>
    simp only [websocketTurn, client_bind, hturn]
    exact ⟨hidp, hright, frameTurn_stop hargs (.inr hturn)⟩
  | spin =>
    obtain ⟨hone, htwo⟩ := frameTurn_spin hturn
    exact (hargs.elim hone fun h => htwo h.1).elim

theorem mangoIDPWebsocket_within (h : w.hc.Receives (some .websocket)) (buf : Nat)
    (hbuflen : buflen < 65536) :
    Within (fun w => w.hc.Receives (some .websocket)) (· ≠ .spin)
      (mangoIDPWebsocket ans buf buflen w) := by
  refine loop_within (J := fun v => v.buflen < 65536) variant (websocketTurn_sustains ans)
    (fun hI hv => websocketTurn_again ans hI.2.2 hv) h hbuflen ?_
  simp only [variant]
  split_ifs
  all_goals omega

end Websocket

section Chunked

variable (ans : Answers) {w w' : World} {v v' : DpVars}

def chunkedVariant (v : DpVars) (w : World) : Nat :=
  if v.buflen = 0 then 0
  else 2 * (w.hc.workingBuffer.length - v.buf) + if w.hc.idpArgsChunked.state = 2 then 1 else 0

theorem of_mangoEnsure {cond : Prop} [Decidable cond] (h : mangoEnsure cond w = .ok u w') :
    cond ∧ w' = w := by
  unfold mangoEnsure at h
  split_ifs at h with hcond
  · cases h
    exact ⟨hcond, rfl⟩
  · cases h

theorem of_userFunc {arg : MangoArg} (h : userFunc ans arg w = .ok err w') : w'.hc = w.hc := by
  by_cases huser : w.hc.userFunc
  · cases (userFunc_ok ans huser arg).symm.trans h
    rfl
  · cases (userFunc_fault ans huser arg).symm.trans h

theorem data_state (args : IDPArgsChunked) (buflen : Nat) :
    (args.data (args.maxReadSz buflen)).state = 3 ∨
      (args.data (args.maxReadSz buflen)).state = 2 ∧ buflen - args.maxReadSz buflen = 0 := by
  rcases Nat.le_total buflen (args.chunkSz - args.chunkSzProcessed).toNat with h | h
  · rw [IDPArgsChunked.maxReadSz, Nat.min_eq_left h, Nat.sub_self]
    simp only [IDPArgsChunked.data, and_true]
    split_ifs
    · exact .inl rfl
    · exact .inr rfl
  · left
    rw [IDPArgsChunked.maxReadSz, Nat.min_eq_right h]
    refine if_pos ?_
    rw [Nat.toUInt32_eq, UInt32.ofNat_toNat, UInt32.add_comm, UInt32.sub_add_cancel]

theorem chunkSize_again (h : chunkSize v w = .ok (.again v') w') :
    (w'.hc.idpArgsChunked.state = 2 ∨ w'.hc.idpArgsChunked.state = 4) ∧
      w'.hc.workingBuffer = w.hc.workingBuffer ∧ v.buf < v'.buf ∧
      v.buf < w.hc.workingBuffer.length ∧ v'.buflen < 65536 := by
  simp only [chunkSize, client_bind] at h
  cases hget : w.hc.workingBuffer[v.buf + (w.hc.line v.buf).length]? with
  | none =>
    rw [hget] at h
    cases h
  | some c =>
    obtain ⟨hplace, -⟩ := List.getElem?_eq_some_iff.mp hget
    simp only [hget] at h
    split_ifs at h with hnul
    · cases h
    · cases hparse : mangoHelperHexstr2dec (w.hc.workingBuffer.drop v.buf) with
      | none =>
        rw [hparse] at h
        cases h
      | some chunkSz =>
        rw [hparse] at h
        cases h
        refine ⟨?_, rfl, ?_, by omega, ?_⟩
        · by_cases hzero : chunkSz ≠ 0
          · exact .inl (if_pos hzero)
          · exact .inr (if_neg hzero)
        · simp only [DpVars.nextLine]
          omega
        · simp only [DpVars.nextLine]
          omega

theorem chunkEnd_again (h : chunkEnd v w = .ok (.again v') w') :
    w'.hc.idpArgsChunked.state = 1 ∧ w'.hc.workingBuffer = w.hc.workingBuffer ∧ v.buf < v'.buf ∧
      v.buf < w.hc.workingBuffer.length ∧ v'.buflen < 65536 := by
  simp only [chunkEnd, client_bind] at h
  split_ifs at h with hshort hline
  · cases h
  · cases h
    have hplace := congrArg List.length hline
    simp only [MangoHttpClient.bytes, List.length_take, List.length_drop] at hplace
    refine ⟨rfl, rfl, ?_, ?_, ?_⟩
    · simp only [DpVars.advance]
      omega
    · have htwo : (text "\r\n").length = 2 := rfl
      omega
    · simp only [DpVars.advance]
      omega
  · cases h

theorem chunkData_again (hv : v.buflen < 65536) (h : chunkData ans v w = .ok (.again v') w') :
    (w'.hc.idpArgsChunked.state = 3 ∨ w'.hc.idpArgsChunked.state = 2 ∧ v'.buflen = 0) ∧
      w'.hc.workingBuffer = w.hc.workingBuffer ∧ v.buf < v'.buf ∧ v'.buflen < 65536 := by
  simp only [chunkData, client_bind] at h
  obtain ⟨_, w₀, hensure, h⟩ := of_bind_ok h
  obtain ⟨hsz, hw⟩ := of_mangoEnsure hensure
  rw [hw] at h
  obtain ⟨err, w₁, huser, h⟩ := of_bind_ok h
  have hhc := of_userFunc ans huser
  split_ifs at h
  · cases h
  · cases h
    have hsome : w.hc.idpArgsChunked.maxReadSz v.buflen ≤ v.buflen := Nat.min_le_left ..
    have hbuflen := advance_buflen hv hsome
    have hbuffer : w₁.hc.workingBuffer = w.hc.workingBuffer := congrArg _ hhc
    refine ⟨?_, hbuffer, Nat.lt_add_of_pos_right (Nat.pos_of_ne_zero hsz), by omega⟩
    rw [hbuflen, ← hhc]
    exact data_state w₁.hc.idpArgsChunked v.buflen

theorem trailer_last (v v' : DpVars) (w w' : World) : trailer ans v w ≠ .ok (.again v') w' := by
  intro h
  simp only [trailer, client_bind] at h
  split_ifs at h
  · cases h
  · cases h
  · obtain ⟨_, _, -, h⟩ := of_bind_ok h
    cases h
  · cases h

theorem chunkedTurn_again (hplaced : w.hc.idpArgsChunked.Placed) (hv : v.buflen < 65536)
    (h : chunkedTurn ans v w = .ok (.again v') w') :
    v'.buflen < 65536 ∧ chunkedVariant v' w' < chunkedVariant v w := by
  simp only [chunkedTurn, client_bind] at h
  split_ifs at h with hbuflen
  · cases h
  · simp only [chunkedVariant]
    rw [if_neg hbuflen]
    rcases hplaced with hstate | hstate | hstate | hstate
    · simp only [hstate] at h
      obtain ⟨hnext, hwb, hbuf, hplace, hv'⟩ := chunkSize_again h
      rw [hwb]
      refine ⟨hv', ?_⟩
      split_ifs
      all_goals omega
    · simp only [hstate] at h
      obtain ⟨hnext, hwb, hbuf, hv'⟩ := chunkData_again ans hv h
      rw [hwb, if_pos hstate]
      rcases hnext with hnext | ⟨hnext, hend⟩
      · refine ⟨hv', ?_⟩
        rw [if_neg (hnext ▸ by decide : w'.hc.idpArgsChunked.state ≠ 2)]
        split_ifs
        all_goals omega
      · rw [if_pos hend]
        exact ⟨hv', Nat.succ_pos _⟩
    · simp only [hstate] at h
      obtain ⟨hnext, hwb, hbuf, hplace, hv'⟩ := chunkEnd_again h
      rw [hwb, if_neg (hnext ▸ by decide : w'.hc.idpArgsChunked.state ≠ 2)]
      refine ⟨hv', ?_⟩
      split_ifs
      all_goals omega
    · simp only [hstate] at h
      exact absurd h (trailer_last ans v v' w w')

theorem chunkSize_sustains (v : DpVars) : Sustains (·.Receives (some .chunked)) (chunkSize v) := by
  refine .bind client_sustains fun hc => ?_
  split
  · exact .throw nofun
  · refine .ite (.pure _) ?_
    split
    · exact .bind (update_sustains fun _ h => h) fun _ => .pure _
    · refine .bind (update_sustains fun _ h => ⟨h.1, h.2.1, ?_⟩) fun _ => .pure _
      simp only [IDPArgsChunked.Placed]
      split_ifs
      · exact .inr (.inl rfl)
      · exact .inr (.inr (.inr rfl))

theorem chunkData_sustains (v : DpVars) :
    Sustains (·.Receives (some .chunked)) (chunkData ans v) := by
  refine .bind client_sustains fun hc => .bind (mangoEnsure_sustains _) fun _ => ?_
  refine .bind (userFunc_sustains ans _) fun err => .ite (.pure _) ?_
  refine .bind (update_sustains fun _ h => ⟨h.1, h.2.1, ?_⟩) fun _ => .pure _
  simp only [IDPArgsChunked.Placed, IDPArgsChunked.data]
  split_ifs
  · exact .inr (.inr (.inl rfl))
  · exact .inr (.inl rfl)

theorem chunkEnd_sustains (v : DpVars) : Sustains (·.Receives (some .chunked)) (chunkEnd v) := by
  refine .bind client_sustains fun hc => .ite (.pure _) (.ite ?_ (.pure _))
  exact .bind (update_sustains fun _ h => ⟨h.1, h.2.1, .inl rfl⟩) fun _ => .pure _

theorem trailer_sustains (v : DpVars) : Sustains (·.Receives (some .chunked)) (trailer ans v) := by
  refine .bind client_sustains fun hc => .ite (.pure _) (.ite (.pure _) (.ite ?_ (.pure _)))
  exact .bind (userFunc_sustains ans _) fun _ => .pure _

theorem chunkedTurn_sustains (v : DpVars) :
    Sustains (·.Receives (some .chunked)) (chunkedTurn ans v) := by
  intro w hw
  simp only [chunkedTurn, client_bind]
  split_ifs
  · exact hw
  · rcases hw.2.2 with hstate | hstate | hstate | hstate
    · simp only [hstate]
      exact chunkSize_sustains v w hw
    · simp only [hstate]
      exact chunkData_sustains ans v w hw
    · simp only [hstate]
      exact chunkEnd_sustains v w hw
    · simp only [hstate]
      exact trailer_sustains ans v w hw

theorem mangoIDPChunked_within (h : w.hc.Receives (some .chunked)) (buf : Nat)
    (hbuflen : buflen < 65536) :
    Within (fun w => w.hc.Receives (some .chunked)) (· ≠ .spin)
      (mangoIDPChunked ans buf buflen w) := by
  rw [mangoIDPChunked, client_bind]
  refine loop_within (J := fun v => v.buflen < 65536) chunkedVariant (chunkedTurn_sustains ans)
    (fun hI hv => chunkedTurn_again ans hI.2.2 hv) h hbuflen ?_
  simp only [chunkedVariant]
  split_ifs
  all_goals omega

end Chunked

section Sending

variable (ans : Answers) {w w' : World} {sent sent' : Nat × List UInt8}

theorem odpChunkedTurn_again (h : odpChunkedTurn ans sent w = .ok (.again sent') w') :
    sent'.2.length < sent.2.length := by
  unfold odpChunkedTurn at h
  split_ifs at h with hempty
  · cases h
  · obtain ⟨_, w₁, -, h⟩ := of_bind_ok h
    obtain ⟨retval, w₂, -, h⟩ := of_bind_ok h
    split_ifs at h
    · cases h
      have hsome := List.length_pos_of_ne_nil hempty
      have hsize : wbTotSz - extraChunkSz = 4082 := rfl
      rw [List.length_drop]
      omega
    · cases h

theorem mangoSocketWrite_sustains (data : List UInt8) (timeout : UInt32) :
    Sustains (·.Steady) (mangoSocketWrite ans data timeout) := by
  refine .bind client_sustains fun hc => .bind (portWrite_sustains ans _ _ _) fun _ => ?_
  exact .bind (update_sustains fun _ h => h) fun _ => .pure _

theorem odpChunkedTurn_sustains (sent : Nat × List UInt8) :
    Sustains (·.Steady) (odpChunkedTurn ans sent) := by
  refine .ite (.pure _) (.bind (update_sustains fun _ h => h) fun _ => ?_)
  exact .bind (mangoSocketWrite_sustains ans _ _) fun _ => .ite (.pure _) (.pure _)

theorem mangoODPChunked_sustains (buf : List UInt8) :
    Sustains (·.Steady) (mangoODPChunked ans buf) := by
  refine .ite (.bind (update_sustains fun _ h => h) fun _ => ?_) ?_
  · exact .bind (mangoSocketWrite_sustains ans _ _) fun _ => .pure _
  · intro w hw
    refine loop_within (J := fun _ => True) (fun sent _ => sent.2.length)
      (odpChunkedTurn_sustains ans) (fun _ _ h => ⟨trivial, odpChunkedTurn_again ans h⟩) hw
        trivial ?_
    exact Nat.lt_succ_self buf.length

end Sending

end Mangoxx.Mango
