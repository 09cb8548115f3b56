import Mangoxx.Jpge.Scanline

namespace Mangoxx.Jpge

namespace Output

variable (o : Output)

def handed : List UInt8 := o.calls.flatMap fun call => call.getD []

def sent : List UInt8 := o.handed ++ (List.range o.mPOutBuf).map o.mOutBuf

structure Ready : Prop where
  room : o.mPOutBuf + o.mOutBufLeft = outBufSize
  left : 0 < o.mOutBufLeft
  succeeded : o.mAllStreamWritesSucceeded = true
  accepts : ∀ calls, o.mPutBuf calls = true

theorem emitBytes_append (bs bs' : List UInt8) :
    emitBytes (bs ++ bs') o = emitBytes bs' (emitBytes bs o) :=
  List.foldl_append

theorem emitBytes_cons (b : UInt8) (bs : List UInt8) :
    emitBytes (b :: bs) o = emitBytes bs (emitByte b o) := by
  simp only [emitBytes, List.foldl_cons]

@[simp] theorem emitBytes_nil : emitBytes [] o = o := rfl

theorem emitByte_eq (b : UInt8) : o.emitByte b = o.emitBytes [b] := by
  rw [emitBytes_cons, emitBytes_nil]

theorem emitMarker_eq (marker : UInt8) : o.emitMarker marker = o.emitBytes [0xFF, marker] := by
  rw [emitBytes_cons, emitBytes_cons, emitBytes_nil, emitMarker]

theorem emitWord_eq (i : Nat) :
    o.emitWord i = o.emitBytes [.ofNat (i >>> 8), .ofNat (i &&& 0xFF)] := by
  rw [emitBytes_cons, emitBytes_cons, emitBytes_nil, emitWord]

theorem foldl_emitBytes (f : Nat → List UInt8) (is : List Nat) :
    is.foldl (fun o i => emitBytes (f i) o) o = emitBytes (is.flatMap f) o := by
  induction is generalizing o with
  | nil => rfl
  | cons i is ih => rw [List.foldl_cons, ih, List.flatMap_cons, emitBytes_append]

variable {o}

theorem Ready.putBuf (h : o.Ready) (data : PutBufCall) :
    (o.putBuf data).Ready ∧ (o.putBuf data).handed = o.handed ++ data.getD [] ∧
      (o.putBuf data).mOutBuf = o.mOutBuf ∧ (o.putBuf data).mPOutBuf = o.mPOutBuf := by
  rw [Output.putBuf, if_pos h.succeeded]
  refine ⟨⟨h.room, h.left, h.accepts _, h.accepts⟩, ?_, rfl, rfl⟩
  simp [handed]

theorem Ready.flush (h : o.Ready) :
    o.flushOutputBuffer.Ready ∧ o.flushOutputBuffer.handed = o.sent ∧
      o.flushOutputBuffer.mPOutBuf = 0 := by
  have hroom := h.room
  have hfull : outBufSize - o.mOutBufLeft = o.mPOutBuf := by omega
  rw [flushOutputBuffer]
  by_cases hempty : o.mOutBufLeft = outBufSize
  · have hnone : o.mPOutBuf = 0 := by omega
    refine ⟨⟨by simp, Nat.zero_lt_succ _, ?_, ?_⟩, ?_, rfl⟩
    · simpa [hempty] using h.succeeded
    · simpa [hempty] using h.accepts
    · simp [hempty, sent, hnone, handed]
  · obtain ⟨hready, hhanded, -⟩ :=
      h.putBuf (some ((List.range (outBufSize - o.mOutBufLeft)).map o.mOutBuf))
    rw [if_pos hempty]
    refine ⟨⟨by simp, Nat.zero_lt_succ _, hready.succeeded, hready.accepts⟩, ?_, rfl⟩
    rw [sent, ← hfull]
    exact hhanded

theorem update_range (buf : Nat → UInt8) (n : Nat) (b : UInt8) :
    (List.range (n + 1)).map (Function.update buf n b) = (List.range n).map buf ++ [b] := by
  have hbelow : (List.range n).map (Function.update buf n b) = (List.range n).map buf := by
    apply List.map_congr_left
    intro k hk
    exact Function.update_of_ne (Nat.ne_of_lt (List.mem_range.mp hk)) _ _
  rw [List.range_succ, List.map_append, hbelow, List.map_singleton, Function.update_self]

theorem Ready.emitByte (h : o.Ready) (b : UInt8) :
    (o.emitByte b).Ready ∧ (o.emitByte b).sent = o.sent ++ [b] := by
  have hroom := h.room
  have hleft := h.left
  have hsize : outBufSize = 512 := rfl
  have hless : (o.mOutBufLeft + (2 ^ 32 - 1)) % 2 ^ 32 = o.mOutBufLeft - 1 := by omega
  have hbuffer := update_range o.mOutBuf o.mPOutBuf b
  rw [Output.emitByte, hless]
  by_cases hlast : o.mOutBufLeft - 1 = 0
  · simp only [if_pos hlast]
    have hcall : flushOutputBuffer { o with
        mOutBuf := Function.update o.mOutBuf o.mPOutBuf b
        mPOutBuf := o.mPOutBuf + 1
        mOutBufLeft := o.mOutBufLeft - 1
        emitted := o.emitted ++ [b] } = { o with
        calls := o.calls ++ [some ((List.range (o.mPOutBuf + 1)).map
          (Function.update o.mOutBuf o.mPOutBuf b))]
        mAllStreamWritesSucceeded := true
        mOutBuf := Function.update o.mOutBuf o.mPOutBuf b
        mPOutBuf := 0
        mOutBufLeft := outBufSize
        emitted := o.emitted ++ [b] } := by
      have hfull : outBufSize - (o.mOutBufLeft - 1) = o.mPOutBuf + 1 := by omega
      have hne : o.mOutBufLeft - 1 ≠ outBufSize := by omega
      simp only [flushOutputBuffer, if_pos hne, Output.putBuf, h.succeeded, if_true,
        h.accepts, hfull]
    rw [hcall]
    refine ⟨⟨by simp, Nat.zero_lt_succ _, rfl, h.accepts⟩, ?_⟩
    simp [sent, handed, hbuffer]
  · have hroom' : o.mPOutBuf + 1 + (o.mOutBufLeft - 1) = outBufSize := by omega
    simp only [if_neg hlast]
    refine ⟨⟨hroom', Nat.pos_of_ne_zero hlast, h.succeeded, h.accepts⟩, ?_⟩
    simp only [sent, handed, hbuffer, List.append_assoc]

theorem Ready.emitBytes (h : o.Ready) (bs : List UInt8) :
    (o.emitBytes bs).Ready ∧ (o.emitBytes bs).sent = o.sent ++ bs := by
  induction bs generalizing o with
  | nil => exact ⟨h, (List.append_nil _).symm⟩
  | cons b bs ih =>
    obtain ⟨hready, hsent⟩ := h.emitByte b
    obtain ⟨hready', hsent'⟩ := ih hready
    rw [emitBytes_cons]
    exact ⟨hready', by rw [hsent', hsent, List.append_assoc, List.singleton_append]⟩

end Output

namespace Encoder

/-- From one state to the other nothing but bytes of the scan has been emitted. -/
structure Emits (e e' : Encoder) : Prop where
  out : ∃ raw, e'.out = e.out.emitBytes (stuff raw)
  mMcuYOfs : e'.mMcuYOfs = e.mMcuYOfs
  mPassNum : e'.mPassNum = e.mPassNum

variable {e e' e'' : Encoder}

theorem Emits.refl (e : Encoder) : Emits e e := ⟨⟨[], rfl⟩, rfl, rfl⟩

theorem Emits.trans (h : Emits e e') (h' : Emits e' e'') : Emits e e'' where
  out := by
    obtain ⟨raw, hout⟩ := h.out
    obtain ⟨raw', hout'⟩ := h'.out
    exact ⟨raw ++ raw', by rw [hout', hout, stuff_append, Output.emitBytes_append]⟩
  mMcuYOfs := h'.mMcuYOfs.trans h.mMcuYOfs
  mPassNum := h'.mPassNum.trans h.mPassNum

theorem Emits.of_eq (hout : e'.out = e.out) (hofs : e'.mMcuYOfs = e.mMcuYOfs)
    (hpass : e'.mPassNum = e.mPassNum) : Emits e e' :=
  ⟨⟨[], hout⟩, hofs, hpass⟩

theorem drainByte_emits (e : Encoder) : Emits e e.drainByte := by
  obtain ⟨c, hc⟩ : ∃ c : UInt8, c = .ofNat ((e.mBitBuffer >>> 16) &&& 0xFF) := ⟨_, rfl⟩
  have hout : e.drainByte.out = if c = 0xFF then (e.out.emitByte c).emitByte 0
      else e.out.emitByte c := by
    simp only [drainByte, ← hc]
  refine ⟨⟨[c], ?_⟩, rfl, rfl⟩
  rw [hout, stuff, List.flatMap_singleton]
  split
  · rename_i hff
    rw [Output.emitBytes_cons, Output.emitBytes_cons, Output.emitBytes_nil, hff]
  · rw [Output.emitBytes_cons, Output.emitBytes_nil]

theorem drain_emits (e : Encoder) : Emits e e.drain := by
  induction hn : e.mBitsIn using Nat.strongRecOn generalizing e with
  | ind n ih =>
    rw [drain]
    split
    · exact (drainByte_emits e).trans (ih _ (by simp only [drainByte]; omega) e.drainByte rfl)
    · exact .refl e

theorem putBits_emits (bits len : Nat) (e : Encoder) : Emits e (putBits bits len e) := by
  obtain ⟨hout, hofs, hpass⟩ := drain_emits { e with
    mBitsIn := (e.mBitsIn + len) % 2 ^ 32
    mBitBuffer := e.mBitBuffer ||| ((bits <<< (24 - (e.mBitsIn + len) % 2 ^ 32)) % 2 ^ 32) }
  exact ⟨hout, hofs, hpass⟩

theorem putCode_emits (t : HuffTable) (symbol : Nat) (e : Encoder) : Emits e (putCode t symbol e) :=
  putBits_emits _ _ e

theorem putRuns_emits (ac : HuffTable) (runLen : Nat) (e : Encoder) :
    Emits e (putRuns ac runLen e).2 := by
  induction runLen using Nat.strongRecOn generalizing e with
  | ind n ih =>
    rw [putRuns]
    split
    · exact (putCode_emits ac 0xF0 e).trans (ih (n - 16) (by omega) _)
    · exact .refl e

theorem codeAc_emits (ac : HuffTable) (coefficients : List Int) (runLen : Nat) (e : Encoder) :
    Emits e (codeAc ac coefficients runLen e) := by
  induction coefficients generalizing runLen e with
  | nil =>
    rw [codeAc]
    split
    · exact putCode_emits ac 0 e
    · exact .refl e
  | cons v rest ih =>
    rw [codeAc]
    by_cases hzero : v = 0
    · rw [if_pos hzero]
      exact ih (runLen + 1) e
    · rw [if_neg hzero]
      exact (putRuns_emits ac runLen e).trans
        ((putCode_emits _ _ _).trans ((putBits_emits _ _ _).trans (ih 0 _)))

theorem codeCoefficientsPassTwo_emits (h : Bool → Bool → HuffTable) (componentNum : Nat)
    (block : Block) (e : Encoder) : Emits e (codeCoefficientsPassTwo h componentNum block e) := by
  obtain ⟨e', he'⟩ : ∃ e' : Encoder, e' =
      { e with mLastDcVal := Function.update e.mLastDcVal componentNum (block.val.headD 0) } :=
    ⟨_, rfl⟩
  have hstart : Emits e e' := by
    rw [he']
    exact .of_eq rfl rfl rfl
  have hvalue (nbits low : Nat) (e : Encoder) :
      Emits e (if nbits ≠ 0 then putBits low nbits e else e) := by
    split
    · exact putBits_emits low nbits e
    · exact .refl e
  rw [codeCoefficientsPassTwo]
  simp only [← he']
  exact hstart.trans ((putCode_emits _ _ e').trans ((hvalue _ _ _).trans (codeAc_emits _ _ 0 _)))

theorem processEndOfImage_nil (h : Bool → Bool → HuffTable) (e : Encoder) :
    e.processEndOfImage h [] = { e.putBits 0x7F 7 with
      out := ((e.putBits 0x7F 7).out.emitBytes [0xFF, 0xD9]).flushOutputBuffer.putBuf none
      mPassNum := (e.mPassNum + 1) % 256 } := by
  have hcoded : (if e.mMcuYOfs ≠ 0 then e.codeBlocks h [] else e) = e := by
    split <;> rfl
  rw [processEndOfImage, hcoded]
  simp only [Output.emitMarker_eq, (putBits_emits 0x7F 7 e).mPassNum]

theorem processEndOfImage_handed (h : Bool → Bool → HuffTable) (hready : e.out.Ready) :
    (∃ raw, (e.processEndOfImage h []).out.handed = e.out.sent ++ stuff raw ++ [0xFF, 0xD9]) ∧
      (e.processEndOfImage h []).out.Ready ∧
      (e.processEndOfImage h []).mPassNum = (e.mPassNum + 1) % 256 := by
  obtain ⟨raw, hraw⟩ := (putBits_emits 0x7F 7 e).out
  obtain ⟨hready', hsent⟩ := hready.emitBytes (stuff raw)
  obtain ⟨hready'', hsent'⟩ := hready'.emitBytes [0xFF, 0xD9]
  obtain ⟨hflushed, hhanded, -⟩ := hready''.flush
  obtain ⟨hend, hhanded', -⟩ := hflushed.putBuf none
  rw [processEndOfImage_nil]
  simp only [hraw]
  refine ⟨⟨raw, ?_⟩, hend, trivial⟩
  rw [hhanded', hhanded, hsent', hsent]
  exact List.append_nil _

end Encoder

end Mangoxx.Jpge
