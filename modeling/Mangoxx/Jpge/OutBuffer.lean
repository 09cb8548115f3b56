import Mangoxx.Jpge.Encoders
import Mangoxx.Jpge.Stream

namespace Mangoxx.Jpge

open Mangoxx.Lib History

def Refused (mPutBuf : List PutBufCall → Bool) (calls : List PutBufCall) : Prop :=
  ∃ made, made ≠ [] ∧ made <+: calls ∧ mPutBuf made = false

theorem refused_snoc {mPutBuf : List PutBufCall → Bool} {calls : List PutBufCall}
    (call : PutBufCall) :
    Refused mPutBuf (calls ++ [call]) ↔
      Refused mPutBuf calls ∨ mPutBuf (calls ++ [call]) = false := by
  constructor
  · rintro ⟨made, hne, hmade, hfalse⟩
    rcases List.prefix_concat_iff.mp hmade with rfl | hmade
    · exact .inr hfalse
    · exact .inl ⟨made, hne, hmade, hfalse⟩
  · rintro (⟨made, hne, hmade, hfalse⟩ | hfalse)
    · exact ⟨made, hne, hmade.trans (List.prefix_append _ _), hfalse⟩
    · exact ⟨calls ++ [call], by simp, List.prefix_rfl, hfalse⟩

namespace Output

def push (i : UInt8) (o : Output) : Output :=
  { o with
    mOutBuf := Function.update o.mOutBuf o.mPOutBuf i
    mPOutBuf := o.mPOutBuf + 1
    mOutBufLeft := (o.mOutBufLeft + (2 ^ 32 - 1)) % 2 ^ 32
    emitted := o.emitted ++ [i] }

theorem emitByte_push (i : UInt8) (o : Output) :
    o.emitByte i = if (o.push i).mOutBufLeft = 0 then (o.push i).flushOutputBuffer else o.push i :=
  rfl

structure Buffered (mPutBuf : List PutBufCall → Bool) (o : Output) : Prop where
  callback : o.mPutBuf = mPutBuf
  left : o.mOutBufLeft ≤ outBufSize
  mPOutBuf : o.mPOutBuf = outBufSize - o.mOutBufLeft
  blocks : ∀ block, some block ∈ o.calls → 1 ≤ block.length ∧ block.length ≤ outBufSize
  refused : o.mAllStreamWritesSucceeded = false ↔ Refused mPutBuf o.calls
  sent : o.mAllStreamWritesSucceeded = true → o.sent = o.emitted

variable {mPutBuf : List PutBufCall → Bool} {o o' : Output}

theorem Buffered.start (mOutBuf : Nat → UInt8) :
    (Output.start mPutBuf mOutBuf).Buffered mPutBuf where
  callback := rfl
  left := le_rfl
  mPOutBuf := rfl
  blocks := nofun
  refused := by
    refine ⟨nofun, ?_⟩
    rintro ⟨made, hne, hmade, -⟩
    exact absurd (List.prefix_nil.mp hmade) hne
  sent _ := rfl

theorem Buffered.push (h : o.Buffered mPutBuf) (hleft : 1 ≤ o.mOutBufLeft) (i : UInt8) :
    (o.push i).Buffered mPutBuf ∧ (o.push i).mOutBufLeft = o.mOutBufLeft - 1 := by
  have hsize : outBufSize = 512 := rfl
  have hle := h.left
  have hat := h.mPOutBuf
  have hless : (o.mOutBufLeft + (2 ^ 32 - 1)) % 2 ^ 32 = o.mOutBufLeft - 1 := by omega
  refine ⟨⟨h.callback, ?_, ?_, h.blocks, h.refused, fun hsucceeded => ?_⟩, hless⟩
  · simp only [Output.push, hless]
    omega
  · simp only [Output.push, hless]
    omega
  · have hsent := h.sent hsucceeded
    simp only [Output.sent, Output.handed] at hsent
    simp only [Output.push, Output.sent, Output.handed]
    rw [update_range, ← List.append_assoc, hsent]

/-- The buffer is handed over, which may be refused. -/
theorem Buffered.putBuf (h : o.Buffered mPutBuf) (call : PutBufCall)
    (hcall : ∀ block, call = some block → 1 ≤ block.length ∧ block.length ≤ outBufSize) :
    (∀ block, some block ∈ (o.putBuf call).calls → 1 ≤ block.length ∧ block.length ≤ outBufSize) ∧
    ((o.putBuf call).mAllStreamWritesSucceeded = false ↔ Refused mPutBuf (o.putBuf call).calls) ∧
    ((o.putBuf call).mAllStreamWritesSucceeded = true →
      o.mAllStreamWritesSucceeded = true ∧ (o.putBuf call).handed = o.handed ++ call.getD []) := by
  by_cases hsucceeded : o.mAllStreamWritesSucceeded = true
  · rw [Output.putBuf, if_pos hsucceeded]
    have hnever : ¬ Refused mPutBuf o.calls := by
      rw [← h.refused, hsucceeded]
      decide
    refine ⟨fun block hblock => ?_, ?_, fun _ => ⟨hsucceeded, ?_⟩⟩
    · rcases List.mem_append.mp hblock with hblock | hblock
      · exact h.blocks block hblock
      · exact hcall block (List.mem_singleton.mp hblock).symm
    · rw [refused_snoc, or_iff_right hnever, h.callback]
    · simp [Output.handed]
  · rw [Output.putBuf, if_neg hsucceeded]
    exact ⟨h.blocks, h.refused, fun h => absurd h hsucceeded⟩

@[simp] theorem putBuf_fields (call : PutBufCall) (o : Output) :
    (o.putBuf call).mPutBuf = o.mPutBuf ∧ (o.putBuf call).mOutBuf = o.mOutBuf ∧
      (o.putBuf call).mPOutBuf = o.mPOutBuf ∧ (o.putBuf call).mOutBufLeft = o.mOutBufLeft := by
  rw [Output.putBuf]
  split
  · exact ⟨rfl, rfl, rfl, rfl⟩
  · exact ⟨rfl, rfl, rfl, rfl⟩

theorem Buffered.flush (h : o.Buffered mPutBuf) : o.flushOutputBuffer.Buffered mPutBuf ∧
    o.flushOutputBuffer.mOutBufLeft = outBufSize := by
  have hle := h.left
  have hat := h.mPOutBuf
  refine ⟨?_, rfl⟩
  by_cases hempty : o.mOutBufLeft = outBufSize
  · have hflush : o.flushOutputBuffer = o := by
      have hnone : o.mPOutBuf = 0 := by omega
      simp only [flushOutputBuffer, hempty, ne_eq, not_true, if_false]
      rw [← hnone, ← hempty]
    rwa [hflush]
  · obtain ⟨block, hblock⟩ : ∃ block, block =
        (List.range (outBufSize - o.mOutBufLeft)).map o.mOutBuf :=
      ⟨_, rfl⟩
    have hlength : block.length = outBufSize - o.mOutBufLeft := by simp [hblock]
    obtain ⟨hblocks, hrefused, hhanded⟩ := h.putBuf (some block) fun block' heq => by
      cases heq
      omega
    have hflush : o.flushOutputBuffer =
        { o.putBuf (some block) with mPOutBuf := 0, mOutBufLeft := outBufSize } := by
      simp only [flushOutputBuffer, hempty, ne_eq, not_false_iff, if_true, hblock]
    rw [hflush]
    refine ⟨(putBuf_fields _ o).1.trans h.callback, le_rfl, rfl, hblocks, hrefused,
      fun hsucceeded => ?_⟩
    obtain ⟨hbefore, hhanded⟩ := hhanded hsucceeded
    calc (o.putBuf (some block)).handed ++ []
        = o.handed ++ block := by rw [List.append_nil, hhanded, Option.getD_some]
      _ = o.sent := by rw [Output.sent, hat, hblock]
      _ = (o.putBuf (some block)).emitted := by rw [h.sent hbefore, putBuf_emitted]

theorem Buffered.finish (h : o.Buffered mPutBuf) : (o.putBuf none).Buffered mPutBuf := by
  obtain ⟨hcallback, hbuf, hat, hleft⟩ := putBuf_fields none o
  obtain ⟨hblocks, hrefused, hhanded⟩ := h.putBuf none nofun
  refine ⟨hcallback.trans h.callback, hleft ▸ h.left, hat ▸ hleft ▸ h.mPOutBuf, hblocks, hrefused,
    fun hsucceeded => ?_⟩
  obtain ⟨hbefore, hhanded⟩ := hhanded hsucceeded
  rw [Output.sent, hhanded, hbuf, hat, Option.getD_none, List.append_nil, putBuf_emitted]
  exact h.sent hbefore

structure Settled (mPutBuf : List PutBufCall → Bool) (o : Output) : Prop extends
    o.Buffered mPutBuf where
  room : 1 ≤ o.mOutBufLeft

theorem Settled.emitByte (h : o.Settled mPutBuf) (i : UInt8) : (o.emitByte i).Settled mPutBuf := by
  obtain ⟨hpushed, hless⟩ := h.toBuffered.push h.room i
  rw [emitByte_push]
  by_cases hfull : (o.push i).mOutBufLeft = 0
  · obtain ⟨hflushed, hleft⟩ := hpushed.flush
    rw [if_pos hfull]
    exact ⟨hflushed, by rw [hleft]; decide⟩
  · rw [if_neg hfull]
    exact ⟨hpushed, by omega⟩

inductive Act : Output → Output → Prop
  | emitByte (i : UInt8) (o : Output) : Act o (o.emitByte i)
  | flush (o : Output) : Act o o.flushOutputBuffer
  | finish (o : Output) : Act o (o.putBuf none)

theorem Act.settled (hact : Act o o') (h : o.Settled mPutBuf) : o'.Settled mPutBuf := by
  cases hact with
  | emitByte i => exact h.emitByte i
  | flush =>
    obtain ⟨hflushed, hleft⟩ := h.toBuffered.flush
    exact ⟨hflushed, by rw [hleft]; decide⟩
  | finish =>
    have hroom := h.room
    exact ⟨h.toBuffered.finish, by rwa [(putBuf_fields none o).2.2.2]⟩

theorem putBuf_calls (call : PutBufCall) (o : Output) : o.calls <+: (o.putBuf call).calls := by
  rw [Output.putBuf]
  split
  · exact List.prefix_append _ _
  · exact List.prefix_rfl

theorem flush_calls (o : Output) : o.calls <+: o.flushOutputBuffer.calls := by
  simp only [flushOutputBuffer]
  split
  · exact putBuf_calls _ o
  · exact List.prefix_rfl

theorem Act.calls (hact : Act o o') : o.calls <+: o'.calls := by
  cases hact with
  | emitByte i =>
    rw [emitByte_push]
    split
    · exact flush_calls (o.push i)
    · exact List.prefix_rfl
  | flush => exact flush_calls o
  | finish => exact putBuf_calls none o

def Frozen (calls : List PutBufCall) (o : Output) : Prop :=
  o.mAllStreamWritesSucceeded = false ∧ o.calls = calls

theorem Act.frozen {calls : List PutBufCall} (hact : Act o o') (h : o.Frozen calls) :
    o'.Frozen calls := by
  obtain ⟨hrefused, hcalls⟩ := h
  have hputBuf (o : Output) (call : PutBufCall) (h : o.mAllStreamWritesSucceeded = false) :
      o.putBuf call = o := by
    rw [Output.putBuf, h, if_neg (by decide)]
  have hflush (o : Output) (h : o.mAllStreamWritesSucceeded = false) (hcalls : o.calls = calls) :
      o.flushOutputBuffer.Frozen calls := by
    rw [flushOutputBuffer, hputBuf o _ h, ite_self]
    exact ⟨h, hcalls⟩
  cases hact with
  | emitByte i =>
    rw [emitByte_push]
    split
    · exact hflush _ hrefused hcalls
    · exact ⟨hrefused, hcalls⟩
  | flush => exact hflush o hrefused hcalls
  | finish =>
    rw [hputBuf o none hrefused]
    exact ⟨hrefused, hcalls⟩

theorem emitBytes_reaches (bytes : List UInt8) (o : Output) :
    Relation.ReflTransGen Act o (o.emitBytes bytes) := by
  induction bytes generalizing o with
  | nil => exact .refl
  | cons b bytes ih =>
    rw [emitBytes_cons]
    exact .head (.emitByte b o) (ih _)

end Output

theorem refused_mono {mPutBuf : List PutBufCall → Bool} {calls calls' : List PutBufCall}
    (h : calls <+: calls') (hrefused : Refused mPutBuf calls) : Refused mPutBuf calls' := by
  obtain ⟨made, hne, hmade, hfalse⟩ := hrefused
  exact ⟨made, hne, hmade.trans h, hfalse⟩

inductive OutputCall where
  | emitByte (i : UInt8)
  | putBits (bits len : Nat)
  | flushOutputBuffer

/-- The calls that write, and the scanlines of the image with the file-level variables at that
time. -/
inductive Write where
  | call (c : OutputCall)
  | processScanline (t : Statics) (pScanline : Option (Nat → UInt8))

section Bytes

/-- The whole bytes of `m_bit_buffer`, which holds `m_bits_in` bits, with the zeros after `0xff`;
and what is left in the two variables. -/
def takeBytes (bitBuffer bitsIn : Nat) : List UInt8 × Nat × Nat :=
  if 8 ≤ bitsIn then
    let r := takeBytes ((bitBuffer <<< 8) % 2 ^ 32) (bitsIn - 8)
    (stuff [.ofNat ((bitBuffer >>> 16) &&& 0xFF)] ++ r.1, r.2)
  else ([], bitBuffer, bitsIn)

def OutputCall.bytes : OutputCall → Nat × Nat → List UInt8 × Nat × Nat
  | .emitByte i, bits => ([i], bits)
  | .putBits code len, (bitBuffer, bitsIn) =>
    let n := (bitsIn + len) % 2 ^ 32
    takeBytes (bitBuffer ||| ((code <<< (24 - n)) % 2 ^ 32)) n
  | .flushOutputBuffer, bits => ([], bits)

def bytesOf : List OutputCall → Nat × Nat → List UInt8
  | [], _ => []
  | c :: calls, bits => (c.bytes bits).1 ++ bytesOf calls (c.bytes bits).2

def Encoder.bits (e : Encoder) : Nat × Nat := (e.mBitBuffer, e.mBitsIn)

theorem Encoder.drain_bytes (e : Encoder) :
    e.drain.out.emitted = e.out.emitted ++ (takeBytes e.mBitBuffer e.mBitsIn).1 ∧
      e.drain.bits = (takeBytes e.mBitBuffer e.mBitsIn).2 := by
  induction hn : e.mBitsIn using Nat.strongRecOn generalizing e with
  | ind n ih =>
    subst hn
    rw [Encoder.drain, takeBytes]
    by_cases hmore : 8 ≤ e.mBitsIn
    · obtain ⟨hemitted, hbits⟩ := ih e.drainByte.mBitsIn (by simp only [drainByte]; omega) _ rfl
      have hbyte : e.drainByte.out.emitted =
          e.out.emitted ++ stuff [.ofNat ((e.mBitBuffer >>> 16) &&& 0xFF)] := by
        generalize hc : UInt8.ofNat ((e.mBitBuffer >>> 16) &&& 0xFF) = c
        simp only [drainByte, hc]
        by_cases hff : c = 0xFF
        · simp [hff, stuff]
        · simp [hff, stuff]
      rw [if_pos hmore, if_pos hmore]
      refine ⟨?_, hbits⟩
      rw [hemitted, hbyte, List.append_assoc]
      rfl
    · rw [if_neg hmore, if_neg hmore]
      exact ⟨(List.append_nil _).symm, rfl⟩

end Bytes

namespace JpegEncoder

def setOut (out : Output) (jpge : JpegEncoder) : JpegEncoder :=
  { jpge with enc := { jpge.enc with out := out } }

@[simp] theorem setOut_out (out : Output) (jpge : JpegEncoder) :
    (jpge.setOut out).enc.out = out := rfl

def write (jpge : JpegEncoder) : Write → JpegEncoder
  | .call (.emitByte i) => jpge.setOut (jpge.enc.out.emitByte i)
  | .call (.putBits bits len) => { jpge with enc := jpge.enc.putBits bits len }
  | .call .flushOutputBuffer => jpge.setOut jpge.enc.out.flushOutputBuffer
  | .processScanline t pScanline => (jpge.jpgeProcessScanline t pScanline).2

@[simp] theorem setOut_bits (out : Output) (jpge : JpegEncoder) :
    (jpge.setOut out).enc.bits = jpge.enc.bits := rfl

theorem call_bytes (jpge : JpegEncoder) (c : OutputCall) :
    (jpge.write (.call c)).enc.out.emitted =
        jpge.enc.out.emitted ++ (c.bytes jpge.enc.bits).1 ∧
      (jpge.write (.call c)).enc.bits = (c.bytes jpge.enc.bits).2 := by
  cases c with
  | emitByte i =>
    rw [write, setOut_out, setOut_bits]
    exact ⟨Output.emitByte_emitted jpge.enc.out i, rfl⟩
  | putBits bits len =>
    simp only [write, OutputCall.bytes, Encoder.bits, Encoder.putBits]
    exact Encoder.drain_bytes { jpge.enc with
      mBitsIn := (jpge.enc.mBitsIn + len) % 2 ^ 32
      mBitBuffer := jpge.enc.mBitBuffer |||
        ((bits <<< (24 - (jpge.enc.mBitsIn + len) % 2 ^ 32)) % 2 ^ 32) }
  | flushOutputBuffer =>
    rw [write, setOut_out, setOut_bits]
    exact ⟨(Output.flushOutputBuffer_emitted jpge.enc.out).trans (List.append_nil _).symm, rfl⟩

theorem calls_bytes (jpge : JpegEncoder) (calls : List OutputCall) :
    (run write jpge (calls.map .call)).enc.out.emitted =
      jpge.enc.out.emitted ++ bytesOf calls jpge.enc.bits := by
  induction calls generalizing jpge with
  | nil => exact (List.append_nil _).symm
  | cons c calls ih =>
    obtain ⟨hemitted, hbits⟩ := call_bytes jpge c
    rw [List.map_cons, run, List.foldl_cons, ← run, ih, hemitted, hbits, bytesOf, List.append_assoc]

end JpegEncoder

section Reaches

open Relation Output JpegEncoder

theorem Encoder.Emits.reaches {e e' : Encoder} (h : e.Emits e') :
    ReflTransGen Act e.out e'.out := by
  obtain ⟨raw, hraw⟩ := h.out
  rw [hraw]
  exact emitBytes_reaches _ _

variable (jpge : JpegEncoder) (t : Statics)

theorem processMcuRow_emits : jpge.enc.Emits (jpge.processMcuRow t).enc :=
  processMcuRow_keeps (P := fun jpge' => jpge.enc.Emits jpge'.enc) t
    (fun _ _ _ h => h.trans (Encoder.codeCoefficientsPassTwo_emits _ _ _ _)) (.refl _)

theorem loadMcu_reaches (pSrc : Nat → UInt8) :
    ReflTransGen Act jpge.enc.out (jpge.loadMcu t pSrc).enc.out := by
  rw [loadMcu_eq _ _ _ rfl]
  split
  · have hrow := (processMcuRow_emits
      ((jpge.storeLine pSrc).setMcuYOfs ((jpge.enc.mMcuYOfs + 1) % 256)) t).reaches
    rwa [setMcuYOfs_out, storeLine_enc] at hrow
  · exact .refl

theorem endOfImage_reaches (e : Encoder) (h : Bool → Bool → HuffTable) :
    ReflTransGen Act e.out (e.processEndOfImage h []).out := by
  have hbits := (Encoder.putBits_emits 0x7F 7 e).reaches
  have hmarker := emitBytes_reaches [0xFF, 0xD9] (Encoder.putBits 0x7F 7 e).out
  rw [Encoder.processEndOfImage_nil]
  dsimp only
  exact ((hbits.trans hmarker).tail (.flush _)).tail (.finish _)

theorem processEndOfImage_reaches :
    ReflTransGen Act jpge.enc.out (jpge.processEndOfImage t).enc.out := by
  rw [JpegEncoder.processEndOfImage]
  by_cases hrow : jpge.enc.mMcuYOfs ≠ 0
  · simp only [if_pos hrow]
    have hlast :=
      (processMcuRow_emits (if jpge.enc.mMcuYOfs < 16 then jpge.repeatLine else jpge) t).reaches
    have hsame : (if jpge.enc.mMcuYOfs < 16 then jpge.repeatLine else jpge).enc = jpge.enc := by
      split <;> rfl
    rw [hsame] at hlast
    exact hlast.trans (endOfImage_reaches _ _)
  · simp only [if_neg hrow]
    exact endOfImage_reaches _ _

theorem write_reaches (op : Write) : ReflTransGen Act jpge.enc.out (jpge.write op).enc.out := by
  cases op with
  | call c =>
    cases c with
    | emitByte i =>
      rw [write, setOut_out]
      exact .single (.emitByte i _)
    | putBits bits len => exact (Encoder.putBits_emits bits len _).reaches
    | flushOutputBuffer =>
      rw [write, setOut_out]
      exact .single (.flush _)
  | processScanline t pScanline =>
    rw [write]
    by_cases hopen : jpge.Open
    · rw [process_open t pScanline hopen]
      cases pScanline with
      | none => exact processEndOfImage_reaches jpge t
      | some pSrc => exact loadMcu_reaches jpge t pSrc
    · rw [process_closed t pScanline hopen]

theorem process_refused (pScanline : Option (Nat → UInt8))
    (h : jpge.enc.out.mAllStreamWritesSucceeded = false) :
    (jpge.jpgeProcessScanline t pScanline).1 = false := by
  by_cases hdone : jpge.enc.mPassNum < 1 ∨ jpge.enc.mPassNum > 2
  · simp only [jpgeProcessScanline, if_pos hdone]
  · simp only [jpgeProcessScanline, if_neg hdone, h, Bool.false_eq_true, if_false]

theorem writes_reach (ops : List Write) :
    ReflTransGen Act jpge.enc.out (run write jpge ops).enc.out :=
  run_rel write (R := fun jpge jpge' => ReflTransGen Act jpge.enc.out jpge'.enc.out)
    (fun _ => .refl) .trans write_reaches jpge ops

theorem writes_calls (jpge : JpegEncoder) (ops : List Write) :
    jpge.enc.out.calls <+: (run write jpge ops).enc.out.calls :=
  reaches_invariant (I := fun o => jpge.enc.out.calls <+: o.calls)
    (fun _ _ hact h => h.trans hact.calls) (writes_reach jpge ops) List.prefix_rfl

end Reaches

open Output JpegEncoder in
/-- Whatever the callback answers: the buffer always has room and the blocks are not empty; as long
as nothing was refused, what has been handed over and what is in the buffer are the emitted bytes,
and any further calls add the bytes of their arguments; after that the callback is left alone and no
scanline succeeds. -/
theorem output_buffered (mPutBuf : List PutBufCall → Bool) (mOutBuf : Nat → UInt8)
    (jpge : JpegEncoder) (ops : List Write) :
    let opened := jpge.setOut (.start mPutBuf mOutBuf)
    let e := (run write opened ops).enc
    let o := e.out
    (1 ≤ o.mOutBufLeft ∧ o.mOutBufLeft ≤ outBufSize ∧ o.mPOutBuf = outBufSize - o.mOutBufLeft) ∧
    (∀ block, some block ∈ o.calls → 1 ≤ block.length ∧ block.length ≤ outBufSize) ∧
    (¬ Refused mPutBuf o.calls →
      o.handed ++ (List.range o.mPOutBuf).map o.mOutBuf = o.emitted) ∧
    (∀ calls : List OutputCall,
      let o' := (run write opened (ops ++ calls.map .call)).enc.out
      ¬ Refused mPutBuf o'.calls →
        o'.handed ++ (List.range o'.mPOutBuf).map o'.mOutBuf =
          (o.handed ++ (List.range o.mPOutBuf).map o.mOutBuf) ++
            bytesOf calls (e.mBitBuffer, e.mBitsIn)) ∧
    (Refused mPutBuf o.calls → ∀ later : List Write,
      (run write opened (ops ++ later)).enc.out.calls = o.calls ∧
      ∀ t pScanline,
        ((run write opened (ops ++ later)).jpgeProcessScanline t pScanline).1 = false) := by
  intro opened e o
  have hstart : opened.enc.out.Settled mPutBuf := ⟨.start mOutBuf, Nat.zero_lt_succ _⟩
  have hsettled (ops : List Write) : (run write opened ops).enc.out.Settled mPutBuf :=
    reaches_invariant (fun _ _ => Act.settled) (writes_reach opened ops) hstart
  have hsent (ops : List Write) (h : ¬ Refused mPutBuf (run write opened ops).enc.out.calls) :
      (run write opened ops).enc.out.sent = (run write opened ops).enc.out.emitted := by
    apply (hsettled ops).sent
    rw [← (hsettled ops).refused] at h
    simpa using h
  refine ⟨⟨(hsettled ops).room, (hsettled ops).left, (hsettled ops).mPOutBuf⟩,
    (hsettled ops).blocks, hsent ops, ?_, fun hrefused later => ?_⟩
  · intro calls o' hrefused
    have hrun : run write opened (ops ++ calls.map .call) =
        run write (run write opened ops) (calls.map .call) := List.foldl_append
    have hcalls : o.calls <+: o'.calls := by
      have hlater := writes_calls (run write opened ops) (calls.map .call)
      rwa [← hrun] at hlater
    have hbefore : ¬ Refused mPutBuf o.calls := fun h => hrefused (refused_mono hcalls h)
    have hbytes := calls_bytes (run write opened ops) calls
    rw [← hrun, ← hsent _ hrefused, ← hsent _ hbefore] at hbytes
    exact hbytes
  · have hfrozen : (run write opened (ops ++ later)).enc.out.Frozen o.calls := by
      rw [run, List.foldl_append]
      exact reaches_invariant (fun _ _ => Act.frozen) (writes_reach _ later)
        ⟨(hsettled ops).refused.mpr hrefused, rfl⟩
    exact ⟨hfrozen.2, fun t pScanline => process_refused _ t pScanline hfrozen.1⟩

end Mangoxx.Jpge
