import Mangoxx.Jpge.DctRange
import Mangoxx.Jpge.Encoders
import Mangoxx.Jpge.File
import Mathlib.Algebra.Order.BigOperators.Group.List

namespace Mangoxx.Jpge

open Mangoxx.Lib BitString CInt Decoder

section Bits

variable {h : Bool → Bool → HuffTable} {o : Output} {e : Encoder} {blocks : List (Nat × Block)}

def predictions (blocks : List (Nat × Block)) (pred : Nat → Int) : Nat → Int :=
  blocks.foldl (fun pred b => Function.update pred b.1 (b.2.val.headD 0)) pred

theorem blocksBits_append (blocks blocks' : List (Nat × Block)) (pred : Nat → Int) :
    blocksBits h (blocks ++ blocks') pred =
      blocksBits h blocks pred ++ blocksBits h blocks' (predictions blocks pred) := by
  induction blocks generalizing pred with
  | nil => rfl
  | cons b blocks ih =>
    simp only [List.cons_append, blocksBits, ih, List.append_assoc, predictions, List.foldl_cons]

theorem predictions_range (hblocks : ∀ b ∈ blocks, b.2.InRange) {pred : Nat → Int}
    (hpred : ∀ c, -1024 ≤ pred c ∧ pred c ≤ 1023) (c : Nat) :
    -1024 ≤ predictions blocks pred c ∧ predictions blocks pred c ≤ 1023 := by
  induction blocks generalizing pred with
  | nil => exact hpred c
  | cons b blocks ih =>
    obtain ⟨hb, hrest⟩ := List.forall_mem_cons.mp hblocks
    exact ih hrest (hb.update hpred b.1)

structure Wrote (h : Bool → Bool → HuffTable) (o : Output) (blocks : List (Nat × Block))
    (e : Encoder) : Prop where
  bits : ∃ raw pend, pend.length ≤ 7 ∧ e.Holds pend ∧ e.out.emitted = o.emitted ++ stuff raw ∧
    bytesToBits raw ++ pend = blocksBits h blocks fun _ => 0
  mLastDcVal : e.mLastDcVal = predictions blocks fun _ => 0

theorem Wrote.start (h : Bool → Bool → HuffTable) (o : Output) : Wrote h o [] (.start o) :=
  ⟨⟨[], [], Nat.zero_le _, ⟨rfl, 0, rfl⟩, (List.append_nil _).symm, rfl⟩, rfl⟩

theorem Wrote.puts (hw : Wrote h o blocks e) {bs : List Bool} {e' : Encoder}
    (hputs : Encoder.Puts e bs e') :
    ∃ raw pend, pend.length ≤ 7 ∧ e'.Holds pend ∧ e'.out.emitted = o.emitted ++ stuff raw ∧
      bytesToBits raw ++ pend = blocksBits h blocks (fun _ => 0) ++ bs := by
  obtain ⟨raw, pend, hpend, hholds, hemitted, hbits⟩ := hw.bits
  obtain ⟨raw', pend', hpend', hholds', hemitted', hbits'⟩ := hputs.emits pend hpend hholds
  refine ⟨raw ++ raw', pend', hpend', hholds', ?_, ?_⟩
  · rw [hemitted', hemitted, stuff_append, List.append_assoc]
  · rw [bytesToBits_append, List.append_assoc, hbits', ← List.append_assoc, hbits]

theorem Wrote.code (hw : Wrote h o blocks e) (hfit : ∀ ac chroma, Encoder.CodesFit (h ac chroma))
    (hblocks : ∀ b ∈ blocks, b.2.InRange) {block : Block} (hblock : block.InRange) (c : Nat) :
    Wrote h o (blocks ++ [(c, block)]) (e.codeCoefficientsPassTwo h c block) := by
  have hrange : ∀ c, -1024 ≤ predictions blocks (fun _ => 0) c ∧
      predictions blocks (fun _ => 0) c ≤ 1023 :=
    predictions_range hblocks fun _ => by decide
  obtain ⟨hputs, hlast⟩ :=
    Encoder.codeCoefficientsPassTwo_puts hfit hblock c e hw.mLastDcVal (hrange c)
  refine ⟨?_, ?_⟩
  · have hbits := hw.puts hputs
    rw [blocksBits_append]
    simpa only [blocksBits, List.append_nil] using hbits
  · rw [hlast, predictions, predictions, List.foldl_append]
    rfl

theorem Wrote.ends (hw : Wrote h o blocks e) : ∃ raw rest,
    (e.putBits 0x7F 7).out.emitted = o.emitted ++ stuff raw ∧
      bytesToBits raw = blocksBits h blocks (fun _ => 0) ++ rest ∧ rest.length < 8 ∧ ∀ b ∈ rest,
        b = true := by
  obtain ⟨raw, pend, hpend, -, hemitted, hbits⟩ :=
    hw.puts (Encoder.putBits_puts e (show 0x7F < 2 ^ 7 by decide) (by decide))
  obtain ⟨rest, hraw, hless, hones⟩ := padding hpend hbits
  exact ⟨raw, rest, hemitted, hraw, hless, hones⟩

end Bits

section Tables

theorem mHuffTables_mono {t : Bool → Bool → HuffTable} (h : mHuffTables n = some t) (hnm : n ≤ m) :
    mHuffTables m = some t := by
  simp only [mHuffTables, Option.bind_eq_bind, Option.bind_eq_some_iff] at h
  obtain ⟨dcLum, hdcLum, acLum, hacLum, dcChroma, hdcChroma, acChroma, hacChroma, heq⟩ := h
  simp only [mHuffTables, computeHuffmanTable_mono hdcLum hnm, computeHuffmanTable_mono hacLum hnm,
    computeHuffmanTable_mono hdcChroma hnm, computeHuffmanTable_mono hacChroma hnm,
    Option.bind_eq_bind, Option.bind_some]
  exact heq

theorem huffTables_canonical (ac chroma : Bool) :
    Canonical (huffTables ac chroma) (mHuffBits ac chroma) (mHuffVal ac chroma) := by
  obtain ⟨fuel, h, hfuel, hcanonical⟩ := mHuffTables_ends
  have hsome : mHuffTables 20 = some huffTables := (Option.some_get _).symm
  have heq := (mHuffTables_mono hfuel (Nat.le_max_left fuel 20)).symm.trans
    (mHuffTables_mono hsome (Nat.le_max_right fuel 20))
  obtain rfl := Option.some.inj heq
  exact hcanonical ac chroma

namespace Statics

theorem setHuff_mHuff (t : Statics) : t.setHuff.mHuff = huffTables := by
  simp only [mHuff, setHuff, if_true]

end Statics

end Tables

section Samples

variable {img : Image} {s : Subsampling}

theorem plane_le (img : Image) (s : Subsampling) (c y x : Nat) : img.plane s c y x ≤ 255 :=
  Nat.le_of_lt_succ (UInt8.toNat_lt _)

theorem block_samples {f : Nat → Nat → Int} (h : ∀ i k, -128 ≤ f i k ∧ f i k ≤ 127) :
    Samples (block f) := by
  intro v hv
  obtain ⟨i, -, hi⟩ := List.mem_flatMap.mp hv
  obtain ⟨k, -, rfl⟩ := List.mem_map.mp hi
  exact h i k

theorem cell_le (img : Image) (s : Subsampling) (c y x : Nat) :
    s.cell (img.plane s) c y x ≤ s.v * s.h * 255 := by
  have hle : ∀ n ∈ ((List.range s.v).flatMap fun dv => (List.range s.h).map fun dh =>
      img.plane s c (s.v * y + dv) (s.h * x + dh)), n ≤ 255 := by
    intro n hn
    obtain ⟨dv, -, hdv⟩ := List.mem_flatMap.mp hn
    obtain ⟨dh, -, rfl⟩ := List.mem_map.mp hdv
    exact plane_le img s c _ _
  have hsum := List.sum_le_card_nsmul _ 255 hle
  simpa [Subsampling.cell] using hsum

theorem chromaBlock_samples (c row col : Nat) :
    Samples (s.chromaBlock (img.plane s) c row col) := by
  refine block_samples fun i k => ?_
  have hcell := cell_le img s c (8 * row + i) (8 * col + k)
  have hbias : s.bias i k < s.h * s.v := by
    unfold Subsampling.bias
    cases s with
    | h2v2 =>
      simp only [if_true, Subsampling.h, Subsampling.v]
      split <;> decide
    | yOnly | h1v1 | h2v1 => simp [Subsampling.h, Subsampling.v]
  have hlt : (s.cell (img.plane s) c (8 * row + i) (8 * col + k) + s.bias i k) /
      (s.h * s.v) < 256 := by
    refine Nat.div_lt_of_lt_mul ?_
    rw [Nat.mul_comm s.v s.h] at hcell
    omega
  generalize (s.cell (img.plane s) c (8 * row + i) (8 * col + k) + s.bias i k) / (s.h * s.v) =
    n at hlt ⊢
  omega

theorem imageMcus_samples (img : Image) (s : Subsampling) :
    ∀ b ∈ imageMcus img s, b.1 < s.components ∧ Samples b.2 := by
  intro b hb
  obtain ⟨row, -, hrow⟩ := List.mem_flatMap.mp hb
  obtain ⟨col, -, hcol⟩ := List.mem_flatMap.mp hrow
  rcases List.mem_append.mp hcol with hluma | hchroma
  · obtain ⟨v, -, hv⟩ := List.mem_flatMap.mp hluma
    obtain ⟨h, -, rfl⟩ := List.mem_map.mp hv
    have hcomps := components_cases s
    refine ⟨by dsimp only; omega, block_samples (f := fun i k =>
      (img.plane s 0 (8 * (s.v * row + v) + i) (8 * (s.h * col + h) + k) : Int) - 128)
        fun i k => ?_⟩
    have hplane := plane_le img s 0 (8 * (s.v * row + v) + i) (8 * (s.h * col + h) + k)
    omega
  · obtain ⟨c, hc, rfl⟩ := List.mem_map.mp hchroma
    obtain ⟨hlow, hhigh⟩ := List.mem_range'_1.mp hc
    exact ⟨by dsimp only; omega, chromaBlock_samples c row col⟩

end Samples

namespace JpegEncoder

variable {opened jpge : JpegEncoder} {t : Statics} {quality : Int}

def quantizedBlocks (quality : Int) (blocks : List (Nat × List Int)) : List (Nat × Block) :=
  blocks.map fun b => (b.1, quantized quality (0 < b.1) b.2)

/-- Since `opened` nothing but the scan has been emitted, and for samples of eight bits it has the
bits of all blocks that were coded. -/
structure Coded (opened : JpegEncoder) (quality : Int) (jpge : JpegEncoder) : Prop where
  out : ∃ raw, jpge.enc.out = opened.enc.out.emitBytes (stuff raw)
  blocks : ∃ new, jpge.coded = opened.coded ++ new ∧ ((∀ b ∈ new, Samples b.2) →
    Wrote huffTables opened.enc.out (quantizedBlocks quality new) jpge.enc)

theorem Coded.start (h : opened.enc = .start opened.enc.out) : Coded opened quality opened where
  out := ⟨[], rfl⟩
  blocks := ⟨[], (List.append_nil _).symm, fun _ => by
    rw [h]
    exact Wrote.start _ _⟩

theorem quantizedBlocks_inRange {blocks : List (Nat × List Int)} (h : ∀ b ∈ blocks, Samples b.2) :
    ∀ b ∈ quantizedBlocks quality blocks, b.2.InRange := by
  intro b hb
  obtain ⟨b', hb', rfl⟩ := List.mem_map.mp hb
  exact quantized_inRange (h b' hb') _ _

theorem huffTables_fit (ac chroma : Bool) : Encoder.CodesFit (huffTables ac chroma) :=
  (huffTables_canonical ac chroma).fits (mHuff_fits ac chroma)

theorem Coded.codeBlock (h : Coded opened quality jpge)
    (htables : t.mQuantizationTables = Statics.tablesOf quality)
    (hhuff : t.mHuff = huffTables) (c : Nat)
    (a : List Int) : Coded opened quality (jpge.codeBlock t c a) where
  out := by
    obtain ⟨raw, hout⟩ := h.out
    obtain ⟨raw', hout'⟩ := (Encoder.codeCoefficientsPassTwo_emits t.mHuff c
      (loadQuantizedCoefficients (t.mQuantizationTables (0 < c)) (dct2D a)) jpge.enc).out
    exact ⟨raw ++
      raw', by rw [JpegEncoder.codeBlock, hout', hout, stuff_append, Output.emitBytes_append]⟩
  blocks := by
    obtain ⟨new, hcoded, hwrote⟩ := h.blocks
    refine ⟨new ++ [(c, a)], by rw [JpegEncoder.codeBlock, hcoded, List.append_assoc],
      fun hsamples => ?_⟩
    have hnew : ∀ b ∈ new, Samples b.2 := fun b hb => hsamples b (List.mem_append_left _ hb)
    have hlast : Samples a := hsamples (c, a) (List.mem_append_right _ List.mem_cons_self)
    have hmore := (hwrote hnew).code huffTables_fit (quantizedBlocks_inRange hnew)
      (quantized_inRange hlast quality (0 < c)) c
    rw [quantizedBlocks, List.map_append]
    rw [JpegEncoder.codeBlock, htables, hhuff]
    exact hmore

theorem Coded.setMcuYOfs (h : Coded opened quality jpge) (ofs : Nat) :
    Coded opened quality (jpge.setMcuYOfs ofs) where
  out := h.out
  blocks := by
    obtain ⟨new, hcoded, hwrote⟩ := h.blocks
    refine ⟨new, hcoded, fun hsamples => ?_⟩
    obtain ⟨⟨raw, pend, hpend, ⟨hbitsIn, hbuffer⟩, hemitted, hbits⟩, hlast⟩ := hwrote hsamples
    exact ⟨⟨raw, pend, hpend, ⟨hbitsIn, hbuffer⟩, hemitted, hbits⟩, hlast⟩

section Runs

variable (htables : t.mQuantizationTables = Statics.tablesOf quality) (hhuff : t.mHuff = huffTables)

include htables hhuff

theorem Coded.processMcuRow (h : Coded opened quality jpge) :
    Coded opened quality (jpge.processMcuRow t) :=
  processMcuRow_keeps t (fun c a _ hj => hj.codeBlock htables hhuff c a) h

theorem Coded.loadMcu (h : Coded opened quality jpge) (pSrc : Nat → UInt8) :
    Coded opened quality (jpge.loadMcu t pSrc) := by
  have hstored : Coded opened quality (jpge.storeLine pSrc) := ⟨h.out, h.blocks⟩
  unfold JpegEncoder.loadMcu
  dsimp only
  split
  · exact ((hstored.setMcuYOfs _).processMcuRow htables hhuff).setMcuYOfs 0
  · exact hstored.setMcuYOfs _

theorem Coded.processLines (h : Coded opened quality opened) (lines : Nat → Nat → UInt8) (n : Nat) :
    Coded opened quality (processLines t lines n opened).2 := by
  induction n with
  | zero => exact h
  | succ n ih =>
    simp only [JpegEncoder.processLines, jpgeProcessScanline]
    split
    · exact ih
    · dsimp only
      split
      · exact ih.loadMcu htables hhuff (lines n)
      · exact ih

theorem Coded.lastRow (h : Coded opened quality jpge) :
    ∃ last : JpegEncoder, Coded opened quality last ∧
      jpge.processEndOfImage t =
        { last with enc := last.enc.processEndOfImage huffTables [] } := by
  have hrepeated : Coded opened quality jpge.repeatLine := ⟨h.out, h.blocks⟩
  rw [← hhuff]
  unfold JpegEncoder.processEndOfImage
  dsimp only
  refine ⟨_, ?_, rfl⟩
  split
  · split
    · exact hrepeated.processMcuRow htables hhuff
    · exact h.processMcuRow htables hhuff
  · exact h

end Runs

theorem Coded.ends (h : Coded opened quality jpge) (hready : opened.enc.out.Ready)
    {new : List (Nat × List Int)} (hcoded : jpge.coded = opened.coded ++ new)
    (hsamples : ∀ b ∈ new, Samples b.2) :
    ∃ raw rest, (jpge.enc.processEndOfImage huffTables []).out.handed =
        opened.enc.out.sent ++ (stuff raw ++ [0xFF, 0xD9]) ∧
      bytesToBits raw = blocksBits huffTables (quantizedBlocks quality new) (fun _ => 0) ++ rest ∧
      rest.length < 8 ∧ ∀ b ∈ rest, b = true := by
  obtain ⟨new', hcoded', hwrote⟩ := h.blocks
  obtain rfl := List.append_cancel_left (hcoded.symm.trans hcoded')
  obtain ⟨raw, rest, hemitted, hraw, hless, hones⟩ := (hwrote hsamples).ends
  obtain ⟨raw', hout⟩ := h.out
  obtain ⟨raw'', hout'⟩ := (Encoder.putBits_emits 0x7F 7 jpge.enc).out
  have hall : (jpge.enc.putBits 0x7F 7).out =
      opened.enc.out.emitBytes (stuff raw' ++ stuff raw'') := by
    rw [hout', hout, Output.emitBytes_append]
  have hstuff : stuff raw' ++ stuff raw'' = stuff raw := by
    rw [hall, Output.emitBytes_emitted] at hemitted
    exact List.append_cancel_left hemitted
  obtain ⟨hready', hsent⟩ := hready.emitBytes (stuff raw)
  obtain ⟨hready'', hsent'⟩ := hready'.emitBytes [0xFF, 0xD9]
  obtain ⟨hflushed, hhanded, -⟩ := hready''.flush
  obtain ⟨-, hhanded', -⟩ := hflushed.putBuf none
  refine ⟨raw, rest, ?_, hraw, hless, hones⟩
  rw [Encoder.processEndOfImage_nil]
  simp only [hall, hstuff]
  rw [hhanded', hhanded, hsent', hsent]
  exact (List.append_nil _).trans (List.append_assoc _ _ _)

theorem start_out (o : Output) : (Encoder.start o).out = o := rfl

theorem jpgeInit_headers (jpge : JpegEncoder) {t : Statics} (ht : t.Consistent)
    (content : Memory UInt8)
    {mPutBuf : List PutBufCall → Bool} (hwrites : ∀ calls, mPutBuf calls = true) (img : Image)
    (s : Subsampling)
    (hwidth : 1 ≤ img.width) (hheight : 1 ≤ img.height)
    (hchannels : img.channels = 1 ∨ img.channels = 3) (hquality : 1 ≤ quality ∧ quality ≤ 100) :
    let r :=
      jpge.jpgeInit (some content) (some mPutBuf) img.width img.height img.channels quality s.code t
    r.2.1.mQuantizationTables = Statics.tablesOf quality ∧ r.2.1.mHuff = huffTables ∧
      r.2.2.enc = .start r.2.2.enc.out ∧ ∃ l : ImageLayout, l.Framed img s ∧
        r.2.2.enc.out.sent = jpge.enc.out.handed ++ headers (Statics.tablesOf quality) l := by
  have hcode : s.code ≤ 3 := by cases s <;> decide
  have hvalid : ¬ (((img.width : Int) < 1 ∨ (img.height : Int) < 1) ∨
      ((img.channels : Int) ≠ 1 ∧ (img.channels : Int) ≠ 3 ∧ (img.channels : Int) ≠ 4) ∨
      quality < 1 ∨ quality > 100 ∨ s.code > 3) := by omega
  have htables := ht.setTables (show quality ≠ 0 by omega)
  have hframed := setImage_framed jpge.layout img s
  have hcomps : ((jpge.layout.setSubsampling s.code).setImage img.width img.height
      img.channels).mNumComponents = 1 ∨
        ((jpge.layout.setSubsampling s.code).setImage img.width img.height
      img.channels).mNumComponents = 3 := by
    rw [hframed.mNumComponents]
    exact components_cases s
  simp only [jpgeInit, if_neg hvalid, jpgOpen, Int.toNat_natCast]
  refine ⟨htables, Statics.setHuff_mHuff _, congrArg Encoder.start (start_out _).symm, _,
    hframed, ?_⟩
  rw [start_out]
  have hready : Output.Ready { jpge.enc.out with
      mAllStreamWritesSucceeded := true
      mPutBuf := mPutBuf
      mPOutBuf := 0
      mOutBufLeft := outBufSize } := ⟨Nat.zero_add _, Nat.zero_lt_succ _, rfl, hwrites⟩
  have hsent := (hready.emitBytes (headers (Statics.tablesOf quality)
    ((jpge.layout.setSubsampling s.code).setImage img.width img.height img.channels))).2
  rw [← emitHeaders_eq hcomps, ← htables] at hsent
  refine hsent.trans ?_
  rw [htables]
  exact congrArg (· ++ _) (List.append_nil _)

end JpegEncoder

theorem image_scan {t : Statics} (ht : t.Consistent) (jpge : JpegEncoder) (content : Memory UInt8)
    {mPutBuf : List PutBufCall → Bool} (hwrites : ∀ calls, mPutBuf calls = true) (img : Image)
    (s : Subsampling) (hwidth : 1 ≤ img.width) (hheight : 1 ≤ img.height)
    (hchannels : img.channels = 1 ∨ img.channels = 3) {quality : Int}
    (hquality : 1 ≤ quality ∧ quality ≤ 100) :
    let opened :=
      jpge.jpgeInit (some content) (some mPutBuf) img.width img.height img.channels quality
        s.code t
    let scanned n := JpegEncoder.processLines opened.2.1 img.lines n opened.2.2
    let finished := (scanned img.height).2.jpgeProcessScanline opened.2.1 none
    opened.1 = true ∧ (∀ n ≤ img.height, (scanned n).1 = true) ∧ finished.1 = true ∧
      ∃ (l : ImageLayout) (raw : List UInt8) (ones : List Bool), l.Framed img s ∧
        finished.2.enc.out.handed = jpge.enc.out.handed ++
          (headers (Statics.tablesOf quality) l ++ (stuff raw ++ [0xFF, 0xD9])) ∧
        bytesToBits raw = blocksBits huffTables
          (JpegEncoder.quantizedBlocks quality (imageMcus img s)) (fun _ => 0) ++ ones ∧
        ones.length < 8 ∧ ∀ b ∈ ones, b = true := by
  intro opened scanned finished
  obtain ⟨hopened, hstart, hready, -, -⟩ :=
    JpegEncoder.jpgeInit_opens (s := s) jpge t content hwrites hwidth hheight hchannels hquality
  obtain ⟨htables, hhuff, henc, l, hl, hsent⟩ := jpge.jpgeInit_headers ht content hwrites img s
    hwidth hheight hchannels hquality
  obtain ⟨-, hlines⟩ :=
    JpegEncoder.processLines_scanned (t := opened.2.1) hstart hwidth hready (Nat.le_refl img.height)
  obtain ⟨hcoded, -, hend', -⟩ := hlines.processEndOfImage (t := opened.2.1) hheight hready
  have hfinished : finished = (true, (scanned img.height).2.processEndOfImage opened.2.1) := by
    rw [← hend'.succeeded]
    exact hlines.process_none hready
  obtain ⟨last, hlast, hend⟩ :=
    ((JpegEncoder.Coded.start henc).processLines htables hhuff img.lines img.height).lastRow
      htables hhuff
  rw [hend] at hcoded
  obtain ⟨raw, ones, hhanded, hraw, hless, hones⟩ :=
    hlast.ends hready hcoded fun b hb => (imageMcus_samples img s b hb).2
  refine ⟨hopened, fun n hn => (JpegEncoder.processLines_scanned hstart hwidth hready hn).1,
    congrArg Prod.fst hfinished, l, raw, ones, hl, ?_, hraw, hless, hones⟩
  have hout : finished.2 = _ := (congrArg Prod.snd hfinished).trans hend
  rw [hout, ← List.append_assoc, ← hsent]
  exact hhanded

/-- A whole image: the MCUs that cover it are coded in raster order from the image continued past
its edges, the scan handed over is the code of their blocks, the output ends with the only end
marker, and nothing happens afterwards. -/
theorem image_coded (t : Statics) (jpge : JpegEncoder) (content : Memory UInt8)
    {mPutBuf : List PutBufCall → Bool} (hwrites : ∀ calls, mPutBuf calls = true) (img : Image)
    (s : Subsampling) (hwidth : 1 ≤ img.width) (hheight : 1 ≤ img.height)
    (hchannels : img.channels = 1 ∨ img.channels = 3) {quality : Int}
    (hquality : 1 ≤ quality ∧ quality ≤ 100) :
    let opened :=
      jpge.jpgeInit (some content) (some mPutBuf) img.width img.height img.channels quality
        s.code t
    let scanned := JpegEncoder.processLines opened.2.1 img.lines img.height opened.2.2
    let finished := scanned.2.jpgeProcessScanline opened.2.1 none
    let blocks := (List.range (img.rows s)).flatMap fun row =>
      (List.range (img.cols s)).flatMap (mcu s (img.plane s) row)
    opened.1 = true ∧ scanned.1 = true ∧ finished.1 = true ∧
      finished.2.coded = jpge.coded ++ blocks ∧
      (∃ body n before, finished.2.enc.out.handed = jpge.enc.out.handed ++ (body ++ [0xFF, 0xD9]) ∧
        Decoder.markers n (body ++ [0xFF, 0xD9]) = some (before ++ [0xD9]) ∧ 0xD9 ∉ before ∧
        (t.Consistent → ∃ (l : ImageLayout) (raw : List UInt8) (ones : List Bool), l.Framed img s ∧
          body = headers (Statics.tablesOf quality) l ++ stuff raw ∧
          bytesToBits raw = blocksBits huffTables (JpegEncoder.quantizedBlocks quality blocks)
            (fun _ => 0) ++ ones ∧ ones.length < 8 ∧ ∀ b ∈ ones, b = true)) ∧
      ∀ t' pScanline, finished.2.jpgeProcessScanline t' pScanline = (false, finished.2) := by
  intro opened scanned finished blocks
  have hscan (ht : t.Consistent) :=
    (image_scan ht jpge content hwrites img s hwidth hheight hchannels hquality).2.2.2
  obtain ⟨hopened, hstart, hready, hcoded, tables, l, hcomps, hsent⟩ :=
    JpegEncoder.jpgeInit_opens (s := s) jpge t content hwrites hwidth hheight hchannels hquality
  obtain ⟨hscanned, hlines⟩ :=
    JpegEncoder.processLines_scanned (t := opened.2.1) hstart hwidth hready (Nat.le_refl img.height)
  obtain ⟨hall, ⟨raw, hhanded⟩, hend, hpass⟩ :=
    hlines.processEndOfImage (t := opened.2.1) hheight hready
  have hfinished : finished = (true, scanned.2.processEndOfImage opened.2.1) := by
    rw [← hend.succeeded]
    exact hlines.process_none hready
  have hbody : finished.2.enc.out.handed =
      jpge.enc.out.handed ++ (headers tables l ++ stuff raw ++ [0xFF, 0xD9]) := by
    rw [hfinished, ← List.append_assoc, ← List.append_assoc, ← hsent]
    exact hhanded
  refine ⟨hopened, hscanned, by rw [hfinished], ?_, ?_, ?_⟩
  · rw [hfinished, ← hcoded]
    exact hall
  · have hplain : ∀ s ∈ headerSegments tables l, Plain s := headerSegments_plain hcomps
    have hsos : (sosBody l.mNumComponents).length + 2 < 2 ^ 16 := by
      rcases hcomps with hcomps | hcomps
      · rw [hcomps]
        decide
      · rw [hcomps]
        decide
    obtain ⟨n, before, hmarkers, honce⟩ := markers_file hplain hsos raw
    refine ⟨headers tables l ++ stuff raw, n, before, hbody, hmarkers, honce, fun ht => ?_⟩
    obtain ⟨l', raw', ones, hl', hhanded', hbits⟩ := hscan ht
    have hsame := List.append_cancel_left (hbody.symm.trans hhanded')
    rw [← List.append_assoc] at hsame
    exact ⟨l', raw', ones, hl', List.append_cancel_right hsame, hbits⟩
  · rw [hfinished]
    intro t' pScanline
    have hdone : (scanned.2.processEndOfImage opened.2.1).enc.mPassNum < 1 ∨
        (scanned.2.processEndOfImage opened.2.1).enc.mPassNum > 2 := by
      rw [hpass]
      decide
    simp only [JpegEncoder.jpgeProcessScanline, if_pos hdone]

def gradient : Image := ⟨9, 17, 3, fun y k => .ofNat (31 * y + 7 * k)⟩

theorem gradient_coded :
    let opened := JpegEncoder.blank.jpgeInit (some fun _ => 0) (some fun _ => true) gradient.width
      gradient.height gradient.channels 50 Subsampling.h2v2.code .start
    let scanned := JpegEncoder.processLines opened.2.1 gradient.lines gradient.height opened.2.2
    let finished := scanned.2.jpgeProcessScanline opened.2.1 none
    finished.2.coded.length = 12 ∧ ∃ header raw ones,
      finished.2.enc.out.handed = header ++ stuff raw ++ [0xFF, 0xD9] ∧
      bytesToBits raw = blocksBits huffTables
        (JpegEncoder.quantizedBlocks 50 (imageMcus gradient .h2v2)) (fun _ => 0) ++ ones := by
  intro opened scanned finished
  obtain ⟨-, -, -, hcoded, ⟨body, n, before, hhanded, -, -, hscan⟩, -⟩ :=
    image_coded .start .blank (fun _ => 0) (fun _ => rfl) gradient .h2v2 (by decide) (by decide)
      (.inr rfl) (show (1 : Int) ≤ 50 ∧ (50 : Int) ≤ 100 by decide)
  obtain ⟨l, raw, ones, -, hbody, hbits, -⟩ := hscan fun h => absurd rfl h
  refine ⟨?_, headers (Statics.tablesOf 50) l, raw, ones, ?_, hbits⟩
  · rw [hcoded]
    decide
  · rw [hhanded, hbody]
    exact List.nil_append _

end Mangoxx.Jpge
