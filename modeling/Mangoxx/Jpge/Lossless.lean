import Mangoxx.Jpge.Coefficients

namespace Mangoxx.Jpge

open Mangoxx.Lib BitString Decoder

section Value

theorem valueBits_length (v : Int) : (valueBits v).length = Nat.size v.natAbs := by
  simp [valueBits]

theorem extend_lowBits {v : Int} (hv : v ≠ 0) :
    extend (lowBits (if v < 0 then v - 1 else v) (Nat.size v.natAbs)) (Nat.size v.natAbs) = v := by
  obtain ⟨n, hn⟩ : ∃ n, Nat.size v.natAbs = n + 1 :=
    Nat.exists_eq_succ_of_ne_zero (size_ne_zero hv)
  have hlow : 2 ^ n ≤ v.natAbs := Nat.lt_size.mp (by omega)
  have hhigh : v.natAbs < 2 * 2 ^ n := by
    rw [← pow_succ']
    exact Nat.size_le.mp (by omega)
  have hpow : (2 : Int) ^ (n + 1) = (2 * 2 ^ n : Nat) := by
    push_cast
    rw [pow_succ']
  rw [hn, extend, lowBits, hpow, Nat.add_sub_cancel]
  by_cases hneg : v < 0
  · have hmod : (v - 1) % (2 * 2 ^ n : Nat) = v - 1 + (2 * 2 ^ n : Nat) := by
      rw [← Int.add_emod_right]
      exact Int.emod_eq_of_lt (by omega) (by omega)
    rw [if_pos hneg, hmod, if_pos (by omega)]
    omega
  · have hmod : v % (2 * 2 ^ n : Nat) = v := Int.emod_eq_of_lt (by omega) (by omega)
    rw [if_neg hneg, hmod, if_neg (by omega)]
    omega

theorem receive_valueBits (v : Int) (rest : List Bool) :
    receive (Nat.size v.natAbs) (valueBits v ++ rest) =
      some (lowBits (if v < 0 then v - 1 else v) (Nat.size v.natAbs), rest) := by
  have hlength := valueBits_length v
  rw [receive, if_pos (by simp [hlength]), List.take_left' hlength, List.drop_left' hlength,
    valueBits, ofBits_toBits, Nat.mod_eq_of_lt (lowBits_lt _ _)]

end Value

def Reads (t : HuffTable) (d : Dht) (symbol : Nat) : Prop :=
  ∀ rest, decodeSymbol d (codeBits t symbol ++ rest) = some (symbol, rest)

theorem decodeDc_dcBits {t : HuffTable} {d : Dht} (hreads : ∀ n ≤ 11, Reads t d n) {diff : Int}
    (hdiff : diff.natAbs < 2 ^ 11) (pred : Int) (rest : List Bool) :
    decodeDc d pred (dcBits t diff ++ rest) = some (pred + diff, rest) := by
  have hread := hreads _ (Nat.size_le.mpr hdiff)
  rw [decodeDc, dcBits, List.append_assoc, hread]
  simp only [Option.bind_eq_bind, Option.bind_some]
  by_cases hzero : diff = 0
  · subst hzero
    simp [valueBits_zero]
  · rw [if_neg (size_ne_zero hzero), receive_valueBits]
    simp only [Option.bind_some, extend_lowBits hzero]
    rfl

section Ac

variable {ac : HuffTable} {d : Dht}

theorem decodeAc_runs (hzrl : Reads ac d 0xF0) {left q : Nat} (hleft : 16 * q < left)
    (rest : List Bool) :
    decodeAc d left ((List.replicate q (codeBits ac 0xF0)).flatten ++ rest) =
      (decodeAc d (left - 16 * q) rest).map fun r => (List.replicate (16 * q) 0 ++ r.1, r.2) := by
  induction q generalizing left with
  | zero => simp
  | succ q ih =>
    have hnext : left - 16 - 16 * q = left - 16 * (q + 1) := by omega
    have hzeros : List.replicate (16 * (q + 1)) (0 : Int) =
        List.replicate 16 0 ++ List.replicate (16 * q) 0 := by
      rw [List.replicate_append_replicate]
      congr 1
      omega
    rw [List.replicate_succ, List.flatten_cons, List.append_assoc, decodeAc,
      if_neg (by omega), hzrl]
    simp only [show (0xF0 : Nat) / 16 = 15 from rfl, show (0xF0 : Nat) % 16 = 0 from rfl, if_true]
    rw [if_pos (by omega), ih (by omega), hnext, hzeros]
    simp [Function.comp_def]

variable (hreads : ∀ run < 16, ∀ size ≤ 10, (size = 0 → run = 0 ∨ run = 15) →
  Reads ac d (16 * run + size))

include hreads

theorem decodeAc_value {v : Int} (hv : v ≠ 0) (hrange : v.natAbs < 2 ^ 10) {left run : Nat}
    (hrun : run < 16) (hleft : run < left) (rest : List Bool) :
    decodeAc d left (codeBits ac (16 * run + Nat.size v.natAbs) ++ (valueBits v ++ rest)) =
      (decodeAc d (left - run - 1) rest).map fun r => (List.replicate run 0 ++ v :: r.1, r.2) := by
  have hsize : Nat.size v.natAbs ≤ 10 := Nat.size_le.mpr hrange
  have hpos := size_ne_zero hv
  have hread := hreads run hrun _ hsize fun h => absurd h hpos
  have hdiv : (16 * run + Nat.size v.natAbs) / 16 = run := by omega
  have hmod : (16 * run + Nat.size v.natAbs) % 16 = Nat.size v.natAbs := by omega
  rw [decodeAc, if_neg (by omega), hread]
  simp only [hdiv, hmod]
  rw [if_neg hpos, if_pos hleft, receive_valueBits]
  simp only [extend_lowBits hv]

/-- The zeros seen so far come out in front of the coefficients that are left. -/
theorem decodeAc_acBits {coefficients : List Int}
    (hrange : ∀ v ∈ coefficients, v.natAbs < 2 ^ 10) (runLen : Nat) (rest : List Bool) :
    decodeAc d (runLen + coefficients.length) (acBits ac coefficients runLen ++ rest) =
      some (List.replicate runLen 0 ++ coefficients, rest) := by
  induction coefficients generalizing runLen with
  | nil =>
    rw [acBits, decodeAc, List.length_nil, Nat.add_zero, List.append_nil]
    by_cases hrun : runLen = 0
    · simp [hrun]
    · have heob := hreads 0 (by omega) 0 (by omega) fun _ => .inl rfl
      rw [if_neg hrun, if_neg hrun, heob]
      rfl
  | cons v coefficients ih =>
    obtain ⟨hv, hrest⟩ := List.forall_mem_cons.mp hrange
    rw [acBits]
    by_cases hzero : v = 0
    · have hnext := ih hrest (runLen + 1)
      rw [List.replicate_succ', List.append_assoc, List.singleton_append] at hnext
      rw [if_pos hzero, hzero, List.length_cons, ← Nat.add_assoc, Nat.add_right_comm]
      exact hnext
    · have hzrl := hreads 15 (by omega) 0 (by omega) fun _ => .inr rfl
      have hlength : (v :: coefficients).length = coefficients.length + 1 := rfl
      have hzeros : List.replicate runLen (0 : Int) =
          List.replicate (16 * (runLen / 16)) 0 ++ List.replicate (runLen % 16) 0 := by
        rw [List.replicate_append_replicate, Nat.div_add_mod]
      have hleft : runLen + (coefficients.length + 1) - 16 * (runLen / 16) - runLen % 16 - 1 =
          0 + coefficients.length := by omega
      rw [if_neg hzero, List.append_assoc, hlength, decodeAc_runs hzrl (by omega),
        List.append_assoc, List.append_assoc, decodeAc_value hreads hzero hv (by omega) (by omega),
        hleft, ih hrest, hzeros]
      simp only [Option.map_some, List.replicate_zero, List.nil_append, List.append_assoc]

end Ac

section Scan

variable {h : Bool → Bool → HuffTable}

theorem reads_dc {c : Nat}
    (hcanonical : Canonical (h false (c ≠ 0)) (mHuffBits false (c ≠ 0)) (mHuffVal false (c ≠ 0))) :
    ∀ n ≤ 11, Reads (h false (c ≠ 0)) (decoderTable false c) n := by
  intro n hn rest
  obtain ⟨s, hs, rfl⟩ := dc_symbol (c ≠ 0) hn
  exact hcanonical.decodeSymbol (mHuff_fits _ _) hs rest

theorem reads_ac {c : Nat}
    (hcanonical : Canonical (h true (c ≠ 0)) (mHuffBits true (c ≠ 0)) (mHuffVal true (c ≠ 0))) :
    ∀ run < 16, ∀ size ≤ 10, (size = 0 → run = 0 ∨ run = 15) →
      Reads (h true (c ≠ 0)) (decoderTable true c) (16 * run + size) := by
  intro run hrun size hsize hzero rest
  obtain ⟨s, hs, heq⟩ := ac_symbol (c ≠ 0) hrun hsize hzero
  rw [← heq]
  exact hcanonical.decodeSymbol (mHuff_fits _ _) hs rest

theorem decodeBlock_bits
    (hcanonical : ∀ ac chroma, Canonical (h ac chroma) (mHuffBits ac chroma) (mHuffVal ac chroma))
    {block : Block} (hblock : block.InRange) (c : Nat) {pred : Int}
    (hpred : -1024 ≤ pred ∧ pred ≤ 1023) (rest : List Bool) :
    decodeBlock (decoderTable false c) (decoderTable true c) pred
      (dcBits (h false (c ≠ 0)) (block.val.headD 0 - pred) ++
        (acBits (h true (c ≠ 0)) block.val.tail 0 ++ rest)) = some (block.val, rest) := by
  obtain ⟨hfirst, hrest⟩ := hblock
  have hdiff : (block.val.headD 0 - pred).natAbs < 2 ^ 11 := by omega
  have hac : ∀ v ∈ block.val.tail, v.natAbs < 2 ^ 10 := fun v hv => by
    have := hrest v hv
    omega
  have hlength : 0 + block.val.tail.length = 63 := by simp [block.property]
  have hdecode := decodeAc_acBits (reads_ac (hcanonical true (c ≠ 0))) hac 0 rest
  rw [hlength] at hdecode
  have hblock : block.val.headD 0 :: block.val.tail = block.val := by
    cases hval : block.val with
    | nil => simp [hval] at hlength
    | cons v vs => rfl
  rw [decodeBlock, decodeDc_dcBits (reads_dc (hcanonical false (c ≠ 0))) hdiff]
  simp only [Option.bind_eq_bind, Option.bind_some, hdecode, List.replicate_zero, List.nil_append,
    add_sub_cancel]
  rw [hblock]
  rfl

theorem decodeScan_bits
    (hcanonical : ∀ ac chroma, Canonical (h ac chroma) (mHuffBits ac chroma) (mHuffVal ac chroma))
    {tables : List (UInt8 × Dht)} {numComponents : Nat}
    (htables : ∀ c < numComponents, tables.lookup (selector c) = some (decoderTable false c) ∧
      tables.lookup (16 + selector c) = some (decoderTable true c))
    {blocks : List (Nat × Block)} (hblocks : ∀ b ∈ blocks, b.1 < numComponents ∧ b.2.InRange)
    {pred : Nat → Int} (hpred : ∀ c, -1024 ≤ pred c ∧ pred c ≤ 1023) (rest : List Bool) :
    decodeScan tables (blocks.map Prod.fst) pred (blocksBits h blocks pred ++ rest) =
      some (blocks.map fun b => b.2.val, rest) := by
  induction blocks generalizing pred with
  | nil => rfl
  | cons b blocks ih =>
    obtain ⟨c, block⟩ := b
    obtain ⟨⟨hc, hblock⟩, hblocks⟩ := List.forall_mem_cons.mp hblocks
    obtain ⟨hdc, hac⟩ := htables c hc
    have hnext := ih hblocks (hblock.update hpred c)
    rw [blocksBits, List.append_assoc, List.append_assoc, List.map_cons, decodeScan, hdc, hac]
    simp only [Option.bind_eq_bind, Option.bind_some,
      decodeBlock_bits hcanonical hblock c (hpred c), hnext]
    rfl

end Scan

/-- The zeros come out again, and the scan ends at the next marker. -/
theorem unstuff_stuff {marker : UInt8} (hmarker : marker ≠ 0) (raw rest : List UInt8) :
    unstuff (stuff raw ++ 0xFF :: marker :: rest) = (raw, 0xFF :: marker :: rest) := by
  induction raw with
  | nil =>
    have hstuff : stuff [] = [] := rfl
    rw [hstuff, List.nil_append, unstuff, if_pos rfl, if_neg hmarker]
  | cons b raw ih =>
    rw [← List.singleton_append, stuff_append, List.append_assoc]
    by_cases hb : b = 0xFF
    · have hstuff : stuff [b] = [0xFF, 0] := by simp [stuff, hb]
      rw [hstuff, List.cons_append, List.singleton_append, unstuff, if_pos rfl, if_pos rfl, ih, hb]
      rfl
    · have hstuff : stuff [b] = [b] := by simp [stuff, hb]
      obtain ⟨c, tail, htail⟩ := List.exists_cons_of_ne_nil
        (show stuff raw ++ 0xFF :: marker :: rest ≠ [] by simp)
      rw [hstuff, List.singleton_append, htail, unstuff, if_neg hb, ← htail, ih]
      rfl

section EndOfImage

variable {h : Bool → Bool → HuffTable} {e : Encoder} {blocks lastRow : List (Nat × Block)}

def codedBlocks (e : Encoder) (blocks lastRow : List (Nat × Block)) : List (Nat × Block) :=
  if e.mMcuYOfs ≠ 0 then blocks ++ lastRow else blocks

theorem codeAll_puts (hfit : ∀ ac chroma, Encoder.CodesFit (h ac chroma))
    (hblocks : ∀ b ∈ codedBlocks e blocks lastRow, b.2.InRange)
    (hpred : e.mLastDcVal = fun _ => 0) :
    let e' := e.codeBlocks h blocks
    Encoder.Puts e (blocksBits h (codedBlocks e blocks lastRow) fun _ => 0)
      (if e'.mMcuYOfs ≠ 0 then e'.codeBlocks h lastRow else e') := by
  intro e'
  have hrange : Nat → -1024 ≤ (0 : Int) ∧ (0 : Int) ≤ 1023 := fun _ => by decide
  have hblocks' : ∀ b ∈ blocks, b.2.InRange := fun b hb => hblocks b <| by
    rw [codedBlocks]
    split
    · exact List.mem_append_left _ hb
    · exact hb
  have hputs := Encoder.codeBlocks_puts hfit hblocks' e hpred hrange
  have hofs : e'.mMcuYOfs = e.mMcuYOfs := hputs.mMcuYOfs
  have hall := Encoder.codeBlocks_puts hfit hblocks e hpred hrange
  rw [hofs]
  by_cases hzero : e.mMcuYOfs = 0
  · rw [codedBlocks, if_neg (not_not.mpr hzero), if_neg (not_not.mpr hzero)]
    exact hputs
  · rw [codedBlocks, if_pos hzero] at hall ⊢
    rwa [if_pos hzero, ← Encoder.codeBlocks_append]

end EndOfImage

/-- Entropy coding is lossless: a decoder with the tables from the headers reads from the scan
exactly the blocks that were coded, and what is left before the end of the image is less than a byte
of ones. -/
theorem entropy_coding_lossless {numComponents : Nat} (hn : numComponents = 1 ∨ numComponents = 3)
    (o : Output) (e : Encoder) (blocks lastRow : List (Nat × Block))
    (hblocks : ∀ b ∈ codedBlocks e blocks lastRow, b.1 < numComponents ∧ b.2.InRange)
    (hpred : e.mLastDcVal = fun _ => 0) (hbuffer : e.mBitBuffer = 0) (hbitsIn : e.mBitsIn = 0) :
    ∃ fuel h headers tables scan raw rest, mHuffTables fuel = some h ∧
      (emitDhts numComponents o).emitted = o.emitted ++ headers ∧
      readDhts 4 headers = some tables ∧
      ((e.codeBlocks h blocks).processEndOfImage h lastRow).out.emitted = e.out.emitted ++ scan ∧
      unstuff scan = (raw, [0xFF, 0xD9]) ∧
      decodeScan tables ((codedBlocks e blocks lastRow).map Prod.fst) (fun _ => 0)
        (bytesToBits raw) =
        some ((codedBlocks e blocks lastRow).map fun b => b.2.val, rest) ∧
      rest.length < 8 ∧ ∀ b ∈ rest, b = true := by
  obtain ⟨fuel, h, hfuel, hcanonical⟩ := mHuffTables_ends
  obtain ⟨headers, tables, hheaders, hread, htables⟩ := emitDhts_tables hn o
  have hfit (ac chroma : Bool) : Encoder.CodesFit (h ac chroma) :=
    (hcanonical ac chroma).fits (mHuff_fits ac chroma)
  have hputs := codeAll_puts hfit (fun b hb => (hblocks b hb).2) hpred
  have hflush := hputs.trans (Encoder.putBits_puts _ (show 0x7F < 2 ^ 7 by decide) (by decide))
  have hempty : e.Holds [] := ⟨by simp [hbitsIn], 0, by simp [hbuffer]⟩
  obtain ⟨raw, pend, hpend, -, hemitted, hbits⟩ := hflush.emits [] (by simp) hempty
  obtain ⟨rest, hraw, hless, hones⟩ := padding hpend hbits
  refine ⟨fuel, h, headers, tables, stuff raw ++ [0xFF, 0xD9], raw, rest, hfuel, hheaders,
    hread, ?_, unstuff_stuff (by decide) raw [], ?_, hless, hones⟩
  · simp only [Encoder.processEndOfImage, Output.putBuf_emitted, Output.flushOutputBuffer_emitted,
      Output.emitMarker_emitted, hemitted, List.append_assoc]
  · have hrange : Nat → -1024 ≤ (0 : Int) ∧ (0 : Int) ≤ 1023 := fun _ => by decide
    rw [hraw]
    exact decodeScan_bits hcanonical htables hblocks hrange rest

def ramp : Block := ⟨(List.range 64).map fun k : Nat => (k : Int) - 40, rfl⟩

theorem ramps_decoded : ∃ h scan raw tables rest,
    (((Encoder.start (.start (fun _ => true) fun _ => 0)).codeBlocks h
      [(0, ramp), (2, ramp)]).processEndOfImage h []).out.emitted = scan ∧
    unstuff scan = (raw, [0xFF, 0xD9]) ∧
    decodeScan tables [0, 2] (fun _ => 0) (bytesToBits raw) =
      some ([ramp.val, ramp.val], rest) := by
  have hramp : ramp.InRange := ⟨by decide, by decide⟩
  have hcoded : codedBlocks (Encoder.start (.start (fun _ => true) fun _ => 0))
      [(0, ramp), (2, ramp)] [] = [(0, ramp), (2, ramp)] := rfl
  have hblocks : ∀ b ∈ [(0, ramp), (2, ramp)], b.1 < 3 ∧ b.2.InRange := by
    simp [hramp]
  obtain ⟨fuel, h, headers, tables, scan, raw, rest, -, -, -, hscan, hunstuff, hdecode, -⟩ :=
    entropy_coding_lossless (.inr rfl) (.start (fun _ => true) fun _ => 0)
      (.start (.start (fun _ => true) fun _ => 0)) [(0, ramp), (2, ramp)] []
        (hcoded ▸ hblocks) rfl rfl
      rfl
  exact ⟨h, scan, raw, tables, rest, hscan, hunstuff, hdecode⟩

end Mangoxx.Jpge
