import Mangoxx.Jpge.Decoder
import Mangoxx.Jpge.HuffmanTable
import Mangoxx.Lib.Bits

namespace Mangoxx.Jpge

open Mangoxx.Lib BitString

def sDcLumBits : List UInt8 :=
  [0, 0, 1, 5, 1, 1, 1, 1, 1, 1, 0, 0, 0, 0, 0, 0, 0]

def sDcLumVal : List UInt8 :=
  [0, 1, 2, 3, 4, 5, 6, 7, 8, 9, 10, 11]

def sAcLumBits : List UInt8 :=
  [0, 0, 2, 1, 3, 3, 2, 4, 3, 5, 5, 4, 4, 0, 0, 1, 125]

def sAcLumVal : List UInt8 :=
  [0x1, 0x2, 0x3, 0x0, 0x4, 0x11, 0x5, 0x12, 0x21, 0x31, 0x41, 0x6, 0x13, 0x51, 0x61, 0x7, 0x22,
   0x71, 0x14, 0x32, 0x81, 0x91, 0xa1, 0x8, 0x23, 0x42, 0xb1, 0xc1, 0x15, 0x52, 0xd1, 0xf0, 0x24,
   0x33, 0x62, 0x72, 0x82, 0x9, 0xa, 0x16, 0x17, 0x18, 0x19, 0x1a, 0x25, 0x26, 0x27, 0x28, 0x29,
   0x2a, 0x34, 0x35, 0x36, 0x37, 0x38, 0x39, 0x3a, 0x43, 0x44, 0x45, 0x46, 0x47, 0x48, 0x49, 0x4a,
   0x53, 0x54, 0x55, 0x56, 0x57, 0x58, 0x59, 0x5a, 0x63, 0x64, 0x65, 0x66, 0x67, 0x68, 0x69, 0x6a,
   0x73, 0x74, 0x75, 0x76, 0x77, 0x78, 0x79, 0x7a, 0x83, 0x84, 0x85, 0x86, 0x87, 0x88, 0x89, 0x8a,
   0x92, 0x93, 0x94, 0x95, 0x96, 0x97, 0x98, 0x99, 0x9a, 0xa2, 0xa3, 0xa4, 0xa5, 0xa6, 0xa7, 0xa8,
   0xa9, 0xaa, 0xb2, 0xb3, 0xb4, 0xb5, 0xb6, 0xb7, 0xb8, 0xb9, 0xba, 0xc2, 0xc3, 0xc4, 0xc5, 0xc6,
   0xc7, 0xc8, 0xc9, 0xca, 0xd2, 0xd3, 0xd4, 0xd5, 0xd6, 0xd7, 0xd8, 0xd9, 0xda, 0xe1, 0xe2, 0xe3,
   0xe4, 0xe5, 0xe6, 0xe7, 0xe8, 0xe9, 0xea, 0xf1, 0xf2, 0xf3, 0xf4, 0xf5, 0xf6, 0xf7, 0xf8, 0xf9,
   0xfa]

def sDcChromaBits : List UInt8 :=
  [0, 0, 3, 1, 1, 1, 1, 1, 1, 1, 1, 1, 0, 0, 0, 0, 0]

def sDcChromaVal : List UInt8 :=
  [0, 1, 2, 3, 4, 5, 6, 7, 8, 9, 10, 11]

def sAcChromaBits : List UInt8 :=
  [0, 0, 2, 1, 2, 4, 4, 3, 4, 7, 5, 4, 4, 0, 1, 2, 119]

def sAcChromaVal : List UInt8 :=
  [0x0, 0x1, 0x2, 0x3, 0x11, 0x4, 0x5, 0x21, 0x31, 0x6, 0x12, 0x41, 0x51, 0x7, 0x61, 0x71, 0x13,
   0x22, 0x32, 0x81, 0x8, 0x14, 0x42, 0x91, 0xa1, 0xb1, 0xc1, 0x9, 0x23, 0x33, 0x52, 0xf0, 0x15,
   0x62, 0x72, 0xd1, 0xa, 0x16, 0x24, 0x34, 0xe1, 0x25, 0xf1, 0x17, 0x18, 0x19, 0x1a, 0x26, 0x27,
   0x28, 0x29, 0x2a, 0x35, 0x36, 0x37, 0x38, 0x39, 0x3a, 0x43, 0x44, 0x45, 0x46, 0x47, 0x48, 0x49,
   0x4a, 0x53, 0x54, 0x55, 0x56, 0x57, 0x58, 0x59, 0x5a, 0x63, 0x64, 0x65, 0x66, 0x67, 0x68, 0x69,
   0x6a, 0x73, 0x74, 0x75, 0x76, 0x77, 0x78, 0x79, 0x7a, 0x82, 0x83, 0x84, 0x85, 0x86, 0x87, 0x88,
   0x89, 0x8a, 0x92, 0x93, 0x94, 0x95, 0x96, 0x97, 0x98, 0x99, 0x9a, 0xa2, 0xa3, 0xa4, 0xa5, 0xa6,
   0xa7, 0xa8, 0xa9, 0xaa, 0xb2, 0xb3, 0xb4, 0xb5, 0xb6, 0xb7, 0xb8, 0xb9, 0xba, 0xc2, 0xc3, 0xc4,
   0xc5, 0xc6, 0xc7, 0xc8, 0xc9, 0xca, 0xd2, 0xd3, 0xd4, 0xd5, 0xd6, 0xd7, 0xd8, 0xd9, 0xda, 0xe2,
   0xe3, 0xe4, 0xe5, 0xe6, 0xe7, 0xe8, 0xe9, 0xea, 0xf2, 0xf3, 0xf4, 0xf5, 0xf6, 0xf7, 0xf8, 0xf9,
   0xfa]

/-- A row of `m_huff_val`, which holds zeros behind what `memcpy` stores. -/
def huffValRow (val : List UInt8) : List UInt8 := val ++ List.replicate (256 - val.length) 0

def mHuffBits (ac chroma : Bool) : List UInt8 :=
  if ac then (if chroma then sAcChromaBits else sAcLumBits)
  else if chroma then sDcChromaBits else sDcLumBits

def mHuffVal (ac chroma : Bool) : List UInt8 :=
  huffValRow (if ac then (if chroma then sAcChromaVal else sAcLumVal)
    else if chroma then sDcChromaVal else sDcLumVal)

def mHuffTables (fuel : Nat) : Option (Bool → Bool → HuffTable) := do
  let dcLum ← computeHuffmanTable fuel (mHuffBits false false) (mHuffVal false false)
  let acLum ← computeHuffmanTable fuel (mHuffBits true false) (mHuffVal true false)
  let dcChroma ← computeHuffmanTable fuel (mHuffBits false true) (mHuffVal false true)
  let acChroma ← computeHuffmanTable fuel (mHuffBits true true) (mHuffVal true true)
  return fun ac chroma =>
    if ac then (if chroma then acChroma else acLum) else if chroma then dcChroma else dcLum

def emitDhts (numComponents : Nat) (o : Output) : Output :=
  let o := emitDht (mHuffBits false false) (mHuffVal false false) 0 false o
  let o := emitDht (mHuffBits true false) (mHuffVal true false) 0 true o
  if numComponents = 3 then
    let o := emitDht (mHuffBits false true) (mHuffVal false true) 1 false o
    emitDht (mHuffBits true true) (mHuffVal true true) 1 true o
  else o

section Headers

def dhtOf (bits val : List UInt8) : Decoder.Dht :=
  ⟨(List.range' 1 16).map fun l => bits.getD l 0, symbols bits val⟩

theorem dhtOf_counts (bits val : List UInt8) :
    (dhtOf bits val).bits.map UInt8.toNat = counts bits := by
  rw [dhtOf, List.map_map]
  rfl

theorem dhtOf_huffval (bits val : List UInt8) :
    (dhtOf bits val).huffval = symbols bits val := by
  simp only [dhtOf]

def dhtSegment (bits val : List UInt8) (id : UInt8) : List UInt8 :=
  let n := 2 + 1 + 16 + (counts bits).sum
  [0xFF, 0xC4, .ofNat (n >>> 8), .ofNat (n &&& 0xFF), id] ++ (dhtOf bits val).bits ++
    (dhtOf bits val).huffval

variable {bits val : List UInt8}

theorem symbols_eq (hlen : (counts bits).sum ≤ val.length) :
    (List.range (counts bits).sum).map (fun i => val.getD i 0) = symbols bits val := by
  apply List.ext_getElem
  · simpa [symbols] using hlen
  · intro i hi hi'
    have hi'' : i < val.length := by
      simp only [List.length_map, List.length_range] at hi
      omega
    simp [symbols, hi'']

theorem emitDht_emitted (hlen : (counts bits).sum ≤ val.length) (index : Nat) (ac : Bool)
    (o : Output) : (emitDht bits val index ac o).emitted =
      o.emitted ++ dhtSegment bits val (.ofNat (index + ac.toNat <<< 4)) := by
  have hsum : (counts bits).sum + 2 + 1 + 16 = 2 + 1 + 16 + (counts bits).sum := by omega
  simp [emitDht, symbols_eq hlen, dhtSegment, dhtOf, hsum, -List.getD_eq_getElem?_getD]

theorem readDht_segment (hlen : (counts bits).sum ≤ val.length)
    (hfits : 2 + 1 + 16 + (counts bits).sum < 2 ^ 16) (id : UInt8) (rest : List UInt8) :
    Decoder.readDht (dhtSegment bits val id ++ rest) = some ((id, dhtOf bits val), rest) := by
  obtain ⟨n, hn⟩ : ∃ n, n = 2 + 1 + 16 + (counts bits).sum := ⟨_, rfl⟩
  have hbits : (dhtOf bits val).bits.length = 16 := by simp [dhtOf]
  have hvals : (dhtOf bits val).huffval.length = (counts bits).sum := by
    simpa [dhtOf_huffval, symbols] using hlen
  have hword : (UInt8.ofNat (n >>> 8)).toNat * 256 + (UInt8.ofNat (n &&& 0xFF)).toNat = n := by
    have hmask : n &&& 0xFF = n % 2 ^ 8 := Nat.and_two_pow_sub_one_eq_mod n 8
    rw [hmask, Nat.shiftRight_eq_div_pow, UInt8.toNat_ofNat', UInt8.toNat_ofNat']
    omega
  have htake : ((dhtOf bits val).bits ++ ((dhtOf bits val).huffval ++ rest)).take 16 =
      (dhtOf bits val).bits := List.take_left' hbits
  have hdrop : ((dhtOf bits val).bits ++ ((dhtOf bits val).huffval ++ rest)).drop 16 =
      (dhtOf bits val).huffval ++ rest := List.drop_left' hbits
  rw [dhtSegment, ← hn]
  simp only [List.append_assoc, List.cons_append, List.nil_append, Decoder.readDht, htake,
    dhtOf_counts, hword, hdrop]
  rw [if_pos ⟨trivial, trivial, hn, by simp [hbits, hvals]⟩, ← List.drop_drop, hdrop,
    List.take_left' hvals, List.drop_left' hvals]

theorem Canonical.decodeSymbol {t : HuffTable} (h : Canonical t bits val)
    (hfits : Huffman.Fits (counts bits) 0 0) {s : UInt8} (hs : s ∈ symbols bits val)
    (rest : List Bool) : Decoder.decodeSymbol (dhtOf bits val) (codeBits t s.toNat ++ rest) =
      some (s.toNat, rest) := by
  obtain ⟨i, hi⟩ := List.getElem?_of_mem hs
  have hdecode := Huffman.decode_code hfits (h.listed i s hi) rest
  simp [Decoder.decodeSymbol, codeBits, dhtOf_counts, dhtOf_huffval, hdecode, hi]

/-- For every distribution of lengths that leaves room, the symbols get prefix-free codes of these
lengths, which are the ones that a decoder reads with the table from the header. -/
theorem compute_huffman_table_canonical (hcount : (counts bits).sum ≤ 256)
    (hkraft : ((List.range' 1 16).map fun l => (bits.getD l 0).toNat * 2 ^ (16 - l)).sum ≤ 2 ^ 16)
    (hlen : (counts bits).sum ≤ val.length) (hnodup : (symbols bits val).Nodup) :
    (huffSizes bits).length < 257 ∧ ∃ fuel t, computeHuffmanTable fuel bits val = some t ∧
      (∀ (i : Nat) (s : UInt8), (symbols bits val)[i]? = some s →
        (huffSizes bits)[i]? = some (t.codeSizes s.toNat)) ∧
      (∀ n, (∀ s ∈ symbols bits val, s.toNat ≠ n) → t.codeSizes n = 0) ∧
      (∀ n, t.codes n < 2 ^ t.codeSizes n) ∧
      (∀ s ∈ symbols bits val, ∀ s' ∈ symbols bits val,
        codeBits t s.toNat <+: codeBits t s'.toNat → s = s') ∧
      ∀ (index : Nat) (acFlag : Bool) (o : Output), ∃ segment id d,
        (emitDht bits val index acFlag o).emitted = o.emitted ++ segment ∧
        Decoder.readDht segment = some ((id, d), []) ∧
        ∀ s ∈ symbols bits val, ∀ rest,
          Decoder.decodeSymbol d (codeBits t s.toNat ++ rest) = some (s.toNat, rest) := by
  have hfits : Huffman.Fits (counts bits) 0 0 := by
    apply Huffman.fits_of_kraft
    rw [kraft_counts, Nat.zero_mul, Nat.zero_add]
    exact hkraft
  have hsizes : (huffSizes bits).length < 257 := by
    rw [huffSizes_eq, sizes, List.length_map, Huffman.codes_length]
    omega
  obtain ⟨fuel, t, hfuel, hcanonical⟩ := computeHuffmanTable_ends hlen hnodup
  refine ⟨hsizes, fuel, t, hfuel, fun i s hs => hcanonical.codeSizes hs,
    fun n hn => (hcanonical.unlisted n hn).2, fun n => (hcanonical.fits hfits n).1,
    fun s hs s' hs' => hcanonical.prefixFree hfits hs hs', fun index acFlag o => ?_⟩
  have hread := readDht_segment hlen (by omega) (.ofNat (index + acFlag.toNat <<< 4)) []
  rw [List.append_nil] at hread
  exact ⟨_, _, _, emitDht_emitted hlen index acFlag o, hread,
    fun s hs rest => hcanonical.decodeSymbol hfits hs rest⟩

theorem compute_huffman_table_gap :
    let bits : List UInt8 := [0, 1, 0, 2] ++ List.replicate 13 0
    let val : List UInt8 := [7, 9, 8]
    ∃ fuel t, computeHuffmanTable fuel bits val = some t ∧
      (huffSizes bits)[1]? = some (t.codeSizes 9) := by
  have hcount : (counts ([0, 1, 0, 2] ++ List.replicate 13 0)).sum ≤ 256 := by decide
  have hnodup : (symbols ([0, 1, 0, 2] ++ List.replicate 13 0) [7, 9, 8]).Nodup := by decide
  obtain ⟨-, fuel, t, hfuel, hsizes, -⟩ :=
    compute_huffman_table_canonical hcount (by decide) (by decide) hnodup
  exact ⟨fuel, t, hfuel, hsizes 1 9 rfl⟩

end Headers

section Tables

variable (ac chroma : Bool)

theorem mHuff_fits : Huffman.Fits (counts (mHuffBits ac chroma)) 0 0 := by
  cases ac <;> cases chroma <;> decide

theorem mHuff_length : (counts (mHuffBits ac chroma)).sum ≤ (mHuffVal ac chroma).length := by
  cases ac <;> cases chroma <;> decide +kernel

theorem mHuff_nodup : (symbols (mHuffBits ac chroma) (mHuffVal ac chroma)).Nodup := by
  have hdistinct : Bits.distinct 0 (symbols (mHuffBits ac chroma) (mHuffVal ac chroma)) = true := by
    cases ac <;> cases chroma <;> decide +kernel
  exact (Bits.nodup_of_distinct hdistinct).1

theorem mHuff_segment : 2 + 1 + 16 + (counts (mHuffBits ac chroma)).sum < 2 ^ 16 := by
  cases ac <;> cases chroma <;> decide

theorem dc_symbol {t : Nat} (ht : t ≤ 11) :
    ∃ s ∈ symbols (mHuffBits false chroma) (mHuffVal false chroma), s.toNat = t := by
  have hall : ∀ chroma, ∀ t < 12,
      (Bits.mask (symbols (mHuffBits false chroma) (mHuffVal false chroma))).testBit t = true := by
    decide +kernel
  exact Bits.testBit_mask.mp (hall chroma t (by omega))

theorem ac_symbol {run size : Nat} (hrun : run < 16) (hsize : size ≤ 10)
    (hzero : size = 0 → run = 0 ∨ run = 15) :
    ∃ s ∈ symbols (mHuffBits true chroma) (mHuffVal true chroma), s.toNat = 16 * run + size := by
  have hall : ∀ chroma, ∀ n < 256, (1 ≤ n % 16 ∧ n % 16 ≤ 10) ∨ n = 0 ∨ n = 0xF0 →
      (Bits.mask (symbols (mHuffBits true chroma) (mHuffVal true chroma))).testBit n = true := by
    decide +kernel
  exact Bits.testBit_mask.mp (hall chroma (16 * run + size) (by omega) (by omega))

theorem mHuffTables_ends : ∃ fuel h, mHuffTables fuel = some h ∧
    ∀ ac chroma, Canonical (h ac chroma) (mHuffBits ac chroma) (mHuffVal ac chroma) := by
  have hends (ac chroma : Bool) :=
    computeHuffmanTable_ends (mHuff_length ac chroma) (mHuff_nodup ac chroma)
  choose fuel t ht hcanonical using hends
  obtain ⟨n, hn⟩ : ∃ n, n = fuel false false + fuel true false + fuel false true + fuel true true :=
    ⟨_, rfl⟩
  have hmono (ac chroma : Bool) :
      computeHuffmanTable n (mHuffBits ac chroma) (mHuffVal ac chroma) = some (t ac chroma) := by
    refine computeHuffmanTable_mono (ht ac chroma) ?_
    cases ac <;> cases chroma <;> omega
  refine ⟨n, t, ?_, hcanonical⟩
  simp only [mHuffTables, hmono, Option.bind_eq_bind, Option.bind_some]
  congr 1
  funext ac chroma
  cases ac <;> cases chroma <;> rfl

end Tables

theorem readDhts_cons {bits val : List UInt8} (hlen : (counts bits).sum ≤ val.length)
    (hfits : 2 + 1 + 16 + (counts bits).sum < 2 ^ 16) (id : UInt8) (rest : List UInt8) (n : Nat) :
    Decoder.readDhts (n + 1) (dhtSegment bits val id ++ rest) =
      (Decoder.readDhts n rest).map fun tables => (id, dhtOf bits val) :: tables := by
  have hne : dhtSegment bits val id ++ rest ≠ [] := by simp [dhtSegment]
  rw [Decoder.readDhts, if_neg hne, readDht_segment hlen hfits]
  simp only [Option.bind_eq_bind, Option.bind_some]
  cases Decoder.readDhts n rest <;> rfl

def decoderTable (ac : Bool) (component : Nat) : Decoder.Dht :=
  dhtOf (mHuffBits ac (component ≠ 0)) (mHuffVal ac (component ≠ 0))

/-- A decoder finds in the headers the tables of every component. -/
theorem emitDhts_tables {numComponents : Nat} (hn : numComponents = 1 ∨ numComponents = 3)
    (o : Output) : ∃ bytes tables, (emitDhts numComponents o).emitted = o.emitted ++ bytes ∧
      Decoder.readDhts 4 bytes = some tables ∧ ∀ c < numComponents,
        tables.lookup (Decoder.selector c) = some (decoderTable false c) ∧
        tables.lookup (16 + Decoder.selector c) = some (decoderTable true c) := by
  have hread (ac chroma : Bool) := readDhts_cons (mHuff_length ac chroma) (mHuff_segment ac chroma)
  rcases hn with rfl | rfl
  · refine ⟨dhtSegment (mHuffBits false false) (mHuffVal false false) 0 ++
      (dhtSegment (mHuffBits true false) (mHuffVal true false) 16 ++ []),
      [(0, decoderTable false 0), (16, decoderTable true 0)], ?_, ?_, ?_⟩
    · simp [emitDhts, emitDht_emitted, mHuff_length]
    · rw [hread, hread, Decoder.readDhts, if_pos rfl]
      rfl
    · intro c hc
      obtain rfl : c = 0 := by omega
      exact ⟨rfl, rfl⟩
  · refine ⟨dhtSegment (mHuffBits false false) (mHuffVal false false) 0 ++
      (dhtSegment (mHuffBits true false) (mHuffVal true false) 16 ++
      (dhtSegment (mHuffBits false true) (mHuffVal false true) 1 ++
      (dhtSegment (mHuffBits true true) (mHuffVal true true) 17 ++ []))),
      [(0, decoderTable false 0), (16, decoderTable true 0), (1, decoderTable false 1),
        (17, decoderTable true 1)], ?_, ?_, ?_⟩
    · simp [emitDhts, emitDht_emitted, mHuff_length]
    · rw [hread, hread, hread, hread, Decoder.readDhts, if_pos rfl]
      rfl
    · intro c hc
      cases c with
      | zero => exact ⟨rfl, rfl⟩
      | succ c => exact ⟨rfl, rfl⟩

end Mangoxx.Jpge
