import Mangoxx.Jpge.ScanCoded

namespace Mangoxx.Jpge

open Mangoxx.Lib BitString CInt Decoder

section Accuracy

theorem roundDiv_error {a q : Int} (ha : 0 ≤ a) (hq : 1 ≤ q) :
    2 * ((a + (q >>> (1 : Nat))).tdiv q * q - a).natAbs ≤ q.natAbs := by
  have hhalf : q >>> (1 : Nat) = q / 2 := Int.shiftRight_eq_div_pow _ _
  have hdiv := Int.mul_ediv_add_emod (a + q / 2) q
  have hless := Int.emod_lt_of_pos (a + q / 2) (show 0 < q by omega)
  have hpos := Int.emod_nonneg (a + q / 2) (show q ≠ 0 by omega)
  rw [hhalf, Int.tdiv_eq_ediv_of_nonneg (by omega), Int.mul_comm]
  omega

theorem quantize_error {j q : Int} (hq : 1 ≤ q) (hlow : -32768 < j) (hhigh : j < 32768) :
    2 * (quantize j q * q - j).natAbs ≤ q.natAbs := by
  have hhalf : q >>> (1 : Nat) = q / 2 := Int.shiftRight_eq_div_pow _ _
  rw [quantize]
  by_cases hneg : j < 0
  · have hround := roundDiv_le (show 0 ≤ -j by omega) hq
    have herror := roundDiv_error (show 0 ≤ -j by omega) hq
    simp only [if_pos hneg]
    split
    · omega
    · rw [int16_eq (by omega) (by omega), Int.neg_mul]
      omega
  · have hround := roundDiv_le (show 0 ≤ j by omega) hq
    have herror := roundDiv_error (show 0 ≤ j by omega) hq
    simp only [if_neg hneg]
    split
    · omega
    · rw [int16_eq (by omega) (by omega)]
      omega

variable {s : Subsampling} {quality : Int} {i : Nat}

theorem tableBytes_toNat (quality : Int) (chroma : Bool) (hi : i < 64) :
    (((tableBytes (Statics.tablesOf quality chroma)).getD i 0).toNat : Int) =
      (Statics.tablesOf quality chroma).getD i 0 := by
  have hlength : i < (if chroma then sStdCromaQuant else sStdLumQuant).length := by
    cases chroma <;> exact hi
  have hentry : ∃ src, (Statics.tablesOf quality chroma).getD i 0 = quantEntry quality src := by
    refine ⟨(if chroma then sStdCromaQuant else sStdLumQuant)[i], ?_⟩
    rw [Statics.tablesOf, computeQuantTable, List.getD_eq_getElem?_getD, List.getElem?_map,
      List.getElem?_eq_getElem hlength, Option.map_some, Option.getD_some]
  have hofInt {v : Int} (hv : 1 ≤ v ∧ v ≤ 255) : ((UInt8.ofInt v).toNat : Int) = v := by
    rw [UInt8.ofInt, UInt8.toNat_ofNat']
    omega
  obtain ⟨src, hsrc⟩ := hentry
  have hrange := quantEntry_range quality src
  rw [tableBytes, List.getD_eq_getElem?_getD, List.getElem?_map, List.getElem?_range hi,
    Option.map_some, Option.getD_some, hsrc]
  exact hofInt hrange

theorem quantized_error {p : List Int} (hp : Samples p) (chroma : Bool) (hi : i < 64) :
    2 * ((quantized quality chroma p).val.getD i 0 * (Statics.tablesOf quality chroma).getD i 0 -
      (dct2D p).getD (sZag.getD i 0) 0).natAbs ≤
        ((Statics.tablesOf quality chroma).getD i 0).natAbs := by
  have hq := quantTable_pos quality chroma hi
  obtain ⟨v, hv, hlow, hhigh, -⟩ := dct2D_bounds hp (sZag_range hi).1
  have hval : (quantized quality chroma p).val.getD i 0 =
      quantize ((dct2D p).getD (sZag.getD i 0) 0) ((Statics.tablesOf quality chroma).getD i 0) := by
    simp [quantized, loadQuantizedCoefficients, hi, Statics.tablesOf]
  have hcoefficient : (dct2D p).getD (sZag.getD i 0) 0 = v := by
    rw [List.getD_eq_getElem?_getD, hv, Option.getD_some]
  rw [hval, hcoefficient]
  exact quantize_error hq (by omega) (by omega)

theorem step_eq (lines samplesPerLine : Nat) (blocks : List (Nat × List Int)) {c : Nat}
    (hc : c < s.components)
    (hi : i < 64) :
    Picture.step ⟨lines, samplesPerLine, planesOf (Statics.tablesOf quality) s, blocks⟩ c i =
      (Statics.tablesOf quality (0 < c)).getD i 0 := by
  have hplane : (planesOf (Statics.tablesOf quality) s).getD c ⟨0, 0, []⟩ =
      ⟨if c = 0 then s.h else 1, if c = 0 then s.v else 1,
        tableBytes (Statics.tablesOf quality (0 < c))⟩ := by
    rw [planesOf, List.getD_eq_getElem?_getD, List.getElem?_map, List.getElem?_range hc]
    rfl
  rw [Picture.step, hplane, tableBytes_toNat quality _ hi]

end Accuracy

section File

variable {img : Image} {s : Subsampling} {l : ImageLayout}

theorem segments_length_le (segments : List (UInt8 × List UInt8)) :
    segments.length ≤ (segments.flatMap fun s => segment s.1 s.2).length := by
  induction segments with
  | nil => exact Nat.le_refl 0
  | cons s segments ih =>
    rw [List.flatMap_cons, List.length_append, List.length_cons, segment, List.length_append,
      List.length_append]
    simp only [List.length_cons]
    omega

theorem readFile_coded (tables : Bool → List Int) (hl : l.Framed img s)
    (hwidth : img.width < 2 ^ 16) (hheight : img.height < 2 ^ 16) {blocks : List (Nat × Block)}
    (hblocks : ∀ b ∈ blocks, b.1 < s.components ∧ b.2.InRange)
    (hcomponents : blocks.map Prod.fst = (imageMcus img s).map Prod.fst) {raw : List UInt8}
    {rest : List Bool}
    (hraw : bytesToBits raw = blocksBits huffTables blocks (fun _ => 0) ++ rest)
    (hless : rest.length < 8) (hones : ∀ b ∈ rest, b = true) :
    readFile (headers tables l ++ (stuff raw ++ [0xFF, 0xD9])) =
      some ⟨img.height, img.width, planesOf tables s, blocks.map fun b => (b.1, b.2.val)⟩ := by
  have hcomps : l.mNumComponents = 1 ∨ l.mNumComponents = 3 :=
    hl.mNumComponents ▸ components_cases s
  have hsos : (sosBody s.components).length + 2 < 2 ^ 16 := by cases s <;> decide
  obtain ⟨t, hread, ht⟩ := readSegments_headers tables hl hwidth hheight
  obtain ⟨segments, hsegments⟩ : ∃ segments, segments = headerSegments tables l := ⟨_, rfl⟩
  obtain ⟨bytes, hbytes⟩ : ∃ bytes, bytes = (segments.flatMap fun s => segment s.1 s.2) ++
    (segment 0xDA (sosBody s.components) ++ (stuff raw ++ [0xFF, 0xD9])) := ⟨_, rfl⟩
  have hfile : headers tables l ++ (stuff raw ++ [0xFF, 0xD9]) = 0xFF :: 0xD8 :: bytes := by
    rw [headers, hbytes, hsegments, hl.mNumComponents]
    simp only [List.append_assoc, List.cons_append, List.nil_append]
  obtain ⟨n, hn⟩ : ∃ n, bytes.length = segments.length + (n + 1) := by
    have hle := segments_length_le segments
    refine ⟨bytes.length - segments.length - 1, ?_⟩
    have hlength : 2 ≤ (stuff raw ++ [0xFF, 0xD9]).length := by simp
    rw [hbytes, List.length_append, List.length_append]
    omega
  rw [← hsegments] at hread
  rw [hfile, readFile, if_pos ⟨rfl, rfl⟩, hn, hbytes,
    readSegments_segments (hsegments ▸ headerSegments_plain hcomps), hread, Option.bind_some,
    readSegments_segment hsos, if_pos rfl]
  exact readScan_coded ht huffTables_canonical hblocks hcomponents hraw hless hones

def pictureOf (img : Image) (s : Subsampling) (quality : Int) : Picture :=
  ⟨img.height, img.width, planesOf (Statics.tablesOf quality) s,
    (imageMcus img s).map fun b => (b.1, (quantized quality (0 < b.1) b.2).val)⟩

def Approximates (p : Picture) (blocks : List (Nat × List Int)) : Prop :=
  List.Forall₂ (fun coded b => coded.1 = b.1 ∧ ∀ i < 64, 2 * (coded.2.getD i 0 * p.step b.1 i -
    (dct2D b.2).getD (sZag.getD i 0) 0).natAbs ≤ (p.step b.1 i).natAbs) p.blocks blocks

theorem pictureOf_approximates (img : Image) (s : Subsampling) (quality : Int) :
    Approximates (pictureOf img s quality) (imageMcus img s) := by
  refine List.forall₂_map_left_iff.mpr (List.forall₂_same.mpr fun b hb => ⟨rfl, fun i hi => ?_⟩)
  have himage := imageMcus_samples img s b hb
  rw [pictureOf, step_eq _ _ _ himage.1 hi]
  exact quantized_error himage.2 _ hi

/-- All calls for an image succeed, and what the callback gets is a file from which the quantised
coefficients are read back. -/
theorem image_file {t : Statics} (ht : t.Consistent) (jpge : JpegEncoder) (content : Memory UInt8)
    {mPutBuf : List PutBufCall → Bool} (hwrites : ∀ calls, mPutBuf calls = true) (img : Image)
    (s : Subsampling) (hwidth : 1 ≤ img.width ∧ img.width < 2 ^ 16)
    (hheight : 1 ≤ img.height ∧ img.height < 2 ^ 16)
    (hchannels : img.channels = 1 ∨ img.channels = 3)
    {quality : Int} (hquality : 1 ≤ quality ∧ quality ≤ 100) :
    let opened :=
      jpge.jpgeInit (some content) (some mPutBuf) img.width img.height img.channels quality
        s.code t
    let scanned n := JpegEncoder.processLines opened.2.1 img.lines n opened.2.2
    let finished := (scanned img.height).2.jpgeProcessScanline opened.2.1 none
    opened.1 = true ∧ (∀ n ≤ img.height, (scanned n).1 = true) ∧ finished.1 = true ∧
      ∃ file, finished.2.enc.out.handed = jpge.enc.out.handed ++ file ∧
        Decoder.readFile file = some (pictureOf img s quality) := by
  intro opened scanned finished
  obtain ⟨hopened, hscanned, hfinished, l, raw, ones, hl, hhanded, hraw, hless, hones⟩ :=
    image_scan ht jpge content hwrites img s hwidth.1 hheight.1 hchannels hquality
  refine ⟨hopened, hscanned, hfinished, _, hhanded, ?_⟩
  have hblocks : ∀ b ∈ JpegEncoder.quantizedBlocks quality (imageMcus img s),
      b.1 < s.components ∧ b.2.InRange := by
    intro b hb
    obtain ⟨b', hb', rfl⟩ := List.mem_map.mp hb
    obtain ⟨hcomponent, hsamples⟩ := imageMcus_samples img s b' hb'
    exact ⟨hcomponent, quantized_inRange hsamples _ _⟩
  have hfst : (JpegEncoder.quantizedBlocks quality (imageMcus img s)).map Prod.fst =
      (imageMcus img s).map Prod.fst := by
    rw [JpegEncoder.quantizedBlocks, List.map_map]
    rfl
  rw [readFile_coded _ hl hwidth.2 hheight.2 hblocks hfst hraw hless hones,
    JpegEncoder.quantizedBlocks, List.map_map]
  rfl

/-- What the callback gets of an image is a file from which a decoder reads its size, its sampling
factors, its quantisation tables and the quantised coefficients of all blocks that cover the image,
in raster order. -/
theorem file_decoded {t : Statics} (ht : t.Consistent) (jpge : JpegEncoder) (content : Memory UInt8)
    {mPutBuf : List PutBufCall → Bool} (hwrites : ∀ calls, mPutBuf calls = true) (img : Image)
    (s : Subsampling) (hwidth : 1 ≤ img.width ∧ img.width < 2 ^ 16)
    (hheight : 1 ≤ img.height ∧ img.height < 2 ^ 16)
    (hchannels : img.channels = 1 ∨ img.channels = 3)
    {quality : Int} (hquality : 1 ≤ quality ∧ quality ≤ 100) :
    let opened :=
      jpge.jpgeInit (some content) (some mPutBuf) img.width img.height img.channels quality
        s.code t
    let scanned := JpegEncoder.processLines opened.2.1 img.lines img.height opened.2.2
    let finished := scanned.2.jpgeProcessScanline opened.2.1 none
    let picture : Picture := ⟨img.height, img.width, planesOf (Statics.tablesOf quality) s,
      (imageMcus img s).map fun b => (b.1, (quantized quality (0 < b.1) b.2).val)⟩
    ∃ file, finished.2.enc.out.handed = jpge.enc.out.handed ++ file ∧
      Decoder.readFile file = some picture ∧ Approximates picture (imageMcus img s) := by
  intro opened scanned finished picture
  obtain ⟨-, -, -, file, hhanded, hread⟩ :=
    image_file ht jpge content hwrites img s hwidth hheight hchannels hquality
  exact ⟨file, hhanded, hread, pictureOf_approximates img s quality⟩

theorem gradient_decoded :
    let opened := JpegEncoder.blank.jpgeInit (some fun _ => 0) (some fun _ => true) gradient.width
      gradient.height gradient.channels 50 Subsampling.h2v2.code .start
    let scanned := JpegEncoder.processLines opened.2.1 gradient.lines gradient.height opened.2.2
    let finished := scanned.2.jpgeProcessScanline opened.2.1 none
    let picture : Picture := ⟨17, 9, planesOf (Statics.tablesOf 50) .h2v2,
      (imageMcus gradient .h2v2).map fun b => (b.1, (quantized 50 (0 < b.1) b.2).val)⟩
    ∃ file, finished.2.enc.out.handed = JpegEncoder.blank.enc.out.handed ++ file ∧
      Decoder.readFile file = some picture ∧ Approximates picture (imageMcus gradient .h2v2) :=
  file_decoded (fun h => absurd rfl h) .blank (fun _ => 0) (fun _ => rfl) gradient .h2v2 (by decide)
    (by decide) (.inr rfl) (by decide)

end File

end Mangoxx.Jpge
