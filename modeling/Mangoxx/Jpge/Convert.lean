import Mangoxx.Jpge.LineFormat
import Mangoxx.Jpge.Recovered
import Mangoxx.Jpge.ToJpg

namespace Mangoxx.Jpge

open Mangoxx.Lib

structure Frame where
  buf : Nat → UInt8
  width : UInt16
  height : UInt16
  format : PixFormat

/-- What a conversion finds in memory: an encoder on the stack, and the blocks that `malloc` returns
for the lines of the encoder, for a scan line and for the file. -/
structure ConvertMemory where
  dstImage : JpegEncoder
  mcuLines : Option (Memory UInt8)
  line : Option (Nat → UInt8)
  jpgBuf : Option (Memory UInt8)

def JpegEncoder.fresh (jpge : JpegEncoder) : JpegEncoder :=
  { jpge with
    enc := { jpge.enc with out := { jpge.enc.out with calls := [], emitted := [] } }
    coded := [] }

def boundedQuality (quality : UInt8) : Nat :=
  if quality = 0 then 1 else if quality > 100 then 100 else quality.toNat

def PixFormat.subsampling (format : PixFormat) : Subsampling :=
  if format = .grayscale then .yOnly else .h2v2

namespace Frame

variable (fb : Frame)

def scanLine (i : Nat) (line : Nat → UInt8) : Nat → UInt8 :=
  let dst := (convertLineFormat fb.buf fb.format fb.width.toNat i).dst
  fun k => dst[k]?.getD (line k)

def convertLines (t : Statics) : (n i : Nat) → (Nat → UInt8) → JpegEncoder → Bool × JpegEncoder
  | 0, _, _, dstImage => (true, dstImage)
  | n + 1, i, line, dstImage =>
    let line := fb.scanLine i line
    let r := dstImage.jpgeProcessScanline t (some line)
    if r.1 then convertLines t n (i + 1) line r.2 else (false, r.2)

/-- Memory that is not freed is not followed. -/
def convertImage (quality : UInt8) (putBuf : List PutBufCall → Bool) (mem : ConvertMemory)
    (t : Statics) :
    Bool × Statics × JpegEncoder :=
  let opened :=
    mem.dstImage.fresh.jpgeInit mem.mcuLines (some putBuf) fb.width.toNat fb.height.toNat
      (numChannels fb.format) (boundedQuality quality) fb.format.subsampling.code t
  if opened.1 then
    match mem.line with
    | none => (false, opened.2)
    | some line =>
      let scanned := fb.convertLines opened.2.1 fb.height.toNat 0 line opened.2.2
      if scanned.1 then
        let finished := scanned.2.jpgeProcessScanline opened.2.1 none
        (finished.1, opened.2.1, if finished.1 then finished.2.jpgeDeinit else finished.2)
      else (false, opened.2.1, scanned.2)
  else (false, opened.2)

/-- The file, which is `*out` with the length `*out_len`.  The encoder makes no call behind one that
`put_buf` has refused. -/
def fmt2jpg (quality : UInt8) (mem : ConvertMemory) (t : Statics) : Option (List UInt8) × Statics :=
  match mem.jpgBuf with
  | none => (none, t)
  | some buf =>
    let r := fb.convertImage quality (fun calls => (JpgBuf.putAll calls (.start buf)).1) mem t
    if r.1 then (some (JpgBuf.putAll r.2.2.enc.out.calls (.start buf)).2.stored, r.2.1)
    else (none, r.2.1)

def image : Image where
  width := fb.width.toNat
  height := fb.height.toNat
  channels := numChannels fb.format
  lines i k :=
    (fb.format.pixel (fun a => fb.buf (i * (fb.format.bytesPerPixel * fb.width.toNat) + a))
      (k / numChannels fb.format)).getD (k % numChannels fb.format) 0

def scanned (line : Nat → UInt8) : Image where
  width := fb.width.toNat
  height := fb.height.toNat
  channels := numChannels fb.format
  lines i := fb.scanLine i line

structure Convertible : Prop where
  width : 0 < fb.width.toNat
  height : 0 < fb.height.toNat
  format : fb.format ≠ .jpeg
  even : fb.format = .yuv422 → fb.width.toNat % 2 = 0

end Frame

theorem boundedQuality_range (quality : UInt8) :
    1 ≤ (boundedQuality quality : Int) ∧ (boundedQuality quality : Int) ≤ 100 := by
  rw [boundedQuality]
  split
  · decide
  · rename_i hzero
    have hpos : quality.toNat ≠ 0 := fun h => hzero (UInt8.toNat_inj.mp h)
    split
    · decide
    · rename_i hbound
      have hle : quality.toNat ≤ 100 := UInt8.le_iff_toNat_le.mp (UInt8.not_lt.mp hbound)
      omega

theorem numChannels_cases (format : PixFormat) :
    numChannels format = 1 ∨ numChannels format = 3 := by
  cases format <;> decide

theorem convertPixel_congr {bpp : Nat} (hbpp : bpp = 1 ∨ bpp = 3) {p q : Nat → UInt8} {k : Nat}
    (h : ∀ c < bpp, p (bpp * k + c) = q (bpp * k + c)) (n : Nat) :
    convertPixel n bpp p k = convertPixel n bpp q k := by
  rcases hbpp with rfl | rfl
  · have hgrey := h 0 (by decide)
    rw [Nat.one_mul, Nat.add_zero] at hgrey
    simp [convertPixel, hgrey]
  · have hred := h 0 (by decide)
    rw [Nat.add_zero] at hred
    simp [convertPixel, hred, h 1 (by decide), h 2 (by decide)]

namespace Frame

section Lines

variable {fb : Frame}

@[simp] theorem scanned_lines (line : Nat → UInt8) (i : Nat) :
    (fb.scanned line).lines i = fb.scanLine i line := rfl

theorem Convertible.converts (h : fb.Convertible) (i : Nat) :
    ConvertsLine fb.buf fb.format fb.width.toNat i
      (convertLineFormat fb.buf fb.format fb.width.toNat i) := by
  cases hformat : fb.format with
  | grayscale => exact grayscale_converts _ _ _
  | rgb888 => exact rgb888_converts
  | rgb565 => exact rgb565_converts
  | yuv422 => exact yuv422_converts_iff.mpr (h.even hformat)
  | jpeg => exact absurd hformat h.format

theorem Convertible.scanLine_scanLine (h : fb.Convertible) (i j : Nat) (line : Nat → UInt8) :
    fb.scanLine i (fb.scanLine j line) = fb.scanLine i line := by
  funext k
  simp only [scanLine]
  by_cases hk : k < fb.width.toNat * numChannels fb.format
  · rw [List.getElem?_eq_getElem ((h.converts i).stores ▸ hk)]
    rfl
  · have hnone (j : Nat) : (convertLineFormat fb.buf fb.format fb.width.toNat j).dst[k]? = none :=
      List.getElem?_eq_none ((h.converts j).stores ▸ Nat.le_of_not_lt hk)
    rw [hnone i, hnone j]
    rfl

theorem Convertible.convertLines (h : fb.Convertible) {t : Statics} {opened : JpegEncoder}
    (line : Nat → UInt8) (n i : Nat) (line' : Nat → UInt8)
    (hline : ∀ j, fb.scanLine j line' = fb.scanLine j line)
    (hscanned : ∀ m ≤ i + n,
      (JpegEncoder.processLines t (fb.scanned line).lines m opened).1 = true) :
    fb.convertLines t n i line' (JpegEncoder.processLines t (fb.scanned line).lines i opened).2 =
      (true, (JpegEncoder.processLines t (fb.scanned line).lines (i + n) opened).2) := by
  induction n generalizing i line' with
  | zero => rfl
  | succ n ih =>
    have hnext := hscanned (i + 1) (by omega)
    simp only [JpegEncoder.processLines, scanned_lines, Bool.and_eq_true] at hnext
    have hrest := ih (i + 1) (fb.scanLine i line) (fun j => h.scanLine_scanLine j i line)
      fun m hm => hscanned m (by omega)
    have hindex : i + (n + 1) = i + 1 + n := by omega
    rw [Frame.convertLines, hline i]
    simp only [hnext.2, if_true]
    rw [hindex]
    exact hrest

theorem pixel_length (hformat : fb.format ≠ .jpeg) (bytes : Nat → UInt8) (x : Nat) :
    (fb.format.pixel bytes x).length = numChannels fb.format := by
  cases h : fb.format with
  | jpeg => exact absurd h hformat
  | _ => rfl

theorem Convertible.scanLine_pixel (h : fb.Convertible) {x c : Nat} (hx : x < fb.width.toNat)
    (hc : c < numChannels fb.format) (i : Nat) (line : Nat → UInt8) :
    fb.scanLine i line (numChannels fb.format * x + c) =
      fb.image.lines i (numChannels fb.format * x + c) := by
  have hdiv : (numChannels fb.format * x + c) / numChannels fb.format = x := by
    rw [Nat.mul_add_div (by omega), Nat.div_eq_of_lt hc, Nat.add_zero]
  have hmod : (numChannels fb.format * x + c) % numChannels fb.format = c := by
    rw [Nat.mul_add_mod, Nat.mod_eq_of_lt hc]
  simp only [scanLine, (h.converts i).pixels x hx c hc, image, hdiv, hmod]
  rw [List.getD_eq_getElem?_getD, List.getElem?_eq_getElem (by rwa [pixel_length h.format])]
  rfl

theorem Convertible.plane (h : fb.Convertible) (s : Subsampling) (line : Nat → UInt8) :
    Image.plane (fb.scanned line) s = fb.image.plane s := by
  funext c y x
  have hx : min x (fb.width.toNat - 1) < fb.width.toNat := by
    have hwidth := h.width
    omega
  rw [Image.plane, Image.plane]
  exact congrArg (fun pixel => (pixel.getD c 0).toNat) (convertPixel_congr (numChannels_cases _)
    (fun c hc => h.scanLine_pixel hx hc _ line) s.components)

theorem Convertible.picture_eq (h : fb.Convertible) (s : Subsampling) (quality : Int)
    (line : Nat → UInt8) :
    pictureOf (fb.scanned line) s quality = pictureOf fb.image s quality := by
  have hmcus : imageMcus (fb.scanned line) s = imageMcus fb.image s := by
    rw [imageMcus, imageMcus, JpegEncoder.codedRows, JpegEncoder.codedRows, h.plane s line]
    rfl
  rw [pictureOf, pictureOf, hmcus]
  rfl

end Lines

end Frame

structure ConvertMemory.Available (mem : ConvertMemory) : Prop where
  mcuLines : mem.mcuLines.isSome
  line : mem.line.isSome
  jpgBuf : mem.jpgBuf.isSome

structure JpgCall where
  fb : Frame
  quality : UInt8
  mem : ConvertMemory

namespace JpgCall

def picture (c : JpgCall) : Decoder.Picture :=
  pictureOf c.fb.image c.fb.format.subsampling (boundedQuality c.quality)

/-- The result is the start of a file, up to the size of the buffer, that shows the frame; without
memory there is none. -/
structure Answers (c : JpgCall) (out : Option (List UInt8)) : Prop where
  file : c.mem.Available → ∃ file, out = some (file.take 1048576) ∧
    Decoder.readFile file = some c.picture ∧
    Approximates c.picture (imageMcus c.fb.image c.fb.format.subsampling)
  none : ¬ c.mem.Available → out = none

def frames2jpg : List JpgCall → Statics → List (Option (List UInt8)) × Statics
  | [], t => ([], t)
  | c :: calls, t =>
    let r := c.fb.fmt2jpg c.quality c.mem t
    let rest := frames2jpg calls r.2
    (r.1 :: rest.1, rest.2)

end JpgCall

section Calls

variable {fb : Frame} {quality : UInt8} {mem : ConvertMemory} {t : Statics}
  {putBuf : List PutBufCall → Bool}

theorem JpegEncoder.jpgeInit_consistent (jpge : JpegEncoder) (ht : t.Consistent)
    (malloc : Option (Memory UInt8)) (pPutBuf : Option (List PutBufCall → Bool))
    (width height srcChannels quality subsampling : Int) :
    (jpge.jpgeInit malloc pPutBuf width height srcChannels quality subsampling
      t).2.1.Consistent := by
  rcases jpgeInit_cases jpge malloc pPutBuf width height srcChannels quality subsampling with
    ⟨closed, -, hinit⟩ | ⟨opened, hquality, -, hinit⟩
  · rw [hinit]
    exact ht
  · rw [hinit]
    exact ht.opened hquality

theorem Frame.convertImage_consistent (ht : t.Consistent) :
    (fb.convertImage quality putBuf mem t).2.1.Consistent := by
  have hopened :=
    mem.dstImage.fresh.jpgeInit_consistent ht mem.mcuLines (some putBuf) fb.width.toNat
      fb.height.toNat (numChannels fb.format) (boundedQuality quality) fb.format.subsampling.code
  rw [Frame.convertImage]
  split
  · cases mem.line with
    | none => exact hopened
    | some line =>
      dsimp only
      split
      · exact hopened
      · exact hopened
  · exact hopened

theorem Frame.convertImage_eq {line : Nat → UInt8} {scanned : JpegEncoder}
    (hline : mem.line = some line) :
    let opened :=
      mem.dstImage.fresh.jpgeInit mem.mcuLines (some putBuf) fb.width.toNat fb.height.toNat
        (numChannels fb.format) (boundedQuality quality) fb.format.subsampling.code t
    let finished := scanned.jpgeProcessScanline opened.2.1 none
    opened.1 = true →
      fb.convertLines opened.2.1 fb.height.toNat 0 line opened.2.2 = (true, scanned) →
      finished.1 = true →
        fb.convertImage quality putBuf mem t = (true, opened.2.1, finished.2.jpgeDeinit) := by
  intro opened finished hopened hscanned hfinished
  simp only [Frame.convertImage, hline]
  rw [if_pos hopened]
  simp only [opened, finished] at hscanned hfinished
  simp only [hscanned, hfinished, if_true]
  rfl

theorem Frame.Convertible.convertImage (h : fb.Convertible) (ht : t.Consistent)
    (hwrites : ∀ calls, putBuf calls = true) (hmem : mem.mcuLines.isSome)
    (hline : mem.line.isSome) :
    let r := fb.convertImage quality putBuf mem t
    r.1 = true ∧ Decoder.readFile r.2.2.enc.out.handed =
      some (pictureOf fb.image fb.format.subsampling (boundedQuality quality)) := by
  obtain ⟨content, hcontent⟩ := Option.isSome_iff_exists.mp hmem
  obtain ⟨line, hline⟩ := Option.isSome_iff_exists.mp hline
  have hwidth : 1 ≤ fb.width.toNat ∧ fb.width.toNat < 2 ^ 16 := ⟨h.width, fb.width.toNat_lt⟩
  have hheight : 1 ≤ fb.height.toNat ∧ fb.height.toNat < 2 ^ 16 := ⟨h.height, fb.height.toNat_lt⟩
  obtain ⟨hopened, hscanned, hfinished, file, hhanded, hread⟩ :=
    image_file ht mem.dstImage.fresh content hwrites (fb.scanned line) fb.format.subsampling
      hwidth hheight (numChannels_cases fb.format) (boundedQuality_range quality)
  have hlines := h.convertLines line fb.height.toNat 0 line (fun _ => rfl) fun m hm =>
    hscanned m ((Nat.zero_add fb.height.toNat).subst (motive := (m ≤ ·)) hm)
  rw [Nat.zero_add] at hlines
  rw [h.picture_eq] at hread
  rw [← hcontent] at hopened hlines hfinished hhanded
  have hresult := Frame.convertImage_eq hline hopened hlines hfinished
  rw [hresult]
  exact ⟨rfl, (congrArg Decoder.readFile hhanded).trans hread⟩

/-- What does not fit into the buffer is missing at the end of the file. -/
theorem Frame.Convertible.fmt2jpg (h : fb.Convertible) (ht : t.Consistent) (hmem : mem.Available) :
    ∃ file, (fb.fmt2jpg quality mem t).1 = some (file.take 1048576) ∧ Decoder.readFile file =
      some (pictureOf fb.image fb.format.subsampling (boundedQuality quality)) := by
  obtain ⟨buf, hbuf⟩ := Option.isSome_iff_exists.mp hmem.jpgBuf
  obtain ⟨hconverted, hread⟩ :=
    h.convertImage ht (JpgBuf.putAll_answers buf) hmem.mcuLines hmem.line
  refine ⟨_, ?_, hread⟩
  simp only [Frame.fmt2jpg, hbuf]
  rw [if_pos hconverted, JpgBuf.putAll_start, JpgBuf.stored_after]
  rfl

theorem Frame.fmt2jpg_consistent (ht : t.Consistent) : (fb.fmt2jpg quality mem t).2.Consistent := by
  rw [Frame.fmt2jpg]
  cases mem.jpgBuf with
  | none => exact ht
  | some buf =>
    dsimp only
    split
    · exact Frame.convertImage_consistent ht
    · exact Frame.convertImage_consistent ht

theorem JpegEncoder.jpgeInit_none (jpge : JpegEncoder) (pPutBuf : Option (List PutBufCall → Bool))
    (width height srcChannels quality subsampling : Int) :
    (jpge.jpgeInit none pPutBuf width height srcChannels quality subsampling t).1 = false := by
  cases pPutBuf with
  | none => rfl
  | some mPutBuf =>
    simp only [jpgeInit]
    split
    · rfl
    · rfl

theorem Frame.convertImage_none (hmem : mem.mcuLines = none ∨ mem.line = none) :
    (fb.convertImage quality putBuf mem t).1 = false := by
  rcases hmem with hmcuLines | hline
  · simp only [Frame.convertImage, hmcuLines, JpegEncoder.jpgeInit_none]
    rfl
  · simp only [Frame.convertImage, hline]
    split
    · rfl
    · rfl

theorem Frame.fmt2jpg_none (hmem : ¬ mem.Available) : (fb.fmt2jpg quality mem t).1 = none := by
  rw [Frame.fmt2jpg]
  cases hbuf : mem.jpgBuf with
  | none => rfl
  | some buf =>
    have hmissing : mem.mcuLines = none ∨ mem.line = none := by
      by_contra hfound
      obtain ⟨hmcuLines, hline⟩ := not_or.mp hfound
      exact hmem
        ⟨Option.isSome_iff_ne_none.mpr hmcuLines, Option.isSome_iff_ne_none.mpr hline, hbuf ▸ rfl⟩
    simp only [Frame.convertImage_none hmissing]
    rfl

end Calls

/-- Whatever is converted in a process, one frame after the other: every file that is returned shows
its frame, and a frame is refused only without memory. -/
theorem frames_decoded {t : Statics} (ht : t.Consistent) (calls : List JpgCall)
    (hcalls : ∀ c ∈ calls, c.fb.Convertible) :
    List.Forall₂ JpgCall.Answers calls (JpgCall.frames2jpg calls t).1 := by
  induction calls generalizing t with
  | nil => exact .nil
  | cons c calls ih =>
    obtain ⟨hc, hrest⟩ := List.forall_mem_cons.mp hcalls
    refine .cons ⟨fun hmem => ?_, Frame.fmt2jpg_none⟩ (ih (Frame.fmt2jpg_consistent ht) hrest)
    obtain ⟨file, hfile, hread⟩ := hc.fmt2jpg ht hmem
    exact ⟨file, hfile, hread, pictureOf_approximates _ _ _⟩

def greyFrame : Frame := ⟨fun k => .ofNat (5 * k), 9, 17, .grayscale⟩

def yuvFrame : Frame := ⟨fun k => .ofNat (3 * k), 6, 2, .yuv422⟩

def zeroedMemory : ConvertMemory := ⟨.blank, some fun _ => 0, some fun _ => 0, some fun _ => 0⟩

theorem two_frames_decoded :
    List.Forall₂ JpgCall.Answers [⟨greyFrame, 0, zeroedMemory⟩, ⟨yuvFrame, 90, zeroedMemory⟩]
      (JpgCall.frames2jpg [⟨greyFrame, 0, zeroedMemory⟩, ⟨yuvFrame, 90, zeroedMemory⟩] .start).1 :=
  frames_decoded (fun h => absurd rfl h) _ (List.forall_mem_cons.mpr
    ⟨⟨by decide, by decide, by decide, nofun⟩,
      List.forall_mem_singleton.mpr ⟨by decide, by decide, by decide, fun _ => rfl⟩⟩)

end Mangoxx.Jpge
