import Mangoxx.CmdJpge.Camera

namespace Mangoxx.CmdJpge

open Mangoxx.Lib Mangoxx.Lib.CInt Mangoxx.Lib.Dump Mangoxx.Lib.Rows Mangoxx.Fcmd Mangoxx.Jpge

inductive Depth
  | rgb565
  | rgb888
  deriving DecidableEq

def Depth.bytes : Depth → Nat
  | rgb565 => 2
  | rgb888 => 3

def Depth.format : Depth → PixFormat
  | rgb565 => .rgb565
  | rgb888 => .rgb888

def field (bytes : List UInt8) (off size : Nat) : Nat := littleEndian ((bytes.drop off).take size)

/-- A file in the BMP format up to its pixels, and what follows behind them. -/
structure BmpFile where
  stem : List UInt8
  head : List UInt8
  width : Nat
  height : Nat
  depth : Depth
  tail : List UInt8
  width_range : 0 < width ∧ width < 2 ^ 31
  height_range : 0 < height ∧ height < 2 ^ 31
  head_length : 54 ≤ head.length
  bfType : head.take 2 = text "BM"
  bfOffBits : field head 10 4 = head.length
  biSize : 40 ≤ field head 14 4
  biWidth : field head 18 4 = width
  biHeight : field head 22 4 = height
  biPlanes : field head 26 2 = 1
  biBitCount : field head 28 2 = 8 * depth.bytes
  /-- `BI_RGB` or `BI_BITFIELDS` -/
  biCompression : field head 30 4 = 0 ∨ field head 30 4 = 3

namespace BmpFile

def name (f : BmpFile) : List UInt8 := f.stem ++ text ".bmp"

def lineBytes (f : BmpFile) : Nat := f.width * f.depth.bytes

def padding (f : BmpFile) : Nat := (4 - f.lineBytes % 4) % 4

def stride (f : BmpFile) : Nat := f.lineBytes + f.padding

end BmpFile

structure Image (f : BmpFile) where
  line : Nat → List UInt8
  pad : Nat → List UInt8
  line_length : ∀ y, (line y).length = f.lineBytes
  pad_length : ∀ y, (pad y).length = f.padding

namespace Image

variable {f : BmpFile}

def stored (img : Image f) (k : Nat) : List UInt8 :=
  img.line (f.height - 1 - k) ++ img.pad (f.height - 1 - k)

def content (img : Image f) : List UInt8 :=
  f.head ++ ((List.range f.height).flatMap img.stored ++ f.tail)

def Loaded (img : Image f) (r : Except CameraFault (Int × CameraFb)) : Prop :=
  ∃ s, r = .ok (0, s) ∧ ∀ x < f.width, ∀ y < f.height,
    (s.buf.drop ((y * f.width + x) * f.depth.bytes)).take f.depth.bytes =
      ((img.line y).drop (x * f.depth.bytes)).take f.depth.bytes

end Image

namespace BmpFile

variable {f : BmpFile}

/-- The name, the place of the pixels and the pixels fit, and a file of several rows has no padding
and gets memory for a row. -/
structure Loadable (malloc : Int → Bool) (f : BmpFile) : Prop where
  name : f.name.length < 128
  offset : f.head.length < 2 ^ 31
  fits : f.stride * f.height + f.tail.length ≤ fbLen
  lines : f.height = 1 ∨ malloc (f.lineBytes + 64) = true ∧ f.lineBytes % 4 = 0

theorem name_type (f : BmpFile) : fileType f.name = some (text ".bmp") := by
  have hdot : '.'.toUInt8 ∈ f.name := List.mem_append_right _ (by decide)
  rw [fileType, if_pos hdot]
  simp only [name, List.rtakeWhile, List.reverse_append]
  rfl

theorem stored_length (img : Image f) (k : Nat) : (img.stored k).length = f.stride := by
  rw [Image.stored, List.length_append, img.line_length, img.pad_length, stride]

theorem rows_length (img : Image f) :
    ((List.range f.height).flatMap img.stored).length = f.stride * f.height :=
  Dump.rows_length fun k _ => stored_length img k

theorem field_read (img : Image f) (junk : List UInt8) {off size : Nat} (h : off + size ≤ 54) :
    littleEndian (((img.content.take 128 ++ junk).drop off).take size) = field f.head off size := by
  have hhead := f.head_length
  have hlen : (img.content.take 128).length ≥ off + size := by
    rw [Image.content, List.length_take, List.length_append]
    omega
  rw [List.drop_append_of_le_length (by omega),
    List.take_append_of_le_length (by rw [List.length_drop]; omega), List.drop_take,
    List.take_take, Nat.min_eq_left (by omega), Image.content,
    List.drop_append_of_le_length (by omega),
    List.take_append_of_le_length (by rw [List.length_drop]; omega), field]

section Load

variable {malloc : Int → Bool} {stack : CameraStack} {s : CameraFb} {img : Image f}

theorem bmpInfo_read (junk : List UInt8) (b : Int) :
    bmpInfo (img.content.take 128 ++ junk) b s =
      ({ s with width := f.width, height := f.height, format := f.depth.format },
        (f.depth.bytes : Int)) := by
  have hbits := f.biBitCount
  simp only [bmpInfo]
  rw [field_read img junk (by decide), field_read img junk (by decide),
    field_read img junk (by decide), f.biWidth, f.biHeight, hbits]
  cases f.depth <;> rfl

theorem openImage_read (stack : CameraStack) (s : CameraFb) (img : Image f)
    (hoff : f.head.length < 2 ^ 31) :
    openImage stack (text ".bmp") img.content s =
      ⟨{ s with width := f.width, height := f.height, format := f.depth.format }, f.depth.bytes,
        (List.range f.height).flatMap img.stored ++ f.tail⟩ := by
  have hseek : int32 f.head.length = f.head.length := int32_eq ⟨by omega, by omega⟩
  simp only [openImage, if_true]
  rw [field_read img _ (by decide), f.bfOffBits, hseek, seekSet, if_pos (Int.natCast_nonneg _),
    Int.toNat_natCast, bmpInfo_read, Image.content, List.drop_left]

theorem openImage_far (stack : CameraStack) (s : CameraFb) (img : Image f)
    (hoff : 2 ^ 31 ≤ f.head.length) :
    fbLen < (openImage stack (text ".bmp") img.content s).rest.length := by
  have hlt : f.head.length < 2 ^ 32 := by
    have hbound : field f.head 10 4 < 256 ^ ((f.head.drop 10).take 4).length := littleEndian_lt _
    rw [f.bfOffBits] at hbound
    exact hbound.trans_le (Nat.pow_le_pow_right (by decide) (List.length_take_le _ _))
  have hseek : ¬ 0 ≤ int32 f.head.length := by
    rw [int32]
    omega
  simp only [openImage, if_true]
  rw [field_read img _ (by decide), f.bfOffBits, seekSet, if_neg hseek]
  simp only [List.length_drop, List.length_take, Image.content, List.length_append, fbLen]
  omega

theorem pixel_of_row {buf : List UInt8} (hrow : row buf f.lineBytes y = img.line y)
    (hx : x < f.width) : (buf.drop ((y * f.width + x) * f.depth.bytes)).take f.depth.bytes =
      ((img.line y).drop (x * f.depth.bytes)).take f.depth.bytes := by
  have hplace : (y * f.width + x) * f.depth.bytes = f.lineBytes * y + x * f.depth.bytes := by
    rw [lineBytes, Nat.add_mul, Nat.mul_assoc, Nat.mul_comm y]
  have hin : x * f.depth.bytes + f.depth.bytes ≤ f.lineBytes := by
    rw [← Nat.succ_mul]
    exact Nat.mul_le_mul_right _ hx
  rw [← hrow, row, List.drop_take, List.take_take, List.drop_drop, hplace,
    Nat.min_eq_left (by omega)]

def frame (img : Image f) (buf : List UInt8) : List UInt8 :=
  patch buf 0 ((List.range f.height).flatMap img.stored ++ f.tail)

theorem frame_eq (img : Image f) (buf : List UInt8) : ∃ rest,
    frame img buf = (List.range f.height).flatMap img.stored ++ rest :=
  ⟨_, by rw [frame, patch, List.take_zero, List.nil_append, List.append_assoc]⟩

theorem frame_length (hfit : f.stride * f.height + f.tail.length ≤ fbLen)
    (hbuf : buf.length = fbLen) : (frame img buf).length = fbLen := by
  rw [frame, patch_length, hbuf]
  rw [List.length_append, rows_length, hbuf]
  omega

theorem lineBytes_mul : (f.width : Int) * f.depth.bytes = f.lineBytes := (Int.natCast_mul _ _).symm

theorem lines_fit (img : Image f) (hfit : f.stride * f.height + f.tail.length ≤ fbLen)
    (hbuf : buf.length = fbLen) : f.lineBytes * f.height ≤ (frame img buf).length := by
  have hle : f.lineBytes * f.height ≤ f.stride * f.height :=
    Nat.mul_le_mul_right _ (Nat.le_add_right _ _)
  rw [frame_length hfit hbuf]
  omega

theorem frame_first (img : Image f) (buf : List UInt8) :
    row (frame img buf) f.lineBytes 0 = img.line (f.height - 1) := by
  obtain ⟨rest, hframe⟩ := frame_eq img buf
  have hrow : row (frame img buf) f.stride 0 = img.stored 0 := by
    rw [hframe]
    exact row_flatMap (fun k _ => stored_length img k) f.height_range.1
  have htake : row (frame img buf) f.lineBytes 0 =
      (row (frame img buf) f.stride 0).take f.lineBytes := by
    rw [row, row, Nat.mul_zero, Nat.mul_zero, List.take_take, stride,
      Nat.min_eq_left (Nat.le_add_right _ _)]
  rw [htake, hrow, Image.stored, Nat.sub_zero, List.take_left' (img.line_length _)]

theorem frame_line (hpad : f.lineBytes % 4 = 0) (hk : k < f.height) :
    row (frame img buf) f.lineBytes k = img.line (f.height - 1 - k) := by
  obtain ⟨rest, hframe⟩ := frame_eq img buf
  have hnone : f.padding = 0 := by
    rw [padding, hpad]
  have hstored : img.stored k = img.line (f.height - 1 - k) := by
    rw [Image.stored, List.eq_nil_of_length_eq_zero ((img.pad_length _).trans hnone),
      List.append_nil]
  have hlen : ∀ r < f.height, (img.stored r).length = f.lineBytes := by
    intro r _
    rw [stored_length, stride, hnone, Nat.add_zero]
  rw [hframe, row_flatMap hlen hk, hstored]

theorem loadFrame_read (hoff : f.head.length < 2 ^ 31)
    (hfit : f.stride * f.height + f.tail.length ≤ fbLen) (hbuf : s.buf.length = fbLen) :
    loadFrame malloc stack (text ".bmp") img.content s =
      (xchgLine malloc (frame img s.buf) f.width f.height f.depth.bytes).map fun r =>
        (0, { s with
          width := f.width, height := f.height, format := f.depth.format, buf := r.2 }) := by
  have hw := f.width_range
  have hh := f.height_range
  rw [loadFrame_bmp (openImage_read stack s img hoff)]
  · simp only [int32_eq (x := (f.width : Int)) ⟨by omega, by omega⟩,
      int32_eq (x := (f.height : Int)) ⟨by omega, by omega⟩]
    rfl
  · rw [List.length_append, rows_length, hbuf]
    exact hfit

theorem xchgLine_lines (img : Image f) (hfit : f.stride * f.height + f.tail.length ≤ fbLen)
    (hlines : f.height = 1 ∨ malloc (f.lineBytes + 64) = true ∧ f.lineBytes % 4 = 0)
    (hbuf : buf.length = fbLen) :
    ∃ r, xchgLine malloc (frame img buf) f.width f.height f.depth.bytes = .ok r ∧
      ∀ y < f.height, row r.2 f.lineBytes y = img.line y := by
  have hrows := lines_fit img hfit hbuf
  rcases hlines with hone | ⟨hmalloc, hpad⟩
  · have hfirst : ∀ y < f.height, row (frame img buf) f.lineBytes y = img.line y := by
      intro y hy
      obtain rfl : y = 0 := by omega
      rw [frame_first, hone]
    cases hmalloc : malloc (f.lineBytes + 64) with
    | true =>
      refine ⟨_, xchgLine_eq lineBytes_mul hrows hmalloc, ?_⟩
      simpa [hone, turned] using hfirst
    | false =>
      rw [← lineBytes_mul] at hmalloc
      exact ⟨_, xchgLine_refused hmalloc, hfirst⟩
  · refine ⟨_, xchgLine_eq lineBytes_mul hrows hmalloc, fun y hy => ?_⟩
    rw [row_turned_half hrows hy, frame_line hpad (by omega)]
    congr 1
    omega

theorem loaded_of_loadable (h : Loadable malloc f) (hbuf : s.buf.length = fbLen) :
    img.Loaded (cameraRun malloc stack f.name (some img.content) s) := by
  obtain ⟨r, hr, hrows⟩ := xchgLine_lines img h.fits h.lines hbuf
  rw [cameraRun_opened h.name f.name_type, loadFrame_read h.offset h.fits hbuf, hr]
  exact ⟨_, rfl, fun x hx y hy => pixel_of_row (hrows y hy) hx⟩

end Load

section Dot

variable {malloc : Int → Bool} {stack : CameraStack} {s : CameraFb} {buf : List UInt8}

theorem lineBytes_pos (f : BmpFile) : 0 < f.lineBytes := by
  have hbytes : 0 < f.depth.bytes := by
    cases f.depth <;> decide
  exact Nat.mul_pos f.width_range.1 hbytes

def dot (f : BmpFile) : Image f where
  line y := (if y = 0 then 1 else 0) :: .replicate (f.lineBytes - 1) 0
  pad _ := .replicate f.padding 0
  line_length y := by
    rw [List.length_cons, List.length_replicate]
    exact Nat.sub_add_cancel f.lineBytes_pos
  pad_length _ := List.length_replicate

theorem dot_stored (hk : k < f.height - 1) : (dot f).stored k = .replicate f.stride 0 := by
  have hline : (dot f).line (f.height - 1 - k) = .replicate f.lineBytes 0 := by
    have hlow : f.height - 1 - k ≠ 0 := by omega
    simp only [dot, if_neg hlow]
    rw [← List.replicate_succ, Nat.sub_add_cancel f.lineBytes_pos]
  rw [Image.stored, hline, dot, List.replicate_append_replicate, stride]

theorem dot_zero (hp : p < f.stride * (f.height - 1)) : (frame (dot f) buf)[p]? = some 0 := by
  obtain ⟨rest, hframe⟩ := frame_eq (dot f) buf
  have hrow : p / f.stride < f.height - 1 := Nat.div_lt_of_lt_mul hp
  have hpos : 0 < f.stride := Nat.add_pos_left f.lineBytes_pos _
  have hcol := Nat.mod_lt p hpos
  have hin : p < ((List.range f.height).flatMap (dot f).stored).length := by
    rw [rows_length]
    exact hp.trans_le (Nat.mul_le_mul_left _ (Nat.sub_le _ _))
  have hget := rows_getElem? (f := (dot f).stored) (fun k _ => stored_length (dot f) k)
    (by omega : p / f.stride < f.height) hcol
  rw [Nat.div_add_mod] at hget
  rw [hframe, List.getElem?_append_left hin, hget, dot_stored hrow,
    List.getElem?_replicate, if_pos hcol]

theorem dot_first {r : Except CameraFault (Int × CameraFb)} (h : (dot f).Loaded r) :
    ∃ s, r = .ok (0, s) ∧ s.buf[0]? = some 1 := by
  obtain ⟨s, hr, hpixels⟩ := h
  have hfirst := congrArg (·[0]?) (hpixels 0 f.width_range.1 0 f.height_range.1)
  have hbytes : 0 < f.depth.bytes := by
    cases f.depth <;> decide
  refine ⟨s, hr, ?_⟩
  simpa [dot, List.getElem?_take, hbytes] using hfirst

theorem fits_of_dot (hbuf : s.buf.length = fbLen)
    (h : (dot f).Loaded (cameraRun malloc stack f.name (some (dot f).content) s)) :
    f.name.length < 128 ∧ f.head.length < 2 ^ 31 ∧
      f.stride * f.height + f.tail.length ≤ fbLen := by
  obtain ⟨s', hr, -⟩ := dot_first h
  have hname : f.name.length < 128 := by
    by_contra hlong
    rw [cameraRun, if_pos (Nat.le_of_not_lt hlong)] at hr
    cases hr
  rw [cameraRun_opened hname f.name_type] at hr
  have hrest : (openImage stack (text ".bmp") (dot f).content s).rest.length ≤ fbLen := by
    by_contra hlong
    rw [loadFrame_long (by omega)] at hr
    cases hr
  have hoff : f.head.length < 2 ^ 31 := by
    by_contra hfar
    have hmore := openImage_far stack s (dot f) (Nat.le_of_not_lt hfar)
    omega
  refine ⟨hname, hoff, ?_⟩
  rwa [openImage_read stack s (dot f) hoff, List.length_append, rows_length] at hrest

theorem lines_of_dot {r : Int × List UInt8} (hbuf : buf.length = fbLen)
    (hfit : f.stride * f.height + f.tail.length ≤ fbLen)
    (hr : xchgLine malloc (frame (dot f) buf) f.width f.height f.depth.bytes = .ok r)
    (hone : r.2[0]? = some 1) (hmany : f.height ≠ 1) :
    malloc (f.lineBytes + 64) = true ∧ f.lineBytes % 4 = 0 := by
  have hheight := f.height_range.1
  have hline := f.lineBytes_pos
  cases hmalloc : malloc (f.lineBytes + 64) with
  | false =>
    rw [← lineBytes_mul] at hmalloc
    rw [xchgLine_refused hmalloc] at hr
    cases hr
    have hzero : (frame (dot f) buf)[0]? = some 0 :=
      dot_zero (Nat.mul_pos (Nat.add_pos_left hline _) (by omega))
    cases hzero.symm.trans hone
  | true =>
    refine ⟨rfl, ?_⟩
    have hrows := lines_fit (dot f) hfit hbuf
    rw [xchgLine_eq lineBytes_mul hrows hmalloc] at hr
    cases hr
    -- the line that is now the first one is taken from in front of the top row
    have hfirst := congrArg (·[0]?) (row_turned_half hrows hheight)
    simp only [row_getElem?, if_pos hline, Nat.mul_zero, Nat.add_zero] at hfirst
    by_contra hpad
    have hpadding : 0 < f.padding := by
      rw [padding]
      omega
    have hbefore : f.lineBytes * (f.height - 1 - 0) < f.stride * (f.height - 1) :=
      Nat.mul_lt_mul_of_pos_right (by rw [stride]; omega) (by omega)
    rw [dot_zero hbefore] at hfirst
    cases hfirst.symm.trans hone

theorem loadable_of_dot (hbuf : s.buf.length = fbLen)
    (h : (dot f).Loaded (cameraRun malloc stack f.name (some (dot f).content) s)) :
    Loadable malloc f := by
  obtain ⟨hname, hoff, hfit⟩ := fits_of_dot hbuf h
  obtain ⟨s', hr, hone⟩ := dot_first h
  rw [cameraRun_opened hname f.name_type, loadFrame_read hoff hfit hbuf] at hr
  refine ⟨hname, hoff, hfit, or_iff_not_imp_left.mpr ?_⟩
  cases hlines : xchgLine malloc (frame (dot f) s.buf) f.width f.height f.depth.bytes with
  | error =>
    rw [hlines] at hr
    cases hr
  | ok r =>
    rw [hlines] at hr
    cases hr
    exact lines_of_dot hbuf hfit hlines hone

end Dot

end BmpFile

/-- The BMP files whose pixels all get into their places, and the files that store nothing behind
the buffer. -/
theorem camera_run_iff (malloc : Int → Bool) (stack : CameraStack) (s : Ready) :
    (∀ f : BmpFile,
      (∀ img : Image f, img.Loaded
        (cameraRun malloc stack f.name (some img.content) s.toCameraFb)) ↔ f.Loadable malloc) ∧
    ∀ file content, cameraRun malloc stack file content s.toCameraFb ≠ .error .buf ↔
      ∀ c ∈ content, ∀ type ∈ fileType file, file.length < 128 →
        FrameFits malloc type (openImage stack type c s.toCameraFb) s.len := by
  have hbuf : s.buf.length = fbLen := s.buf_length.trans s.len_eq
  constructor
  · intro f
    exact ⟨fun h => f.loadable_of_dot hbuf (h f.dot), fun h img => f.loaded_of_loadable h hbuf⟩
  · intro file content
    rw [← s.buf_length]
    exact cameraRun_stores_iff

def head24 (size width height : List UInt8) : List UInt8 :=
  text "BM" ++ size ++ [0, 0, 0, 0, 54, 0, 0, 0, 40, 0, 0, 0] ++ width ++ height ++
    [1, 0, 24, 0] ++ .replicate 24 0

def narrowBmp : BmpFile where
  stem := text "a"
  head := head24 [62, 0, 0, 0] [1, 0, 0, 0] [2, 0, 0, 0]
  width := 1
  height := 2
  depth := .rgb888
  tail := []
  width_range := by decide
  height_range := by decide
  head_length := by decide
  bfType := by decide
  bfOffBits := by decide
  biSize := by decide
  biWidth := by decide
  biHeight := by decide
  biPlanes := by decide
  biBitCount := by decide
  biCompression := by decide

def hdBmp : BmpFile where
  stem := text "a"
  head := head24 [54, 236, 94, 0] [128, 7, 0, 0] [56, 4, 0, 0]
  width := 1920
  height := 1080
  depth := .rgb888
  tail := []
  width_range := by decide
  height_range := by decide
  head_length := by decide
  bfType := by decide
  bfOffBits := by decide
  biSize := by decide
  biWidth := by decide
  biHeight := by decide
  biPlanes := by decide
  biBitCount := by decide
  biCompression := by decide

def zeroCamera : Ready where
  buf := .replicate fbLen 0
  len := fbLen
  width := 0
  height := 0
  format := .rgb565
  out := 0
  outLen := 0
  len_eq := rfl
  buf_length := List.length_replicate

def zeroStack : CameraStack where
  tmp := .replicate 128 0
  bytesPerPix := 0
  tmp_length := List.length_replicate

/-- The padding is taken for pixels, and a large frame is read past the end of the buffer. -/
theorem narrow_bmp_scrambled :
    ¬ narrowBmp.dot.Loaded (cameraRun (fun _ => true) zeroStack narrowBmp.name
      (some narrowBmp.dot.content) zeroCamera.toCameraFb) ∧
    cameraRun (fun _ => true) zeroStack hdBmp.name (some hdBmp.dot.content)
      zeroCamera.toCameraFb = .error .buf := by
  have hbuf : zeroCamera.buf.length = fbLen := zeroCamera.buf_length
  constructor
  · intro h
    have hlines := (BmpFile.loadable_of_dot hbuf h).lines
    revert hlines
    decide
  · rw [cameraRun_opened (by decide) hdBmp.name_type, loadFrame_long]
    rw [BmpFile.openImage_read _ _ _ (by decide), List.length_append, BmpFile.rows_length, hbuf]
    decide

end Mangoxx.CmdJpge
