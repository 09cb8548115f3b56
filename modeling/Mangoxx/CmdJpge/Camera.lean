import Mangoxx.Fcmd.CStr
import Mangoxx.Jpge.LineFormat
import Mangoxx.Lib.CInt
import Mangoxx.Lib.Rows
import Mathlib.Data.List.DropRight

namespace Mangoxx.CmdJpge

open Mangoxx.Lib Mangoxx.Lib.CInt Mangoxx.Lib.Dump Mangoxx.Lib.Rows Mangoxx.Fcmd Mangoxx.Jpge

/-- An access outside of `file_name` or of the frame buffer, or through NULL. -/
inductive CameraFault
  | fileName
  | buf
  | null
  deriving DecidableEq

/-- `camera_fb_t`; `buf` has the bytes that the pointer gives access to, none if it is NULL. -/
structure CameraFb where
  buf : List UInt8
  len : Nat
  width : Nat
  height : Nat
  format : PixFormat
  out : Nat
  outLen : Nat

def fbLen : Nat := 4 * 1024 * 1024

def cameraInit (block : Option { bytes : List UInt8 // bytes.length = fbLen }) (s : CameraFb) :
    Int × CameraFb :=
  let s := { s with out := 0, outLen := 0, len := fbLen }
  match block with
  | none => (-1, { s with buf := [] })
  | some bytes => (0, { s with buf := bytes })

/-- Reading `size` bytes from place `off` of the frame buffer; none are read anywhere. -/
def fetch (buf : List UInt8) (off size : Int) : Except CameraFault (List UInt8) :=
  if size = 0 then .ok []
  else if 0 ≤ off ∧ 0 ≤ size ∧ off + size ≤ buf.length then
    .ok ((buf.drop off.toNat).take size.toNat)
  else .error .buf

def put (buf : List UInt8) (off : Int) (bytes : List UInt8) : Except CameraFault (List UInt8) :=
  if bytes = [] then .ok buf
  else if 0 ≤ off ∧ off + bytes.length ≤ buf.length then .ok (patch buf off.toNat bytes)
  else .error .buf

/-- One turn of the loop in `xchg_line`.  The products are those of the integers: an `int` that
overflows, as `w * b` does at `w = 1431655766` and three bytes to a pixel, is undefined in C, and a
place or a length beyond the buffer here, which counts as a fault. -/
def swapLines (w h b : Int) (data : List UInt8) (i : Nat) : Except CameraFault (List UInt8) := do
  let buf ← fetch data (i * w * b) (w * b)
  let line ← fetch data ((h - i - 1) * w * b) (w * b)
  let data ← put data (i * w * b) line
  put data ((h - i - 1) * w * b) buf

/-- `malloc` says for which sizes there is memory. -/
def xchgLine (malloc : Int → Bool) (data : List UInt8) (w h b : Int) :
    Except CameraFault (Int × List UInt8) := do
  if malloc (w * b + 64) then
    let data ← (List.range (h.tdiv 2).toNat).foldlM (swapLines w h b) data
    return (0, data)
  else return (-1, data)

def fileType (file : List UInt8) : Option (List UInt8) :=
  if '.'.toUInt8 ∈ file then some ('.'.toUInt8 :: file.rtakeWhile (· ≠ '.'.toUInt8)) else none

structure CameraStack where
  tmp : List UInt8
  bytesPerPix : Int
  tmp_length : tmp.length = 128

/-- The branches on `biBitCount`; other values leave everything as it is. -/
def bmpInfo (tmp : List UInt8) (bytesPerPix : Int) (s : CameraFb) : CameraFb × Int :=
  let bitCount := littleEndian ((tmp.drop 28).take 2)
  let width := littleEndian ((tmp.drop 18).take 4)
  let height := littleEndian ((tmp.drop 22).take 4)
  if bitCount = 16 then ({ s with width := width, height := height, format := .rgb565 }, 2)
  else if bitCount = 24 then ({ s with width := width, height := height, format := .rgb888 }, 3)
  else (s, bytesPerPix)

def seekSet (dataOff : Int) (pos : Nat) : Nat := if 0 ≤ dataOff then dataOff.toNat else pos

structure Opened where
  fb : CameraFb
  bytesPerPix : Int
  rest : List UInt8

def openImage (stack : CameraStack) (type content : List UInt8) (s : CameraFb) : Opened :=
  if type = text ".bmp" then
    let br := (content.take 128).length
    let tmp := content.take 128 ++ stack.tmp.drop br
    let dataOff := int32 (littleEndian ((tmp.drop 10).take 4))
    let (s, bytesPerPix) := bmpInfo tmp stack.bytesPerPix s
    ⟨s, bytesPerPix, content.drop (seekSet dataOff br)⟩
  else if type = text ".yuv" then
    ⟨{ s with width := 1920, height := 1080, format := .yuv422 }, 2, content⟩
  else ⟨s, stack.bytesPerPix, content⟩

/-- The loop around `fread`, with `rest` still to be read.  The result of `fread` is never negative,
and 0 at the end of the file. -/
def readFb (buf : List UInt8) (n : Nat) : List UInt8 → Except CameraFault (List UInt8)
  | [] => .ok buf
  | c :: cs => do
    let bytes := (c :: cs).take 4096
    let buf ← put buf n bytes
    readFb buf (n + bytes.length) (cs.drop 4095)
  termination_by rest => rest.length
  decreasing_by
    rw [List.length_drop, List.length_cons]
    omega

def loadFrame (malloc : Int → Bool) (stack : CameraStack) (type content : List UInt8)
    (s : CameraFb) : Except CameraFault (Int × CameraFb) := do
  let opened := openImage stack type content s
  let buf ← readFb opened.fb.buf 0 opened.rest
  if type = text ".bmp" then
    let (_, buf) ← xchgLine malloc buf (int32 opened.fb.width) (int32 opened.fb.height)
      opened.bytesPerPix
    return (0, { opened.fb with buf := buf })
  else return (0, { opened.fb with buf := buf })

def cameraRun (malloc : Int → Bool) (stack : CameraStack) (file : List UInt8)
    (content : Option (List UInt8)) (s : CameraFb) : Except CameraFault (Int × CameraFb) :=
  if file.length ≥ 128 then .error .fileName
  else
    match content with
    | none => .ok (-1, s)
    | some content =>
      match fileType file with
      | none => .error .null
      | some type => loadFrame malloc stack type content s

structure Ready extends CameraFb where
  len_eq : len = fbLen
  buf_length : buf.length = len

theorem cameraInit_ready {block : Option { bytes : List UInt8 // bytes.length = fbLen }}
    {s : CameraFb} (h : (cameraInit block s).1 = 0) :
    ∃ r : Ready, r.toCameraFb = (cameraInit block s).2 := by
  cases block with
  | none => cases h
  | some bytes => exact ⟨⟨(cameraInit (some bytes) s).2, rfl, bytes.property⟩, rfl⟩

section Buffer

variable {buf bytes rest data : List UInt8} {off size w h b : Int} {n i j : Nat}

theorem put_eq (hfit : n + bytes.length ≤ buf.length) :
    put buf n bytes = .ok (patch buf n bytes) := by
  rw [put]
  split_ifs with hnil hin
  · rw [hnil, patch_nil]
  · rfl
  · omega

theorem put_error (hne : bytes ≠ []) (hfit : buf.length < n + bytes.length) :
    put buf n bytes = .error .buf := by
  rw [put, if_neg hne, if_neg (by omega)]

theorem fetch_row (hrow : n * j + n ≤ buf.length) :
    fetch buf (n * j : Nat) n = .ok (row buf n j) := by
  rw [fetch]
  split_ifs with hzero hin
  · obtain rfl : n = 0 := Int.ofNat_eq_zero.mp hzero
    simp [row]
  · rfl
  · omega

theorem readFb_eq (hn : n ≤ buf.length) : readFb buf n rest =
    if n + rest.length ≤ buf.length then .ok (patch buf n rest) else .error .buf := by
  fun_induction readFb with
  | case1 buf n => rw [patch_nil, List.length_nil, Nat.add_zero, if_pos hn]
  | case2 buf n c cs bytes ih =>
    have hsplit : c :: cs = bytes ++ cs.drop 4095 := (List.take_append_drop 4096 (c :: cs)).symm
    have hlen : (c :: cs).length = bytes.length + (cs.drop 4095).length := by
      rw [← List.length_append, ← hsplit]
    by_cases hfit : n + bytes.length ≤ buf.length
    · have hpatch : (patch buf n bytes).length = buf.length := patch_length hfit
      rw [put_eq hfit]
      simp only [bind, Except.bind]
      rw [ih _ (by omega), hpatch, Nat.add_assoc, ← hlen]
      split_ifs with hall
      · rw [patch_append (by omega), ← hsplit]
      · rfl
    · rw [put_error (by simp [bytes]) (by omega), if_neg (by omega)]
      rfl

theorem line_off (hn : w * b = n) (i : Nat) : (i : Int) * w * b = (n * i : Nat) := by
  rw [Int.mul_assoc, hn, Int.natCast_mul, Int.mul_comm]

theorem swapLines_eq {h : Nat} (hn : w * b = n) (hi : i < h / 2) (hrows : n * h ≤ data.length) :
    swapLines w h b data i = .ok (swap data n i (h - i - 1)) := by
  have hlow := row_end (n := n) (by omega : i < h)
  have hhigh := row_end (n := n) (by omega : h - i - 1 < h)
  have hcast : (h : Int) - i - 1 = (h - i - 1 : Nat) := by omega
  have hrow : (row data n i).length = n := row_length (by omega)
  have hrow' : (row data n (h - i - 1)).length = n := row_length (by omega)
  have hpatch : (patch data (n * i) (row data n (h - i - 1))).length = data.length :=
    patch_length (by omega)
  simp only [swapLines, hcast, line_off hn, hn, bind, Except.bind]
  rw [fetch_row (by omega)]
  simp only
  rw [fetch_row (by omega)]
  simp only
  rw [put_eq (by omega)]
  simp only
  rw [put_eq (by omega), swap]

theorem swapLines_turned {h : Nat} (hn : w * b = n) (hrows : n * h ≤ data.length)
    (hk : k ≤ h / 2) :
    (List.range k).foldlM (swapLines w h b) data = .ok (turned data n h k) := by
  induction k with
  | zero => rfl
  | succ k ih =>
    have hlen := turned_length hrows (by omega : k ≤ h / 2)
    rw [List.range_succ, List.foldlM_append, ih (by omega)]
    simp only [bind, Except.bind, List.foldlM_cons, List.foldlM_nil]
    rw [swapLines_eq hn (by omega) (by omega)]
    rfl

theorem half_toNat (h : Int) : (h.tdiv 2).toNat = h.toNat / 2 := by
  cases h with
  | ofNat n => rfl
  | negSucc n =>
    have hneg : (Int.negSucc n).tdiv 2 = -((n + 1) / 2 : Nat) := rfl
    rw [hneg, Int.toNat_negSucc, Nat.zero_div]
    omega

theorem xchgLine_eq {h : Nat} (hn : w * b = n) (hrows : n * h ≤ data.length)
    (hmalloc : malloc (n + 64) = true) :
    xchgLine malloc data w h b = .ok (0, turned data n h (h / 2)) := by
  rw [xchgLine, hn, if_pos hmalloc, half_toNat, Int.toNat_natCast,
    swapLines_turned hn hrows (Nat.le_refl _)]
  rfl

theorem xchgLine_refused (hmalloc : malloc (w * b + 64) = false) :
    xchgLine malloc data w h b = .ok (-1, data) := by
  rw [xchgLine, hmalloc]
  rfl

def Swappable (w h b : Int) (len : Nat) : Prop := h < 2 ∨ w * b = 0 ∨ 0 < w * b ∧ w * b * h ≤ len

theorem xchgLine_ok (malloc : Int → Bool) (hfit : Swappable w h b data.length) :
    ∃ r, xchgLine malloc data w h b = .ok r := by
  cases hmalloc : malloc (w * b + 64) with
  | false => exact ⟨_, xchgLine_refused hmalloc⟩
  | true =>
    by_cases hfew : h < 2
    · have hnone : (h.tdiv 2).toNat = 0 := by
        rw [half_toNat]
        omega
      rw [xchgLine, if_pos hmalloc, hnone]
      exact ⟨_, rfl⟩
    · have hrows : 0 ≤ w * b ∧ w * b * h ≤ data.length := by
        rcases hfit with h' | hzero | hfit
        · exact absurd h' hfew
        · rw [hzero]
          omega
        · exact ⟨by omega, hfit.2⟩
      obtain ⟨n, hn⟩ := Int.eq_ofNat_of_zero_le hrows.1
      obtain ⟨m, rfl⟩ := Int.eq_ofNat_of_zero_le (by omega : 0 ≤ h)
      rw [hn] at hmalloc hrows
      exact ⟨_, xchgLine_eq hn (by exact_mod_cast hrows.2) hmalloc⟩

theorem xchgLine_error (hmalloc : malloc (w * b + 64) = true)
    (hfit : ¬ Swappable w h b data.length) : xchgLine malloc data w h b = .error .buf := by
  simp only [Swappable, not_or, not_and, Int.not_lt, Int.not_le] at hfit
  obtain ⟨hmany, hne, hlong⟩ := hfit
  have hturns : (List.range (h.tdiv 2).toNat) =
      0 :: (List.range (h.toNat / 2 - 1)).map Nat.succ := by
    rw [half_toNat, ← List.range_succ_eq_map]
    congr 1
    omega
  have hlast : (h - (0 : Nat) - 1) * w * b = w * b * h - w * b := by
    rw [Int.mul_assoc, Int.sub_mul, Int.sub_mul, Int.one_mul, Int.natCast_zero, Int.zero_mul,
      Int.sub_zero, Int.mul_comm]
  -- the first turn reads the last line
  have hfirst : swapLines w h b data 0 = .error .buf := by
    simp only [swapLines, hlast, bind, Except.bind]
    rw [fetch, if_neg hne, fetch, if_neg hne]
    split_ifs
    · omega
    · rfl
    · rfl
    · rfl
  rw [xchgLine, if_pos hmalloc, hturns, List.foldlM_cons, hfirst]
  rfl

end Buffer

section Run

variable {malloc : Int → Bool} {stack : CameraStack} {file type content : List UInt8} {s : CameraFb}

@[simp] theorem bmpInfo_buf : (bmpInfo tmp b s).1.buf = s.buf := by
  simp only [bmpInfo]
  split_ifs <;> rfl

@[simp] theorem openImage_buf : (openImage stack type content s).fb.buf = s.buf := by
  simp only [openImage]
  split_ifs
  · exact bmpInfo_buf
  · rfl
  · rfl

theorem cameraRun_opened (hshort : file.length < 128) (htype : fileType file = some type) :
    cameraRun malloc stack file (some content) s = loadFrame malloc stack type content s := by
  simp only [cameraRun, htype, if_neg (Nat.not_le.mpr hshort)]

structure FrameFits (malloc : Int → Bool) (type : List UInt8) (opened : Opened) (len : Nat) :
    Prop where
  rest : opened.rest.length ≤ len
  lines : type = text ".bmp" →
    malloc (int32 opened.fb.width * opened.bytesPerPix + 64) = true →
    Swappable (int32 opened.fb.width) (int32 opened.fb.height) opened.bytesPerPix len

theorem loadFrame_long (hlong : s.buf.length < (openImage stack type content s).rest.length) :
    loadFrame malloc stack type content s = .error .buf := by
  simp only [loadFrame, openImage_buf]
  rw [readFb_eq (Nat.zero_le _), if_neg (by omega)]
  rfl

theorem loadFrame_bmp {opened : Opened} (hopen : openImage stack (text ".bmp") content s = opened)
    (hfit : opened.rest.length ≤ s.buf.length) :
    loadFrame malloc stack (text ".bmp") content s =
      (xchgLine malloc (patch s.buf 0 opened.rest) (int32 opened.fb.width) (int32 opened.fb.height)
        opened.bytesPerPix).map fun r => (0, { opened.fb with buf := r.2 }) := by
  subst hopen
  simp only [loadFrame, openImage_buf]
  rw [readFb_eq (Nat.zero_le _), if_pos (by omega)]
  simp only [bind, Except.bind, if_true]
  cases xchgLine malloc _ _ _ _ <;> rfl

theorem loadFrame_other (malloc : Int → Bool) (hother : type ≠ text ".bmp")
    (hfit : (openImage stack type content s).rest.length ≤ s.buf.length) :
    ∃ r, loadFrame malloc stack type content s = .ok r := by
  simp only [loadFrame, openImage_buf]
  rw [readFb_eq (Nat.zero_le _), if_pos (by omega)]
  simp only [bind, Except.bind, if_neg hother]
  exact ⟨_, rfl⟩

theorem loadFrame_stores_iff : loadFrame malloc stack type content s ≠ .error .buf ↔
    FrameFits malloc type (openImage stack type content s) s.buf.length := by
  constructor
  · intro hstores
    have hrest : (openImage stack type content s).rest.length ≤ s.buf.length :=
      Nat.le_of_not_lt fun hlong => hstores (loadFrame_long hlong)
    refine ⟨hrest, ?_⟩
    rintro rfl hmalloc
    by_contra hlines
    rw [loadFrame_bmp rfl hrest, xchgLine_error hmalloc] at hstores
    · exact hstores rfl
    · rwa [patch_length (by omega)]
  · rintro ⟨hrest, hlines⟩
    by_cases htype : type = text ".bmp"
    · subst htype
      obtain ⟨opened, hopen⟩ : ∃ opened, openImage stack (text ".bmp") content s =
          opened := ⟨_, rfl⟩
      rw [hopen] at hrest hlines
      rw [loadFrame_bmp hopen hrest]
      cases hmalloc : malloc (int32 opened.fb.width * opened.bytesPerPix + 64) with
      | false =>
        rw [xchgLine_refused hmalloc]
        nofun
      | true =>
        have hlen : (patch s.buf 0 opened.rest).length = s.buf.length := patch_length (by omega)
        obtain ⟨r, hr⟩ := xchgLine_ok malloc (by rw [hlen]; exact hlines rfl hmalloc)
        rw [hr]
        nofun
    · obtain ⟨r, hr⟩ := loadFrame_other malloc htype hrest
      rw [hr]
      nofun

/-- The files that are loaded without storing outside of the buffer. -/
theorem cameraRun_stores_iff {content : Option (List UInt8)} :
    cameraRun malloc stack file content s ≠ .error .buf ↔
      ∀ c ∈ content, ∀ type ∈ fileType file, file.length < 128 →
        FrameFits malloc type (openImage stack type c s) s.buf.length := by
  by_cases hlong : 128 ≤ file.length
  · simp [cameraRun, hlong, Nat.not_lt.mpr hlong]
  · have hshort : file.length < 128 := Nat.lt_of_not_le hlong
    cases content with
    | none => simp [cameraRun, hlong]
    | some c =>
      cases htype : fileType file with
      | none => simp [cameraRun, hlong, htype]
      | some type =>
        rw [cameraRun_opened hshort htype, loadFrame_stores_iff]
        simp [hshort]

end Run

end Mangoxx.CmdJpge
