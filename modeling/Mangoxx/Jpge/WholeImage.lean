import Mangoxx.Jpge.Headers
import Mangoxx.Jpge.LineBuffer

namespace Mangoxx.Jpge

open Mangoxx.Lib

variable {img : Image} {s : Subsampling}

section Counting

variable {n m : Nat}

theorem next_of_full (h : n % m + 1 = m) : (n + 1) / m = n / m + 1 ∧ (n + 1) % m = 0 := by
  have hn : n + 1 = m * (n / m + 1) := by
    rw [Nat.mul_succ]
    have hdiv := Nat.div_add_mod n m
    omega
  have hpos : 0 < m := by omega
  rw [hn]
  exact ⟨Nat.mul_div_cancel_left _ hpos, Nat.mul_mod_right _ _⟩

theorem next_of_more (h : n % m + 1 < m) : (n + 1) / m = n / m ∧ (n + 1) % m = n % m + 1 := by
  have hdiv := Nat.div_add_mod n m
  rw [Nat.div_mod_unique (by omega)]
  exact ⟨by omega, h⟩

theorem ceil_eq (hpos : 0 < m) :
    (n + m - 1) / m = if n % m = 0 then n / m else n / m + 1 := by
  have hdiv := Nat.div_add_mod n m
  have hless := Nat.mod_lt n hpos
  split
  · have hn : n + m - 1 = m * (n / m) + (m - 1) := by omega
    have hrest : (m - 1) / m = 0 := Nat.div_eq_of_lt (by omega)
    rw [hn, Nat.mul_add_div hpos, hrest, Nat.add_zero]
  · have hn : n + m - 1 = m * (n / m) + (m + (n % m - 1)) := by omega
    have hrest : (n % m - 1) / m = 0 := Nat.div_eq_of_lt (by omega)
    rw [hn, Nat.mul_add_div hpos, Nat.add_div_left _ hpos, hrest]

end Counting

namespace JpegEncoder

theorem codeAll_emits (t : Statics) (blocks : List (Nat × List Int)) (jpge : JpegEncoder) :
    jpge.enc.Emits (jpge.codeAll t blocks).enc := by
  induction blocks generalizing jpge with
  | nil => exact .refl _
  | cons b blocks ih =>
    exact (Encoder.codeCoefficientsPassTwo_emits _ _ _ _).trans (ih (jpge.codeBlock t b.1 b.2))

def codedRows (img : Image) (s : Subsampling) (n : Nat) : List (Nat × List Int) :=
  (List.range n).flatMap (mcuRow s (img.plane s) (img.cols s))

theorem codedRows_succ (img : Image) (s : Subsampling) (n : Nat) :
    codedRows img s (n + 1) = codedRows img s n ++ mcuRow s (img.plane s) (img.cols s) n := by
  rw [codedRows, List.range_succ, List.flatMap_append, List.flatMap_singleton, ← codedRows]

def Stored (img : Image) (s : Subsampling) (n count : Nat) (jpge : JpegEncoder) : Prop :=
  ∀ i < count, ∀ x < 8 * (s.h * img.cols s), ∀ c < s.components,
    jpge.line i (s.components * x + c) = img.plane s c (8 * (s.v * (n / (8 * s.v))) + i) x

structure Scanned (img : Image) (s : Subsampling) (opened : JpegEncoder) (n : Nat)
    (jpge : JpegEncoder) : Prop where
  layout : jpge.layout.Fits img s
  lines : Stored img s n (n % (8 * s.v)) jpge
  mMcuYOfs : jpge.enc.mMcuYOfs = n % (8 * s.v)
  mPassNum : jpge.enc.mPassNum = 2
  coded : jpge.coded = opened.coded ++ codedRows img s (n / (8 * s.v))
  out : ∃ raw, jpge.enc.out = opened.enc.out.emitBytes (stuff raw)

section Scan

variable {opened jpge : JpegEncoder} {n : Nat} {t : Statics}

theorem Stored.congr {n n' count : Nat} (h : Stored img s n count jpge)
    (hrow : n' / (8 * s.v) = n / (8 * s.v)) : Stored img s n' count jpge := by
  rw [Stored, hrow]
  exact h

theorem Scanned.ready (h : Scanned img s opened n jpge) (hready : opened.enc.out.Ready) :
    jpge.enc.out.Ready := by
  obtain ⟨raw, hout⟩ := h.out
  exact hout ▸ (hready.emitBytes _).1

theorem processMcuRow_stored (hlayout : jpge.layout.Fits img s)
    (hlines : Stored img s n (8 * s.v) jpge) :
    jpge.processMcuRow t =
      jpge.codeAll t (mcuRow s (img.plane s) (img.cols s) (n / (8 * s.v))) :=
  processMcuRow_eq ⟨hlayout.mNumComponents, hlayout.mCompHSamp, hlayout.mCompVSamp, hlines⟩ t
    hlayout.mMcusPerRow

theorem pixel_lt_line (hlayout : jpge.layout.Fits img s) {x c : Nat}
    (hx : x < 8 * (s.h * img.cols s)) (hc : c < s.components) :
    s.components * x + c < jpge.layout.mImageBplMcu := by
  have hbound := Nat.mul_le_mul_left s.components (show x + 1 ≤ 8 * (s.h * img.cols s) from hx)
  rw [Nat.mul_succ] at hbound
  rw [hlayout.mImageBplMcu]
  omega

theorem Scanned.storeLine (h : Scanned img s opened n jpge) (hwidth : 1 ≤ img.width)
    (hn : n < img.height) :
    Stored img s n (n % (8 * s.v) + 1) (jpge.storeLine (img.lines n)) := by
  intro i hi x hx c hc
  by_cases hlast : i = n % (8 * s.v)
  · have hline : 8 * (s.v * (n / (8 * s.v))) + n % (8 * s.v) = n := by
      rw [← Nat.mul_assoc, Nat.div_add_mod]
    have hinside : min n (img.height - 1) = n := Nat.min_eq_left (by omega)
    rw [hlast, ← h.mMcuYOfs, storeLine_stored h.layout hwidth hx hc, h.mMcuYOfs, hline, Image.plane,
      hinside]
  · rw [storeLine_other h.layout (by rw [h.mMcuYOfs]; exact hlast) (pixel_lt_line h.layout hx hc)]
    exact h.lines i (by omega) x hx c hc

theorem Scanned.loadMcu (h : Scanned img s opened n jpge) (hwidth : 1 ≤ img.width)
    (hn : n < img.height) : Scanned img s opened (n + 1) (jpge.loadMcu t (img.lines n)) := by
  have hstored := h.storeLine hwidth hn
  have hpos : 0 < 8 * s.v := by cases s <;> decide
  have hsmall : 8 * s.v ≤ 16 := by cases s <;> decide
  have hless := Nat.mod_lt n hpos
  have hofs : (jpge.enc.mMcuYOfs + 1) % 256 = n % (8 * s.v) + 1 := by
    rw [h.mMcuYOfs]
    omega
  rw [loadMcu_eq _ _ _ hofs, h.layout.mMcuY]
  by_cases hfull : n % (8 * s.v) + 1 = 8 * s.v
  · obtain ⟨hdiv, hmod⟩ := next_of_full hfull
    rw [hfull] at hstored
    rw [if_pos hfull, hfull,
      processMcuRow_stored (by simpa using h.layout) (by simpa [Stored] using hstored)]
    have hemits := codeAll_emits t (mcuRow s (img.plane s) (img.cols s) (n / (8 * s.v)))
      ((jpge.storeLine (img.lines n)).setMcuYOfs (8 * s.v))
    constructor
    · simpa using h.layout
    · rw [hmod]
      exact fun i hi => absurd hi (Nat.not_lt_zero i)
    · rw [hmod, setMcuYOfs_mMcuYOfs]
    · rw [setMcuYOfs_mPassNum, hemits.mPassNum, setMcuYOfs_mPassNum, storeLine_enc, h.mPassNum]
    · rw [setMcuYOfs_coded, codeAll_coded, setMcuYOfs_coded, storeLine_coded, h.coded, hdiv,
        codedRows_succ, List.append_assoc]
    · obtain ⟨raw, hraw⟩ := h.out
      obtain ⟨raw', hraw'⟩ := hemits.out
      refine ⟨raw ++ raw', ?_⟩
      rw [setMcuYOfs_out, hraw', setMcuYOfs_out, storeLine_enc, hraw, stuff_append,
        Output.emitBytes_append]
  · obtain ⟨hdiv, hmod⟩ := next_of_more (show n % (8 * s.v) + 1 < 8 * s.v by omega)
    rw [if_neg hfull]
    constructor
    · exact h.layout
    · rw [hmod]
      exact hstored.congr hdiv
    · rw [hmod, setMcuYOfs_mMcuYOfs]
    · exact h.mPassNum
    · rw [hdiv]
      exact h.coded
    · exact h.out

/-- The row that is not full is filled up with its last line. -/
theorem Scanned.repeatLine (h : Scanned img s opened img.height jpge) (hheight : 1 ≤ img.height)
    (hmore : img.height % (8 * s.v) ≠ 0) : Stored img s img.height (8 * s.v) jpge.repeatLine := by
  have hsmall : 8 * s.v ≤ 16 := by cases s <;> decide
  have hheight' : 8 * (s.v * (img.height / (8 * s.v))) + img.height % (8 * s.v) = img.height := by
    rw [← Nat.mul_assoc, Nat.div_add_mod]
  intro i hi x hx c hc
  have hline := h.lines (min i (img.height % (8 * s.v) - 1)) (by omega) x hx c hc
  have hclamp : min (8 * (s.v * (img.height / (8 * s.v))) + min i (img.height % (8 * s.v) - 1))
      (img.height - 1) = min (8 * (s.v * (img.height / (8 * s.v))) + i) (img.height - 1) := by
    omega
  rw [repeatLine_line (by rwa [h.layout.mMcuY]) (pixel_lt_line h.layout hx hc), h.mMcuYOfs, hline,
    Image.plane, Image.plane, hclamp]

/-- After the last line all rows get coded. -/
theorem Scanned.lastRow (h : Scanned img s opened img.height jpge) (hheight : 1 ≤ img.height) :
    ∃ last : JpegEncoder, jpge.processEndOfImage t =
        { last with enc := last.enc.processEndOfImage t.mHuff [] } ∧
      last.coded = opened.coded ++ codedRows img s (img.rows s) ∧ jpge.enc.Emits last.enc := by
  have hpos : 0 < 8 * s.v := by cases s <;> decide
  have hsmall : 8 * s.v ≤ 16 := by cases s <;> decide
  have hless := Nat.mod_lt img.height hpos
  have hrows := ceil_eq (n := img.height) hpos
  rw [← Image.rows] at hrows
  by_cases hnone : img.height % (8 * s.v) = 0
  · refine ⟨jpge, ?_, ?_, .refl _⟩
    · simp only [JpegEncoder.processEndOfImage, h.mMcuYOfs, hnone, ne_eq, not_true, if_false]
    · rw [hrows, if_pos hnone, h.coded]
  · have hlayout : jpge.repeatLine.layout.Fits img s := h.layout
    have hrow := processMcuRow_stored (t := t) hlayout (h.repeatLine hheight hnone)
    refine ⟨jpge.repeatLine.processMcuRow t, ?_, ?_, ?_⟩
    · simp only [JpegEncoder.processEndOfImage, h.mMcuYOfs, ne_eq, hnone, not_false_iff, if_true]
      rw [if_pos (by omega)]
    · rw [hrow, codeAll_coded, hrows, if_neg hnone, codedRows_succ, ← List.append_assoc]
      exact congrArg (· ++ _) h.coded
    · have hrest := codeAll_emits t (mcuRow s (img.plane s) (img.cols s) (img.height / (8 * s.v)))
        jpge.repeatLine
      rwa [← hrow, repeatLine_enc] at hrest

theorem Scanned.processEndOfImage (h : Scanned img s opened img.height jpge)
    (hheight : 1 ≤ img.height) (hready : opened.enc.out.Ready) :
    (jpge.processEndOfImage t).coded = opened.coded ++ codedRows img s (img.rows s) ∧
      (∃ raw, (jpge.processEndOfImage t).enc.out.handed =
        opened.enc.out.sent ++ stuff raw ++ [0xFF, 0xD9]) ∧
      (jpge.processEndOfImage t).enc.out.Ready ∧ (jpge.processEndOfImage t).enc.mPassNum = 3 := by
  obtain ⟨last, hlast, hcoded, hemits⟩ := h.lastRow (t := t) hheight
  obtain ⟨raw, hraw⟩ := h.out
  obtain ⟨raw', hraw'⟩ := hemits.out
  have hout : last.enc.out = opened.enc.out.emitBytes (stuff (raw ++ raw')) := by
    rw [hraw', hraw, stuff_append, Output.emitBytes_append]
  obtain ⟨hready', hsent⟩ := hready.emitBytes (stuff (raw ++ raw'))
  rw [← hout] at hready' hsent
  obtain ⟨⟨raw'', hhanded⟩, hend, hpass⟩ := Encoder.processEndOfImage_handed t.mHuff hready'
  rw [hlast]
  refine ⟨hcoded, ⟨raw ++ raw' ++ raw'', ?_⟩, hend, ?_⟩
  · rw [hhanded, hsent, stuff_append, List.append_assoc, List.append_assoc]
    simp
  · rw [hpass, hemits.mPassNum, h.mPassNum]

end Scan

def processLines (t : Statics) (lines : Nat → Nat → UInt8) :
    (n : Nat) → JpegEncoder → Bool × JpegEncoder
  | 0, jpge => (true, jpge)
  | n + 1, jpge =>
    let r := processLines t lines n jpge
    let r' := r.2.jpgeProcessScanline t (some (lines n))
    (r.1 && r'.1, r'.2)

section Run

variable {opened jpge : JpegEncoder} {t : Statics}

theorem Scanned.not_done {n : Nat} (h : Scanned img s opened n jpge) :
    ¬ (jpge.enc.mPassNum < 1 ∨ jpge.enc.mPassNum > 2) := by
  rw [h.mPassNum]
  decide

theorem Scanned.process_some {n : Nat} (h : Scanned img s opened n jpge)
    (hready : opened.enc.out.Ready) (pScanline : Nat → UInt8) :
    jpge.jpgeProcessScanline t (some pScanline) =
      ((jpge.loadMcu t pScanline).enc.out.mAllStreamWritesSucceeded, jpge.loadMcu t pScanline) := by
  simp only [jpgeProcessScanline, if_neg h.not_done, (h.ready hready).succeeded, if_true]

theorem Scanned.process_none {n : Nat} (h : Scanned img s opened n jpge)
    (hready : opened.enc.out.Ready) : jpge.jpgeProcessScanline t none =
      ((jpge.processEndOfImage t).enc.out.mAllStreamWritesSucceeded, jpge.processEndOfImage t) := by
  simp only [jpgeProcessScanline, if_neg h.not_done, (h.ready hready).succeeded, if_true]

theorem processLines_scanned (hopened : Scanned img s opened 0 opened) (hwidth : 1 ≤ img.width)
    (hready : opened.enc.out.Ready) {n : Nat} (hn : n ≤ img.height) :
    (processLines t img.lines n opened).1 = true ∧
      Scanned img s opened n (processLines t img.lines n opened).2 := by
  induction n with
  | zero => exact ⟨rfl, hopened⟩
  | succ n ih =>
    obtain ⟨htrue, hscanned⟩ := ih (by omega)
    have hnext := hscanned.loadMcu (t := t) hwidth (show n < img.height by omega)
    simp only [processLines, hscanned.process_some hready, htrue, (hnext.ready hready).succeeded]
    exact ⟨rfl, hnext⟩

theorem jpgeInit_opens (jpge : JpegEncoder) (t : Statics) (content : Memory UInt8)
    {mPutBuf : List PutBufCall → Bool} (hwrites : ∀ calls, mPutBuf calls = true)
    (hwidth : 1 ≤ img.width)
    (hheight : 1 ≤ img.height) (hchannels : img.channels = 1 ∨ img.channels = 3) {quality : Int}
    (hquality : 1 ≤ quality ∧ quality ≤ 100) :
    let r :=
      jpge.jpgeInit (some content) (some mPutBuf) img.width img.height img.channels quality s.code t
    r.1 = true ∧ Scanned img s r.2.2 0 r.2.2 ∧ r.2.2.enc.out.Ready ∧ r.2.2.coded = jpge.coded ∧
      ∃ tables l, (l.mNumComponents = 1 ∨ l.mNumComponents = 3) ∧
        r.2.2.enc.out.sent = jpge.enc.out.handed ++ headers tables l := by
  have hcode : s.code ≤ 3 := by cases s <;> decide
  have hvalid : ¬ (((img.width : Int) < 1 ∨ (img.height : Int) < 1) ∨
      ((img.channels : Int) ≠ 1 ∧ (img.channels : Int) ≠ 3 ∧ (img.channels : Int) ≠ 4) ∨
      quality < 1 ∨ quality > 100 ∨ s.code > 3) := by omega
  obtain ⟨l, hl⟩ : ∃ l, l =
    (jpge.layout.setSubsampling s.code).setImage img.width img.height img.channels := ⟨_, rfl⟩
  obtain ⟨o, ho⟩ : ∃ o : Output, o = { jpge.enc.out with
    mAllStreamWritesSucceeded := true
    mPutBuf := mPutBuf
    mPOutBuf := 0
    mOutBufLeft := outBufSize } := ⟨_, rfl⟩
  obtain ⟨t', ht'⟩ : ∃ t', t' = (t.setTables quality).setHuff := ⟨_, rfl⟩
  have hfits : l.Fits img s := hl ▸ setImage_fits jpge.layout img s
  have hcomps : l.mNumComponents = 1 ∨ l.mNumComponents = 3 :=
    hfits.mNumComponents ▸ components_cases s
  have ho_ready : o.Ready := by
    rw [ho]
    exact ⟨Nat.zero_add _, Nat.zero_lt_succ _, rfl, hwrites⟩
  obtain ⟨hready, hsent⟩ := ho_ready.emitBytes (headers t'.mQuantizationTables l)
  have hinit : jpge.jpgeInit (some content) (some mPutBuf) img.width img.height img.channels quality
      s.code t = (true, t', { jpge with
        mQuality := quality
        mSubsampling := s.code
        layout := l
        mMcuLines := content
        enc := .start (o.emitBytes (headers t'.mQuantizationTables l)) }) := by
    rw [← hready.succeeded, ← emitHeaders_eq hcomps, hl, ho, ht']
    simp only [jpgeInit, if_neg hvalid, jpgOpen, Int.toNat_natCast]
    rfl
  rw [hinit]
  simp only [Encoder.start]
  refine ⟨trivial, ⟨hfits, ?_, ?_, rfl, ?_, [], by simp [stuff]⟩, hready, trivial,
    t'.mQuantizationTables, l, hcomps, ?_⟩
  · rw [Nat.zero_mod]
    exact fun i hi => absurd hi (Nat.not_lt_zero i)
  · rw [Nat.zero_mod]
  · rw [Nat.zero_div]
    exact (List.append_nil _).symm
  · refine hsent.trans ?_
    rw [ho]
    exact congrArg (· ++ _) (List.append_nil _)

end Run

end JpegEncoder

end Mangoxx.Jpge
