import Mangoxx.Jpge.Open

namespace Mangoxx.Jpge

open Mangoxx.Lib

section Colours

def clamp (i : Int) : UInt8 := .ofInt (if i < 0 then 0 else if i > 255 then 255 else i)

def yOf (r g b : UInt8) : UInt8 :=
  .ofInt ((r.toNat * 19595 + g.toNat * 38470 + b.toNat * 7471 + 32768 : Int) >>> (16 : Nat))

def cbOf (r g b : UInt8) : UInt8 :=
  clamp (128 +
    ((r.toNat * -11059 + g.toNat * -21709 + b.toNat * 32768 + 32768 : Int) >>> (16 : Nat)))

def crOf (r g b : UInt8) : UInt8 :=
  clamp (128 +
    ((r.toNat * 32768 + g.toNat * -27439 + b.toNat * -5329 + 32768 : Int) >>> (16 : Nat)))

def convertPixel (numComponents imageBpp : Nat) (pSrc : Nat → UInt8) (k : Nat) : List UInt8 :=
  let r := pSrc (3 * k)
  let g := pSrc (3 * k + 1)
  let b := pSrc (3 * k + 2)
  if numComponents = 1 then
    if imageBpp = 3 then [yOf r g b] else [pSrc k]
  else if imageBpp = 3 then [yOf r g b, cbOf r g b, crOf r g b]
  else [pSrc k, 128, 128]

def convertLine (numComponents imageBpp : Nat) (pSrc : Nat → UInt8) (numPixels : Nat) :
    List UInt8 :=
  (List.range numPixels).flatMap (convertPixel numComponents imageBpp pSrc)

end Colours

namespace JpegEncoder

def line (jpge : JpegEncoder) (i k : Nat) : Nat :=
  (jpge.mMcuLines (jpge.layout.mImageBplMcu * i + k : Nat)).toNat

section Blocks

def loadBlock88Grey (x : Nat) (jpge : JpegEncoder) : List Int :=
  (List.range 8).flatMap fun i => (List.range 8).map fun k : Nat =>
    (jpge.line i ((x <<< 3) + k) : Int) - 128

def loadBlock88 (x y c : Nat) (jpge : JpegEncoder) : List Int :=
  let x := x * (8 * 3) + c
  (List.range 8).flatMap fun i => (List.range 8).map fun k : Nat =>
    (jpge.line ((y <<< 3) + i) (x + k * 3) : Int) - 128

/-- `a` and `b` change places after each row. -/
def loadBlock168 (x c : Nat) (jpge : JpegEncoder) : List Int :=
  let x := x * (16 * 3) + c
  (List.range 8).flatMap fun i =>
    let (a, b) := if i % 2 = 0 then (0, 2) else (2, 0)
    (List.range 8).map fun k : Nat =>
      (((jpge.line (2 * i) (x + 2 * k * 3) + jpge.line (2 * i) (x + (2 * k + 1) * 3) +
        jpge.line (2 * i + 1) (x + 2 * k * 3) + jpge.line (2 * i + 1) (x + (2 * k + 1) * 3) +
        if k % 2 = 0 then a else b) >>> 2 : Nat) : Int) - 128

def loadBlock1688 (x c : Nat) (jpge : JpegEncoder) : List Int :=
  let x := x * (16 * 3) + c
  (List.range 8).flatMap fun i => (List.range 8).map fun k : Nat =>
    (((jpge.line i (x + 2 * k * 3) + jpge.line i (x + (2 * k + 1) * 3)) >>> 1 : Nat) : Int) - 128

end Blocks

def codeBlock (s : Statics) (componentNum : Nat) (sampleArray : List Int) (jpge : JpegEncoder) :
    JpegEncoder :=
  let coefficients := loadQuantizedCoefficients (s.mQuantizationTables (0 < componentNum))
    (dct2D sampleArray)
  { jpge with
    enc := jpge.enc.codeCoefficientsPassTwo s.mHuff componentNum coefficients
    coded := jpge.coded ++ [(componentNum, sampleArray)] }

def processMcu (s : Statics) (jpge : JpegEncoder) (i : Nat) : JpegEncoder :=
  let l := jpge.layout
  if l.mNumComponents = 1 then
    jpge.codeBlock s 0 (jpge.loadBlock88Grey i)
  else if l.mCompHSamp 0 = 1 ∧ l.mCompVSamp 0 = 1 then
    let jpge := jpge.codeBlock s 0 (jpge.loadBlock88 i 0 0)
    let jpge := jpge.codeBlock s 1 (jpge.loadBlock88 i 0 1)
    jpge.codeBlock s 2 (jpge.loadBlock88 i 0 2)
  else if l.mCompHSamp 0 = 2 ∧ l.mCompVSamp 0 = 1 then
    let jpge := jpge.codeBlock s 0 (jpge.loadBlock88 (i * 2 + 0) 0 0)
    let jpge := jpge.codeBlock s 0 (jpge.loadBlock88 (i * 2 + 1) 0 0)
    let jpge := jpge.codeBlock s 1 (jpge.loadBlock1688 i 1)
    jpge.codeBlock s 2 (jpge.loadBlock1688 i 2)
  else if l.mCompHSamp 0 = 2 ∧ l.mCompVSamp 0 = 2 then
    let jpge := jpge.codeBlock s 0 (jpge.loadBlock88 (i * 2 + 0) 0 0)
    let jpge := jpge.codeBlock s 0 (jpge.loadBlock88 (i * 2 + 1) 0 0)
    let jpge := jpge.codeBlock s 0 (jpge.loadBlock88 (i * 2 + 0) 1 0)
    let jpge := jpge.codeBlock s 0 (jpge.loadBlock88 (i * 2 + 1) 1 0)
    let jpge := jpge.codeBlock s 1 (jpge.loadBlock168 i 1)
    jpge.codeBlock s 2 (jpge.loadBlock168 i 2)
  else jpge

def processMcuRow (s : Statics) (jpge : JpegEncoder) : JpegEncoder :=
  (List.range jpge.layout.mMcusPerRow).foldl (processMcu s) jpge

def setMcuYOfs (ofs : Nat) (jpge : JpegEncoder) : JpegEncoder :=
  { jpge with enc := { jpge.enc with mMcuYOfs := ofs } }

def lastPixel (numComponents : Nat) (mem : Memory UInt8) (a : Int) : List UInt8 :=
  if numComponents = 1 then [mem (a - 1)] else [mem (a - 3), mem (a - 2), mem (a - 1)]

def storeLine (pSrc : Nat → UInt8) (jpge : JpegEncoder) : JpegEncoder :=
  let l := jpge.layout
  let pDst : Nat := l.mImageBplMcu * jpge.enc.mMcuYOfs
  let mem := Memory.store jpge.mMcuLines pDst
    (convertLine l.mNumComponents l.mImageBpp pSrc l.mImageX)
  let last := lastPixel l.mNumComponents mem (pDst + l.mImageBplXlt)
  let padding := (List.replicate (l.mImageXMcu - l.mImageX) last).flatten
  { jpge with mMcuLines := Memory.store mem (pDst + l.mImageBplXlt) padding }

def loadMcu (s : Statics) (pSrc : Nat → UInt8) (jpge : JpegEncoder) : JpegEncoder :=
  let jpge := jpge.storeLine pSrc
  let jpge := jpge.setMcuYOfs ((jpge.enc.mMcuYOfs + 1) % 256)
  if jpge.enc.mMcuYOfs = jpge.layout.mMcuY then (jpge.processMcuRow s).setMcuYOfs 0 else jpge

/-- The lines that are missing in the last row of MCUs repeat the last line that is there.  No copy
changes what is copied. -/
def repeatLine (jpge : JpegEncoder) : JpegEncoder :=
  let l := jpge.layout
  let ofs := jpge.enc.mMcuYOfs
  let last := jpge.mMcuLines.load (l.mImageBplMcu * (ofs - 1) : Nat) l.mImageBplMcu
  { jpge with
    mMcuLines := (List.range' ofs (l.mMcuY - ofs)).foldl
      (fun mem i => mem.store (l.mImageBplMcu * i : Nat) last) jpge.mMcuLines }

def processEndOfImage (s : Statics) (jpge : JpegEncoder) : JpegEncoder :=
  let jpge :=
    if jpge.enc.mMcuYOfs ≠ 0 then
      let jpge := if jpge.enc.mMcuYOfs < 16 then jpge.repeatLine else jpge
      jpge.processMcuRow s
    else jpge
  -- the last row has been coded by now
  { jpge with enc := jpge.enc.processEndOfImage s.mHuff [] }

def jpgeProcessScanline (s : Statics) (pScanline : Option (Nat → UInt8)) (jpge : JpegEncoder) :
    Bool × JpegEncoder :=
  if jpge.enc.mPassNum < 1 ∨ jpge.enc.mPassNum > 2 then (false, jpge)
  else
    let jpge :=
      if jpge.enc.out.mAllStreamWritesSucceeded then
        match pScanline with
        | none => jpge.processEndOfImage s
        | some pScanline => jpge.loadMcu s pScanline
      else jpge
    (jpge.enc.out.mAllStreamWritesSucceeded, jpge)

section Fields

variable (jpge : JpegEncoder) (pSrc : Nat → UInt8) (ofs : Nat) (t : Statics)

@[simp] theorem setMcuYOfs_layout : (jpge.setMcuYOfs ofs).layout = jpge.layout := rfl

@[simp] theorem setMcuYOfs_line : (jpge.setMcuYOfs ofs).line = jpge.line := rfl

@[simp] theorem setMcuYOfs_coded : (jpge.setMcuYOfs ofs).coded = jpge.coded := rfl

@[simp] theorem setMcuYOfs_out : (jpge.setMcuYOfs ofs).enc.out = jpge.enc.out := rfl

@[simp] theorem setMcuYOfs_mMcuYOfs : (jpge.setMcuYOfs ofs).enc.mMcuYOfs = ofs := rfl

@[simp] theorem setMcuYOfs_mPassNum : (jpge.setMcuYOfs ofs).enc.mPassNum = jpge.enc.mPassNum := rfl

@[simp] theorem storeLine_layout : (jpge.storeLine pSrc).layout = jpge.layout := rfl

@[simp] theorem storeLine_coded : (jpge.storeLine pSrc).coded = jpge.coded := rfl

@[simp] theorem storeLine_enc : (jpge.storeLine pSrc).enc = jpge.enc := rfl

@[simp] theorem repeatLine_enc : jpge.repeatLine.enc = jpge.enc := rfl

theorem loadMcu_eq {jpge : JpegEncoder} (hofs : (jpge.enc.mMcuYOfs + 1) % 256 = ofs) :
    jpge.loadMcu t pSrc =
      if ofs = jpge.layout.mMcuY then
        (((jpge.storeLine pSrc).setMcuYOfs ofs).processMcuRow t).setMcuYOfs 0
      else (jpge.storeLine pSrc).setMcuYOfs ofs := by
  simp only [loadMcu, storeLine_enc, hofs, setMcuYOfs_mMcuYOfs, setMcuYOfs_layout, storeLine_layout]

theorem processMcuRow_keeps {P : JpegEncoder → Prop}
    (hblock : ∀ c a jpge, P jpge → P (jpge.codeBlock t c a)) {jpge : JpegEncoder} (h : P jpge) :
    P (jpge.processMcuRow t) := by
  have hmcu (i : Nat) (jpge : JpegEncoder) (h : P jpge) : P (jpge.processMcu t i) := by
    rw [processMcu]
    split
    · exact hblock _ _ _ h
    · split
      · exact hblock _ _ _ (hblock _ _ _ (hblock _ _ _ h))
      · split
        · exact hblock _ _ _ (hblock _ _ _ (hblock _ _ _ (hblock _ _ _ h)))
        · split
          · exact hblock _ _ _ (hblock _ _ _ (hblock _ _ _ (hblock _ _ _ (hblock _ _ _
              (hblock _ _ _ h)))))
          · exact h
  rw [processMcuRow]
  generalize List.range jpge.layout.mMcusPerRow = is
  induction is generalizing jpge with
  | nil => exact h
  | cons i is ih => exact ih (hmcu i jpge h)

end Fields

end JpegEncoder

end Mangoxx.Jpge
