import Mangoxx.Jpge.Dct
import Mangoxx.Lib.Memory

namespace Mangoxx.Jpge

open Mangoxx.Lib

/-- The fields that describe the image.  `m_image_bpl` and `m_image_y_mcu` are never read. -/
structure ImageLayout where
  mNumComponents : Nat
  mCompHSamp : Nat → Nat
  mCompVSamp : Nat → Nat
  mImageX : Nat
  mImageY : Nat
  mImageBpp : Nat
  mImageXMcu : Nat
  mImageBplXlt : Nat
  mImageBplMcu : Nat
  mMcusPerRow : Nat
  mMcuX : Nat
  mMcuY : Nat

/-- Beside the fields of the source stand the sample blocks that were coded so far, each with the
number of its component. -/
structure JpegEncoder where
  mQuality : Int
  mSubsampling : Int
  layout : ImageLayout
  /-- what `m_mcu_lines[0]` points to; the other lines lie behind it -/
  mMcuLines : Memory UInt8
  enc : Encoder
  coded : List (Nat × List Int)

/-- The Huffman tables hold zeros before they are initialised. -/
structure Statics where
  mLastQuality : Int
  mQuantizationTables : Bool → List Int
  mHuffInitialized : Bool

def huffTables : Bool → Bool → HuffTable := (mHuffTables 20).get (by decide +kernel)

namespace Statics

def start : Statics := ⟨0, fun _ => List.replicate 64 0, false⟩

def mHuff (s : Statics) : Bool → Bool → HuffTable :=
  if s.mHuffInitialized then huffTables else fun _ _ => .zero

def tablesOf (quality : Int) (chroma : Bool) : List Int :=
  computeQuantTable quality (if chroma then sStdCromaQuant else sStdLumQuant)

def setTables (quality : Int) (s : Statics) : Statics :=
  if s.mLastQuality ≠ quality then
    { s with mLastQuality := quality, mQuantizationTables := tablesOf quality }
  else s

def setHuff (s : Statics) : Statics := { s with mHuffInitialized := true }

end Statics

namespace ImageLayout

def setSubsampling (mSubsampling : Int) (l : ImageLayout) : ImageLayout :=
  let l := { l with mNumComponents := 3 }
  match mSubsampling with
  | 0 => { l with
      mNumComponents := 1
      mCompHSamp := Function.update l.mCompHSamp 0 1
      mCompVSamp := Function.update l.mCompVSamp 0 1
      mMcuX := 8
      mMcuY := 8 }
  | 1 => { l with mCompHSamp := fun _ => 1, mCompVSamp := fun _ => 1, mMcuX := 8, mMcuY := 8 }
  | 2 => { l with
      mCompHSamp := fun i => if i = 0 then 2 else 1
      mCompVSamp := fun _ => 1
      mMcuX := 16
      mMcuY := 8 }
  | 3 => { l with
      mCompHSamp := fun i => if i = 0 then 2 else 1
      mCompVSamp := fun i => if i = 0 then 2 else 1
      mMcuX := 16
      mMcuY := 16 }
  | _ => l

def andNot (n mask : Nat) : Nat := n - (n &&& mask)

def setImage (xRes yRes srcChannels : Nat) (l : ImageLayout) : ImageLayout :=
  let mImageXMcu := andNot (xRes + l.mMcuX - 1) (l.mMcuX - 1)
  { l with
    mImageX := xRes
    mImageY := yRes
    mImageBpp := srcChannels
    mImageXMcu := mImageXMcu
    mImageBplXlt := xRes * l.mNumComponents
    mImageBplMcu := mImageXMcu * l.mNumComponents
    mMcusPerRow := mImageXMcu / l.mMcuX }

end ImageLayout

namespace Output

def emitJfifApp0 (o : Output) : Output :=
  let o := o.emitMarker 0xE0
  let o := o.emitWord (2 + 4 + 1 + 2 + 1 + 2 + 2 + 1 + 1)
  let o := o.emitByte 0x4A
  let o := o.emitByte 0x46
  let o := o.emitByte 0x49
  let o := o.emitByte 0x46
  let o := o.emitByte 0
  let o := o.emitByte 1
  let o := o.emitByte 1
  let o := o.emitByte 0
  let o := o.emitWord 1
  let o := o.emitWord 1
  let o := o.emitByte 0
  o.emitByte 0

def emitDqt (tables : Bool → List Int) (numComponents : Nat) (o : Output) : Output :=
  (List.range (if numComponents = 3 then 2 else 1)).foldl (fun o i =>
    let o := o.emitMarker 0xDB
    let o := o.emitWord (64 + 1 + 2)
    let o := o.emitByte (.ofNat i)
    o.emitBytes ((List.range 64).map fun j => .ofInt ((tables (0 < i)).getD j 0))) o

def emitSof (l : ImageLayout) (o : Output) : Output :=
  let o := o.emitMarker 0xC0
  let o := o.emitWord (3 * l.mNumComponents + 2 + 5 + 1)
  let o := o.emitByte 8
  let o := o.emitWord l.mImageY
  let o := o.emitWord l.mImageX
  let o := o.emitByte (.ofNat l.mNumComponents)
  (List.range l.mNumComponents).foldl (fun o i =>
    let o := o.emitByte (.ofNat (i + 1))
    let o := o.emitByte (.ofNat (l.mCompHSamp i <<< 4 + l.mCompVSamp i))
    o.emitByte (if 0 < i then 1 else 0)) o

def emitSos (numComponents : Nat) (o : Output) : Output :=
  let o := o.emitMarker 0xDA
  let o := o.emitWord (2 * numComponents + 2 + 1 + 3)
  let o := o.emitByte (.ofNat numComponents)
  let o := (List.range numComponents).foldl (fun o i =>
    let o := o.emitByte (.ofNat (i + 1))
    if i = 0 then o.emitByte (.ofNat (0 <<< 4 + 0)) else o.emitByte (.ofNat (1 <<< 4 + 1))) o
  let o := o.emitByte 0
  let o := o.emitByte 63
  o.emitByte 0

def emitHeaders (tables : Bool → List Int) (l : ImageLayout) (o : Output) : Output :=
  let o := o.emitMarker 0xD8
  let o := o.emitJfifApp0
  let o := o.emitDqt tables l.mNumComponents
  let o := o.emitSof l
  let o := emitDhts l.mNumComponents o
  o.emitSos l.mNumComponents

end Output

namespace JpegEncoder

def blank : JpegEncoder where
  mQuality := 0
  mSubsampling := 0
  layout := ⟨0, fun _ => 0, fun _ => 0, 0, 0, 0, 0, 0, 0, 0, 0, 0⟩
  mMcuLines := fun _ => 0
  enc := ⟨⟨fun _ => true, fun _ => 0, 0, 0, true, [], []⟩, fun _ => 0, 0, 0, 0, 0⟩
  coded := []

def jpgOpen (malloc : Option (Memory UInt8)) (xRes yRes srcChannels : Nat) (s : Statics)
    (jpge : JpegEncoder) : Bool × Statics × JpegEncoder :=
  let layout := (jpge.layout.setSubsampling jpge.mSubsampling).setImage xRes yRes srcChannels
  match malloc with
  | none => (false, s, { jpge with layout := layout })
  | some mem =>
    let s := (s.setTables jpge.mQuality).setHuff
    let out := { jpge.enc.out with mPOutBuf := 0, mOutBufLeft := outBufSize }
    let out := out.emitHeaders s.mQuantizationTables layout
    (out.mAllStreamWritesSucceeded, s,
      { jpge with layout := layout, mMcuLines := mem, enc := .start out })

/-- What `jpge_init` and `jpge_deinit` have in common. -/
def close (jpge : JpegEncoder) : JpegEncoder :=
  { jpge with enc := { jpge.enc with
      mPassNum := 0
      out := { jpge.enc.out with mAllStreamWritesSucceeded := true } } }

def jpgeInit (malloc : Option (Memory UInt8)) (pPutBuf : Option (List PutBufCall → Bool))
    (width height srcChannels quality subsampling : Int) (s : Statics) (jpge : JpegEncoder) :
    Bool × Statics × JpegEncoder :=
  let jpge := jpge.close
  match pPutBuf with
  | none => (false, s, jpge)
  | some mPutBuf =>
    if (width < 1 ∨ height < 1) ∨ (srcChannels ≠ 1 ∧ srcChannels ≠ 3 ∧ srcChannels ≠ 4) ∨
        quality < 1 ∨ quality > 100 ∨ subsampling > 3 then (false, s, jpge)
    else
      let jpge := { jpge with
        mQuality := quality
        mSubsampling := subsampling
        enc := { jpge.enc with out := { jpge.enc.out with mPutBuf := mPutBuf } } }
      jpge.jpgOpen malloc width.toNat height.toNat srcChannels.toNat s

def jpgeDeinit (jpge : JpegEncoder) : JpegEncoder := jpge.close

end JpegEncoder

end Mangoxx.Jpge
