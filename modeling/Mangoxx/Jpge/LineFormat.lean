import Mangoxx.Lib.Bits
import Mangoxx.Lib.Dump

namespace Mangoxx.Jpge

open Mangoxx.Lib

inductive PixFormat where
  | rgb565
  | yuv422
  | grayscale
  | jpeg
  | rgb888
deriving DecidableEq

section Yuv

structure YuvTableRow where
  vY : Int
  vVr : Int
  vVg : Int
  vUg : Int
  vUb : Int

def yuvTable : List YuvTableRow :=
  [⟨-18, -204, 50, 104, -258⟩, ⟨-17, -202, 49, 103, -256⟩, ⟨-16, -201, 49, 102, -254⟩,
   ⟨-15, -199, 48, 101, -252⟩, ⟨-13, -197, 48, 100, -250⟩, ⟨-12, -196, 48, 99, -248⟩,
   ⟨-11, -194, 47, 99, -246⟩, ⟨-10, -193, 47, 98, -244⟩, ⟨-9, -191, 46, 97, -242⟩,
   ⟨-8, -189, 46, 96, -240⟩, ⟨-6, -188, 46, 95, -238⟩, ⟨-5, -186, 45, 95, -236⟩,
   ⟨-4, -185, 45, 94, -234⟩, ⟨-3, -183, 44, 93, -232⟩, ⟨-2, -181, 44, 92, -230⟩,
   ⟨-1, -180, 44, 91, -228⟩, ⟨0, -178, 43, 91, -226⟩, ⟨1, -177, 43, 90, -223⟩,
   ⟨2, -175, 43, 89, -221⟩, ⟨3, -173, 42, 88, -219⟩, ⟨4, -172, 42, 87, -217⟩,
   ⟨5, -170, 41, 86, -215⟩, ⟨6, -169, 41, 86, -213⟩, ⟨8, -167, 41, 85, -211⟩,
   ⟨9, -165, 40, 84, -209⟩, ⟨10, -164, 40, 83, -207⟩, ⟨11, -162, 39, 82, -205⟩,
   ⟨12, -161, 39, 82, -203⟩, ⟨13, -159, 39, 81, -201⟩, ⟨15, -158, 38, 80, -199⟩,
   ⟨16, -156, 38, 79, -197⟩, ⟨17, -154, 37, 78, -195⟩, ⟨18, -153, 37, 78, -193⟩,
   ⟨19, -151, 37, 77, -191⟩, ⟨20, -150, 36, 76, -189⟩, ⟨22, -148, 36, 75, -187⟩,
   ⟨23, -146, 35, 74, -185⟩, ⟨24, -145, 35, 73, -183⟩, ⟨25, -143, 35, 73, -181⟩,
   ⟨26, -142, 34, 72, -179⟩, ⟨27, -140, 34, 71, -177⟩, ⟨29, -138, 34, 70, -175⟩,
   ⟨30, -137, 33, 69, -173⟩, ⟨31, -135, 33, 69, -171⟩, ⟨32, -134, 32, 68, -169⟩,
   ⟨33, -132, 32, 67, -167⟩, ⟨34, -130, 32, 66, -165⟩, ⟨36, -129, 31, 65, -163⟩,
   ⟨37, -127, 31, 65, -161⟩, ⟨38, -126, 30, 64, -159⟩, ⟨39, -124, 30, 63, -157⟩,
   ⟨40, -122, 30, 62, -155⟩, ⟨41, -121, 29, 61, -153⟩, ⟨43, -119, 29, 60, -151⟩,
   ⟨44, -118, 28, 60, -149⟩, ⟨45, -116, 28, 59, -147⟩, ⟨46, -114, 28, 58, -145⟩,
   ⟨47, -113, 27, 57, -143⟩, ⟨48, -111, 27, 56, -141⟩, ⟨50, -110, 26, 56, -139⟩,
   ⟨51, -108, 26, 55, -137⟩, ⟨52, -106, 26, 54, -135⟩, ⟨53, -105, 25, 53, -133⟩,
   ⟨54, -103, 25, 52, -131⟩, ⟨55, -102, 25, 52, -129⟩, ⟨57, -100, 24, 51, -127⟩,
   ⟨58, -98, 24, 50, -125⟩, ⟨59, -97, 23, 49, -123⟩, ⟨60, -95, 23, 48, -121⟩,
   ⟨61, -94, 23, 47, -119⟩, ⟨62, -92, 22, 47, -117⟩, ⟨64, -90, 22, 46, -115⟩,
   ⟨65, -89, 21, 45, -113⟩, ⟨66, -87, 21, 44, -110⟩, ⟨67, -86, 21, 43, -108⟩,
   ⟨68, -84, 20, 43, -106⟩, ⟨69, -82, 20, 42, -104⟩, ⟨71, -81, 19, 41, -102⟩,
   ⟨72, -79, 19, 40, -100⟩, ⟨73, -78, 19, 39, -98⟩, ⟨74, -76, 18, 39, -96⟩, ⟨75, -75, 18, 38, -94⟩,
   ⟨76, -73, 17, 37, -92⟩, ⟨77, -71, 17, 36, -90⟩, ⟨79, -70, 17, 35, -88⟩, ⟨80, -68, 16, 34, -86⟩,
   ⟨81, -67, 16, 34, -84⟩, ⟨82, -65, 16, 33, -82⟩, ⟨83, -63, 15, 32, -80⟩, ⟨84, -62, 15, 31, -78⟩,
   ⟨86, -60, 14, 30, -76⟩, ⟨87, -59, 14, 30, -74⟩, ⟨88, -57, 14, 29, -72⟩, ⟨89, -55, 13, 28, -70⟩,
   ⟨90, -54, 13, 27, -68⟩, ⟨91, -52, 12, 26, -66⟩, ⟨93, -51, 12, 26, -64⟩, ⟨94, -49, 12, 25, -62⟩,
   ⟨95, -47, 11, 24, -60⟩, ⟨96, -46, 11, 23, -58⟩, ⟨97, -44, 10, 22, -56⟩, ⟨98, -43, 10, 21, -54⟩,
   ⟨100, -41, 10, 21, -52⟩, ⟨101, -39, 9, 20, -50⟩, ⟨102, -38, 9, 19, -48⟩, ⟨103, -36, 8, 18, -46⟩,
   ⟨104, -35, 8, 17, -44⟩, ⟨105, -33, 8, 17, -42⟩, ⟨107, -31, 7, 16, -40⟩, ⟨108, -30, 7, 15, -38⟩,
   ⟨109, -28, 7, 14, -36⟩, ⟨110, -27, 6, 13, -34⟩, ⟨111, -25, 6, 13, -32⟩, ⟨112, -23, 5, 12, -30⟩,
   ⟨114, -22, 5, 11, -28⟩, ⟨115, -20, 5, 10, -26⟩, ⟨116, -19, 4, 9, -24⟩, ⟨117, -17, 4, 8, -22⟩,
   ⟨118, -15, 3, 8, -20⟩, ⟨119, -14, 3, 7, -18⟩, ⟨121, -12, 3, 6, -16⟩, ⟨122, -11, 2, 5, -14⟩,
   ⟨123, -9, 2, 4, -12⟩, ⟨124, -7, 1, 4, -10⟩, ⟨125, -6, 1, 3, -8⟩, ⟨126, -4, 1, 2, -6⟩,
   ⟨128, -3, 0, 1, -4⟩, ⟨129, -1, 0, 0, -2⟩, ⟨130, 0, 0, 0, 0⟩, ⟨131, 1, 0, 0, 2⟩,
   ⟨132, 3, 0, -1, 4⟩, ⟨133, 4, -1, -2, 6⟩, ⟨135, 6, -1, -3, 8⟩, ⟨136, 7, -1, -4, 10⟩,
   ⟨137, 9, -2, -4, 12⟩, ⟨138, 11, -2, -5, 14⟩, ⟨139, 12, -3, -6, 16⟩, ⟨140, 14, -3, -7, 18⟩,
   ⟨142, 15, -3, -8, 20⟩, ⟨143, 17, -4, -8, 22⟩, ⟨144, 19, -4, -9, 24⟩, ⟨145, 20, -5, -10, 26⟩,
   ⟨146, 22, -5, -11, 28⟩, ⟨147, 23, -5, -12, 30⟩, ⟨148, 25, -6, -13, 32⟩, ⟨150, 27, -6, -13, 34⟩,
   ⟨151, 28, -7, -14, 36⟩, ⟨152, 30, -7, -15, 38⟩, ⟨153, 31, -7, -16, 40⟩, ⟨154, 33, -8, -17, 42⟩,
   ⟨155, 35, -8, -17, 44⟩, ⟨157, 36, -8, -18, 46⟩, ⟨158, 38, -9, -19, 48⟩, ⟨159, 39, -9, -20, 50⟩,
   ⟨160, 41, -10, -21, 52⟩, ⟨161, 43, -10, -21, 54⟩, ⟨162, 44, -10, -22, 56⟩,
   ⟨164, 46, -11, -23, 58⟩, ⟨165, 47, -11, -24, 60⟩, ⟨166, 49, -12, -25, 62⟩,
   ⟨167, 51, -12, -26, 64⟩, ⟨168, 52, -12, -26, 66⟩, ⟨169, 54, -13, -27, 68⟩,
   ⟨171, 55, -13, -28, 70⟩, ⟨172, 57, -14, -29, 72⟩, ⟨173, 59, -14, -30, 74⟩,
   ⟨174, 60, -14, -30, 76⟩, ⟨175, 62, -15, -31, 78⟩, ⟨176, 63, -15, -32, 80⟩,
   ⟨178, 65, -16, -33, 82⟩, ⟨179, 67, -16, -34, 84⟩, ⟨180, 68, -16, -34, 86⟩,
   ⟨181, 70, -17, -35, 88⟩, ⟨182, 71, -17, -36, 90⟩, ⟨183, 73, -17, -37, 92⟩,
   ⟨185, 75, -18, -38, 94⟩, ⟨186, 76, -18, -39, 96⟩, ⟨187, 78, -19, -39, 98⟩,
   ⟨188, 79, -19, -40, 100⟩, ⟨189, 81, -19, -41, 102⟩, ⟨190, 82, -20, -42, 104⟩,
   ⟨192, 84, -20, -43, 106⟩, ⟨193, 86, -21, -43, 108⟩, ⟨194, 87, -21, -44, 110⟩,
   ⟨195, 89, -21, -45, 113⟩, ⟨196, 90, -22, -46, 115⟩, ⟨197, 92, -22, -47, 117⟩,
   ⟨199, 94, -23, -47, 119⟩, ⟨200, 95, -23, -48, 121⟩, ⟨201, 97, -23, -49, 123⟩,
   ⟨202, 98, -24, -50, 125⟩, ⟨203, 100, -24, -51, 127⟩, ⟨204, 102, -25, -52, 129⟩,
   ⟨206, 103, -25, -52, 131⟩, ⟨207, 105, -25, -53, 133⟩, ⟨208, 106, -26, -54, 135⟩,
   ⟨209, 108, -26, -55, 137⟩, ⟨210, 110, -26, -56, 139⟩, ⟨211, 111, -27, -56, 141⟩,
   ⟨213, 113, -27, -57, 143⟩, ⟨214, 114, -28, -58, 145⟩, ⟨215, 116, -28, -59, 147⟩,
   ⟨216, 118, -28, -60, 149⟩, ⟨217, 119, -29, -60, 151⟩, ⟨218, 121, -29, -61, 153⟩,
   ⟨219, 122, -30, -62, 155⟩, ⟨221, 124, -30, -63, 157⟩, ⟨222, 126, -30, -64, 159⟩,
   ⟨223, 127, -31, -65, 161⟩, ⟨224, 129, -31, -65, 163⟩, ⟨225, 130, -32, -66, 165⟩,
   ⟨226, 132, -32, -67, 167⟩, ⟨228, 134, -32, -68, 169⟩, ⟨229, 135, -33, -69, 171⟩,
   ⟨230, 137, -33, -69, 173⟩, ⟨231, 138, -34, -70, 175⟩, ⟨232, 140, -34, -71, 177⟩,
   ⟨233, 142, -34, -72, 179⟩, ⟨235, 143, -35, -73, 181⟩, ⟨236, 145, -35, -73, 183⟩,
   ⟨237, 146, -35, -74, 185⟩, ⟨238, 148, -36, -75, 187⟩, ⟨239, 150, -36, -76, 189⟩,
   ⟨240, 151, -37, -77, 191⟩, ⟨242, 153, -37, -78, 193⟩, ⟨243, 154, -37, -78, 195⟩,
   ⟨244, 156, -38, -79, 197⟩, ⟨245, 158, -38, -80, 199⟩, ⟨246, 159, -39, -81, 201⟩,
   ⟨247, 161, -39, -82, 203⟩, ⟨249, 162, -39, -82, 205⟩, ⟨250, 164, -40, -83, 207⟩,
   ⟨251, 165, -40, -84, 209⟩, ⟨252, 167, -41, -85, 211⟩, ⟨253, 169, -41, -86, 213⟩,
   ⟨254, 170, -41, -86, 215⟩, ⟨256, 172, -42, -87, 217⟩, ⟨257, 173, -42, -88, 219⟩,
   ⟨258, 175, -43, -89, 221⟩, ⟨259, 177, -43, -90, 223⟩, ⟨260, 178, -43, -91, 226⟩,
   ⟨261, 180, -44, -91, 228⟩, ⟨263, 181, -44, -92, 230⟩, ⟨264, 183, -44, -93, 232⟩,
   ⟨265, 185, -45, -94, 234⟩, ⟨266, 186, -45, -95, 236⟩, ⟨267, 188, -46, -95, 238⟩,
   ⟨268, 189, -46, -96, 240⟩, ⟨270, 191, -46, -97, 242⟩, ⟨271, 193, -47, -98, 244⟩,
   ⟨272, 194, -47, -99, 246⟩, ⟨273, 196, -48, -99, 248⟩, ⟨274, 197, -48, -100, 250⟩,
   ⟨275, 199, -48, -101, 252⟩, ⟨277, 201, -49, -102, 254⟩, ⟨278, 202, -49, -103, 256⟩]

def yuvRow (i : UInt8) : YuvTableRow := yuvTable.getD i.toNat ⟨0, 0, 0, 0, 0⟩

def yuyvConstrain (v : Int) : UInt8 := .ofInt (if v < 0 then 0 else if v > 255 then 255 else v)

/-- The sums of two or three entries fit in `int16_t`. -/
def yuv2rgb (y u v : UInt8) : List UInt8 :=
  let ri := (yuvRow y).vY + (yuvRow v).vVr
  let gi := (yuvRow y).vY + (yuvRow u).vUg + (yuvRow v).vVg
  let bi := (yuvRow y).vY + (yuvRow u).vUb
  [yuyvConstrain ri, yuyvConstrain gi, yuyvConstrain bi]

end Yuv

/-- The indices of `src` that are read, and what is stored from `dst` on without a gap. -/
structure LineRun where
  reads : List Nat
  dst : List UInt8

def lineLoop (step : Nat) (turn : Nat → LineRun) (l i : Nat) : LineRun :=
  if 0 < step ∧ i < l then
    let rest := lineLoop step turn l (i + step)
    ⟨(turn i).reads ++ rest.reads, (turn i).dst ++ rest.dst⟩
  else ⟨[], []⟩
termination_by l - i

def rgb888Turn (src : Nat → UInt8) (i : Nat) : LineRun :=
  ⟨[i + 2, i + 1, i], [src (i + 2), src (i + 1), src i]⟩

def rgb565Turn (src : Nat → UInt8) (i : Nat) : LineRun :=
  ⟨[i + 1, i + 1, i, i],
    [src (i + 1) &&& 0xF8, (src (i + 1) &&& 0x07) <<< 5 ||| (src i &&& 0xE0) >>> 3,
      (src i &&& 0x1F) <<< 3]⟩

def yuv422Turn (src : Nat → UInt8) (i : Nat) : LineRun :=
  let y0 := src i
  let u := src (i + 1)
  let y1 := src (i + 2)
  let v := src (i + 3)
  ⟨[i, i + 1, i + 2, i + 3], yuv2rgb y0 u v ++ yuv2rgb y1 u v⟩

def LineRun.from (base : Nat) (r : LineRun) : LineRun := ⟨r.reads.map (base + ·), r.dst⟩

/-- `convert_image` passes a width of 16 bits, so that `l` is an `int`; `in_channels` is not
used. -/
def convertLineFormat (src : Nat → UInt8) (format : PixFormat) (width line : Nat) : LineRun :=
  match format with
  | .grayscale =>
    ⟨(List.range width).map (line * width + ·), (List.range width).map fun k =>
      src (line * width + k)⟩
  | .rgb888 =>
    let l := width * 3
    (lineLoop 3 (rgb888Turn fun k => src (l * line + k)) l 0).from (l * line)
  | .rgb565 =>
    let l := width * 2
    (lineLoop 2 (rgb565Turn fun k => src (l * line + k)) l 0).from (l * line)
  | .yuv422 =>
    let l := width * 2
    (lineLoop 4 (yuv422Turn fun k => src (l * line + k)) l 0).from (l * line)
  | .jpeg => ⟨[], []⟩

def numChannels (format : PixFormat) : Nat := if format = .grayscale then 1 else 3

namespace PixFormat

def bytesPerPixel : PixFormat → Nat
  | rgb565 => 2
  | yuv422 => 2
  | grayscale => 1
  | jpeg => 0
  | rgb888 => 3

/-- What pixel `x` of a line with these bytes becomes: red, green and blue, or its grey value.  Two
neighbours in YUV422 share their colour. -/
def pixel (bytes : Nat → UInt8) (x : Nat) : PixFormat → List UInt8
  | grayscale => [bytes x]
  | rgb888 => [bytes (3 * x + 2), bytes (3 * x + 1), bytes (3 * x)]
  | rgb565 =>
    let p := (bytes (2 * x + 1)).toNat * 256 + (bytes (2 * x)).toNat
    [.ofNat (8 * (p / 2048)), .ofNat (4 * (p / 32 % 64)), .ofNat (8 * (p % 32))]
  | yuv422 => yuv2rgb (bytes (2 * x)) (bytes (4 * (x / 2) + 1)) (bytes (4 * (x / 2) + 3))
  | jpeg => []

end PixFormat

/-- The scanline is full and no more, only the line is read, and every pixel is converted. -/
structure ConvertsLine (src : Nat → UInt8) (format : PixFormat) (width line : Nat) (r : LineRun) :
    Prop where
  stores : r.dst.length = width * numChannels format
  reads : ∀ a ∈ r.reads, line * (format.bytesPerPixel * width) ≤ a ∧
    a < (line + 1) * (format.bytesPerPixel * width)
  pixels : ∀ x < width, ∀ c < numChannels format, r.dst[numChannels format * x + c]? =
    (format.pixel (fun k => src (line * (format.bytesPerPixel * width) + k)) x)[c]?

section Loop

variable {turn : Nat → LineRun} {step l : Nat}

theorem lineLoop_eq (hstep : 0 < step) {n i : Nat} (hl : l ≤ i + step * n)
    (hless : i + step * n < l + step) : lineLoop step turn l i =
      ⟨(List.range n).flatMap fun k => (turn (i + step * k)).reads,
        (List.range n).flatMap fun k => (turn (i + step * k)).dst⟩ := by
  induction n generalizing i with
  | zero =>
    rw [lineLoop, if_neg (by omega)]
    rfl
  | succ n ih =>
    have hmul : step * (n + 1) = step + step * n := by rw [Nat.mul_succ, Nat.add_comm]
    have hnext (k : Nat) : i + step * (k + 1) = i + step + step * k := by
      rw [Nat.mul_succ, Nat.add_comm (step * k), Nat.add_assoc]
    rw [lineLoop, if_pos ⟨hstep, by omega⟩, ih (by omega) (by omega), List.range_succ_eq_map,
      List.flatMap_cons, List.flatMap_cons, List.flatMap_map, List.flatMap_map]
    simp only [hnext, Nat.mul_zero, Nat.add_zero]

theorem mem_from {base a : Nat} {r : LineRun} (h : a ∈ (r.from base).reads) :
    ∃ k ∈ r.reads, a = base + k := by
  obtain ⟨k, hk, rfl⟩ := List.mem_map.mp h
  exact ⟨k, hk, rfl⟩

end Loop

section Pixels

theorem rgb565Turn_dst (bytes : Nat → UInt8) (x : Nat) :
    (rgb565Turn bytes (2 * x)).dst = PixFormat.rgb565.pixel bytes x := by
  obtain ⟨hi, hhi⟩ : ∃ hi, hi = bytes (2 * x + 1) := ⟨_, rfl⟩
  obtain ⟨lo, hlo⟩ : ∃ lo, lo = bytes (2 * x) := ⟨_, rfl⟩
  have hhi' := hi.toNat_lt
  have hlo' := lo.toNat_lt
  have hred : hi &&& 0xF8 = .ofNat (8 * (hi.toNat / 8)) :=
    Bits.forall_byte (P := fun hi => hi &&& 0xF8 = .ofNat (8 * (hi.toNat / 8)))
      (by decide +kernel) hi
  have hhigh : (hi &&& 0x07) <<< 5 = .ofNat (32 * (hi.toNat % 8)) :=
    Bits.forall_byte (P := fun hi => (hi &&& 0x07) <<< 5 = .ofNat (32 * (hi.toNat % 8)))
      (by decide +kernel) hi
  have hlow : (lo &&& 0xE0) >>> 3 = .ofNat (4 * (lo.toNat / 32)) :=
    Bits.forall_byte (P := fun lo => (lo &&& 0xE0) >>> 3 = .ofNat (4 * (lo.toNat / 32)))
      (by decide +kernel) lo
  have hgreen : ∀ a < 8, ∀ b < 8,
      UInt8.ofNat (32 * a) ||| UInt8.ofNat (4 * b) = .ofNat (4 * (8 * a + b)) := by
    decide +kernel
  have hblue : (lo &&& 0x1F) <<< 3 = .ofNat (8 * (lo.toNat % 32)) :=
    Bits.forall_byte (P := fun lo => (lo &&& 0x1F) <<< 3 = .ofNat (8 * (lo.toNat % 32)))
      (by decide +kernel) lo
  have h1 : (hi.toNat * 256 + lo.toNat) / 2048 = hi.toNat / 8 := by omega
  have h2 : (hi.toNat * 256 + lo.toNat) / 32 % 64 = 8 * (hi.toNat % 8) + lo.toNat / 32 := by omega
  have h3 : (hi.toNat * 256 + lo.toNat) % 32 = lo.toNat % 32 := by omega
  simp only [rgb565Turn, PixFormat.pixel, ← hhi, ← hlo, h1, h2, h3, hred, hhigh, hlow, hblue]
  rw [hgreen _ (by omega) _ (by omega)]

theorem yuv422Turn_dst (bytes : Nat → UInt8) (k : Nat) : (yuv422Turn bytes (4 * k)).dst =
    PixFormat.yuv422.pixel bytes (2 * k) ++ PixFormat.yuv422.pixel bytes (2 * k + 1) := by
  have h1 : 2 * (2 * k) = 4 * k := by omega
  have h2 : 2 * k / 2 = k := by omega
  have h3 : 2 * (2 * k + 1) = 4 * k + 2 := by omega
  have h4 : (2 * k + 1) / 2 = k := by omega
  simp only [yuv422Turn, PixFormat.pixel, h1, h2, h3, h4]

end Pixels

section Formats

variable (src : Nat → UInt8) (width line : Nat)

theorem grayscale_converts :
    ConvertsLine src .grayscale width line (convertLineFormat src .grayscale width line) := by
  constructor
  · simp [convertLineFormat, numChannels]
  · intro a ha
    obtain ⟨k, hk, rfl⟩ := List.mem_map.mp ha
    have hk := List.mem_range.mp hk
    rw [PixFormat.bytesPerPixel, Nat.one_mul, Nat.succ_mul]
    omega
  · intro x hx c hc
    obtain rfl : c = 0 := Nat.lt_one_iff.mp hc
    simp [convertLineFormat, numChannels, PixFormat.bytesPerPixel, PixFormat.pixel, hx]

variable {src width line}

theorem converts_of_turns (format : PixFormat) (turn : (Nat → UInt8) → Nat → LineRun)
    (hpos : 0 < format.bytesPerPixel) (hchannels : numChannels format = 3)
    (hreads : ∀ bytes x, ∀ a ∈ (turn bytes (format.bytesPerPixel * x)).reads,
      format.bytesPerPixel * x ≤ a ∧ a < format.bytesPerPixel * (x + 1))
    (hdst : ∀ bytes x, (turn bytes (format.bytesPerPixel * x)).dst = format.pixel bytes x)
    (hlength : ∀ bytes x, (format.pixel bytes x).length = 3) :
    ConvertsLine src format width line
      ((lineLoop format.bytesPerPixel
        (turn fun k => src (width * format.bytesPerPixel * line + k))
        (width * format.bytesPerPixel) 0).from (width * format.bytesPerPixel * line)) := by
  have hbase : width * format.bytesPerPixel * line = line * (format.bytesPerPixel * width) := by
    rw [Nat.mul_comm, Nat.mul_comm width]
  have hwidth : width * format.bytesPerPixel = format.bytesPerPixel * width := Nat.mul_comm _ _
  rw [lineLoop_eq hpos (n := width) (by omega) (by omega), hbase]
  simp only [Nat.zero_add, hdst]
  constructor
  · rw [LineRun.from, Dump.rows_length fun r _ => hlength _ r, hchannels, Nat.mul_comm]
  · intro a ha
    obtain ⟨k, hk, rfl⟩ := mem_from ha
    obtain ⟨x, hx, hk⟩ := List.mem_flatMap.mp hk
    obtain ⟨hlow, hhigh⟩ := hreads _ x k hk
    have hlast :=
      Nat.mul_le_mul_left format.bytesPerPixel (show x + 1 ≤ width from List.mem_range.mp hx)
    rw [Nat.succ_mul]
    omega
  · intro x hx c hc
    rw [hchannels] at hc ⊢
    exact Dump.rows_getElem? (fun r _ => hlength _ r) hx hc

theorem rgb888_converts :
    ConvertsLine src .rgb888 width line (convertLineFormat src .rgb888 width line) := by
  refine converts_of_turns .rgb888 rgb888Turn (by decide) rfl ?_ ?_ ?_
  · intro bytes x a ha
    simp only [rgb888Turn, PixFormat.bytesPerPixel, List.mem_cons, List.not_mem_nil,
      or_false] at ha ⊢
    omega
  · exact fun _ _ => rfl
  · exact fun _ _ => rfl

theorem rgb565_converts :
    ConvertsLine src .rgb565 width line (convertLineFormat src .rgb565 width line) := by
  refine converts_of_turns .rgb565 rgb565Turn (by decide) rfl ?_ ?_ ?_
  · intro bytes x a ha
    simp only [rgb565Turn, PixFormat.bytesPerPixel, List.mem_cons, List.not_mem_nil,
      or_false] at ha ⊢
    omega
  · exact rgb565Turn_dst
  · exact fun _ _ => rfl

variable (src width line) in
theorem yuv422_turns : convertLineFormat src .yuv422 width line =
    let base := line * (2 * width)
    let bytes := fun k => src (base + k)
    ⟨((List.range ((width + 1) / 2)).flatMap fun k => [4 * k, 4 * k + 1, 4 * k + 2, 4 * k + 3]).map
        (base + ·),
      (List.range ((width + 1) / 2)).flatMap fun k =>
        PixFormat.yuv422.pixel bytes (2 * k) ++ PixFormat.yuv422.pixel bytes (2 * k + 1)⟩ := by
  have hbase : width * 2 * line = line * (2 * width) := by rw [Nat.mul_comm, Nat.mul_comm width]
  rw [convertLineFormat,
    lineLoop_eq (by decide) (n := (width + 1) / 2) (by omega) (by omega), hbase]
  simp only [Nat.zero_add, yuv422Turn_dst]
  rfl

theorem yuv422_converts_iff :
    ConvertsLine src .yuv422 width line (convertLineFormat src .yuv422 width line) ↔
      width % 2 = 0 := by
  rw [yuv422_turns]
  obtain ⟨base, hbase⟩ : ∃ base, base = line * (2 * width) := ⟨_, rfl⟩
  have hlength (bytes : Nat → UInt8) : ∀ k < (width + 1) / 2,
      (PixFormat.yuv422.pixel bytes (2 * k) ++
        PixFormat.yuv422.pixel bytes (2 * k + 1)).length = 6 := fun _ _ => rfl
  have hstored (bytes : Nat → UInt8) := Dump.rows_length (hlength bytes)
  have hchannels : numChannels .yuv422 = 3 := rfl
  constructor
  · intro h
    have hstores := h.stores
    rw [hstored, hchannels] at hstores
    omega
  · intro heven
    constructor
    · rw [hstored, hchannels]
      omega
    · intro a ha
      obtain ⟨i, hi, rfl⟩ := List.mem_map.mp ha
      obtain ⟨k, hk, hi⟩ := List.mem_flatMap.mp hi
      have hk := List.mem_range.mp hk
      simp only [List.mem_cons, List.not_mem_nil, or_false] at hi
      have hline : (line + 1) * (2 * width) = line * (2 * width) + 2 * width := Nat.succ_mul _ _
      simp only [PixFormat.bytesPerPixel, hline]
      omega
    · intro x hx c hc
      rw [hchannels] at hc ⊢
      have hindex : 3 * x + c = 6 * (x / 2) + (3 * (x % 2) + c) := by omega
      rw [hindex, Dump.rows_getElem? (hlength _) (by omega) (by omega), PixFormat.bytesPerPixel]
      rcases Nat.mod_two_eq_zero_or_one x with hmod | hmod
      · have hx' : 2 * (x / 2) = x := by omega
        rw [hmod, hx', List.getElem?_append_left (by simpa [PixFormat.pixel, yuv2rgb] using hc)]
        simp
      · have hx' : 2 * (x / 2) + 1 = x := by omega
        rw [hmod, hx', List.getElem?_append_right (by simp [PixFormat.pixel, yuv2rgb])]
        simp [PixFormat.pixel, yuv2rgb]

end Formats

/-- A line is converted as it should be unless it has an odd number of YUV422 pixels. -/
theorem line_converted_iff (src : Nat → UInt8) (format : PixFormat) (width : UInt16) (line : Nat)
    (hformat : format ≠ .jpeg) :
    ConvertsLine src format width.toNat line (convertLineFormat src format width.toNat line) ↔
      (format = .yuv422 → width.toNat % 2 = 0) := by
  cases format with
  | grayscale => exact ⟨fun _ => nofun, fun _ => grayscale_converts _ _ _⟩
  | rgb888 => exact ⟨fun _ => nofun, fun _ => rgb888_converts⟩
  | rgb565 => exact ⟨fun _ => nofun, fun _ => rgb565_converts⟩
  | yuv422 => exact yuv422_converts_iff.trans ⟨fun h _ => h, fun h => h rfl⟩
  | jpeg => exact absurd rfl hformat

theorem rgb565_pixel_converted :
    let src : Nat → UInt8 := fun k => .ofNat (0x1F + 7 * k)
    ConvertsLine src .rgb565 3 2 (convertLineFormat src .rgb565 3 2) :=
  (line_converted_iff _ .rgb565 3 2 (by decide)).mpr nofun

/-- One pixel of YUV422: six bytes are stored where there is room for three, and four are read where
the line has two. -/
theorem yuv422_pixel_overflows :
    let r := convertLineFormat (fun _ => 128) .yuv422 1 0
    r.dst.length = 6 ∧ 3 ∈ r.reads ∧ ¬ ConvertsLine (fun _ => 128) .yuv422 1 0 r := by
  intro r
  have hr : r = ⟨[0, 1, 2, 3], yuv2rgb 128 128 128 ++ yuv2rgb 128 128 128⟩ :=
    yuv422_turns (fun _ => 128) 1 0
  rw [hr]
  refine ⟨rfl, by decide, fun h => ?_⟩
  exact absurd (h.reads 3 (by decide)).2 (by decide)

end Mangoxx.Jpge
