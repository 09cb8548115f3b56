import Mangoxx.Jpge.Mcus
import Mangoxx.Lib.Dump

namespace Mangoxx.Jpge

open Mangoxx.Lib

structure Image where
  width : Nat
  height : Nat
  channels : Nat
  /-- the bytes of each scanline -/
  lines : Nat → Nat → UInt8

namespace Image

variable (img : Image) (s : Subsampling)

/-- The converted image, continued with its last column and its last line. -/
def plane (c y x : Nat) : Nat :=
  ((convertPixel s.components img.channels (img.lines (min y (img.height - 1)))
    (min x (img.width - 1))).getD c 0).toNat

def cols : Nat := (img.width + 8 * s.h - 1) / (8 * s.h)

def rows : Nat := (img.height + 8 * s.v - 1) / (8 * s.v)

end Image

structure ImageLayout.Fits (l : ImageLayout) (img : Image) (s : Subsampling) : Prop where
  mNumComponents : l.mNumComponents = s.components
  mCompHSamp : l.mCompHSamp 0 = s.h
  mCompVSamp : l.mCompVSamp 0 = s.v
  mImageX : l.mImageX = img.width
  mImageBpp : l.mImageBpp = img.channels
  mImageXMcu : l.mImageXMcu = 8 * (s.h * img.cols s)
  mImageBplXlt : l.mImageBplXlt = s.components * img.width
  mImageBplMcu : l.mImageBplMcu = s.components * (8 * (s.h * img.cols s))
  mMcusPerRow : l.mMcusPerRow = img.cols s
  mMcuY : l.mMcuY = 8 * s.v

theorem components_cases (s : Subsampling) : s.components = 1 ∨ s.components = 3 := by
  cases s <;> decide

theorem convertPixel_length (s : Subsampling) (bpp : Nat) (pSrc : Nat → UInt8) (k : Nat) :
    (convertPixel s.components bpp pSrc k).length = s.components := by
  rcases components_cases s with hcomps | hcomps
  · by_cases hbpp : bpp = 3
    · simp [convertPixel, hcomps, hbpp]
    · simp [convertPixel, hcomps, hbpp]
  · by_cases hbpp : bpp = 3
    · simp [convertPixel, hcomps, hbpp]
    · simp [convertPixel, hcomps, hbpp]

variable {img : Image} {s : Subsampling}

theorem width_le_cols : img.width ≤ 8 * (s.h * img.cols s) := by
  have hpos : 0 < 8 * s.h := by cases s <;> decide
  have hceil := Nat.lt_div_mul_add (a := img.width + 8 * s.h - 1) hpos
  rw [← Image.cols, Nat.mul_comm (img.cols s)] at hceil
  rw [← Nat.mul_assoc]
  omega

theorem andNot_two_pow (n k : Nat) : ImageLayout.andNot n (2 ^ k - 1) = 2 ^ k * (n / 2 ^ k) := by
  have hdiv := Nat.div_add_mod n (2 ^ k)
  rw [ImageLayout.andNot, Nat.and_two_pow_sub_one_eq_mod]
  omega

theorem setImage_fits (l : ImageLayout) (img : Image) (s : Subsampling) :
    ((l.setSubsampling s.code).setImage img.width img.height img.channels).Fits img s := by
  have h8 (n : Nat) : ImageLayout.andNot n (8 - 1) = 8 * (n / 8) := andNot_two_pow n 3
  have h16 (n : Nat) : ImageLayout.andNot n (16 - 1) = 8 * (2 * (n / 16)) := by
    have hround : ImageLayout.andNot n (16 - 1) = 16 * (n / 16) := andNot_two_pow n 4
    omega
  have hwhole (n : Nat) : 8 * (2 * n) / 16 = n := by omega
  cases s with
  | yOnly =>
    constructor <;>
      simp [ImageLayout.setImage, ImageLayout.setSubsampling, Subsampling.code,
        Subsampling.components, Subsampling.h, Subsampling.v, Image.cols, h8]
  | h1v1 =>
    constructor <;>
      simp [ImageLayout.setImage, ImageLayout.setSubsampling, Subsampling.code,
        Subsampling.components, Subsampling.h, Subsampling.v, Image.cols, h8, Nat.mul_comm]
  | h2v1 =>
    constructor <;>
      simp [ImageLayout.setImage, ImageLayout.setSubsampling, Subsampling.code,
        Subsampling.components, Subsampling.h, Subsampling.v, Image.cols, h16, hwhole, Nat.mul_comm]
  | h2v2 =>
    constructor <;>
      simp [ImageLayout.setImage, ImageLayout.setSubsampling, Subsampling.code,
        Subsampling.components, Subsampling.h, Subsampling.v, Image.cols, h16, hwhole, Nat.mul_comm]

namespace JpegEncoder

variable {bpp : Nat} {pSrc : Nat → UInt8}

theorem convertLine_getElem? {n x c : Nat} (hx : x < n) (hc : c < s.components) :
    (convertLine s.components bpp pSrc n)[s.components * x + c]? =
      some ((convertPixel s.components bpp pSrc x).getD c 0) := by
  have hlength := convertPixel_length s bpp pSrc
  have hc' : c < (convertPixel s.components bpp pSrc x).length := by rwa [hlength]
  rw [convertLine, Dump.rows_getElem? (fun r _ => hlength r) hx hc, List.getElem?_eq_getElem hc',
    List.getD_eq_getElem?_getD, List.getElem?_eq_getElem hc', Option.getD_some]

variable (s bpp pSrc) in
theorem convertLine_length (n : Nat) :
    (convertLine s.components bpp pSrc n).length = s.components * n :=
  Dump.rows_length fun r _ => convertPixel_length s bpp pSrc r

variable (s bpp pSrc) in
theorem store_pixel (mem : Memory UInt8) (a : Int) {n x c : Nat} (hx : x < n)
    (hc : c < s.components) :
    Memory.store mem a (convertLine s.components bpp pSrc n) (a + (s.components * x + c : Nat)) =
      (convertPixel s.components bpp pSrc x).getD c 0 := by
  rw [Memory.store_at, convertLine_getElem? hx hc, Option.getD_some]

theorem lastPixel_getElem? (mem : Memory UInt8) (a : Int) {n c : Nat} (hn : 1 ≤ n)
    (hc : c < s.components) :
    (lastPixel s.components (Memory.store mem a (convertLine s.components bpp pSrc n))
      (a + (s.components * n : Nat)))[c]? =
        some ((convertPixel s.components bpp pSrc (n - 1)).getD c 0) := by
  have hlast : n - 1 < n := by omega
  have hpixel (c : Nat) (hc : c < s.components) := store_pixel s bpp pSrc mem a hlast hc
  rcases components_cases s with hcomps | hcomps
  · rw [hcomps] at hpixel hc ⊢
    obtain rfl : c = 0 := by omega
    have haddr : a + (1 * n : Nat) - 1 = a + (1 * (n - 1) + 0 : Nat) := by omega
    rw [lastPixel, if_pos rfl, haddr, hpixel 0 (by decide)]
    rfl
  · rw [hcomps] at hpixel hc ⊢
    have h0 : a + (3 * n : Nat) - 3 = a + (3 * (n - 1) + 0 : Nat) := by omega
    have h1 : a + (3 * n : Nat) - 2 = a + (3 * (n - 1) + 1 : Nat) := by omega
    have h2 : a + (3 * n : Nat) - 1 = a + (3 * (n - 1) + 2 : Nat) := by omega
    rw [lastPixel, if_neg (by decide), h0, h1, h2, hpixel 0 (by decide), hpixel 1 (by decide),
      hpixel 2 (by decide)]
    match c, hc with
    | 0, _ => rfl
    | 1, _ => rfl
    | 2, _ => rfl

theorem lastPixel_length (mem : Memory UInt8) (a : Int) :
    (lastPixel s.components mem a).length = s.components := by
  rcases components_cases s with hcomps | hcomps
  · rw [hcomps]
    rfl
  · rw [hcomps]
    rfl

theorem store_line_other (mem : Memory UInt8) {n i j k : Nat} {data : List UInt8} (hij : i ≠ j)
    (hk : k < n) (hdata : data.length = n) :
    Memory.store mem (n * j : Nat) data (n * i + k : Nat) = mem (n * i + k : Nat) := by
  rcases Nat.lt_or_gt_of_ne hij with hij | hij
  · have hbelow := Nat.mul_le_mul_left n (show i + 1 ≤ j from hij)
    rw [Nat.mul_succ] at hbelow
    exact Memory.store_of_lt _ _ (by omega)
  · have habove := Nat.mul_le_mul_left n (show j + 1 ≤ i from hij)
    rw [Nat.mul_succ] at habove
    exact Memory.store_of_ge _ _ (by omega)

theorem store_lines (mem : Memory UInt8) {n i k : Nat} {data : List UInt8} (hk : k < n)
    (hdata : data.length = n) (js : List Nat) :
    js.foldl (fun mem j => Memory.store mem (n * j : Nat) data) mem (n * i + k : Nat) =
      if i ∈ js then data.getD k 0 else mem (n * i + k : Nat) := by
  induction js generalizing mem with
  | nil => rw [if_neg List.not_mem_nil, List.foldl_nil]
  | cons j js ih =>
    rw [List.foldl_cons, ih]
    by_cases hjs : i ∈ js
    · rw [if_pos hjs, if_pos (List.mem_cons_of_mem _ hjs)]
    · rw [if_neg hjs]
      by_cases hij : i = j
      · subst hij
        rw [if_pos List.mem_cons_self, Int.natCast_add, Memory.store_at, List.getD_eq_getElem?_getD,
          List.getElem?_eq_getElem (by omega), Option.getD_some, Option.getD_some]
      · rw [if_neg (by simp [hij, hjs]), store_line_other mem hij hk hdata]

variable {jpge : JpegEncoder}

variable (pSrc) in
/-- The line in memory: what is converted, and the last pixel as often as the width is exceeded. -/
theorem storeLine_mMcuLines (h : jpge.layout.Fits img s) :
    ∃ last, last = lastPixel s.components
        (Memory.store jpge.mMcuLines (jpge.layout.mImageBplMcu * jpge.enc.mMcuYOfs : Nat)
          (convertLine s.components img.channels pSrc img.width))
        ((jpge.layout.mImageBplMcu * jpge.enc.mMcuYOfs : Nat) + (s.components * img.width : Nat)) ∧
      (jpge.storeLine pSrc).mMcuLines =
        Memory.store jpge.mMcuLines (jpge.layout.mImageBplMcu * jpge.enc.mMcuYOfs : Nat)
          (convertLine s.components img.channels pSrc img.width ++
            (List.range (8 * (s.h * img.cols s) - img.width)).flatMap fun _ => last) := by
  refine ⟨_, rfl, ?_⟩
  rw [Memory.store_append, convertLine_length, List.flatMap_def, List.map_const', List.length_range]
  simp only [storeLine, h.mNumComponents, h.mImageBpp, h.mImageX, h.mImageXMcu, h.mImageBplXlt]

theorem storeLine_stored (h : jpge.layout.Fits img s) (hwidth : 1 ≤ img.width) {x c : Nat}
    (hx : x < 8 * (s.h * img.cols s)) (hc : c < s.components) :
    (jpge.storeLine pSrc).line jpge.enc.mMcuYOfs (s.components * x + c) =
      ((convertPixel s.components img.channels pSrc (min x (img.width - 1))).getD c 0).toNat := by
  obtain ⟨last, hlast, hmem⟩ := storeLine_mMcuLines pSrc h
  have hlength := convertLine_length s img.channels pSrc img.width
  have hlayout : (jpge.storeLine pSrc).layout = jpge.layout := rfl
  rw [line, hlayout, hmem, Int.natCast_add, Memory.store_at]
  by_cases hin : x < img.width
  · have hbound : s.components * x + s.components ≤ s.components * img.width :=
      Nat.mul_le_mul_left _ hin
    rw [List.getElem?_append_left (by omega), convertLine_getElem? hin hc, Option.getD_some,
      Nat.min_eq_left (by omega)]
  · obtain ⟨r, rfl⟩ := Nat.exists_eq_add_of_le (Nat.le_of_not_lt hin)
    have hindex : s.components * (img.width + r) + c = s.components * img.width +
        (s.components * r + c) := by
      rw [Nat.mul_add, Nat.add_assoc]
    have hpad (r : Nat) (_ : r < 8 * (s.h * img.cols s) - img.width) : last.length =
        s.components := by
      rw [hlast, lastPixel_length]
    rw [hindex, List.getElem?_append_right (by omega), hlength, Nat.add_sub_cancel_left,
      Dump.rows_getElem? hpad (by omega) hc, hlast, lastPixel_getElem? _ _ hwidth hc,
      Option.getD_some, Nat.min_eq_right (by omega)]

theorem storeLine_other (h : jpge.layout.Fits img s) {i k : Nat} (hi : i ≠ jpge.enc.mMcuYOfs)
    (hk : k < jpge.layout.mImageBplMcu) : (jpge.storeLine pSrc).line i k = jpge.line i k := by
  obtain ⟨last, hlast, hmem⟩ := storeLine_mMcuLines pSrc h
  have hlayout : (jpge.storeLine pSrc).layout = jpge.layout := rfl
  have hlength : (convertLine s.components img.channels pSrc img.width ++
      (List.range (8 * (s.h * img.cols s) - img.width)).flatMap fun _ => last).length =
        jpge.layout.mImageBplMcu := by
    have hpad (r : Nat) (_ : r < 8 * (s.h * img.cols s) - img.width) : last.length =
        s.components := by
      rw [hlast, lastPixel_length]
    rw [List.length_append, convertLine_length, Dump.rows_length hpad, ← Nat.mul_add,
      Nat.add_sub_cancel' width_le_cols, h.mImageBplMcu]
  rw [line, line, hlayout, hmem]
  congr 1
  exact store_line_other _ hi hk hlength

theorem repeatLine_line {i k : Nat} (hi : i < jpge.layout.mMcuY)
    (hk : k < jpge.layout.mImageBplMcu) :
    jpge.repeatLine.line i k = jpge.line (min i (jpge.enc.mMcuYOfs - 1)) k := by
  have hlayout : jpge.repeatLine.layout = jpge.layout := rfl
  obtain ⟨last, hlast⟩ : ∃ last, last = jpge.mMcuLines.load
    (jpge.layout.mImageBplMcu * (jpge.enc.mMcuYOfs - 1) : Nat) jpge.layout.mImageBplMcu := ⟨_, rfl⟩
  have hlength : last.length = jpge.layout.mImageBplMcu := by rw [hlast, Memory.load_length]
  have hget : last.getD k 0 =
      jpge.mMcuLines (jpge.layout.mImageBplMcu * (jpge.enc.mMcuYOfs - 1) + k : Nat) := by
    rw [hlast, List.getD_eq_getElem?_getD, List.getElem?_eq_getElem (by simpa using hk)]
    simp [Memory.load]
  rw [line, line, hlayout]
  simp only [repeatLine, ← hlast]
  rw [store_lines jpge.mMcuLines hk hlength, hget]
  by_cases hbelow : i < jpge.enc.mMcuYOfs
  · rw [if_neg (mt List.mem_range'_1.mp (by omega)), Nat.min_eq_left (by omega)]
  · rw [if_pos (List.mem_range'_1.mpr (by omega)), Nat.min_eq_right (by omega)]

end JpegEncoder

end Mangoxx.Jpge
