import Mangoxx.Jpge.Coefficients
import Mangoxx.Lib.CInt

namespace Mangoxx.Jpge

open Mangoxx.Lib CInt

def sZag : List Nat :=
  [0, 1, 8, 16, 9, 2, 3, 10, 17, 24, 32, 25, 18, 11, 4, 5, 12, 19, 26, 33, 40, 48, 41, 34, 27, 20,
   13, 6, 7, 14, 21, 28, 35, 42, 49, 56, 57, 50, 43, 36, 29, 22, 15, 23, 30, 37, 44, 51, 58, 59, 52,
   45, 38, 31, 39, 46, 53, 60, 61, 54, 47, 55, 62, 63]

def sStdLumQuant : List Int :=
  [16, 11, 12, 14, 12, 10, 16, 14, 13, 14, 18, 17, 16, 19, 24, 40, 26, 24, 22, 22, 24, 49, 35, 37,
   29, 40, 58, 51, 61, 60, 57, 51, 56, 55, 64, 72, 92, 78, 64, 68, 87, 69, 55, 56, 80, 109, 81, 87,
   95, 98, 103, 104, 103, 62, 77, 113, 121, 112, 100, 120, 92, 101, 103, 99]

def sStdCromaQuant : List Int :=
  [17, 18, 18, 24, 21, 24, 47, 26, 26, 47, 99, 66, 56, 66, 99, 99, 99, 99, 99, 99, 99, 99, 99, 99,
   99, 99, 99, 99, 99, 99, 99, 99, 99, 99, 99, 99, 99, 99, 99, 99, 99, 99, 99, 99, 99, 99, 99, 99,
   99, 99, 99, 99, 99, 99, 99, 99, 99, 99, 99, 99, 99, 99, 99, 99]

def dctMul (var c : Int) : Int := int16 var * c

def dctDescale (x : Int) (n : Nat) : Int := (x + 2 ^ (n - 1)) >>> n

def dct1D (s0 s1 s2 s3 s4 s5 s6 s7 : Int) : List Int :=
  let t0 := s0 + s7
  let t7 := s0 - s7
  let t1 := s1 + s6
  let t6 := s1 - s6
  let t2 := s2 + s5
  let t5 := s2 - s5
  let t3 := s3 + s4
  let t4 := s3 - s4
  let t10 := t0 + t3
  let t13 := t0 - t3
  let t11 := t1 + t2
  let t12 := t1 - t2
  let u1 := dctMul (t12 + t13) 4433
  let s2 := u1 + dctMul t13 6270
  let s6 := u1 + dctMul t12 (-15137)
  let u1 := t4 + t7
  let u2 := t5 + t6
  let u3 := t4 + t6
  let u4 := t5 + t7
  let z5 := dctMul (u3 + u4) 9633
  let t4 := dctMul t4 2446
  let t5 := dctMul t5 16819
  let t6 := dctMul t6 25172
  let t7 := dctMul t7 12299
  let u1 := dctMul u1 (-7373)
  let u2 := dctMul u2 (-20995)
  let u3 := dctMul u3 (-16069)
  let u4 := dctMul u4 (-3196)
  let u3 := u3 + z5
  let u4 := u4 + z5
  [t10 + t11, t7 + u1 + u4, s2, t6 + u2 + u3, t10 - t11, t5 + u2 + u4, s6, t4 + u1 + u3]

/-- `DCT1D` on eight entries of an array, from `first` on and `stride` apart; `s0` and `s4` are
stored by `even`, the others by `odd`. -/
def dctPass (even odd : Int → Int) (p : List Int) (first stride : Nat) : List Int :=
  let q (k : Nat) := p.getD (first + k * stride) 0
  (dct1D (q 0) (q 1) (q 2) (q 3) (q 4) (q 5) (q 6) (q 7)).mapIdx fun k s =>
    if k % 4 = 0 then even s else odd s

def dctRow : List Int → (c : Nat) → List Int :=
  fun p c => dctPass (· * 2 ^ 2) (dctDescale · (13 - 2)) p (8 * c) 1

def dctColumn : List Int → (c : Nat) → List Int :=
  fun p c => dctPass (dctDescale · (2 + 3)) (dctDescale · (13 + 2 + 3)) p c 8

def dct2D (p : List Int) : List Int :=
  let q := (List.range 8).flatMap (dctRow p)
  let columns := (List.range 8).map (dctColumn q)
  (List.range 64).map fun n => (columns.getD (n % 8) []).getD (n / 8) 0

def quantEntry (quality src : Int) : Int :=
  let q := if quality < 50 then 5000 / quality else 200 - quality * 2
  min (max ((src * q + 50) / 100) 1) 255

def computeQuantTable (quality : Int) (src : List Int) : List Int := src.map (quantEntry quality)

def quantize (j q : Int) : Int :=
  if j < 0 then
    let j := -j + (q >>> (1 : Nat))
    if j < q then 0 else int16 (-(j.tdiv q))
  else
    let j := j + (q >>> (1 : Nat))
    if j < q then 0 else int16 (j.tdiv q)

def loadQuantizedCoefficients (table sampleArray : List Int) : Block :=
  ⟨(List.range 64).map fun i => quantize (sampleArray.getD (sZag.getD i 0) 0) (table.getD i 0),
    by simp⟩

end Mangoxx.Jpge
