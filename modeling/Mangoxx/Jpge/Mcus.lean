import Mangoxx.Jpge.Scanline

namespace Mangoxx.Jpge

def block (f : Nat → Nat → Int) : List Int :=
  (List.range 8).flatMap fun i => (List.range 8).map fun k => f i k

theorem block_congr {f g : Nat → Nat → Int} (h : ∀ i < 8, ∀ k < 8, f i k = g i k) :
    block f = block g := by
  apply List.flatMap_congr
  intro i hi
  apply List.map_congr_left
  intro k hk
  exact h i (List.mem_range.mp hi) k (List.mem_range.mp hk)

inductive Subsampling where
  | yOnly
  | h1v1
  | h2v1
  | h2v2
deriving DecidableEq

namespace Subsampling

def code : Subsampling → Int
  | yOnly => 0
  | h1v1 => 1
  | h2v1 => 2
  | h2v2 => 3

def components : Subsampling → Nat
  | yOnly => 1
  | _ => 3

def h : Subsampling → Nat
  | h2v1 => 2
  | h2v2 => 2
  | _ => 1

def v : Subsampling → Nat
  | h2v2 => 2
  | _ => 1

variable (s : Subsampling)

/-- Where a cell has four samples, every other sum is rounded up. -/
def bias (i k : Nat) : Nat := if s = h2v2 then (if (i + k) % 2 = 0 then 0 else 2) else 0

def cell (plane : Nat → Nat → Nat → Nat) (c y x : Nat) : Nat :=
  ((List.range s.v).flatMap fun dv => (List.range s.h).map fun dh =>
    plane c (s.v * y + dv) (s.h * x + dh)).sum

def chromaBlock (plane : Nat → Nat → Nat → Nat) (c row col : Nat) : List Int :=
  block fun i k =>
    (((s.cell plane c (8 * row + i) (8 * col + k) + s.bias i k) / (s.h * s.v) : Nat) : Int) - 128

end Subsampling

def lumaBlock (plane : Nat → Nat → Nat → Nat) (row col : Nat) : List Int :=
  block fun i k => (plane 0 (8 * row + i) (8 * col + k) : Int) - 128

def mcu (s : Subsampling) (plane : Nat → Nat → Nat → Nat) (row col : Nat) : List (Nat × List Int) :=
  ((List.range s.v).flatMap fun v => (List.range s.h).map fun h =>
    (0, lumaBlock plane (s.v * row + v) (s.h * col + h))) ++
  (List.range' 1 (s.components - 1)).map fun c => (c, s.chromaBlock plane c row col)

def mcuRow (s : Subsampling) (plane : Nat → Nat → Nat → Nat) (cols row : Nat) :
    List (Nat × List Int) :=
  (List.range cols).flatMap (mcu s plane row)

namespace JpegEncoder

def codeAll (s : Statics) (blocks : List (Nat × List Int)) (jpge : JpegEncoder) : JpegEncoder :=
  blocks.foldl (fun jpge b => jpge.codeBlock s b.1 b.2) jpge

section CodeAll

variable (s : Statics) (blocks blocks' : List (Nat × List Int)) (jpge : JpegEncoder)

theorem codeAll_append :
    jpge.codeAll s (blocks ++ blocks') = (jpge.codeAll s blocks).codeAll s blocks' :=
  List.foldl_append

@[simp] theorem codeAll_layout : (jpge.codeAll s blocks).layout = jpge.layout := by
  induction blocks generalizing jpge with
  | nil => rfl
  | cons b blocks ih => exact ih (jpge.codeBlock s b.1 b.2)

@[simp] theorem codeAll_mMcuLines : (jpge.codeAll s blocks).mMcuLines = jpge.mMcuLines := by
  induction blocks generalizing jpge with
  | nil => rfl
  | cons b blocks ih => exact ih (jpge.codeBlock s b.1 b.2)

@[simp] theorem codeAll_coded : (jpge.codeAll s blocks).coded = jpge.coded ++ blocks := by
  induction blocks generalizing jpge with
  | nil => exact (List.append_nil _).symm
  | cons b blocks ih =>
    have hrest := ih (jpge.codeBlock s b.1 b.2)
    rwa [codeBlock, List.append_assoc, List.singleton_append] at hrest

@[simp] theorem codeAll_line : (jpge.codeAll s blocks).line = jpge.line := by
  funext i k
  rw [line, line, codeAll_layout, codeAll_mMcuLines]

theorem codeBlock_line (c : Nat) (a : List Int) : (jpge.codeBlock s c a).line = jpge.line := by
  funext i k
  simp only [line, codeBlock]

theorem loadBlock88_codeBlock (c : Nat) (a : List Int) (x y n : Nat) :
    (jpge.codeBlock s c a).loadBlock88 x y n = jpge.loadBlock88 x y n := by
  rw [loadBlock88, codeBlock_line, loadBlock88]

theorem loadBlock168_codeBlock (c : Nat) (a : List Int) (x n : Nat) :
    (jpge.codeBlock s c a).loadBlock168 x n = jpge.loadBlock168 x n := by
  rw [loadBlock168, codeBlock_line, loadBlock168]

theorem loadBlock1688_codeBlock (c : Nat) (a : List Int) (x n : Nat) :
    (jpge.codeBlock s c a).loadBlock1688 x n = jpge.loadBlock1688 x n := by
  rw [loadBlock1688, codeBlock_line, loadBlock1688]

end CodeAll

structure Lines (jpge : JpegEncoder) (s : Subsampling) (plane : Nat → Nat → Nat → Nat)
    (cols row : Nat) : Prop where
  mNumComponents : jpge.layout.mNumComponents = s.components
  mCompHSamp : jpge.layout.mCompHSamp 0 = s.h
  mCompVSamp : jpge.layout.mCompVSamp 0 = s.v
  lines : ∀ i < 8 * s.v, ∀ x < 8 * (s.h * cols), ∀ c < s.components,
    jpge.line i (s.components * x + c) = plane c (8 * (s.v * row) + i) x

section Mcu

variable {jpge : JpegEncoder} {s : Subsampling} {plane : Nat → Nat → Nat → Nat} {cols row : Nat}

theorem Lines.codeAll (h : Lines jpge s plane cols row) (t : Statics)
    (blocks : List (Nat × List Int)) :
    Lines (jpge.codeAll t blocks) s plane cols row where
  mNumComponents := by rw [codeAll_layout, h.mNumComponents]
  mCompHSamp := by rw [codeAll_layout, h.mCompHSamp]
  mCompVSamp := by rw [codeAll_layout, h.mCompVSamp]
  lines := by
    rw [codeAll_line]
    exact h.lines

theorem loadBlock88Grey_eq (h : Lines jpge .yOnly plane cols row) {x : Nat} (hx : x < cols) :
    jpge.loadBlock88Grey x = lumaBlock plane row x := by
  apply block_congr
  intro i hi k hk
  have hline := h.lines i (by simpa [Subsampling.v] using hi) (8 * x + k)
    (by simp only [Subsampling.h]; omega) 0 (by decide)
  simp only [Subsampling.components, Subsampling.v, Nat.one_mul, Nat.add_zero] at hline
  rw [Nat.shiftLeft_eq, Nat.mul_comm x, hline]

theorem loadBlock88_eq (h : Lines jpge s plane cols row) (hcomps : s.components = 3) {x y c : Nat}
    (hx : x < s.h * cols) (hy : y < s.v) (hc : c < 3) : jpge.loadBlock88 x y c =
      block fun i k => (plane c (8 * (s.v * row + y) + i) (8 * x + k) : Int) - 128 := by
  apply block_congr
  intro i hi k hk
  have hline := h.lines (8 * y + i) (by omega) (8 * x + k) (by omega) c (by omega)
  have hrow : 8 * (s.v * row) + (8 * y + i) = 8 * (s.v * row + y) + i := by omega
  have hcol : x * (8 * 3) + c + k * 3 = 3 * (8 * x + k) + c := by omega
  have hshift : y <<< 3 = 8 * y := by rw [Nat.shiftLeft_eq, Nat.mul_comm]
  rw [hcomps, hrow] at hline
  rw [hshift, hcol, hline]

theorem loadBlock1688_eq (h : Lines jpge .h2v1 plane cols row) {x c : Nat} (hx : x < cols)
    (hc : c < 3) : jpge.loadBlock1688 x c = Subsampling.h2v1.chromaBlock plane c row x := by
  apply block_congr
  intro i hi k hk
  have hline (d : Nat) (hd : d < 2) : jpge.line i (x * (16 * 3) + c + (2 * k + d) * 3) =
      plane c (8 * row + i) (2 * (8 * x + k) + d) := by
    have hline := h.lines i (by simpa [Subsampling.v] using hi) (2 * (8 * x + k) + d)
      (by simp only [Subsampling.h]; omega) c hc
    have hcol : x * (16 * 3) + c + (2 * k + d) * 3 = 3 * (2 * (8 * x + k) + d) + c := by omega
    simp only [Subsampling.components, Subsampling.v, Nat.one_mul] at hline
    rw [hcol, hline]
  have hleft := hline 0 (by omega)
  rw [Nat.add_zero] at hleft
  rw [hleft, hline 1 (by omega), Nat.shiftRight_eq_div_pow]
  simp [Subsampling.cell, Subsampling.bias, Subsampling.h, Subsampling.v, List.range_succ]

theorem loadBlock168_eq (h : Lines jpge .h2v2 plane cols row) {x c : Nat} (hx : x < cols)
    (hc : c < 3) : jpge.loadBlock168 x c = Subsampling.h2v2.chromaBlock plane c row x := by
  have hblock : jpge.loadBlock168 x c = block fun i k =>
      (((jpge.line (2 * i) (x * (16 * 3) + c + 2 * k * 3) +
        jpge.line (2 * i) (x * (16 * 3) + c + (2 * k + 1) * 3) +
        jpge.line (2 * i + 1) (x * (16 * 3) + c + 2 * k * 3) +
        jpge.line (2 * i + 1) (x * (16 * 3) + c + (2 * k + 1) * 3) +
        Subsampling.h2v2.bias i k) >>> 2 : Nat) : Int) - 128 := by
    have hpair (i : Nat) : (if i % 2 = 0 then (0, 2) else (2, 0)) =
        (Subsampling.h2v2.bias i 0, Subsampling.h2v2.bias i 1) := by
      simp only [Subsampling.bias, if_true]
      grind
    have hbias (i k : Nat) : (if k % 2 = 0 then Subsampling.h2v2.bias i 0
        else Subsampling.h2v2.bias i 1) = Subsampling.h2v2.bias i k := by
      simp only [Subsampling.bias, if_true]
      grind
    simp only [loadBlock168, hpair, hbias]
    rfl
  rw [hblock]
  apply block_congr
  intro i hi k hk
  have hline (e d : Nat) (he : e < 2) (hd : d < 2) :
      jpge.line (2 * i + e) (x * (16 * 3) + c + (2 * k + d) * 3) =
        plane c (2 * (8 * row + i) + e) (2 * (8 * x + k) + d) := by
    have hline := h.lines (2 * i + e) (by simp only [Subsampling.v]; omega) (2 * (8 * x + k) + d)
      (by simp only [Subsampling.h]; omega) c hc
    have hcol : x * (16 * 3) + c + (2 * k + d) * 3 = 3 * (2 * (8 * x + k) + d) + c := by omega
    have hrow : 8 * (2 * row) + (2 * i + e) = 2 * (8 * row + i) + e := by omega
    simp only [Subsampling.components, Subsampling.v, hrow] at hline
    rw [hcol, hline]
  have h00 := hline 0 0 (by omega) (by omega)
  have h01 := hline 0 1 (by omega) (by omega)
  have h10 := hline 1 0 (by omega) (by omega)
  have h11 := hline 1 1 (by omega) (by omega)
  simp only [Nat.add_zero] at h00 h01 h10
  rw [h00, h01, h10, h11, Nat.shiftRight_eq_div_pow]
  simp [Subsampling.cell, Subsampling.h, Subsampling.v, List.range_succ, Nat.add_assoc]

theorem loadLuma_eq (h : Lines jpge s plane cols row) (hcomps : s.components = 3) {x y : Nat}
    (hx : x < s.h * cols) (hy : y < s.v) :
    jpge.loadBlock88 x y 0 = lumaBlock plane (s.v * row + y) x :=
  loadBlock88_eq h hcomps hx hy (by decide)

theorem loadChroma_eq (h : Lines jpge .h1v1 plane cols row) {x c : Nat} (hx : x < cols)
    (hc : c < 3) : jpge.loadBlock88 x 0 c = Subsampling.h1v1.chromaBlock plane c row x := by
  rw [loadBlock88_eq h rfl (by simpa [Subsampling.h] using hx) (by decide) hc]
  simp [Subsampling.chromaBlock, Subsampling.cell, Subsampling.bias, Subsampling.h, Subsampling.v]

theorem processMcu_eq (h : Lines jpge s plane cols row) (t : Statics) {i : Nat} (hi : i < cols) :
    jpge.processMcu t i = jpge.codeAll t (mcu s plane row i) := by
  obtain ⟨hcomps, hh, hv, hlines⟩ := id h
  cases s with
  | yOnly =>
    simp only [Subsampling.components] at hcomps
    simp only [processMcu, hcomps, if_true, loadBlock88Grey_eq h hi]
    simp [mcu, codeAll, Subsampling.v, Subsampling.h, Subsampling.components]
  | h1v1 =>
    simp only [Subsampling.components, Subsampling.h, Subsampling.v] at hcomps hh hv
    have hluma :=
      loadLuma_eq h rfl (x := i) (y := 0) (by simpa [Subsampling.h] using hi) (by decide)
    have hchroma (c : Nat) (hc : c < 3) := loadChroma_eq h hi hc
    simp only [processMcu, hcomps, hh, hv, loadBlock88_codeBlock, hluma, hchroma 1 (by decide),
      hchroma 2 (by decide)]
    simp [mcu, codeAll, Subsampling.v, Subsampling.h, Subsampling.components, List.range'_succ]
  | h2v1 =>
    simp only [Subsampling.components, Subsampling.h, Subsampling.v] at hcomps hh hv
    have hluma (d : Nat) (hd : d < 2) := loadLuma_eq h rfl (x := i * 2 + d) (y := 0)
      (by simp only [Subsampling.h]; omega) (by decide)
    have hchroma (c : Nat) (hc : c < 3) := loadBlock1688_eq h hi hc
    simp only [processMcu, hcomps, hh, hv, loadBlock88_codeBlock, loadBlock1688_codeBlock,
      hluma 0 (by decide), hluma 1 (by decide), hchroma 1 (by decide), hchroma 2 (by decide)]
    simp [mcu, codeAll, Subsampling.v, Subsampling.h, Subsampling.components, List.range'_succ,
      List.range_succ, Nat.mul_comm i]
  | h2v2 =>
    simp only [Subsampling.components, Subsampling.h, Subsampling.v] at hcomps hh hv
    have hluma (e d : Nat) (he : e < 2) (hd : d < 2) := loadLuma_eq h rfl (x := i * 2 + d) (y := e)
      (by simp only [Subsampling.h]; omega) he
    have hchroma (c : Nat) (hc : c < 3) := loadBlock168_eq h hi hc
    simp only [processMcu, hcomps, hh, hv, loadBlock88_codeBlock, loadBlock168_codeBlock,
      hluma 0 0 (by decide) (by decide), hluma 0 1 (by decide) (by decide),
      hluma 1 0 (by decide) (by decide), hluma 1 1 (by decide) (by decide), hchroma 1 (by decide),
      hchroma 2 (by decide)]
    simp [mcu, codeAll, Subsampling.v, Subsampling.h, Subsampling.components, List.range'_succ,
      List.range_succ, Nat.mul_comm i]

theorem processMcuRow_eq (h : Lines jpge s plane cols row) (t : Statics)
    (hcols : jpge.layout.mMcusPerRow = cols) :
    jpge.processMcuRow t = jpge.codeAll t (mcuRow s plane cols row) := by
  have hrun (n : Nat) (hn : n ≤ cols) : (List.range n).foldl (processMcu t) jpge =
      jpge.codeAll t ((List.range n).flatMap (mcu s plane row)) := by
    induction n with
    | zero => rfl
    | succ n ih =>
      rw [List.range_succ, List.foldl_append, ih (by omega), List.flatMap_append, codeAll_append,
        List.flatMap_singleton]
      exact processMcu_eq (h.codeAll t _) t (by omega)
  rw [processMcuRow, hcols]
  exact hrun cols (Nat.le_refl cols)

end Mcu

end JpegEncoder

end Mangoxx.Jpge
