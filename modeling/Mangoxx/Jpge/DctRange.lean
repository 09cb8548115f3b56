import Mangoxx.Jpge.Dct
import Mangoxx.Lib.Dump
import Mathlib.Algebra.Order.Ring.Int

namespace Mangoxx.Jpge

open Mangoxx.Lib CInt

section Exact

/-- `DCT_MUL` if the cast keeps the operand. -/
def exactMul (var c : Int) : Option Int :=
  if -2 ^ 15 ≤ var ∧ var < 2 ^ 15 then exactInt (var * c) else none

def exactButterfly (t0 t1 t2 t3 t4 t5 t6 t7 : Int) : Option (List Int) := do
  let t10 ← exactInt (t0 + t3)
  let t13 ← exactInt (t0 - t3)
  let t11 ← exactInt (t1 + t2)
  let t12 ← exactInt (t1 - t2)
  let u1 ← exactMul (← exactInt (t12 + t13)) 4433
  let s2 ← exactInt (u1 + (← exactMul t13 6270))
  let s6 ← exactInt (u1 + (← exactMul t12 (-15137)))
  let u1 ← exactInt (t4 + t7)
  let u2 ← exactInt (t5 + t6)
  let u3 ← exactInt (t4 + t6)
  let u4 ← exactInt (t5 + t7)
  let z5 ← exactMul (← exactInt (u3 + u4)) 9633
  let t4 ← exactMul t4 2446
  let t5 ← exactMul t5 16819
  let t6 ← exactMul t6 25172
  let t7 ← exactMul t7 12299
  let u1 ← exactMul u1 (-7373)
  let u2 ← exactMul u2 (-20995)
  let u3 ← exactMul u3 (-16069)
  let u4 ← exactMul u4 (-3196)
  let u3 ← exactInt (u3 + z5)
  let u4 ← exactInt (u4 + z5)
  let s0 ← exactInt (t10 + t11)
  let s1 ← exactInt ((← exactInt (t7 + u1)) + u4)
  let s3 ← exactInt ((← exactInt (t6 + u2)) + u3)
  let s4 ← exactInt (t10 - t11)
  let s5 ← exactInt ((← exactInt (t5 + u2)) + u4)
  let s7 ← exactInt ((← exactInt (t4 + u1)) + u3)
  return [s0, s1, s2, s3, s4, s5, s6, s7]

def exactDct1D (s0 s1 s2 s3 s4 s5 s6 s7 : Int) : Option (List Int) := do
  let t0 ← exactInt (s0 + s7)
  let t7 ← exactInt (s0 - s7)
  let t1 ← exactInt (s1 + s6)
  let t6 ← exactInt (s1 - s6)
  let t2 ← exactInt (s2 + s5)
  let t5 ← exactInt (s2 - s5)
  let t3 ← exactInt (s3 + s4)
  let t4 ← exactInt (s3 - s4)
  exactButterfly t0 t1 t2 t3 t4 t5 t6 t7

def exactDescale (x : Int) (n : Nat) : Option Int := do
  return (← exactInt (x + 2 ^ (n - 1))) >>> n

def exactPass (even odd : Int → Option Int) (p : List Int) (first stride : Nat) :
    Option (List Int) := do
  let q (k : Nat) := p.getD (first + k * stride) 0
  let s ← exactDct1D (q 0) (q 1) (q 2) (q 3) (q 4) (q 5) (q 6) (q 7)
  s.zipIdx.mapM fun a => if a.2 % 4 = 0 then even a.1 else odd a.1

def exactRow (p : List Int) (c : Nat) : Option (List Int) :=
  exactPass (fun s => exactInt (s * 2 ^ 2)) (exactDescale · (13 - 2)) p (8 * c) 1

def exactColumn (p : List Int) (c : Nat) : Option (List Int) :=
  exactPass (exactDescale · (2 + 3)) (exactDescale · (13 + 2 + 3)) p c 8

def exactDct2D (p : List Int) : Option (List Int) := do
  let q := (← (List.range 8).mapM (exactRow p)).flatten
  let columns ← (List.range 8).mapM (exactColumn q)
  return (List.range 64).map fun n => (columns.getD (n % 8) []).getD (n / 8) 0

end Exact

section Butterfly

def butterfly (t0 t1 t2 t3 t4 t5 t6 t7 : Int) : List Int :=
  let u1 := (t1 - t2 + (t0 - t3)) * 4433
  let z5 := (t4 + t6 + (t5 + t7)) * 9633
  let v1 := (t4 + t7) * -7373
  let v2 := (t5 + t6) * -20995
  let v3 := (t4 + t6) * -16069 + z5
  let v4 := (t5 + t7) * -3196 + z5
  [t0 + t3 + (t1 + t2), t7 * 12299 + v1 + v4, u1 + (t0 - t3) * 6270, t6 * 25172 + v2 + v3,
    t0 + t3 - (t1 + t2), t5 * 16819 + v2 + v4, u1 + (t1 - t2) * -15137, t4 * 2446 + v1 + v3]

theorem exactMul_bind {f : Int → Option α} (h : -32768 ≤ var) (h' : var < 32768)
    (hc : -2147483648 ≤ var * c) (hc' : var * c < 2147483648) :
    exactMul var c >>= f = f (var * c) := by
  rw [exactMul, if_pos ⟨h, h'⟩, exactInt_bind hc hc']

theorem dctMul_eq (h : -32768 ≤ var) (h' : var < 32768) (c : Int) : dctMul var c = var * c := by
  rw [dctMul, int16_eq h h']

structure Paired (lo d t0 t1 t2 t3 t4 t5 t6 t7 : Int) : Prop where
  sum0 : 2 * lo ≤ t0 ∧ t0 ≤ 2 * lo + 2 * d
  sum1 : 2 * lo ≤ t1 ∧ t1 ≤ 2 * lo + 2 * d
  sum2 : 2 * lo ≤ t2 ∧ t2 ≤ 2 * lo + 2 * d
  sum3 : 2 * lo ≤ t3 ∧ t3 ≤ 2 * lo + 2 * d
  diff4 : -d ≤ t4 ∧ t4 ≤ d
  diff5 : -d ≤ t5 ∧ t5 ≤ d
  diff6 : -d ≤ t6 ∧ t6 ≤ d
  diff7 : -d ≤ t7 ∧ t7 ≤ d

variable {lo d t0 t1 t2 t3 t4 t5 t6 t7 : Int}

/-- The greatest operands of 16 bits are sums of four differences. -/
theorem exactButterfly_eq (h : Paired lo d t0 t1 t2 t3 t4 t5 t6 t7) (hlo : -4096 ≤ lo)
    (hlo' : lo ≤ 0) (hd : d ≤ 8160) :
    exactButterfly t0 t1 t2 t3 t4 t5 t6 t7 = some (butterfly t0 t1 t2 t3 t4 t5 t6 t7) := by
  obtain ⟨h0, h1, h2, h3, h4, h5, h6, h7⟩ := h
  have h10 : -16384 ≤ t0 + t3 ∧ t0 + t3 ≤ 32640 := by omega
  have h11 : -16384 ≤ t1 + t2 ∧ t1 + t2 ≤ 32640 := by omega
  have h13 : -16320 ≤ t0 - t3 ∧ t0 - t3 ≤ 16320 := by omega
  have h12 : -16320 ≤ t1 - t2 ∧ t1 - t2 ≤ 16320 := by omega
  have hu1 : -32640 ≤ t1 - t2 + (t0 - t3) ∧ t1 - t2 + (t0 - t3) ≤ 32640 := by omega
  have hz5 : -32640 ≤ t4 + t6 + (t5 + t7) ∧ t4 + t6 + (t5 + t7) ≤ 32640 := by omega
  replace h4 : -8160 ≤ t4 ∧ t4 ≤ 8160 := by omega
  replace h5 : -8160 ≤ t5 ∧ t5 ≤ 8160 := by omega
  replace h6 : -8160 ≤ t6 ∧ t6 ≤ 8160 := by omega
  replace h7 : -8160 ≤ t7 ∧ t7 ≤ 8160 := by omega
  -- what is left are the bounds of the operands
  clear h0 h1 h2 h3 hlo hlo' hd
  simp (disch := omega) only [exactButterfly, exactInt_bind, exactMul_bind]
  rfl

def Spread (lo d : Int) : Nat → Int → Prop
  | 0, s => 8 * lo ≤ s ∧ s ≤ 8 * lo + 8 * d
  | 4, s => -(4 * d) ≤ s ∧ s ≤ 4 * d
  | _, s => -(30274 * d) ≤ s ∧ s ≤ 30274 * d

theorem butterfly_spread (h : Paired lo d t0 t1 t2 t3 t4 t5 t6 t7) {k : Nat} {s : Int}
    (hk : (butterfly t0 t1 t2 t3 t4 t5 t6 t7)[k]? = some s) : Spread lo d k s := by
  obtain ⟨h0, h1, h2, h3, h4, h5, h6, h7⟩ := h
  match k with
  | 0 | 1 | 2 | 3 | 4 | 5 | 6 | 7 =>
    obtain rfl := Option.some.inj hk
    exact ⟨by omega, by omega⟩
  | k + 8 => simp [butterfly] at hk

theorem Paired.spread (h : Paired lo d t0 t1 t2 t3 t4 t5 t6 t7) {k : Nat} (hk : k < 8) :
    ∃ s, Spread lo d k s ∧ (butterfly t0 t1 t2 t3 t4 t5 t6 t7)[k]? = some s :=
  have hsome :=
    List.getElem?_eq_getElem (show k < (butterfly t0 t1 t2 t3 t4 t5 t6 t7).length from hk)
  ⟨_, butterfly_spread h hsome, hsome⟩

end Butterfly

section Pass

def Near (lo d : Int) (q : Nat → Int) : Prop := ∀ k < 8, lo ≤ q k ∧ q k ≤ lo + d

variable {lo d : Int} {q : Nat → Int}

theorem Near.paired (h : Near lo d q) : Paired lo d (q 0 + q 7) (q 1 + q 6) (q 2 + q 5) (q 3 + q 4)
    (q 3 - q 4) (q 2 - q 5) (q 1 - q 6) (q 0 - q 7) := by
  have h0 := h 0 (by decide)
  have h1 := h 1 (by decide)
  have h2 := h 2 (by decide)
  have h3 := h 3 (by decide)
  have h4 := h 4 (by decide)
  have h5 := h 5 (by decide)
  have h6 := h 6 (by decide)
  have h7 := h 7 (by decide)
  constructor <;> omega

theorem Near.exactDct1D (h : Near lo d q) (hlo : -4096 ≤ lo) (hlo' : lo ≤ 0) (hd : d ≤ 8160) :
    exactDct1D (q 0) (q 1) (q 2) (q 3) (q 4) (q 5) (q 6) (q 7) =
      some (butterfly (q 0 + q 7) (q 1 + q 6) (q 2 + q 5) (q 3 + q 4) (q 3 - q 4) (q 2 - q 5)
        (q 1 - q 6) (q 0 - q 7)) := by
  have hpaired := h.paired
  obtain ⟨h0, h1, h2, h3, h4, h5, h6, h7⟩ := h.paired
  simp (disch := omega) only [Jpge.exactDct1D, exactInt_bind]
  exact exactButterfly_eq hpaired hlo hlo' hd

theorem Near.dct1D (h : Near lo d q) (hd : d ≤ 8160) :
    dct1D (q 0) (q 1) (q 2) (q 3) (q 4) (q 5) (q 6) (q 7) =
      butterfly (q 0 + q 7) (q 1 + q 6) (q 2 + q 5) (q 3 + q 4) (q 3 - q 4) (q 2 - q 5)
        (q 1 - q 6) (q 0 - q 7) := by
  obtain ⟨h0, h1, h2, h3, h4, h5, h6, h7⟩ := h.paired
  simp (disch := omega) only [Jpge.dct1D, dctMul_eq]
  rfl

variable {even odd : Int → Int} {even' odd' : Int → Option Int} {p : List Int} {first stride : Nat}

theorem exactPass_eq (h : Near lo d fun k => p.getD (first + k * stride) 0) (hlo : -4096 ≤ lo)
    (hlo' : lo ≤ 0) (hd : d ≤ 8160)
    (heven : ∀ k s, Spread lo d k s → k % 4 = 0 → even' s = some (even s))
    (hodd : ∀ k s, Spread lo d k s → k % 4 ≠ 0 → odd' s = some (odd s)) :
    exactPass even' odd' p first stride = some (dctPass even odd p first stride) := by
  have hexact := h.exactDct1D hlo hlo' hd
  have hdct := h.dct1D hd
  simp only [exactPass, dctPass, hexact, hdct, List.mapIdx_eq_zipIdx_map]
  apply Dump.mapM_some
  rintro ⟨s, k⟩ hmem
  have hspread := butterfly_spread h.paired (List.mem_zipIdx_iff_getElem?.mp hmem)
  by_cases hk : k % 4 = 0
  · simp only [if_pos hk]
    exact heven k s hspread hk
  · simp only [if_neg hk]
    exact hodd k s hspread hk

theorem dctPass_spread (even odd : Int → Int)
    (h : Near lo d fun k => p.getD (first + k * stride) 0) (hd : d ≤ 8160) {k : Nat} (hk : k < 8) :
    ∃ s, Spread lo d k s ∧
      (dctPass even odd p first stride)[k]? = some (if k % 4 = 0 then even s else odd s) := by
  have hdct := h.dct1D hd
  obtain ⟨s, hspread, hs⟩ := h.paired.spread hk
  refine ⟨s, hspread, ?_⟩
  simp only [dctPass, hdct, List.getElem?_mapIdx, hs, Option.map_some]

end Pass

section Transform

theorem Spread.bounded {lo d s : Int} {k : Nat} (h : Spread lo d k s) (hlo : -4096 ≤ lo)
    (hlo' : lo ≤ 0) (hd : 0 ≤ d) (hd' : d ≤ 8160) : -247035840 ≤ s ∧ s ≤ 247035840 := by
  unfold Spread at h
  split at h <;> omega

theorem exactDescale_eq {s : Int} (hs : -247035840 ≤ s ∧ s ≤ 247035840) {n : Nat} (hn : n ≤ 18) :
    exactDescale s n = some (dctDescale s n) := by
  have hpow : (2 : Int) ^ (n - 1) ≤ 2 ^ 17 := pow_le_pow_right₀ (by decide) (by omega)
  have hpos : 0 < (2 : Int) ^ (n - 1) := Int.pow_pos (by decide)
  rw [exactDescale, exactInt_eq ⟨by omega, by omega⟩]
  rfl

def Samples (p : List Int) : Prop := ∀ v ∈ p, -128 ≤ v ∧ v ≤ 127

theorem Samples.getD {p : List Int} (hp : Samples p) (n : Nat) :
    -128 ≤ p.getD n 0 ∧ p.getD n 0 ≤ 127 := by
  rw [List.getD_eq_getElem?_getD]
  cases hv : p[n]? with
  | none => decide
  | some v => exact hp v (List.mem_of_getElem? hv)

variable {p q : List Int}

theorem Samples.row_near (hp : Samples p) (r : Nat) :
    Near (-128) 255 fun k => p.getD (8 * r + k * 1) 0 := by
  intro k _
  obtain ⟨hlow, hhigh⟩ := hp.getD (8 * r + k * 1)
  exact ⟨hlow, hhigh⟩

theorem exactRow_eq (hp : Samples p) (r : Nat) : exactRow p r = some (dctRow p r) := by
  refine exactPass_eq (hp.row_near r) (by decide) (by decide) (by decide) (fun k s hs _ => ?_)
    fun k s hs _ => ?_
  · have := hs.bounded (by decide) (by decide) (by decide) (by decide)
    exact exactInt_eq ⟨by omega, by omega⟩
  · exact exactDescale_eq (hs.bounded (by decide) (by decide) (by decide) (by decide)) (by decide)

def columnLow (c : Nat) : Int := if c = 0 then -4096 else -4080

theorem dctRow_column (hp : Samples p) (r : Nat) {c : Nat} (hc : c < 8) :
    ∃ v, (dctRow p r)[c]? = some v ∧ columnLow c ≤ v ∧ v ≤ columnLow c + 8160 := by
  obtain ⟨s, hs, hv⟩ := dctPass_spread (· * 2 ^ 2) (dctDescale · (13 - 2))
    (hp.row_near r) (by decide) hc
  have hdescale : dctDescale s (13 - 2) = (s + 1024) / 2048 := Int.shiftRight_eq_div_pow _ _
  refine ⟨_, hv, ?_⟩
  match c with
  | 0 | 4 =>
    obtain ⟨hlow, hhigh⟩ := hs
    exact ⟨by simp [columnLow]; omega, by simp [columnLow]; omega⟩
  | 1 | 2 | 3 | 5 | 6 | 7 =>
    obtain ⟨hlow, hhigh⟩ := hs
    simp [columnLow, hdescale]
    omega

theorem Samples.column_near (hp : Samples p) {c : Nat} (hc : c < 8) :
    Near (columnLow c) 8160 fun k => ((List.range 8).flatMap (dctRow p)).getD (c + k * 8) 0 := by
  intro k hk
  obtain ⟨v, hv, hbounds⟩ := dctRow_column hp k hc
  have hindex : c + k * 8 = 8 * k + c := by omega
  have hlength : ∀ r < 8, (dctRow p r).length = 8 := fun _ _ => rfl
  have hentry : ((List.range 8).flatMap (dctRow p)).getD (c + k * 8) 0 = v := by
    rw [hindex, List.getD_eq_getElem?_getD, Dump.rows_getElem? hlength hk hc, hv, Option.getD_some]
  simp only [hentry]
  exact hbounds

theorem columnLow_range (c : Nat) : -4096 ≤ columnLow c ∧ columnLow c ≤ 0 := by
  unfold columnLow
  split <;> decide

theorem exactColumn_eq (hp : Samples p) {c : Nat} (hc : c < 8) :
    exactColumn ((List.range 8).flatMap (dctRow p)) c =
      some (dctColumn ((List.range 8).flatMap (dctRow p)) c) := by
  obtain ⟨hlow, hhigh⟩ := columnLow_range c
  refine exactPass_eq (hp.column_near hc) hlow hhigh (by decide) (fun k s hs _ => ?_)
    fun k s hs _ => ?_
  · exact exactDescale_eq (hs.bounded hlow hhigh (by decide) (by decide)) (by decide)
  · exact exactDescale_eq (hs.bounded hlow hhigh (by decide) (by decide)) (by decide)

theorem exactDct2D_eq (hp : Samples p) : exactDct2D p = some (dct2D p) := by
  have hrows := Dump.mapM_some (l := List.range 8) fun r _ => exactRow_eq hp r
  have hcolumns := Dump.mapM_some (l := List.range 8) fun c hc =>
    exactColumn_eq hp (List.mem_range.mp hc)
  rw [List.flatMap_def] at hcolumns
  simp only [exactDct2D, hrows, Option.bind_eq_bind, Option.bind_some, hcolumns]
  rfl

theorem Spread.coefficient {c k : Nat} {s : Int} (hs : Spread (columnLow c) 8160 k s) (hk : k < 8)
    (hv : v = if k % 4 = 0 then dctDescale s (2 + 3) else dctDescale s (13 + 2 + 3)) :
    -1024 ≤ v ∧ v ≤ 1020 ∧ (c ≠ 0 ∨ k ≠ 0 → -1020 ≤ v) := by
  have heven : dctDescale s (2 + 3) = (s + 16) / 32 := Int.shiftRight_eq_div_pow _ _
  have hodd : dctDescale s (13 + 2 + 3) = (s + 131072) / 262144 := Int.shiftRight_eq_div_pow _ _
  rw [heven, hodd] at hv
  unfold columnLow at hs
  match k with
  | 0 =>
    obtain ⟨hlow, hhigh⟩ := hs
    rw [if_pos rfl] at hv
    by_cases hc : c = 0
    · rw [if_pos hc] at hlow hhigh
      omega
    · rw [if_neg hc] at hlow hhigh
      omega
  | 4 =>
    obtain ⟨hlow, hhigh⟩ := hs
    rw [if_pos rfl] at hv
    omega
  | 1 | 2 | 3 | 5 | 6 | 7 =>
    obtain ⟨hlow, hhigh⟩ := hs
    rw [if_neg (by decide)] at hv
    omega

theorem dctColumn_bounds (hp : Samples p) {c k : Nat} (hc : c < 8) (hk : k < 8) :
    ∃ v, (dctColumn ((List.range 8).flatMap (dctRow p)) c)[k]? = some v ∧
      -1024 ≤ v ∧ v ≤ 1020 ∧ (c ≠ 0 ∨ k ≠ 0 → -1020 ≤ v) := by
  obtain ⟨s, hs, hv⟩ := dctPass_spread (dctDescale · (2 + 3)) (dctDescale · (13 + 2 + 3))
    (hp.column_near hc) (by decide) hk
  exact ⟨_, hv, hs.coefficient hk rfl⟩

theorem dct2D_bounds (hp : Samples p) {n : Nat} (hn : n < 64) :
    ∃ v, (dct2D p)[n]? = some v ∧ -1024 ≤ v ∧ v ≤ 1020 ∧ (n ≠ 0 → -1020 ≤ v) := by
  obtain ⟨v, hv, hlow, hhigh, hother⟩ :=
    dctColumn_bounds hp (Nat.mod_lt n (by decide)) (Nat.div_lt_of_lt_mul (show n < 8 * 8 from hn))
  refine ⟨v, ?_, hlow, hhigh, fun hne => hother (by omega)⟩
  simp only [dct2D, List.getElem?_map, List.getElem?_range hn, Option.map_some,
    List.getD_eq_getElem?_getD, List.getElem?_range (Nat.mod_lt n (show 0 < 8 by decide)),
    Option.getD_some, hv]

end Transform

section Quantized

theorem quantEntry_range (quality src : Int) :
    1 ≤ quantEntry quality src ∧ quantEntry quality src ≤ 255 := by
  rw [quantEntry]
  omega

theorem roundDiv_le {a q : Int} (ha : 0 ≤ a) (hq : 1 ≤ q) :
    0 ≤ (a + (q >>> (1 : Nat))).tdiv q ∧ (a + (q >>> (1 : Nat))).tdiv q ≤ a := by
  have hhalf : q >>> (1 : Nat) = q / 2 := Int.shiftRight_eq_div_pow _ _
  have hnonneg : 0 ≤ a + q / 2 := by omega
  have hmul : a * 1 ≤ a * q := Int.mul_le_mul_of_nonneg_left hq ha
  have hless : a + q / 2 < (a + 1) * q := by
    rw [Int.add_mul, Int.one_mul]
    omega
  rw [hhalf, Int.tdiv_eq_ediv_of_nonneg hnonneg]
  exact ⟨Int.ediv_nonneg hnonneg (by omega),
    Int.lt_add_one_iff.mp (Int.ediv_lt_of_lt_mul (by omega) hless)⟩

theorem quantize_range {j q lo hi : Int} (hq : 1 ≤ q) (hj : lo ≤ j ∧ j ≤ hi) (hlo : -32768 ≤ lo)
    (hlo' : lo ≤ 0) (hhi : 0 ≤ hi) (hhi' : hi < 32768) : lo ≤ quantize j q ∧ quantize j q ≤ hi := by
  rw [quantize]
  by_cases hneg : j < 0
  · have hround := roundDiv_le (show 0 ≤ -j by omega) hq
    simp only [if_pos hneg]
    split
    · omega
    · rw [int16_eq (by omega) (by omega)]
      omega
  · have hround := roundDiv_le (show 0 ≤ j by omega) hq
    simp only [if_neg hneg]
    split
    · omega
    · rw [int16_eq (by omega) (by omega)]
      omega

def quantized (quality : Int) (chroma : Bool) (p : List Int) : Block :=
  loadQuantizedCoefficients
    (computeQuantTable quality (if chroma then sStdCromaQuant else sStdLumQuant)) (dct2D p)

variable {p : List Int}

theorem quantTable_pos (quality : Int) (chroma : Bool) {i : Nat} (hi : i < 64) :
    1 ≤ (computeQuantTable quality (if chroma then sStdCromaQuant else sStdLumQuant)).getD i 0 := by
  have hlength : (if chroma then sStdCromaQuant else sStdLumQuant).length = 64 := by
    cases chroma <;> rfl
  have hi' : i < (if chroma then sStdCromaQuant else sStdLumQuant).length := hlength ▸ hi
  rw [computeQuantTable, List.getD_eq_getElem?_getD, List.getElem?_map,
    List.getElem?_eq_getElem hi', Option.map_some, Option.getD_some]
  exact (quantEntry_range _ _).1

theorem sZag_range {i : Nat} (hi : i < 64) : sZag.getD i 0 < 64 ∧ (i ≠ 0 → sZag.getD i 0 ≠ 0) := by
  revert i
  decide

theorem quantized_getElem? (hp : Samples p) (quality : Int) (chroma : Bool) {i : Nat} {v : Int}
    (hv : (quantized quality chroma p).val[i]? = some v) :
    -1024 ≤ v ∧ v ≤ 1020 ∧ (i ≠ 0 → -1020 ≤ v) := by
  obtain ⟨hi, -⟩ := List.getElem?_eq_some_iff.mp hv
  rw [(quantized quality chroma p).property] at hi
  obtain ⟨hzag, hfirst⟩ := sZag_range hi
  obtain ⟨s, hs, hlow, hhigh, hother⟩ := dct2D_bounds hp hzag
  have hq := quantTable_pos quality chroma hi
  simp only [quantized, loadQuantizedCoefficients, List.getElem?_map, List.getElem?_range hi,
    Option.map_some, List.getD_eq_getElem?_getD (l := dct2D p), hs, Option.getD_some,
    Option.some.injEq] at hv
  rw [← hv]
  by_cases hzero : i = 0
  · have := quantize_range hq ⟨hlow, hhigh⟩ (by decide) (by decide) (by decide) (by decide)
    exact ⟨this.1, this.2, fun hne => absurd hzero hne⟩
  · have := quantize_range hq ⟨hother (hfirst hzero), hhigh⟩ (by decide) (by decide) (by decide)
      (by decide)
    exact ⟨by omega, this.2, fun _ => this.1⟩

theorem quantized_inRange (hp : Samples p) (quality : Int) (chroma : Bool) :
    (quantized quality chroma p).InRange := by
  have hlength := (quantized quality chroma p).property
  constructor
  · have hfirst :=
      List.getElem?_eq_getElem (show 0 < (quantized quality chroma p).val.length by omega)
    have hbounds := quantized_getElem? hp quality chroma hfirst
    rw [List.headD_eq_head?_getD, List.head?_eq_getElem?, hfirst, Option.getD_some]
    omega
  · intro v hv
    obtain ⟨i, hi⟩ := List.getElem?_of_mem hv
    rw [List.getElem?_tail] at hi
    have hbounds := quantized_getElem? hp quality chroma hi
    omega

variable {h : Bool → Bool → HuffTable}
  (hcanonical : ∀ ac chroma, Canonical (h ac chroma) (mHuffBits ac chroma) (mHuffVal ac chroma))

include hcanonical

theorem dc_codeSizes (chroma : Bool) {size : Nat} (hsize : size ≤ 11) :
    (h false chroma).codeSizes size ≠ 0 := by
  obtain ⟨s, hs, rfl⟩ := dc_symbol chroma hsize
  exact (hcanonical false chroma).codeSizes_ne_zero hs

theorem ac_codeSizes (chroma : Bool) (run size : Nat) (hrun : run < 16) (hsize : size ≤ 10)
    (hzero : size = 0 → run = 0 ∨ run = 15) : (h true chroma).codeSizes (16 * run + size) ≠ 0 := by
  obtain ⟨s, hs, heq⟩ := ac_symbol chroma hrun hsize hzero
  rw [← heq]
  exact (hcanonical true chroma).codeSizes_ne_zero hs

end Quantized

/-- For samples of eight bits the transform is exact, and whatever the quality, every coefficient
and every difference to an earlier first coefficient has a code. -/
theorem coefficients_have_codes {p : List Int} (hp : Samples p) :
    exactDct2D p = some (dct2D p) ∧
    (∀ (n : Nat) v, (dct2D p)[n]? = some v →
      if n = 0 then -1024 ≤ v ∧ v ≤ 1023 else -1023 ≤ v ∧ v ≤ 1023) ∧
    ∃ fuel h, mHuffTables fuel = some h ∧ ∀ (quality : Int) (chroma : Bool),
      let block := quantized quality chroma p
      (∀ pred, pred = 0 ∨ (∃ quality' p', Samples p' ∧
          pred = (quantized quality' chroma p').val.headD 0) →
        let size := Nat.size (block.val.headD 0 - pred).natAbs
        size ≤ 11 ∧ (h false chroma).codeSizes size ≠ 0) ∧
      (∀ v ∈ block.val.tail, v ≠ 0 → Nat.size v.natAbs ≤ 10 ∧
        ∀ run < 16, (h true chroma).codeSizes (16 * run + Nat.size v.natAbs) ≠ 0) ∧
      (h true chroma).codeSizes 0xF0 ≠ 0 ∧ (h true chroma).codeSizes 0 ≠ 0 := by
  refine ⟨exactDct2D_eq hp, fun n v hv => ?_, ?_⟩
  · have hn : n < 64 := by
      have := (List.getElem?_eq_some_iff.mp hv).1
      simpa [dct2D] using this
    obtain ⟨v', hv', hbounds⟩ := dct2D_bounds hp hn
    obtain rfl := Option.some.inj (hv.symm.trans hv')
    split <;> omega
  · obtain ⟨fuel, h, hfuel, hcanonical⟩ := mHuffTables_ends
    refine ⟨fuel, h, hfuel, fun quality chroma =>
      ⟨fun pred hpred => ?_, fun v hv hne => ?_, ?_, ?_⟩⟩
    · have hfirst := (quantized_inRange hp quality chroma).first
      have hpred' : -1024 ≤ pred ∧ pred ≤ 1023 := by
        rcases hpred with rfl | ⟨quality', p', hp', rfl⟩
        · decide
        · exact (quantized_inRange hp' quality' chroma).first
      have hsize : Nat.size ((quantized quality chroma p).val.headD 0 - pred).natAbs ≤ 11 :=
        Nat.size_le.mpr (by omega)
      exact ⟨hsize, dc_codeSizes hcanonical chroma hsize⟩
    · have hrange := (quantized_inRange hp quality chroma).rest v hv
      have hsize : Nat.size v.natAbs ≤ 10 := Nat.size_le.mpr (by omega)
      exact ⟨hsize, fun run hrun => ac_codeSizes hcanonical chroma run _ hrun hsize fun h =>
        absurd h (size_ne_zero hne)⟩
    · exact ac_codeSizes hcanonical chroma 15 0 (by decide) (by decide) fun _ => .inr rfl
    · exact ac_codeSizes hcanonical chroma 0 0 (by decide) (by decide) fun _ => .inl rfl

def checkerboard : List Int :=
  (List.range 64).map fun n => if (n + n / 8) % 2 = 0 then -128 else 127

theorem checkerboard_has_codes : exactDct2D checkerboard = some (dct2D checkerboard) ∧
    ∃ fuel h, mHuffTables fuel = some h ∧ ∀ v ∈ (quantized 100 false checkerboard).val.tail, v ≠ 0 →
      (h true false).codeSizes (Nat.size v.natAbs) ≠ 0 := by
  obtain ⟨hexact, -, fuel, h, hfuel, hcodes⟩ := coefficients_have_codes
    (show Samples checkerboard by unfold Samples; decide)
  refine ⟨hexact, fuel, h, hfuel, fun v hv hne => ?_⟩
  have hcode := ((hcodes 100 false).2.1 v hv hne).2 0 (by decide)
  rwa [Nat.mul_zero, Nat.zero_add] at hcode

end Mangoxx.Jpge
