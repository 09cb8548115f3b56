import Mangoxx.Jpge.PutBits
import Mangoxx.Jpge.Tables
import Mathlib.Data.Nat.Size

namespace Mangoxx.Jpge

open Mangoxx.Lib BitString

abbrev Block := { coefficients : List Int // coefficients.length = 64 }

def countBits (temp1 nbits : Nat) : Nat :=
  if temp1 = 0 then nbits else countBits (temp1 >>> 1) (nbits + 1)
termination_by temp1
decreasing_by
  rw [Nat.shiftRight_eq_div_pow]
  omega

def countMore (temp1 nbits : Nat) : Nat :=
  if temp1 >>> 1 = 0 then nbits else countMore (temp1 >>> 1) (nbits + 1)
termination_by temp1
decreasing_by
  rw [Nat.shiftRight_eq_div_pow] at *
  omega

def lowBits (temp : Int) (nbits : Nat) : Nat := (temp % 2 ^ nbits).toNat

namespace Encoder

def putCode (t : HuffTable) (symbol : Nat) (e : Encoder) : Encoder :=
  putBits (t.codes symbol) (t.codeSizes symbol) e

def putRuns (ac : HuffTable) (runLen : Nat) (e : Encoder) : Nat × Encoder :=
  if 16 ≤ runLen then putRuns ac (runLen - 16) (putCode ac 0xF0 e) else (runLen, e)

def codeAc (ac : HuffTable) : (coefficients : List Int) → (runLen : Nat) → Encoder → Encoder
  | [], runLen, e => if runLen ≠ 0 then putCode ac 0 e else e
  | temp1 :: rest, runLen, e =>
    if temp1 = 0 then codeAc ac rest (runLen + 1) e
    else
      let (runLen, e) := putRuns ac runLen e
      let (temp1, temp2) := if temp1 < 0 then (-temp1, temp1 - 1) else (temp1, temp1)
      let nbits := countMore temp1.toNat 1
      let j := (runLen <<< 4) + nbits
      codeAc ac rest 0 (putBits (lowBits temp2 nbits) nbits (putCode ac j e))

def codeCoefficientsPassTwo (h : Bool → Bool → HuffTable) (componentNum : Nat) (block : Block)
    (e : Encoder) : Encoder :=
  let chroma : Bool := componentNum ≠ 0
  let first := block.val.headD 0
  let temp1 := first - e.mLastDcVal componentNum
  let e := { e with mLastDcVal := Function.update e.mLastDcVal componentNum first }
  let (temp1, temp2) := if temp1 < 0 then (-temp1, temp1 - 1) else (temp1, temp1)
  let nbits := countBits temp1.toNat 0
  let e := putCode (h false chroma) nbits e
  let e := if nbits ≠ 0 then putBits (lowBits temp2 nbits) nbits e else e
  codeAc (h true chroma) block.val.tail 0 e

def codeBlocks (h : Bool → Bool → HuffTable) (blocks : List (Nat × Block)) (e : Encoder) :
    Encoder :=
  blocks.foldl (fun e b => e.codeCoefficientsPassTwo h b.1 b.2) e

/-- `lastRow` are the blocks of the row of MCUs that `process_mcu_row` codes if lines have come in
for it. -/
def processEndOfImage (h : Bool → Bool → HuffTable) (lastRow : List (Nat × Block)) (e : Encoder) :
    Encoder :=
  let e := if e.mMcuYOfs ≠ 0 then e.codeBlocks h lastRow else e
  let e := e.putBits 0x7F 7
  let out := ((e.out.emitMarker 0xD9).flushOutputBuffer).putBuf none
  { e with out := out, mPassNum := (e.mPassNum + 1) % 256 }

end Encoder

section Sizes

theorem size_half {n : Nat} (h : n ≠ 0) : Nat.size n = Nat.size (n >>> 1) + 1 := by
  apply eq_of_forall_lt_iff
  intro m
  rw [Nat.shiftRight_eq_div_pow, pow_one, Nat.lt_size]
  cases m with
  | zero => simp [Nat.one_le_iff_ne_zero, h]
  | succ m => rw [Nat.succ_lt_succ_iff, Nat.lt_size, Nat.le_div_iff_mul_le (by decide), pow_succ]

theorem size_ne_zero {v : Int} (hv : v ≠ 0) : Nat.size v.natAbs ≠ 0 :=
  mt Nat.size_eq_zero.mp (mt Int.natAbs_eq_zero.mp hv)

theorem countBits_eq (n k : Nat) : countBits n k = k + Nat.size n := by
  induction n using Nat.strongRecOn generalizing k with
  | ind n ih =>
    rw [countBits]
    by_cases hn : n = 0
    · simp [hn]
    · have hless : n >>> 1 < n := by
        rw [Nat.shiftRight_eq_div_pow]
        omega
      rw [if_neg hn, ih _ hless, size_half hn]
      omega

theorem countMore_eq {n : Nat} (h : n ≠ 0) (k : Nat) : countMore n k + 1 = k + Nat.size n := by
  induction n using Nat.strongRecOn generalizing k with
  | ind n ih =>
    rw [countMore, size_half h]
    by_cases hn : n >>> 1 = 0
    · simp [hn]
    · have hless : n >>> 1 < n := by
        rw [Nat.shiftRight_eq_div_pow]
        omega
      rw [if_neg hn, ih _ hless hn]
      omega

end Sizes

def valueBits (v : Int) : List Bool :=
  let nbits := Nat.size v.natAbs
  toBits nbits (lowBits (if v < 0 then v - 1 else v) nbits)

theorem lowBits_lt (temp : Int) (nbits : Nat) : lowBits temp nbits < 2 ^ nbits := by
  have hpow : (2 : Int) ^ nbits = (2 ^ nbits : Nat) := by simp
  have hpos := Nat.two_pow_pos nbits
  have hlt := Int.emod_lt_of_pos temp (show (0 : Int) < (2 ^ nbits : Nat) by omega)
  rw [lowBits, hpow]
  omega

theorem sign_split (v : Int) : (if v < 0 then (-v, v - 1) else (v, v)) =
    ((v.natAbs : Int), if v < 0 then v - 1 else v) := by
  split
  · simp only [Prod.mk.injEq, and_true]
    omega
  · simp only [Prod.mk.injEq, and_true]
    omega

theorem valueBits_zero : valueBits 0 = [] := rfl

def acBits (ac : HuffTable) : (coefficients : List Int) → (runLen : Nat) → List Bool
  | [], runLen => if runLen = 0 then [] else codeBits ac 0
  | v :: rest, runLen =>
    if v = 0 then acBits ac rest (runLen + 1)
    else (List.replicate (runLen / 16) (codeBits ac 0xF0)).flatten ++
      (codeBits ac (16 * (runLen % 16) + Nat.size v.natAbs) ++ (valueBits v ++ acBits ac rest 0))

def dcBits (dc : HuffTable) (diff : Int) : List Bool :=
  codeBits dc (Nat.size diff.natAbs) ++ valueBits diff

def blocksBits (h : Bool → Bool → HuffTable) : (blocks : List (Nat × Block)) → (pred : Nat → Int) →
    List Bool
  | [], _ => []
  | (c, block) :: blocks, pred =>
    dcBits (h false (c ≠ 0)) (block.val.headD 0 - pred c) ++
      (acBits (h true (c ≠ 0)) block.val.tail 0 ++
        blocksBits h blocks (Function.update pred c (block.val.headD 0)))

namespace Encoder

def CodesFit (t : HuffTable) : Prop := ∀ n, t.codes n < 2 ^ t.codeSizes n ∧ t.codeSizes n ≤ 16

variable {t ac : HuffTable}

theorem putCode_puts (ht : CodesFit t) (symbol : Nat) (e : Encoder) :
    Puts e (codeBits t symbol) (putCode t symbol e) :=
  putBits_puts e (ht symbol).1 (ht symbol).2

theorem putValue_puts {v : Int} (hv : v.natAbs < 2 ^ 16) (e : Encoder) :
    Puts e (valueBits v)
      (putBits (lowBits (if v < 0 then v - 1 else v) (Nat.size v.natAbs)) (Nat.size v.natAbs) e) :=
  putBits_puts e (lowBits_lt _ _) (Nat.size_le.mpr hv)

theorem putRuns_puts (hac : CodesFit ac) (runLen : Nat) (e : Encoder) :
    (putRuns ac runLen e).1 = runLen % 16 ∧
      Puts e (List.replicate (runLen / 16) (codeBits ac 0xF0)).flatten (putRuns ac runLen e).2 ∧
      (putRuns ac runLen e).2.mLastDcVal = e.mLastDcVal := by
  induction runLen using Nat.strongRecOn generalizing e with
  | ind n ih =>
    rw [putRuns]
    by_cases hn : 16 ≤ n
    · obtain ⟨hrest, hputs, hlast⟩ := ih (n - 16) (by omega) (putCode ac 0xF0 e)
      have hdiv : n / 16 = (n - 16) / 16 + 1 := by omega
      rw [if_pos hn, hdiv, List.replicate_succ, List.flatten_cons]
      refine ⟨by omega, (putCode_puts hac 0xF0 e).trans hputs, ?_⟩
      rw [hlast, putCode, putBits_mLastDcVal]
    · have hdiv : n / 16 = 0 := by omega
      rw [if_neg hn, hdiv]
      exact ⟨by omega, .nil rfl rfl rfl rfl, rfl⟩

theorem codeAc_puts (hac : CodesFit ac) {coefficients : List Int}
    (hrange : ∀ v ∈ coefficients, v.natAbs < 2 ^ 16) (runLen : Nat) (e : Encoder) :
    Puts e (acBits ac coefficients runLen) (codeAc ac coefficients runLen e) ∧
      (codeAc ac coefficients runLen e).mLastDcVal = e.mLastDcVal := by
  induction coefficients generalizing runLen e with
  | nil =>
    rw [acBits, codeAc]
    by_cases hrun : runLen = 0
    · simpa [hrun] using Puts.nil rfl rfl rfl rfl
    · simpa [hrun, putCode] using putCode_puts hac 0 e
  | cons v rest ih =>
    obtain ⟨hv, hrest⟩ := List.forall_mem_cons.mp hrange
    rw [acBits, codeAc]
    by_cases hzero : v = 0
    · rw [if_pos hzero, if_pos hzero]
      exact ih hrest (runLen + 1) e
    · obtain ⟨hmod, hruns, hlast⟩ := putRuns_puts hac runLen e
      have hsize : countMore v.natAbs 1 = Nat.size v.natAbs := by
        have := countMore_eq (show v.natAbs ≠ 0 by omega) 1
        omega
      have hj : ((runLen % 16) <<< 4) + Nat.size v.natAbs =
          16 * (runLen % 16) + Nat.size v.natAbs := by
        rw [Nat.shiftLeft_eq, Nat.mul_comm]
      rw [if_neg hzero, if_neg hzero]
      simp only [hmod, sign_split, Int.toNat_natCast, hsize, hj]
      have hcode :=
        putCode_puts hac (16 * (runLen % 16) + Nat.size v.natAbs) (putRuns ac runLen e).2
      have hvalue := putValue_puts hv
        (putCode ac (16 * (runLen % 16) + Nat.size v.natAbs) (putRuns ac runLen e).2)
      obtain ⟨hac', hlast'⟩ := ih hrest 0 (putBits _ _
        (putCode ac (16 * (runLen % 16) + Nat.size v.natAbs) (putRuns ac runLen e).2))
      refine ⟨hruns.trans (hcode.trans (hvalue.trans hac')), ?_⟩
      rw [hlast', putBits_mLastDcVal, putCode, putBits_mLastDcVal, hlast]

theorem codeDc_puts {dc : HuffTable} (hdc : CodesFit dc) {diff : Int} (hdiff : diff.natAbs < 2 ^ 16)
    (e : Encoder) :
    let nbits := Nat.size diff.natAbs
    let low := lowBits (if diff < 0 then diff - 1 else diff) nbits
    let e' := putCode dc nbits e
    let e'' := if nbits ≠ 0 then putBits low nbits e' else e'
    Puts e (dcBits dc diff) e'' ∧ e''.mLastDcVal = e.mLastDcVal := by
  intro nbits low e' e''
  have hcode : Puts e (codeBits dc nbits) e' := putCode_puts hdc nbits e
  have hlast : e'.mLastDcVal = e.mLastDcVal := putBits_mLastDcVal e _ _
  by_cases hzero : nbits = 0
  · have hvalue : valueBits diff = [] := by
      rw [Int.natAbs_eq_zero.mp (Nat.size_eq_zero.mp hzero), valueBits_zero]
    have he : e'' = e' := if_neg (not_not.mpr hzero)
    rw [dcBits, hvalue, List.append_nil, he]
    exact ⟨hcode, hlast⟩
  · have he : e'' = putBits low nbits e' := if_pos hzero
    rw [he, dcBits]
    exact ⟨hcode.trans (putValue_puts hdiff e'), by rw [putBits_mLastDcVal, hlast]⟩

end Encoder

/-- The coefficients that eight-bit samples can have. -/
structure Block.InRange (block : Block) : Prop where
  first : -1024 ≤ block.val.headD 0 ∧ block.val.headD 0 ≤ 1023
  rest : ∀ v ∈ block.val.tail, -1023 ≤ v ∧ v ≤ 1023

theorem Block.InRange.update {block : Block} (hblock : block.InRange) {pred : Nat → Int}
    (hpred : ∀ c, -1024 ≤ pred c ∧ pred c ≤ 1023) (c c' : Nat) :
    -1024 ≤ Function.update pred c (block.val.headD 0) c' ∧
      Function.update pred c (block.val.headD 0) c' ≤ 1023 := by
  by_cases hc : c' = c
  · rw [hc, Function.update_self]
    exact hblock.first
  · rw [Function.update_of_ne hc]
    exact hpred c'

namespace Encoder

variable {h : Bool → Bool → HuffTable}

theorem codeCoefficientsPassTwo_puts (hfit : ∀ ac chroma, CodesFit (h ac chroma)) {block : Block}
    (hblock : block.InRange) (c : Nat) (e : Encoder) {pred : Nat → Int}
    (hpred : e.mLastDcVal = pred) (hc : -1024 ≤ pred c ∧ pred c ≤ 1023) :
    Puts e (dcBits (h false (c ≠ 0)) (block.val.headD 0 - pred c) ++
        acBits (h true (c ≠ 0)) block.val.tail 0)
      (codeCoefficientsPassTwo h c block e) ∧
    (codeCoefficientsPassTwo h c block e).mLastDcVal =
      Function.update pred c (block.val.headD 0) := by
  subst hpred
  obtain ⟨hfirst, hrest⟩ := hblock
  have hac : ∀ v ∈ block.val.tail, v.natAbs < 2 ^ 16 := fun v hv => by
    have := hrest v hv
    omega
  have hstart : Puts e []
    { e with mLastDcVal := Function.update e.mLastDcVal c (block.val.headD 0) } :=
      .nil rfl rfl rfl rfl
  obtain ⟨hdc, hlast⟩ := codeDc_puts (hfit false (c ≠ 0))
    (show (block.val.headD 0 - e.mLastDcVal c).natAbs < 2 ^ 16 by omega)
    { e with mLastDcVal := Function.update e.mLastDcVal c (block.val.headD 0) }
  rw [codeCoefficientsPassTwo]
  simp only [sign_split, Int.toNat_natCast, countBits_eq, Nat.zero_add]
  obtain ⟨hputs, hlast'⟩ := codeAc_puts (hfit true (c ≠ 0)) hac 0 _
  have hall := hstart.trans (hdc.trans hputs)
  rw [List.nil_append] at hall
  exact ⟨hall, hlast'.trans hlast⟩

theorem codeBlocks_append (blocks blocks' : List (Nat × Block)) (e : Encoder) :
    codeBlocks h (blocks ++ blocks') e = codeBlocks h blocks' (codeBlocks h blocks e) :=
  List.foldl_append

theorem codeBlocks_puts (hfit : ∀ ac chroma, CodesFit (h ac chroma)) {blocks : List (Nat × Block)}
    (hblocks : ∀ b ∈ blocks, b.2.InRange) (e : Encoder) {pred : Nat → Int}
    (hpred : e.mLastDcVal = pred) (hrange : ∀ c, -1024 ≤ pred c ∧ pred c ≤ 1023) :
    Puts e (blocksBits h blocks pred) (codeBlocks h blocks e) := by
  induction blocks generalizing e pred with
  | nil => exact .nil rfl rfl rfl rfl
  | cons b blocks ih =>
    obtain ⟨c, block⟩ := b
    obtain ⟨hblock, hrest⟩ := List.forall_mem_cons.mp hblocks
    obtain ⟨hputs, hlast⟩ := codeCoefficientsPassTwo_puts hfit hblock c e hpred (hrange c)
    rw [blocksBits, ← List.append_assoc]
    exact hputs.trans (ih hrest _ hlast (hblock.update hrange c))

end Encoder

end Mangoxx.Jpge
