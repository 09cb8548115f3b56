import Mathlib.Data.List.Nodup
import Mathlib.Data.Nat.Bitwise

namespace Mangoxx.Lib.Bits

theorem and_high (h : x < 2 ^ w) (hk : k ≤ w) : x &&& (2 ^ w - 2 ^ k) = x / 2 ^ k * 2 ^ k := by
  have hmask : 2 ^ w - 2 ^ k = (2 ^ (w - k) - 1) <<< k := by
    rw [Nat.shiftLeft_eq, Nat.sub_mul, ← Nat.pow_add, Nat.sub_add_cancel hk, Nat.one_mul]
  apply Nat.eq_of_testBit_eq
  intro i
  rw [hmask, ← Nat.shiftRight_eq_div_pow, ← Nat.shiftLeft_eq, Nat.testBit_and,
    Nat.testBit_shiftLeft, Nat.testBit_shiftLeft, Nat.testBit_two_pow_sub_one,
    Nat.testBit_shiftRight]
  by_cases hi : k ≤ i
  · by_cases hw : i < w
    · have hlow : i - k < w - k := by omega
      simp [hi, hlow]
    · have hzero : x.testBit i = false :=
        Nat.testBit_lt_two_pow (h.trans_le (Nat.pow_le_pow_right (by decide) (by omega)))
      simp [hi, hzero]
  · simp [hi]

theorem forall_byte {P : UInt8 → Prop} (h : ∀ n < 256, P (.ofNat n)) (b : UInt8) : P b := by
  have hb := h b.toNat b.toNat_lt
  rwa [UInt8.ofNat_toNat] at hb

def mask : List UInt8 → Nat
  | [] => 0
  | b :: bs => mask bs ||| 1 <<< b.toNat

def distinct : (seen : Nat) → List UInt8 → Bool
  | _, [] => true
  | seen, b :: bs => !seen.testBit b.toNat && distinct (seen ||| 1 <<< b.toNat) bs

theorem testBit_insert (m k n : Nat) :
    (m ||| 1 <<< k).testBit n = true ↔ m.testBit n = true ∨ k = n := by
  rw [Nat.testBit_or, Nat.one_shiftLeft, Nat.testBit_two_pow]
  simp

theorem testBit_mask {bytes : List UInt8} :
    (mask bytes).testBit n = true ↔ ∃ b ∈ bytes, b.toNat = n := by
  induction bytes with
  | nil => simp [mask]
  | cons b bytes ih =>
    rw [mask, testBit_insert, ih, List.exists_mem_cons_iff]
    exact or_comm

theorem nodup_of_distinct {seen : Nat} {bytes : List UInt8} (h : distinct seen bytes = true) :
    bytes.Nodup ∧ ∀ b ∈ bytes, ¬ seen.testBit b.toNat = true := by
  induction bytes generalizing seen with
  | nil => simp
  | cons b bytes ih =>
    obtain ⟨hb, hrest⟩ := Bool.and_eq_true_iff.mp h
    obtain ⟨hnodup, hseen⟩ := ih hrest
    have hother : ∀ c ∈ bytes, ¬ seen.testBit c.toNat = true ∧ b.toNat ≠ c.toNat := fun c hc =>
      not_or.mp (mt (testBit_insert _ _ _).mpr (hseen c hc))
    refine ⟨List.nodup_cons.mpr ⟨fun hmem => (hother b hmem).2 rfl, hnodup⟩, ?_⟩
    rw [List.forall_mem_cons]
    exact ⟨by simpa using hb, fun c hc => (hother c hc).1⟩

end Mangoxx.Lib.Bits
