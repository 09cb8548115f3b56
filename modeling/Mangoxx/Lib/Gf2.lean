import Mangoxx.Lib.BitString
import Mathlib.Algebra.Field.ZMod
import Mathlib.Data.Nat.Size
import Mathlib.RingTheory.AdjoinRoot

namespace Mangoxx.Lib.Gf2

open Polynomial BitString

noncomputable section

/-- The polynomial whose coefficients are the bits of the number. -/
def poly (n : Nat) : (ZMod 2)[X] := ∑ i ∈ Finset.range n.size, if n.testBit i then X ^ i else 0

theorem coeff_poly (n i : Nat) : (poly n).coeff i = if n.testBit i then 1 else 0 := by
  have hterm : ∀ j, (if n.testBit j then X ^ j else 0 : (ZMod 2)[X]).coeff i =
      if i = j then (if n.testBit j then 1 else 0) else 0 := by
    intro j
    split_ifs <;> simp_all [coeff_X_pow]
  rw [poly, finsetSum_coeff, Finset.sum_congr rfl fun j _ => hterm j, Finset.sum_ite_eq]
  by_cases hi : i < n.size
  · rw [if_pos (Finset.mem_range.mpr hi)]
  · have hlow : n < 2 ^ i := Nat.size_le.mp (Nat.le_of_not_lt hi)
    rw [if_neg (mt Finset.mem_range.mp hi), Nat.testBit_lt_two_pow hlow]
    rfl

@[simp] theorem poly_zero : poly 0 = 0 := by
  ext i
  simp [coeff_poly]

theorem poly_xor (m n : Nat) : poly (m ^^^ n) = poly m + poly n := by
  ext i
  rw [coeff_add, coeff_poly, coeff_poly, coeff_poly, Nat.testBit_xor]
  cases m.testBit i <;> cases n.testBit i <;> decide

theorem poly_two_pow (k : Nat) : poly (2 ^ k) = X ^ k := by
  ext i
  rw [coeff_poly, Nat.testBit_two_pow, coeff_X_pow]
  simp [eq_comm]

theorem poly_shiftLeft (n k : Nat) : poly (n <<< k) = X ^ k * poly n := by
  ext i
  rw [coeff_poly, Nat.testBit_shiftLeft, coeff_X_pow_mul', coeff_poly]
  by_cases hk : k ≤ i <;> simp [hk]

theorem poly_split (n w : Nat) : poly n = X ^ w * poly (n >>> w) + poly (n % 2 ^ w) := by
  ext i
  rw [coeff_add, coeff_X_pow_mul', coeff_poly, coeff_poly, coeff_poly, Nat.testBit_mod_two_pow,
    Nat.testBit_shiftRight]
  by_cases hi : w ≤ i
  · simp [hi, Nat.add_sub_cancel' hi, Nat.not_lt.mpr hi]
  · simp [hi, Nat.lt_of_not_le hi]

theorem degree_poly_lt {n w : Nat} (h : n < 2 ^ w) : (poly n).degree < w := by
  rw [degree_lt_iff_coeff_zero]
  intro i hi
  rw [coeff_poly, Nat.testBit_lt_two_pow (h.trans_le (Nat.pow_le_pow_right (by decide) hi))]
  rfl

theorem poly_injective : Function.Injective poly := by
  intro m n h
  apply Nat.eq_of_testBit_eq
  intro i
  have hcoeff := congrArg (coeff · i) h
  simp only [coeff_poly] at hcoeff
  cases hm : m.testBit i <;> cases hn : n.testBit i <;> simp_all

/-- Every string of bits read as a number, the most significant bit first. -/
theorem poly_ofBits_append (as bs : List Bool) :
    poly (ofBits (as ++ bs)) = X ^ bs.length * poly (ofBits as) + poly (ofBits bs) := by
  have hlt := ofBits_lt bs
  have hhigh : ofBits (as ++ bs) >>> bs.length = ofBits as := by
    rw [ofBits_append, Nat.shiftRight_eq_div_pow, Nat.mul_comm, Nat.mul_add_div (Nat.two_pow_pos _),
      Nat.div_eq_of_lt hlt, Nat.add_zero]
  have hlow : ofBits (as ++ bs) % 2 ^ bs.length = ofBits bs := by
    rw [ofBits_append, Nat.add_comm, Nat.add_mul_mod_self_right, Nat.mod_eq_of_lt hlt]
  rw [poly_split _ bs.length, hhigh, hlow]

theorem poly_ofBits_snoc (bs : List Bool) (b : Bool) :
    poly (ofBits (bs ++ [b])) = X * poly (ofBits bs) + poly b.toNat := by
  have hbit : ofBits [b] = b.toNat := by simp [ofBits]
  rw [poly_ofBits_append, hbit, List.length_singleton, pow_one]

theorem poly_one : poly 1 = 1 := by simpa using poly_two_pow 0

theorem poly_ofBits_xor {as bs : List Bool} (h : as.length = bs.length) :
    poly (ofBits (List.zipWith xor as bs)) = poly (ofBits as) + poly (ofBits bs) := by
  have hbit (a b : Bool) : poly (a ^^ b).toNat = poly a.toNat + poly b.toNat := by
    cases a <;> cases b <;> simp [poly_one, ZModModule.add_self]
  induction as using List.reverseRecOn generalizing bs with
  | nil =>
    obtain rfl := List.length_eq_zero_iff.mp h.symm
    simp
  | append_singleton as a ih =>
    obtain ⟨bs, b, rfl⟩ : ∃ bs' b, bs = bs' ++ [b] := by
      have hne : bs ≠ [] := by
        rintro rfl
        simp at h
      exact ⟨_, _, (List.dropLast_append_getLast hne).symm⟩
    have hlength : as.length = bs.length := by simpa using h
    rw [List.zipWith_append hlength, List.zipWith_cons_cons, List.zipWith_nil_left,
      poly_ofBits_snoc, poly_ofBits_snoc, poly_ofBits_snoc, ih hlength, hbit, mul_add]
    ring

theorem eval_one_poly (bs : List Bool) : (poly (ofBits bs)).eval 1 = (bs.count true : ZMod 2) := by
  induction bs using List.reverseRecOn with
  | nil => simp
  | append_singleton bs b ih =>
    cases b <;> simp [poly_ofBits_snoc, ih, poly_one]

theorem ofBits_eq_zero_iff {bs : List Bool} : ofBits bs = 0 ↔ true ∉ bs := by
  induction bs using List.reverseRecOn with
  | nil => simp
  | append_singleton bs b ih =>
    have hlast : ofBits (bs ++ [b]) = ofBits bs * 2 + b.toNat := by
      rw [ofBits_append]
      simp [ofBits]
    rw [hlast, List.mem_append, List.mem_singleton, not_or, ← ih]
    cases b <;> simp

theorem poly_ofBits_single {before behind : List Bool} (hbefore : true ∉ before)
    (hbehind : true ∉ behind) : poly (ofBits (before ++ true :: behind)) = X ^ behind.length := by
  rw [← List.singleton_append, ← List.append_assoc, poly_ofBits_append, poly_ofBits_snoc,
    ofBits_eq_zero_iff.mpr hbefore, ofBits_eq_zero_iff.mpr hbehind]
  simp [poly_one]

theorem true_mem_zipWith_xor {as bs : List Bool} (hlength : as.length = bs.length) (hne : as ≠ bs) :
    true ∈ List.zipWith xor as bs := by
  induction as generalizing bs with
  | nil => exact absurd (List.length_eq_zero_iff.mp hlength.symm).symm hne
  | cons a as ih =>
    cases bs with
    | nil => simp at hlength
    | cons b bs =>
      rw [List.zipWith_cons_cons, List.mem_cons]
      by_cases hab : a = b
      · subst hab
        right
        apply ih (Nat.succ.inj hlength)
        rintro rfl
        exact hne rfl
      · left
        cases a <;> cases b <;> simp_all

section Generator

variable {g e p q : (ZMod 2)[X]} {w : Nat}

/-- The polynomial of degree `w` with the lower coefficients of `n`. -/
def generator (w n : Nat) : (ZMod 2)[X] := X ^ w + poly n

theorem generator_monic {n : Nat} (h : n < 2 ^ w) : (generator w n).Monic :=
  monic_X_pow_add (degree_poly_lt h)

theorem generator_degree {n : Nat} (h : n < 2 ^ w) : (generator w n).degree = w := by
  rw [generator, degree_add_eq_left_of_degree_lt, degree_X_pow]
  rw [degree_X_pow]
  exact degree_poly_lt h

theorem eq_modByMonic_of_mk_eq (hg : g.Monic) (hp : p.degree < g.degree)
    (h : AdjoinRoot.mk g p = AdjoinRoot.mk g q) : p = q %ₘ g := by
  rw [← modByMonic_eq_of_dvd_sub hg (AdjoinRoot.mk_eq_mk.mp h)]
  exact ((modByMonic_eq_self_iff hg).mpr hp).symm

theorem eq_of_mk_eq (hg : g.Monic) (hp : p.degree < g.degree) (hq : q.degree < g.degree)
    (h : AdjoinRoot.mk g p = AdjoinRoot.mk g q) : p = q := by
  rw [eq_modByMonic_of_mk_eq hg hp h, (modByMonic_eq_self_iff hg).mpr hq]

theorem isCoprime_X (h : g.coeff 0 = 1) : IsCoprime g X := by
  refine ⟨1, -divX g, ?_⟩
  have hsplit := divX_mul_X_add g
  rw [h, C_1] at hsplit
  rw [one_mul, neg_mul, ← sub_eq_add_neg, sub_eq_iff_eq_add', hsplit]

theorem dvd_X_pow_mul (h : g.coeff 0 = 1) (k : Nat) : g ∣ X ^ k * e ↔ g ∣ e :=
  ⟨((isCoprime_X h).pow_right).dvd_of_dvd_mul_left, fun hdvd => hdvd.mul_left _⟩

theorem eq_zero_of_dvd (hdvd : g ∣ e) (he : e.degree < g.degree) : e = 0 := by
  by_contra hne
  exact absurd (degree_le_of_dvd hdvd hne) (not_le.mpr he)

/-- A divisor of `X + 1` on the left leaves an even number of coefficients. -/
theorem eval_one_of_dvd (hg : g.eval 1 = 0) (hdvd : g ∣ e) : e.eval 1 = 0 := by
  obtain ⟨c, rfl⟩ := hdvd
  rw [eval_mul, hg, zero_mul]

end Generator

end

end Mangoxx.Lib.Gf2
