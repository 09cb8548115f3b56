import Mathlib.Algebra.Order.Ring.Nat
import Mathlib.Data.List.Induction
import Mathlib.Tactic.Ring

namespace Mangoxx.Lib.BitString

def toBits : (n v : Nat) → List Bool
  | 0, _ => []
  | n + 1, v => toBits n (v / 2) ++ [v % 2 == 1]

def ofBits (bs : List Bool) : Nat := bs.foldl (fun v b => 2 * v + b.toNat) 0

def bytesToBits (bytes : List UInt8) : List Bool := bytes.flatMap fun b => toBits 8 b.toNat

@[simp] theorem toBits_length (n v : Nat) : (toBits n v).length = n := by
  induction n generalizing v with
  | zero => rfl
  | succ n ih => simp [toBits, ih]

@[simp] theorem ofBits_nil : ofBits [] = 0 := rfl

theorem ofBits_append (as bs : List Bool) :
    ofBits (as ++ bs) = ofBits as * 2 ^ bs.length + ofBits bs := by
  induction bs using List.reverseRecOn with
  | nil => simp
  | append_singleton bs b ih =>
    have hsnoc (cs : List Bool) : ofBits (cs ++ [b]) = 2 * ofBits cs + b.toNat := by
      simp [ofBits]
    rw [← List.append_assoc, hsnoc, hsnoc, ih, List.length_append, List.length_singleton, pow_succ]
    ring

theorem ofBits_lt (bs : List Bool) : ofBits bs < 2 ^ bs.length := by
  induction bs using List.reverseRecOn with
  | nil => decide
  | append_singleton bs b ih =>
    have hb : b.toNat ≤ 1 := b.toNat_le
    rw [ofBits_append, List.length_append, List.length_singleton, pow_succ]
    simp only [ofBits, List.foldl_cons, List.foldl_nil]
    simp only [ofBits] at ih
    omega

theorem ofBits_toBits (n v : Nat) : ofBits (toBits n v) = v % 2 ^ n := by
  induction n generalizing v with
  | zero => simp [toBits, Nat.mod_one]
  | succ n ih =>
    have hlast : ofBits [v % 2 == 1] = v % 2 := by
      rcases Nat.mod_two_eq_zero_or_one v with h | h <;> simp [h, ofBits]
    rw [toBits, ofBits_append, ih, hlast, List.length_singleton, pow_one, pow_succ,
      Nat.mul_comm (2 ^ n), Nat.mod_mul]
    omega

theorem toBits_ofBits (bs : List Bool) : toBits bs.length (ofBits bs) = bs := by
  induction bs using List.reverseRecOn with
  | nil => rfl
  | append_singleton bs b ih =>
    have hlast : ofBits (bs ++ [b]) = 2 * ofBits bs + b.toNat := by simp [ofBits]
    have hhalf : (2 * ofBits bs + b.toNat) / 2 = ofBits bs := by
      have := b.toNat_le
      omega
    have hodd : ((2 * ofBits bs + b.toNat) % 2 == 1) = b := by
      cases b <;> simp
    rw [List.length_append, List.length_singleton, toBits, hlast, hhalf, hodd, ih]

theorem toBits_mul_add (n k v : Nat) : toBits n (k * 2 ^ n + v) = toBits n v := by
  induction n generalizing v with
  | zero => rfl
  | succ n ih =>
    have hmul : k * 2 ^ (n + 1) + v = 2 * (k * 2 ^ n) + v := by
      rw [pow_succ]
      ring
    have hhalf : (2 * (k * 2 ^ n) + v) / 2 = k * 2 ^ n + v / 2 := by omega
    have hodd : (2 * (k * 2 ^ n) + v) % 2 = v % 2 := by omega
    rw [toBits, toBits, hmul, hhalf, hodd, ih]

theorem toBits_succ (n v : Nat) : toBits (n + 1) v = (v / 2 ^ n % 2 == 1) :: toBits n v := by
  induction n generalizing v with
  | zero => simp [toBits]
  | succ n ih =>
    rw [toBits, ih, toBits, Nat.div_div_eq_div_mul, ← pow_succ']
    rfl

theorem ofBits_read (n v : Nat) :
    2 * (v / 2 ^ (n + 1)) + (v / 2 ^ n % 2 == 1).toNat = v / 2 ^ n := by
  have hhalf : v / 2 ^ (n + 1) = v / 2 ^ n / 2 := by rw [Nat.div_div_eq_div_mul, ← pow_succ]
  rw [hhalf]
  rcases Nat.mod_two_eq_zero_or_one (v / 2 ^ n) with h | h <;> simp [h] <;> omega

theorem getElem_toBits (n v : Nat) {i : Nat} (h : i < (toBits n v).length) :
    (toBits n v)[i] = v.testBit (n - 1 - i) := by
  induction n generalizing i with
  | zero => simp [toBits] at h
  | succ n ih =>
    have hfirst : (v / 2 ^ n % 2 == 1) = v.testBit n := by
      rw [Nat.testBit_eq_decide_div_mod_eq]
      rfl
    simp only [toBits_succ, hfirst]
    cases i with
    | zero => rfl
    | succ i =>
      rw [List.getElem_cons_succ, ih, Nat.add_sub_cancel, Nat.sub_sub, Nat.add_comm 1 i]

@[simp] theorem bytesToBits_nil : bytesToBits [] = [] := rfl

@[simp] theorem bytesToBits_cons (b : UInt8) (bytes : List UInt8) :
    bytesToBits (b :: bytes) = toBits 8 b.toNat ++ bytesToBits bytes := rfl

@[simp] theorem bytesToBits_append (as bs : List UInt8) :
    bytesToBits (as ++ bs) = bytesToBits as ++ bytesToBits bs := List.flatMap_append

end Mangoxx.Lib.BitString
