import Mathlib.Algebra.Group.Int.Defs
import Mathlib.Algebra.Group.Nat.Defs
import Mathlib.Data.Int.Notation

namespace Mangoxx.Lib.CInt

def int16 (x : Int) : Int := (x + 2 ^ 15) % 2 ^ 16 - 2 ^ 15

def int32 (x : Int) : Int := (x + 2 ^ 31) % 2 ^ 32 - 2 ^ 31

def uint32 (x : Int) : Nat := (x % 2 ^ 32).toNat

def InRange (x : Int) : Prop := -2 ^ 31 ≤ x ∧ x < 2 ^ 31

instance (x : Int) : Decidable (InRange x) := inferInstanceAs (Decidable (_ ∧ _))

def exactInt (x : Int) : Option Int := if InRange x then some x else none

theorem exactInt_eq (h : InRange x) : exactInt x = some x := if_pos h

theorem exactInt_bind {f : Int → Option α} (h : -2147483648 ≤ x) (h' : x < 2147483648) :
    exactInt x >>= f = f x := by
  rw [exactInt_eq ⟨h, h'⟩]
  rfl

theorem int16_eq (h : -32768 ≤ x) (h' : x < 32768) : int16 x = x := by
  unfold int16
  omega

theorem int32_eq (h : InRange x) : int32 x = x := by
  unfold InRange at h
  unfold int32
  omega

theorem int32_uint32 (h : InRange x) : int32 (uint32 x) = x := by
  unfold InRange at h
  unfold int32 uint32
  omega

theorem int32_inRange (x : Int) : InRange (int32 x) := by
  unfold InRange int32
  omega

theorem int32_ne_zero {n : Nat} (h : 0 < n) (h' : n < 2 ^ 32) : int32 n ≠ 0 := by
  unfold int32
  omega

theorem uint32_lt (x : Int) : uint32 x < 2 ^ 32 := by
  unfold uint32
  omega

theorem uint32_of_range (h : 0 ≤ x) (h' : x < 2 ^ 32) : (uint32 x : Int) = x := by
  unfold uint32
  omega

end Mangoxx.Lib.CInt
