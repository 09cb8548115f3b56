import Mangoxx.Lzo.Decompress

namespace Mangoxx.Lzo.Args

open Lib Lib.Program

variable {args : Args} {s : State}

theorem peek_eq {offset : Int} {place : Nat} (hplace : s.ip + offset = place)
    (h : args.input[place]? = some byte) : args.peek offset s = .ok byte s := by
  rw [peek, bind_ok (get_eq s)]
  simp only [hplace, Int.toNat_natCast, h]
  rfl

theorem skip_eq (n : Nat) : skip n s = .ok () { s with ip := s.ip + n } := rfl

theorem fetch_eq (h : args.input[s.ip]? = some byte) :
    args.fetch s = .ok byte { s with ip := s.ip + 1 } := by
  rw [fetch, bind_ok (peek_eq (Int.add_zero _) h)]
  rfl

theorem put_eq (h : s.out.length < args.room) :
    args.put byte s = .ok () { s with out := s.out ++ [byte] } := by
  rw [put, bind_ok (get_eq s), if_neg (Nat.not_le.mpr h)]
  rfl

theorem lookAt_eq {mPos : Nat} (h : s.out[mPos]? = some byte) : lookAt mPos s = .ok byte s := by
  have hnat : ¬ (mPos : Int) < 0 := by omega
  rw [lookAt, bind_ok (get_eq s)]
  simp only [hnat, if_false, Int.toNat_natCast, h]
  rfl

theorem assert_eq {cond : Prop} [Decidable cond] (h : cond) : assert cond s = .ok () s := by
  rw [assert, if_pos h]
  rfl

theorem overrun_eq {cond : Prop} [Decidable cond] (h : ¬ cond) :
    args.overrun code cond s = .ok () s := by
  rw [overrun, if_neg fun hboth => h hboth.2]
  rfl

theorem needIp_eq (h : s.ip + x ≤ args.input.length) : args.needIp x s = .ok () s := by
  rw [needIp, bind_ok (get_eq s)]
  apply overrun_eq
  have := Nat.mod_le x (2 ^ 32)
  rw [lzoUint]
  omega

theorem needOp_eq (h : s.out.length + x ≤ args.room) : args.needOp x s = .ok () s := by
  rw [needOp, bind_ok (get_eq s)]
  apply overrun_eq
  have := Nat.mod_le x (2 ^ 32)
  rw [lzoUint]
  omega

theorem testLb_eq {mPos : Nat} (h : mPos < s.out.length) : args.testLb mPos s = .ok () s := by
  rw [testLb, bind_ok (get_eq s)]
  apply overrun_eq
  omega

end Mangoxx.Lzo.Args
