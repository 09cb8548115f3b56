import Mangoxx.Lzo.Decompress

namespace Mangoxx.Lzo

open Lib Lib.Program

namespace Args

def Overrun (halt : Halt) : Prop :=
  halt = .returned .inputOverrun ∨ halt = .returned .outputOverrun ∨
    halt = .returned .lookbehindOverrun

variable (input : List UInt8) (room : Nat)

abbrev plain : Args := ⟨input, room, false⟩

abbrev tested : Args := ⟨input, room, true⟩

section Operations

variable {input room}

theorem overrun_follows (hcode : Overrun (.returned code)) (cond : Prop) [Decidable cond] :
    Follows Overrun ((plain input room).overrun code cond)
      ((tested input room).overrun code cond) := by
  intro s
  have hplain : (plain input room).overrun code cond = pure () := if_neg fun h => nomatch h.1
  by_cases hcond : cond
  · right
    exact ⟨_, s, by rw [overrun, if_pos ⟨rfl, hcond⟩]; rfl, hcode⟩
  · left
    rw [hplain, overrun, if_neg fun h => hcond h.2]

theorem needIp_follows (x : Nat) :
    Follows Overrun ((plain input room).needIp x) ((tested input room).needIp x) :=
  (Follows.refl _).bind fun _ => overrun_follows (.inl rfl) _

theorem needOp_follows (x : Nat) :
    Follows Overrun ((plain input room).needOp x) ((tested input room).needOp x) :=
  (Follows.refl _).bind fun _ => overrun_follows (.inr (.inl rfl)) _

theorem testLb_follows (mPos : Int) :
    Follows Overrun ((plain input room).testLb mPos) ((tested input room).testLb mPos) :=
  (Follows.refl _).bind fun _ => overrun_follows (.inr (.inr rfl)) _

theorem copyIn_follows (n : Nat) :
    Follows Overrun ((plain input room).copyIn n) ((tested input room).copyIn n) := by
  induction n with
  | zero => exact .refl _
  | succ n ih => exact (Follows.refl _).bind fun _ => (Follows.refl _).bind fun _ => ih

theorem copyMatch_follows (mPos : Int) (n : Nat) :
    Follows Overrun ((plain input room).copyMatch mPos n)
      ((tested input room).copyMatch mPos n) := by
  induction n generalizing mPos with
  | zero => exact .refl _
  | succ n ih => exact (Follows.refl _).bind fun _ => (Follows.refl _).bind fun _ => ih _

theorem longLength_follows {test test' : Nat → LzoM Unit}
    (htest : ∀ t, Follows Overrun (test t) (test' t)) (short : Nat) :
    Follows Overrun ((plain input room).longLength test short)
      ((tested input room).longLength test' short) := by
  refine (Follows.loop (fun t => ?_) _ _).bind fun _ => .refl _
  refine (Follows.refl _).bind fun byte => .ite ?_ (.refl _)
  exact (Follows.refl _).bind fun _ => (htest _).bind fun _ => (needIp_follows 1).bind
    fun _ => .refl _

theorem copy_follows (mPos : Int) (t : Nat) :
    Follows Overrun ((plain input room).copy mPos t) ((tested input room).copy mPos t) :=
  (testLb_follows mPos).bind fun _ => (Follows.refl _).bind fun _ =>
    (needOp_follows _).bind fun _ =>
    (copyMatch_follows mPos _).bind fun _ => .refl _

theorem literalLength_follows (t : Nat) :
    Follows Overrun ((plain input room).literalLength t) ((tested input room).literalLength t) :=
  .ite (longLength_follows (fun _ => overrun_follows (.inl rfl) _) 15) (.refl _)

theorem matchLength_follows (short t : Nat) :
    Follows Overrun ((plain input room).matchLength short t)
      ((tested input room).matchLength short t) :=
  .ite ((longLength_follows (fun _ => overrun_follows (.inr (.inl rfl)) _) short).bind fun _ =>
    (needIp_follows 2).bind fun _ => .refl _) (.refl _)

end Operations

section Turns

variable {input room}

theorem turnLiteralRun_follows :
    Follows Overrun (plain input room).turnLiteralRun (tested input room).turnLiteralRun :=
  (needIp_follows 3).bind fun _ => (Follows.refl _).bind fun _ => .ite (.refl _) <|
    (literalLength_follows _).bind fun _ => (Follows.refl _).bind fun _ =>
      (needOp_follows _).bind fun _ =>
      (needIp_follows _).bind fun _ => (copyIn_follows _).bind fun _ => .refl _

theorem turnFirstLiteralRun_follows :
    Follows Overrun (plain input room).turnFirstLiteralRun
      (tested input room).turnFirstLiteralRun :=
  (Follows.refl _).bind fun _ => .ite (.refl _) <|
    (Follows.refl _).bind fun _ => (Follows.refl _).bind fun _ => (testLb_follows _).bind fun _ =>
      (needOp_follows _).bind fun _ => (copyMatch_follows _ _).bind fun _ => .refl _

theorem turnMatch_follows (t : Nat) :
    Follows Overrun ((plain input room).turnMatch t) ((tested input room).turnMatch t) := by
  refine (Follows.refl _).bind fun s => .ite ?_ (.ite ?_ (.ite ?_ ?_))
  · exact (Follows.refl _).bind fun byte => (copy_follows _ _).bind fun _ => .refl _
  · exact (matchLength_follows _ _).bind fun t => (Follows.refl _).bind fun _ =>
      (Follows.refl _).bind fun _ =>
      (Follows.refl _).bind fun _ => (copy_follows _ _).bind fun _ => .refl _
  · exact (matchLength_follows _ _).bind fun t => (Follows.refl _).bind fun _ =>
      (Follows.refl _).bind fun _ =>
      (Follows.refl _).bind fun _ => .ite (.refl _) ((copy_follows _ _).bind fun _ => .refl _)
  · exact (Follows.refl _).bind fun byte => (testLb_follows _).bind fun _ =>
      (needOp_follows _).bind fun _ =>
      (copyMatch_follows _ _).bind fun _ => .refl _

theorem turnMatchNext_follows (t : Nat) :
    Follows Overrun ((plain input room).turnMatchNext t) ((tested input room).turnMatchNext t) :=
  (Follows.refl _).bind fun _ => (Follows.refl _).bind fun _ => (needOp_follows _).bind fun _ =>
    (needIp_follows _).bind fun _ => (copyIn_follows _).bind fun _ => .refl _

theorem turn_follows (label : Label) :
    Follows Overrun ((plain input room).turn label) ((tested input room).turn label) := by
  cases label with
  | literalRun => exact turnLiteralRun_follows.bind fun _ => .refl _
  | firstLiteralRun => exact turnFirstLiteralRun_follows.bind fun _ => .refl _
  | isMatch t => exact turnMatch_follows t
  | matchNext t => exact (turnMatchNext_follows t).bind fun _ => .refl _

theorem start_follows : Follows Overrun (plain input room).start (tested input room).start :=
  (needIp_follows 1).bind fun _ => (Follows.refl _).bind fun _ => .ite
    ((Follows.refl _).bind fun _ => .ite (.refl _) <| (Follows.refl _).bind fun _ =>
      (needOp_follows _).bind fun _ => (needIp_follows _).bind fun _ =>
        (copyIn_follows _).bind fun _ =>
        .refl _) (.refl _)

theorem body_follows : Follows Overrun (plain input room).body (tested input room).body :=
  start_follows.bind fun label => .loop turn_follows _ label

end Turns

end Args

/-- Where the safe decompressor finds no overrun, the other one does the same. -/
theorem lzo1xDecompress_eq_safe (input : List UInt8) (room : Nat)
    (hsafe : lzo1xDecompressSafe input room = some (code, out))
    (hcode : code = .ok ∨ code = .inputNotConsumed) :
    lzo1xDecompress input room = some (code, out) := by
  rcases @Args.body_follows input room ⟨0, []⟩ with h | ⟨halt, s, h, hhalt⟩
  · rw [← hsafe, lzo1xDecompress, lzo1xDecompressSafe, Args.decompress, Args.decompress, h]
  · rw [lzo1xDecompressSafe, Args.decompress, h] at hsafe
    rcases hhalt with rfl | rfl | rfl <;> rcases hcode with rfl | rfl <;> cases hsafe

theorem lzo1xDecompress_eq_safe_match :
    lzo1xDecompress [21, 65, 66, 67, 68, 109, 0, 90, 17, 0, 0] 9 =
      some (.ok, [65, 66, 67, 68, 65, 66, 67, 68, 90]) :=
  lzo1xDecompress_eq_safe _ _ (by decide +kernel) (.inl rfl)

end Mangoxx.Lzo
