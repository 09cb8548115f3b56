import Mangoxx.Lzo.Steps

namespace Mangoxx.Lzo

namespace Args

open Lib Lib.Program

variable {args : Args} {s : State}

structure Fits (args : Args) (s : State) : Prop where
  ip_le : s.ip ≤ args.input.length
  out_le : s.out.length ≤ args.room

def Returned (args : Args) (halt : Halt) (s : State) : Prop :=
  s.out.length ≤ args.room ∧ ∃ code, halt = .returned code

section Operations

theorem peek_post (h : s.ip + k < args.input.length) :
    Post (fun _ s' => s' = s) (Returned args) (args.peek k s) := by
  rw [peek_eq (show (s.ip : Int) + k = (s.ip + k : Nat) from rfl) (List.getElem?_eq_getElem h)]
  rfl

theorem fetch_post (h : s.ip < args.input.length) :
    Post (fun _ s' => s' = { s with ip := s.ip + 1 }) (Returned args) (args.fetch s) := by
  rw [fetch_eq (List.getElem?_eq_getElem h)]
  rfl

theorem overrun_post {cond : Prop} [Decidable cond] (hsafe : args.safe = true)
    (h : s.out.length ≤ args.room) :
    Post (fun _ s' => s' = s ∧ ¬ cond) (Returned args) (args.overrun code cond s) := by
  by_cases hcond : cond
  · rw [overrun, if_pos ⟨hsafe, hcond⟩]
    exact ⟨h, code, rfl⟩
  · rw [overrun_eq hcond]
    exact ⟨rfl, hcond⟩

theorem needIp_post (hsafe : args.safe = true) (hs : Fits args s) (hx : x < 2 ^ 32) :
    Post (fun _ s' => s' = s ∧ s.ip + x ≤ args.input.length) (Returned args) (args.needIp x s) := by
  rw [needIp, bind_ok (get_eq s)]
  refine (overrun_post hsafe hs.out_le).mono fun _ s' h => ⟨h.1, ?_⟩
  have hroom := h.2
  have := hs.ip_le
  rw [lzoUint, Nat.mod_eq_of_lt hx] at hroom
  omega

theorem needOp_post (hsafe : args.safe = true) (hs : Fits args s) (hx : x < 2 ^ 32) :
    Post (fun _ s' => s' = s ∧ s.out.length + x ≤ args.room) (Returned args) (args.needOp x s) := by
  rw [needOp, bind_ok (get_eq s)]
  refine (overrun_post hsafe hs.out_le).mono fun _ s' h => ⟨h.1, ?_⟩
  have hroom := h.2
  have := hs.out_le
  rw [lzoUint, Nat.mod_eq_of_lt hx] at hroom
  omega

theorem testLb_post (hsafe : args.safe = true) (hs : Fits args s) (mPos : Int) :
    Post (fun _ s' => s' = s ∧ ∃ place : Nat, mPos = place ∧ place < s.out.length) (Returned args)
      (args.testLb mPos s) := by
  rw [testLb, bind_ok (get_eq s)]
  refine (overrun_post hsafe hs.out_le).mono fun _ s' h => ⟨h.1, mPos.toNat, ?_⟩
  have := h.2
  omega

theorem copyIn_post (hip : s.ip + n ≤ args.input.length) (hout : s.out.length + n ≤ args.room) :
    Post (fun _ s' => s'.ip = s.ip + n ∧ s'.out.length = s.out.length + n) (Returned args)
      (args.copyIn n s) := by
  induction n generalizing s with
  | zero => exact ⟨rfl, rfl⟩
  | succ n ih =>
    rw [copyIn]
    refine (fetch_post (by omega)).bind fun byte s' hs' => ?_
    subst hs'
    rw [bind_ok (put_eq (by simp only; omega))]
    refine (ih (by simp only; omega) (by simp; omega)).mono fun _ s' h => ?_
    simp only [List.length_append, List.length_singleton] at h
    omega

theorem copyMatch_post {mPos : Nat} (hmPos : mPos < s.out.length)
    (hout : s.out.length + n ≤ args.room) :
    Post (fun _ s' => s'.ip = s.ip ∧ s'.out.length = s.out.length + n) (Returned args)
      (args.copyMatch mPos n s) := by
  induction n generalizing s mPos with
  | zero => exact ⟨rfl, rfl⟩
  | succ n ih =>
    rw [copyMatch, bind_ok (lookAt_eq (List.getElem?_eq_getElem hmPos)),
      bind_ok (put_eq (by omega))]
    have hnext : (mPos : Int) + 1 = (mPos + 1 : Nat) := rfl
    rw [hnext]
    refine (ih (by simp; omega) (by simp; omega)).mono fun _ s' h => ?_
    simp only [List.length_append, List.length_singleton] at h
    omega

structure InZeros (args : Args) (s₀ : State) (t : Nat) (s : State) : Prop where
  fits : Fits args s
  t_le : t ≤ 2 ^ 32 - 511
  ip_lt : s.ip < args.input.length
  le_ip : s₀.ip ≤ s.ip
  out_eq : s.out = s₀.out

variable {s₀ : State} {test : Nat → LzoM Unit}

theorem zeros_post (hsafe : args.safe = true)
    (htest : ∀ t s, Fits args s →
      Post (fun _ s' => s' = s ∧ t ≤ 2 ^ 32 - 511) (Returned args) (test t s))
    (t : Nat) (s : State) (h : InZeros args s₀ t s) :
    Post (TurnPost (InZeros args s₀) (InZeros args s₀) (fun _ s => args.input.length - s.ip)
      (args.input.length - s.ip)) (Returned args) (args.zeros test t s) := by
  have hip := h.ip_lt
  rw [zeros]
  refine (peek_post (k := 0) hip).bind ?_
  rintro byte s rfl
  split
  · have hskip : Fits args { s with ip := s.ip + 1 } := ⟨hip, h.fits.out_le⟩
    rw [bind_ok (skip_eq 1)]
    refine (htest _ _ hskip).bind fun _ s' hs' => ?_
    obtain ⟨rfl, ht⟩ := hs'
    refine (needIp_post hsafe hskip (by decide)).bind fun _ s' hs' => ?_
    obtain ⟨rfl, hroom⟩ := hs'
    have hle := h.le_ip
    exact ⟨⟨hskip, ht, hroom, by simp only; omega, h.out_eq⟩, by simp only; omega⟩
  · exact h

theorem longLength_post {short : Nat} (hsafe : args.safe = true)
    (htest : ∀ t s, Fits args s →
      Post (fun _ s' => s' = s ∧ t ≤ 2 ^ 32 - 511) (Returned args) (test t s))
    (hshort : short ≤ 31) (hs : Fits args s) (hip : s.ip < args.input.length) :
    Post (fun t s' => short ≤ t ∧ t < 2 ^ 32 - 220 ∧ s.ip < s'.ip ∧ Fits args s' ∧ s'.out = s.out)
      (Returned args) (args.longLength test short s) := by
  rw [longLength]
  have hstart : InZeros args s 0 s := ⟨hs, by decide, hip, Nat.le_refl _, rfl⟩
  refine (Post.loop _ (zeros_post hsafe htest) hstart (by omega)).bind fun t s' h => ?_
  refine (fetch_post h.ip_lt).bind fun byte s'' hs'' => ?_
  subst hs''
  have hbyte := byte.toNat_lt
  have ht := h.t_le
  have hle := h.le_ip
  have hsmall : t + (short + byte.toNat) < 2 ^ 32 := by omega
  rw [lzoUint, Nat.mod_eq_of_lt hsmall]
  exact ⟨by omega, by omega, by simp only; omega, ⟨h.ip_lt, h.fits.out_le⟩, h.out_eq⟩

end Operations

section Turns

def Ready (args : Args) : Label → State → Prop
  | .literalRun, s => Fits args s
  | .firstLiteralRun, s => Fits args s ∧ s.ip + 3 ≤ args.input.length
  | .isMatch t, s => Fits args s ∧ t < 256 ∧ 1 ≤ s.ip ∧ s.ip + 2 ≤ args.input.length
  | .matchNext t, s => Fits args s ∧ 1 ≤ t ∧ t < 4

theorem Ready.fits {label : Label} (h : Ready args label s) : Fits args s := by
  cases label with
  | literalRun => exact h
  | firstLiteralRun => exact h.1
  | isMatch => exact h.1
  | matchNext => exact h.1

theorem matchDone_post (hs : Fits args s) (hip : 2 ≤ s.ip) :
    Post (fun label s' => s' = s ∧ Ready args label s') (Returned args) (args.matchDone s) := by
  have hle := hs.ip_le
  have hback : args.input[s.ip - 2]? = some args.input[s.ip - 2] :=
    List.getElem?_eq_getElem (by omega)
  rw [matchDone, bind_ok (peek_eq (by omega) hback)]
  refine ⟨rfl, ?_⟩
  split
  · exact hs
  · have hfew : (args.input[s.ip - 2] &&& 3).toNat ≤ 3 := Nat.and_le_right
    exact ⟨hs, by omega, by omega⟩

theorem copy_post {t : Nat} (hsafe : args.safe = true) (hs : Fits args s) (hip : 2 ≤ s.ip)
    (hpos : 0 < t) (ht : t < 2 ^ 32 - 220) (mPos : Int) :
    Post (fun label s' => s'.ip = s.ip ∧ Ready args label s') (Returned args)
      (args.copy mPos t s) := by
  have hsmall : t + 3 - 1 < 2 ^ 32 := by omega
  rw [copy]
  refine (testLb_post hsafe hs mPos).bind ?_
  rintro _ s ⟨rfl, place, rfl, hplace⟩
  rw [bind_ok (assert_eq hpos), lzoUint, Nat.mod_eq_of_lt hsmall]
  refine (needOp_post hsafe hs hsmall).bind ?_
  rintro _ s ⟨rfl, hroom⟩
  refine (copyMatch_post hplace (by omega)).bind fun _ s' hs' => ?_
  have hfits : Fits args s' := ⟨hs'.1 ▸ hs.ip_le, by omega⟩
  refine (matchDone_post hfits (by omega)).mono ?_
  rintro label s'' ⟨rfl, hready⟩
  exact ⟨hs'.1, hready⟩

def Onward (args : Args) (s : State) (label : Label) (s' : State) : Prop :=
  Ready args label s' ∧ s.ip < s'.ip

def TurnDone (args : Args) (s : State) : Turn Label Code → State → Prop :=
  TurnPost (Ready args) (fun _ s' => s'.out.length ≤ args.room)
    (fun _ s' => args.input.length - s'.ip) (args.input.length - s.ip)

theorem Onward.turnDone (h : Onward args s label s') : TurnDone args s (.again label) s' := by
  refine ⟨h.1, ?_⟩
  have hle := h.1.fits.ip_le
  have hless := h.2
  simp only
  omega

theorem testIv_post (hsafe : args.safe = true) (t : Nat) (s : State) (hs : Fits args s) :
    Post (fun _ s' => s' = s ∧ t ≤ 2 ^ 32 - 511) (Returned args) (args.testIv t s) :=
  (overrun_post hsafe hs.out_le).mono fun _ _ h => ⟨h.1, Nat.not_lt.mp h.2⟩

theorem testOv_post (hsafe : args.safe = true) (t : Nat) (s : State) (hs : Fits args s) :
    Post (fun _ s' => s' = s ∧ t ≤ 2 ^ 32 - 511) (Returned args) (args.testOv t s) :=
  (overrun_post hsafe hs.out_le).mono fun _ _ h => ⟨h.1, Nat.not_lt.mp h.2⟩

theorem literalLength_post {t : Nat} (hsafe : args.safe = true) (ht : t < 256) (hs : Fits args s)
    (hip : s.ip < args.input.length) :
    Post (fun t s' => 0 < t ∧ t < 2 ^ 32 - 220 ∧ s.ip ≤ s'.ip ∧ Fits args s') (Returned args)
      (args.literalLength t s) := by
  rw [literalLength]
  split
  · refine (longLength_post hsafe (testIv_post hsafe) (by decide) hs hip).mono ?_
    rintro t s' ⟨hshort, ht, hless, hfits, -⟩
    exact ⟨by omega, ht, Nat.le_of_lt hless, hfits⟩
  · exact ⟨by omega, by omega, Nat.le_refl _, hs⟩

theorem matchLength_post {short t : Nat} (hsafe : args.safe = true) (ht : t < 256)
    (hshort : 0 < short ∧ short ≤ 31) (hs : Fits args s) (hip : s.ip + 2 ≤ args.input.length) :
    Post (fun t s' => (0 < t ∧ t < 2 ^ 32 - 220) ∧ s.ip ≤ s'.ip ∧ Fits args s' ∧ s'.out = s.out ∧
      s'.ip + 2 ≤ args.input.length) (Returned args) (args.matchLength short t s) := by
  rw [matchLength]
  split
  · refine (longLength_post hsafe (testOv_post hsafe) hshort.2 hs (by omega)).bind ?_
    rintro t s' ⟨hle, ht, hless, hfits, hout⟩
    refine (needIp_post hsafe hfits (by decide)).bind ?_
    rintro _ s' ⟨rfl, htwo⟩
    exact ⟨⟨by omega, ht⟩, Nat.le_of_lt hless, hfits, hout, htwo⟩
  · exact ⟨⟨by omega, by omega⟩, Nat.le_refl _, hs, rfl, hip⟩

theorem turnLiteralRun_post (hsafe : args.safe = true) (hs : Fits args s) :
    Post (Onward args s) (Returned args) (args.turnLiteralRun s) := by
  rw [turnLiteralRun]
  refine (needIp_post hsafe hs (by decide)).bind ?_
  rintro _ s ⟨rfl, hthree⟩
  refine (fetch_post (by omega)).bind ?_
  rintro byte s' rfl
  have hfits : Fits args { s with ip := s.ip + 1 } := ⟨by simp only; omega, hs.out_le⟩
  simp only
  split
  · exact ⟨⟨hfits, byte.toNat_lt, by simp only; omega, by simp only; omega⟩, by simp only; omega⟩
  · refine (literalLength_post hsafe byte.toNat_lt hfits (by simp only; omega)).bind ?_
    rintro t s' ⟨hpos, ht, hip, hfits'⟩
    rw [bind_ok (assert_eq hpos)]
    refine (needOp_post hsafe hfits' (by omega)).bind ?_
    rintro _ s' ⟨rfl, hout⟩
    refine (needIp_post hsafe hfits' (by omega)).bind ?_
    rintro _ s' ⟨rfl, hin⟩
    refine (copyIn_post (by omega) hout).bind fun _ s'' hs'' => ?_
    simp only at hip
    exact ⟨⟨⟨by omega, by omega⟩, by omega⟩, by omega⟩

theorem turnFirstLiteralRun_post (hsafe : args.safe = true) (hs : Ready args .firstLiteralRun s) :
    Post (Onward args s) (Returned args) (args.turnFirstLiteralRun s) := by
  obtain ⟨hfits, hin⟩ := hs
  rw [turnFirstLiteralRun]
  refine (fetch_post (by omega)).bind ?_
  rintro byte s' rfl
  simp only
  split
  · exact ⟨⟨⟨by simp only; omega, hfits.out_le⟩, byte.toNat_lt, by simp only; omega,
      by simp only; omega⟩, by simp only; omega⟩
  · rw [bind_ok (get_eq _)]
    refine (fetch_post (by simp only; omega)).bind ?_
    rintro byte' s' rfl
    have hfits' : Fits args { s with ip := s.ip + 1 + 1 } := ⟨by simp only; omega, hfits.out_le⟩
    refine (testLb_post hsafe hfits' _).bind ?_
    rintro _ s' ⟨rfl, place, hplace, hlt⟩
    refine (needOp_post hsafe hfits' (by decide)).bind ?_
    rintro _ s' ⟨rfl, hout⟩
    rw [hplace]
    refine (copyMatch_post hlt hout).bind fun _ s'' hs'' => ?_
    have hfits'' : Fits args s'' := ⟨by have := hs''.1; simp only at this; omega, by omega⟩
    refine (matchDone_post hfits'' (by have := hs''.1; simp only at this; omega)).mono ?_
    rintro label s₃ ⟨rfl, hready⟩
    exact ⟨hready, by have := hs''.1; simp only at this; omega⟩

theorem copy_turn {t : Nat} {s' : State} (hsafe : args.safe = true) (hfits : Fits args s')
    (hip : s.ip < s'.ip) (htwo : 2 ≤ s'.ip) (hpos : 0 < t) (ht : t < 2 ^ 32 - 220) (mPos : Int) :
    Post (TurnDone args s) (Returned args)
      ((do return .again (← args.copy mPos t) : LzoM (Turn Label Code)) s') := by
  refine (copy_post hsafe hfits htwo hpos ht mPos).bind fun label s'' hs'' => ?_
  exact Onward.turnDone ⟨hs''.2, by omega⟩

theorem turnMatch_post {t : Nat} (hsafe : args.safe = true) (hs : Ready args (.isMatch t) s) :
    Post (TurnDone args s) (Returned args) (args.turnMatch t s) := by
  obtain ⟨hfits, hbyte, hone, htwo⟩ := hs
  rw [turnMatch, bind_ok (get_eq _)]
  simp only
  have hand (n : Nat) : t &&& n < 256 := Nat.lt_of_le_of_lt Nat.and_le_left hbyte
  split
  · have hshift : t >>> 5 = t / 32 := Nat.shiftRight_eq_div_pow t 5
    refine (fetch_post (by omega)).bind ?_
    rintro byte s' rfl
    have hfits' : Fits args { s with ip := s.ip + 1 } := ⟨by simp only; omega, hfits.out_le⟩
    exact copy_turn hsafe hfits' (Nat.lt_succ_self _) (Nat.succ_le_succ hone) (by omega)
      (by omega) _
  split
  · refine (matchLength_post hsafe (hand 31) (by decide) hfits htwo).bind ?_
    rintro t' s' ⟨⟨hpos, ht⟩, hip, hfits', -, hoffset⟩
    refine (peek_post (k := 0) (by omega)).bind ?_
    rintro b s'' rfl
    refine (peek_post (k := 1) (by omega)).bind ?_
    rintro b' s₃ rfl
    have hbehind : Fits args { s₃ with ip := s₃.ip + 2 } := ⟨hoffset, hfits'.out_le⟩
    rw [bind_ok (skip_eq 2)]
    exact copy_turn hsafe hbehind (by simp only; omega) (by simp only; omega) hpos ht _
  split
  · refine (matchLength_post hsafe (hand 7) (by decide) hfits htwo).bind ?_
    rintro t' s' ⟨⟨hpos, ht⟩, hip, hfits', -, hoffset⟩
    refine (peek_post (k := 0) (by omega)).bind ?_
    rintro b s'' rfl
    refine (peek_post (k := 1) (by omega)).bind ?_
    rintro b' s₃ rfl
    have hbehind : Fits args { s₃ with ip := s₃.ip + 2 } := ⟨hoffset, hfits'.out_le⟩
    rw [bind_ok (skip_eq 2)]
    split
    · exact hfits'.out_le
    · exact copy_turn hsafe hbehind (by simp only; omega) (by simp only; omega) hpos ht _
  · refine (fetch_post (by omega)).bind ?_
    rintro byte s' rfl
    have hfits' : Fits args { s with ip := s.ip + 1 } := ⟨by simp only; omega, hfits.out_le⟩
    refine (testLb_post hsafe hfits' _).bind ?_
    rintro _ s' ⟨rfl, place, hplace, hlt⟩
    refine (needOp_post hsafe hfits' (by decide)).bind ?_
    rintro _ s' ⟨rfl, hout⟩
    rw [hplace]
    refine (copyMatch_post hlt hout).bind fun _ s'' hs'' => ?_
    have hip := hs''.1
    simp only at hip
    have hfits'' : Fits args s'' := ⟨by omega, by omega⟩
    refine (matchDone_post hfits'' (by omega)).bind ?_
    rintro label s₃ ⟨rfl, hready⟩
    exact Onward.turnDone ⟨hready, by omega⟩

theorem turnMatchNext_post {t : Nat} (hsafe : args.safe = true) (hs : Ready args (.matchNext t) s) :
    Post (Onward args s) (Returned args) (args.turnMatchNext t s) := by
  obtain ⟨hfits, hpos, hlt⟩ := hs
  rw [turnMatchNext, bind_ok (assert_eq (show 0 < t from hpos)), bind_ok (assert_eq hlt)]
  refine (needOp_post hsafe hfits (by omega)).bind ?_
  rintro _ s ⟨rfl, hout⟩
  refine (needIp_post hsafe hfits (by omega)).bind ?_
  rintro _ s ⟨rfl, hin⟩
  refine (copyIn_post (by omega) hout).bind fun _ s' hs' => ?_
  refine (fetch_post (by omega)).bind ?_
  rintro byte s'' rfl
  exact ⟨⟨⟨by simp only; omega, by simp only; omega⟩, byte.toNat_lt, by simp only; omega,
    by simp only; omega⟩, by simp only; omega⟩

theorem turn_post (hsafe : args.safe = true) (label : Label) (s : State) (hs : Ready args label s) :
    Post (TurnDone args s) (Returned args) (args.turn label s) := by
  cases label with
  | literalRun => exact (turnLiteralRun_post hsafe hs).bind fun _ _ h => Onward.turnDone h
  | firstLiteralRun => exact (turnFirstLiteralRun_post hsafe hs).bind fun _ _ h => Onward.turnDone h
  | isMatch t => exact turnMatch_post hsafe hs
  | matchNext t => exact (turnMatchNext_post hsafe hs).bind fun _ _ h => Onward.turnDone h

theorem start_post (hsafe : args.safe = true) :
    Post (Ready args) (Returned args) (args.start ⟨0, []⟩) := by
  have hfits : Fits args ⟨0, []⟩ := ⟨Nat.zero_le _, Nat.zero_le _⟩
  rw [start]
  refine (needIp_post hsafe hfits (by decide)).bind ?_
  rintro _ s ⟨rfl, hone⟩
  have hbyte : args.input[0]? = some args.input[0] := List.getElem?_eq_getElem hone
  have hlt := (args.input[0]).toNat_lt
  rw [bind_ok (peek_eq (Int.add_zero _) hbyte)]
  split
  · have hfits' : Fits args ⟨0 + 1, []⟩ := ⟨hone, Nat.zero_le _⟩
    rw [bind_ok (fetch_eq hbyte)]
    simp only
    split
    · exact ⟨hfits', by omega, by omega⟩
    · rw [bind_ok (assert_eq (by omega))]
      refine (needOp_post hsafe hfits' (by omega)).bind ?_
      rintro _ s ⟨rfl, hout⟩
      refine (needIp_post hsafe hfits' (by omega)).bind ?_
      rintro _ s ⟨rfl, hin⟩
      refine (copyIn_post (by omega) hout).bind fun _ s' hs' => ?_
      exact ⟨⟨by omega, by omega⟩, by omega⟩
  · exact hfits

end Turns

theorem decompress_within (hsafe : args.safe = true) :
    ∃ code out, args.decompress = some (code, out) ∧ out.length ≤ args.room := by
  have hbody : Post (fun _ s => s.out.length ≤ args.room) (Returned args) (args.body ⟨0, []⟩) :=
    (start_post hsafe).bind fun label s hs => Post.loop _ (turn_post hsafe) hs (by omega)
  rw [decompress]
  cases h : args.body ⟨0, []⟩ with
  | ok code s =>
    rw [h] at hbody
    exact ⟨code, s.out, rfl, hbody⟩
  | error halt s =>
    rw [h] at hbody
    obtain ⟨hout, code, rfl⟩ := hbody
    exact ⟨code, s.out, rfl, hout⟩

end Args

/-- The safe decompressor returns, whatever it is given: it reads within its input, it writes within
its output, and it copies only what it has written. -/
theorem lzo1xDecompressSafe_within (input : List UInt8) (room : Nat) :
    ∃ code out, lzo1xDecompressSafe input room = some (code, out) ∧ out.length ≤ room :=
  Args.decompress_within rfl

end Mangoxx.Lzo
