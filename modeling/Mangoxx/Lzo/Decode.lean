import Mangoxx.Lzo.Format
import Mangoxx.Lzo.Steps

namespace Mangoxx.Lzo.Args

open Lib Lib.Program Lz77 Source

variable {args : Args} {s : State}

section Input

theorem getElem_of_drop {input : List UInt8} (h : input.drop i = byte :: rest) :
    input[i]? = some byte := by
  rw [← Nat.add_zero i, ← List.getElem?_drop, h]
  rfl

theorem drop_of_drop {input : List UInt8} (h : input.drop i = xs ++ rest) :
    input.drop (i + xs.length) = rest := by
  rw [← List.drop_drop, h, List.drop_left]

theorem drop_next {input : List UInt8} (h : input.drop i = byte :: rest) :
    input.drop (i + 1) = rest := by
  rw [← List.drop_drop, h]
  rfl

theorem drop_length {input : List UInt8} (h : input.drop i = xs) (hxs : xs ≠ []) :
    i + xs.length = input.length := by
  have hlength := congrArg List.length h
  have hpos := List.length_pos_iff.mpr hxs
  rw [List.length_drop] at hlength
  omega

end Input

section Copies

theorem copyIn_eq {xs : List UInt8} (h : args.input.drop s.ip = xs ++ rest)
    (hroom : s.out.length + xs.length ≤ args.room) :
    args.copyIn xs.length s = .ok () ⟨s.ip + xs.length, s.out ++ xs⟩ := by
  induction xs generalizing s with
  | nil =>
    rw [List.append_nil]
    rfl
  | cons x xs ih =>
    rw [List.length_cons] at hroom
    rw [List.length_cons, copyIn, bind_ok (fetch_eq (getElem_of_drop h)),
      bind_ok (put_eq (by simp only; omega)), ih (s := ⟨s.ip + 1, s.out ++ [x]⟩)]
    · simp [Nat.add_assoc, Nat.add_comm 1]
    · exact drop_next h
    · simp only [List.length_append, List.length_singleton]
      omega

theorem copyMatch_eq {off n : Nat} (hpos : 1 ≤ off) (hle : off ≤ s.out.length)
    (hroom : s.out.length + n ≤ args.room) :
    args.copyMatch (s.out.length - off) n s = .ok () { s with out := copyBehind s.out off n } := by
  induction n generalizing s with
  | zero => rfl
  | succ n ih =>
    have hin : s.out.length - off < s.out.length := by omega
    have hplace : (s.out.length : Int) - off = (s.out.length - off : Nat) := by omega
    have hbyte := List.getElem?_eq_getElem hin
    have hnext : ((s.out.length - off : Nat) : Int) + 1 =
        ((s.out ++ [s.out[s.out.length - off]]).length : Nat) - off := by
      rw [List.length_append, List.length_singleton]
      omega
    rw [hplace, copyMatch, bind_ok (lookAt_eq hbyte), bind_ok (put_eq (by omega)), hnext,
      ih (s := { s with out := s.out ++ [s.out[s.out.length - off]] }), copyBehind, hbyte]
    · rfl
    · simp only [List.length_append, List.length_singleton]
      omega
    · simp only [List.length_append, List.length_singleton]
      omega

end Copies

section Lengths

variable {test : Nat → LzoM Unit}

theorem zeros_run (htest : ∀ t s, t ≤ 2 ^ 32 - 511 → test t s = .ok () s) (k : Nat) {last : UInt8}
    (hlast : last ≠ 0) (hdrop : args.input.drop s.ip = List.replicate k 0 ++ last :: rest)
    (ht : t + 255 * k ≤ 2 ^ 32 - 511) (hfuel : k < fuel) :
    loop .spin (args.zeros test) fuel t s = .ok (t + 255 * k) { s with ip := s.ip + k } := by
  induction k generalizing t s fuel with
  | zero =>
    obtain ⟨fuel, rfl⟩ : ∃ f, fuel = f + 1 := ⟨fuel - 1, by omega⟩
    apply loop_stop
    rw [zeros, bind_ok (peek_eq (Int.add_zero _) (getElem_of_drop hdrop)), if_neg hlast]
    rfl
  | succ k ih =>
    obtain ⟨fuel, rfl⟩ : ∃ f, fuel = f + 1 := ⟨fuel - 1, by omega⟩
    have hrest : args.input.drop (s.ip + 1) = List.replicate k 0 ++ last :: rest :=
      drop_next hdrop
    have hlength := drop_length hrest (by simp)
    rw [List.length_append, List.length_cons] at hlength
    have hturn : args.zeros test t s = .ok (.again (t + 255)) { s with ip := s.ip + 1 } := by
      have hgrow := Nat.add_le_add_left (Nat.le_mul_of_pos_right 255 (Nat.succ_pos k)) t
      have hle : t + 255 ≤ 2 ^ 32 - 511 := Nat.le_trans hgrow ht
      have hleft : s.ip + 1 + 1 ≤ args.input.length := by omega
      have hsmall : lzoUint (t + 255) = t + 255 := Nat.mod_eq_of_lt (by omega)
      have hzero : args.input[s.ip]? = some 0 := getElem_of_drop hdrop
      rw [zeros, bind_ok (peek_eq (Int.add_zero _) hzero), if_pos rfl]
      simp only [hsmall]
      rw [bind_ok (skip_eq 1), bind_ok (htest (t + 255) _ hle), bind_ok (needIp_eq hleft)]
      rfl
    rw [loop_again hturn, ih (t := t + 255) (s := { s with ip := s.ip + 1 }) hrest (by omega)
      (by omega)]
    have hsum : t + 255 + 255 * k = t + 255 * (k + 1) := by omega
    have hip : s.ip + 1 + k = s.ip + (k + 1) := by omega
    simp only [hsum, hip]

theorem longLength_eq (htest : ∀ t s, t ≤ 2 ^ 32 - 511 → test t s = .ok () s) {tt short : Nat}
    (htt : 0 < tt) (hsmall : tt ≤ 2 ^ 32 - 511) (hshort : short ≤ 31)
    (hdrop : args.input.drop s.ip = lengthBytes tt ++ rest) :
    args.longLength test short s =
      .ok (tt + short) { s with ip := s.ip + (lengthBytes tt).length } := by
  obtain ⟨k, last, hbytes, hsum, hpos, hle⟩ := lengthBytes_eq htt
  have hlast : (UInt8.ofNat last).toNat = last :=
    UInt8.toNat_ofNat_of_lt' (Nat.lt_of_le_of_lt hle (by decide))
  have hne : UInt8.ofNat last ≠ 0 := by
    intro h
    rw [h] at hlast
    exact absurd hlast (by simp; omega)
  rw [hbytes, List.append_assoc] at hdrop
  have hlength := drop_length hdrop (by simp)
  rw [List.length_append, List.length_replicate, List.singleton_append, List.length_cons] at hlength
  have hrest := drop_of_drop hdrop
  rw [List.length_replicate] at hrest
  rw [longLength, bind_ok (zeros_run htest k hne hdrop (by omega) (by omega)),
    bind_ok (fetch_eq (getElem_of_drop hrest)), hlast, lzoUint, Nat.mod_eq_of_lt (by omega), hbytes]
  have hvalue : 0 + 255 * k + (short + last) = tt + short := by omega
  rw [hvalue, List.length_append, List.length_replicate, List.length_singleton, ← Nat.add_assoc]
  rfl

theorem testIv_eq (t : Nat) (s : State) (h : t ≤ 2 ^ 32 - 511) : args.testIv t s = .ok () s :=
  overrun_eq (Nat.not_lt.mpr h)

theorem testOv_eq (t : Nat) (s : State) (h : t ≤ 2 ^ 32 - 511) : args.testOv t s = .ok () s :=
  overrun_eq (Nat.not_lt.mpr h)

end Lengths

section Matches

theorem tag_byte {x : UInt8} (hx : x.toNat % 4 = 0) (n : Nat) :
    (if n ≤ 3 then x ||| UInt8.ofNat n else x).toNat = x.toNat + if n ≤ 3 then n else 0 := by
  split
  · have hn : (UInt8.ofNat n).toNat = n := UInt8.toNat_ofNat_of_lt' (by rw [UInt8.size]; omega)
    have hlow : n < 2 ^ 2 := by omega
    have hhigh : x.toNat = 2 ^ 2 * (x.toNat / 4) := by omega
    rw [UInt8.toNat_or, hn, hhigh, ← Nat.two_pow_add_eq_or_of_lt hlow]
  · rfl

theorem matchLength_eq {short low len : Nat} {long : List UInt8} (hshort : short ≤ 31)
    (hlen : 4 ≤ len ∧ len ≤ 2 ^ 32 - 511)
    (hlow : LengthCode short len low long)
    (hdrop : args.input.drop s.ip = long ++ x :: y :: rest) :
    args.matchLength short low s = .ok (len - 2) { s with ip := s.ip + long.length } := by
  rw [matchLength]
  rcases hlow with ⟨hle, rfl, rfl⟩ | ⟨hlt, rfl, rfl⟩
  · rw [if_neg (by omega)]
    rfl
  · have hsmall : len - (short + 2) ≤ 2 ^ 32 - 511 := Nat.le_trans (Nat.sub_le _ _) hlen.2
    have htwo := drop_length (drop_of_drop hdrop) (by simp)
    rw [List.length_cons, List.length_cons] at htwo
    have hvalue : len - (short + 2) + short = len - 2 := by omega
    rw [if_pos rfl, bind_ok (longLength_eq testOv_eq (by omega) hsmall hshort hdrop),
      bind_ok (needIp_eq (by simp only; omega)), hvalue]
    rfl

/-- Where the decompressor stands behind the bytes of a match, the tag being two bytes back. -/
structure AfterMatch (args : Args) (s : State) (t len off n : Nat) (s' : State) : Prop where
  turn_eq : args.turnMatch t s =
    (do return .again (← args.copy ((s.out.length : Int) - off) (len - 2)) : LzoM (Turn Label Code))
      s'
  out_eq : s'.out = s.out
  two_le : 2 ≤ s'.ip
  tag_eq : ∃ x, args.input[s'.ip - 2]? = some x ∧ (x &&& 3).toNat = if n ≤ 3 then n else 0

theorem and_tag {x : UInt8} (hx : x.toNat % 4 = 0) (n : Nat) :
    ((if n ≤ 3 then x ||| UInt8.ofNat n else x) &&& 3).toNat = if n ≤ 3 then n else 0 := by
  have hmod : ∀ m : Nat, m &&& 3 = m % 4 := fun m => Nat.and_two_pow_sub_one_eq_mod m 2
  rw [UInt8.toNat_and, tag_byte hx]
  refine (hmod _).trans ?_
  split <;> omega

theorem tag_le (n : Nat) : (if n ≤ 3 then n else 0) ≤ 3 := by split <;> omega

theorem turnMatch_m2 {len off n : Nat} (hlen : 4 ≤ len ∧ len ≤ 8) (hoff : 1 ≤ off ∧ off ≤ 0x800)
    (hip : 1 ≤ s.ip) (hdrop : args.input.drop (s.ip - 1) = byte :: xs)
    (hbytes : byte :: xs = tagged (matchBytes len off) n ++ rest) :
    AfterMatch args s byte.toNat len off n
      { s with ip := s.ip - 1 + (matchBytes len off).length } := by
  obtain ⟨x, y, hmatch, hx, hy⟩ := matchBytes_m2 hlen hoff
  have htagged := tagged_append [] x y n
  rw [List.nil_append, List.nil_append] at htagged
  rw [hmatch, htagged] at hbytes
  obtain ⟨rfl, rfl⟩ := List.cons.inj hbytes
  have hnext : s.ip - 1 + 1 = s.ip := by omega
  have hrest : args.input.drop s.ip = y :: rest := by
    rw [← hnext]
    exact drop_next hdrop
  have hfour : x.toNat % 4 = 0 := by omega
  have htag := tag_le n
  have hbyte := tag_byte hfour n
  generalize hx' : (if n ≤ 3 then x ||| UInt8.ofNat n else x) = x' at *
  have hback : s.ip + 1 - 2 = s.ip - 1 := by omega
  have hlow : x'.toNat >>> 2 &&& 7 = (off - 1) % 8 := by
    rw [Nat.shiftRight_eq_div_pow]
    refine (Nat.and_two_pow_sub_one_eq_mod _ 3).trans ?_
    omega
  have hhigh : x'.toNat >>> 5 - 1 = len - 2 := by
    rw [Nat.shiftRight_eq_div_pow]
    omega
  have hwhere : (s.out.length : Int) - 1 - ((off - 1) % 8 : Nat) - (y.toNat <<< 3 : Nat) =
      s.out.length - off := by
    rw [Nat.shiftLeft_eq]
    omega
  have hip' : s.ip - 1 + (matchBytes len off).length = s.ip + 1 := by
    rw [hmatch]
    exact congrArg (· + 1) hnext
  rw [hip']
  refine ⟨?_, rfl, by simp only; omega, x', ?_, ?_⟩
  · rw [turnMatch, bind_ok (get_eq s)]
    simp only
    rw [if_pos (by omega), bind_ok (fetch_eq (getElem_of_drop hrest)), hlow, hhigh, hwhere]
  · simp only [hback]
    exact getElem_of_drop hdrop
  · rw [← hx']
    exact and_tag hfour n

theorem turnMatch_far {len off n : Nat} {head x y : UInt8} {long : List UInt8}
    (hmatch : matchBytes len off = head :: long ++ [x, y]) (hfour : x.toNat % 4 = 0)
    (hip : 1 ≤ s.ip) (hdrop : args.input.drop (s.ip - 1) = byte :: xs)
    (hbytes : byte :: xs = tagged (matchBytes len off) n ++ rest) :
    byte = head ∧ ∃ x', args.input.drop s.ip = long ++ x' :: y :: rest ∧
      x'.toNat = x.toNat + (if n ≤ 3 then n else 0) ∧
      (x' &&& 3).toNat = if n ≤ 3 then n else 0 := by
  rw [hmatch, tagged_append (head :: long), List.cons_append, List.cons_append] at hbytes
  obtain ⟨rfl, rfl⟩ := List.cons.inj hbytes
  have hnext : s.ip - 1 + 1 = s.ip := by omega
  refine ⟨rfl, _, ?_, tag_byte hfour n, and_tag hfour n⟩
  rw [← hnext]
  have hrest := drop_next hdrop
  simpa using hrest

theorem turnMatch_m3 {len off n : Nat} (hlen : 4 ≤ len ∧ len ≤ 2 ^ 32 - 511)
    (hoff : 1 ≤ off ∧ off ≤ 0x4000) (hnot : ¬ (len ≤ 8 ∧ off ≤ 0x800))
    (hip : 1 ≤ s.ip) (hdrop : args.input.drop (s.ip - 1) = byte :: xs)
    (hbytes : byte :: xs = tagged (matchBytes len off) n ++ rest) :
    AfterMatch args s byte.toNat len off n
      { s with ip := s.ip - 1 + (matchBytes len off).length } := by
  obtain ⟨head, long, low, x, y, hmatch, hhead, hlow, hcode, hx, hy⟩ :=
    matchBytes_m3 hlen.1 hoff hnot
  have hfour : x.toNat % 4 = 0 := by omega
  obtain ⟨rfl, x', hrest, hx', hand⟩ := turnMatch_far hmatch hfour hip hdrop hbytes
  have htag := tag_le n
  have hpair := drop_of_drop hrest
  have hmask : byte.toNat &&& 31 = low := by
    refine (Nat.and_two_pow_sub_one_eq_mod _ 5).trans ?_
    omega
  have hip' : s.ip - 1 + (matchBytes len off).length = s.ip + long.length + 2 := by
    rw [hmatch]
    simp only [List.length_append, List.length_cons, List.length_nil]
    omega
  have hwhere : (s.out.length : Int) - 1 - (x'.toNat >>> 2 + y.toNat <<< 6 : Nat) =
      s.out.length - off := by
    rw [Nat.shiftLeft_eq, Nat.shiftRight_eq_div_pow]
    omega
  rw [hip']
  refine ⟨?_, rfl, by simp only; omega, x', ?_, hand⟩
  · have hone : args.input.drop (s.ip + long.length + 1) = y :: rest := drop_next hpair
    rw [turnMatch, bind_ok (get_eq s)]
    simp only
    rw [if_neg (by omega), if_pos (by omega), hmask,
      bind_ok (matchLength_eq (by decide) hlen hcode hrest),
      bind_ok (peek_eq (Int.add_zero _) (getElem_of_drop hpair)),
      bind_ok (peek_eq (Int.natCast_succ _).symm (getElem_of_drop hone)),
      bind_ok (skip_eq 2), hwhere]
  · exact getElem_of_drop hpair

theorem turnMatch_m4 {len off n : Nat} (hlen : 4 ≤ len ∧ len ≤ 2 ^ 32 - 511)
    (hoff : 0x4000 < off ∧ off ≤ 0xbfff) (hip : 1 ≤ s.ip)
    (hdrop : args.input.drop (s.ip - 1) = byte :: xs)
    (hbytes : byte :: xs = tagged (matchBytes len off) n ++ rest) :
    AfterMatch args s byte.toNat len off n
      { s with ip := s.ip - 1 + (matchBytes len off).length } := by
  obtain ⟨head, long, low, x, y, hmatch, hhead, hlow, hcode, hx, hy⟩ := matchBytes_m4 hlen.1 hoff
  have hfour : x.toNat % 4 = 0 := by omega
  obtain ⟨rfl, x', hrest, hx', hand⟩ := turnMatch_far hmatch hfour hip hdrop hbytes
  have htag := tag_le n
  have hpair := drop_of_drop hrest
  have htop : (off - 0x4000) / 2 ^ 14 ≤ 1 := by omega
  have hmask : byte.toNat &&& 7 = low := by
    refine (Nat.and_two_pow_sub_one_eq_mod _ 3).trans ?_
    omega
  have hbit : byte.toNat &&& 8 = (off - 0x4000) / 2 ^ 14 * 8 := by
    have hand : ∀ top ≤ 1, ∀ low < 8, 16 + top * 8 + low &&& 8 = top * 8 := by decide
    rw [hhead]
    exact hand _ htop _ hlow
  have hip' : s.ip - 1 + (matchBytes len off).length = s.ip + long.length + 2 := by
    rw [hmatch]
    simp only [List.length_append, List.length_cons, List.length_nil]
    omega
  have hwhere : (s.out.length : Int) - (((off - 0x4000) / 2 ^ 14 * 8) <<< 11 : Nat) -
      (x'.toNat >>> 2 + y.toNat <<< 6 : Nat) = s.out.length - (off - 0x4000 : Nat) := by
    rw [Nat.shiftLeft_eq, Nat.shiftLeft_eq, Nat.shiftRight_eq_div_pow]
    omega
  rw [hip']
  refine ⟨?_, rfl, by simp only; omega, x', ?_, hand⟩
  · have hone : args.input.drop (s.ip + long.length + 1) = y :: rest := drop_next hpair
    have hnone : ¬ (s.out.length : Int) - (off - 0x4000 : Nat) = s.out.length := by omega
    have hfar : (s.out.length : Int) - (off - 0x4000 : Nat) - 0x4000 =
        s.out.length - off := by omega
    rw [turnMatch, bind_ok (get_eq s)]
    simp only
    rw [if_neg (by omega), if_neg (by omega), if_pos (by omega), hmask, hbit,
      bind_ok (matchLength_eq (by decide) hlen hcode hrest),
      bind_ok (peek_eq (Int.add_zero _) (getElem_of_drop hpair)),
      bind_ok (peek_eq (Int.natCast_succ _).symm (getElem_of_drop hone)),
      bind_ok (skip_eq 2), hwhere, if_neg hnone, hfar]
  · exact getElem_of_drop hpair

theorem turnMatch_eq {len off n : Nat} (hlen : 4 ≤ len ∧ len ≤ 2 ^ 32 - 511)
    (hoff : 1 ≤ off ∧ off ≤ 0xbfff) (hip : 1 ≤ s.ip)
    (hdrop : args.input.drop (s.ip - 1) = byte :: xs)
    (hbytes : byte :: xs = tagged (matchBytes len off) n ++ rest) :
    AfterMatch args s byte.toNat len off n
      { s with ip := s.ip - 1 + (matchBytes len off).length } := by
  by_cases hshort : len ≤ 8 ∧ off ≤ 0x800
  · exact turnMatch_m2 ⟨hlen.1, hshort.1⟩ ⟨hoff.1, hshort.2⟩ hip hdrop hbytes
  · by_cases hnear : off ≤ 0x4000
    · exact turnMatch_m3 hlen ⟨hoff.1, hnear⟩ hshort hip hdrop hbytes
    · exact turnMatch_m4 hlen ⟨Nat.not_le.mp hnear, hoff.2⟩ hip hdrop hbytes

def behindMatch (n : Nat) : Label := if n = 0 ∨ 3 < n then .literalRun else .matchNext n

theorem AfterMatch.copied {len off n : Nat} {s' : State} (h : AfterMatch args s t len off n s')
    (hlen : 4 ≤ len) (hoff : 1 ≤ off ∧ off ≤ s.out.length)
    (hroom : s.out.length + len ≤ args.room) :
    args.turn (.isMatch t) s = .ok (.again (behindMatch n)) ⟨s'.ip, copyBehind s.out off len⟩ := by
  obtain ⟨x, hx, htag⟩ := h.tag_eq
  have hout := h.out_eq
  have hlength : s'.out.length = s.out.length := congrArg List.length hout
  have htwo := h.two_le
  have hplace : (s.out.length : Int) - off = (s.out.length - off : Nat) := by omega
  have hlb : args.testLb ((s.out.length - off : Nat) : Int) s' = .ok () s' := testLb_eq (by omega)
  have hmod : lzoUint (len - 2 + 3 - 1) ≤ len := Nat.le_trans (Nat.mod_le _ _) (by omega)
  have hsum : len - 2 + 2 = len := by omega
  have hcopy := @copyMatch_eq args s' off len hoff.1 (by omega) (by omega)
  rw [hout] at hcopy
  have hdone : args.matchDone ⟨s'.ip, copyBehind s.out off len⟩ =
      .ok (behindMatch n) ⟨s'.ip, copyBehind s.out off len⟩ := by
    rw [matchDone, bind_ok (peek_eq (by simp only; omega) hx), htag, behindMatch]
    by_cases hn : n ≤ 3
    · by_cases hzero : n = 0
      · simp [hzero]
        rfl
      · simp [hn, hzero, Nat.not_lt.mpr hn]
        rfl
    · simp [hn, Nat.not_le.mp hn]
      rfl
  have hall : args.copy ((s.out.length : Int) - off) (len - 2) s' =
      .ok (behindMatch n) ⟨s'.ip, copyBehind s.out off len⟩ := by
    rw [copy, hplace, bind_ok hlb, bind_ok (assert_eq (by omega)),
      bind_ok (needOp_eq (by omega)), hsum, ← hplace, bind_ok hcopy, hdone]
  exact h.turn_eq.trans (bind_ok hall)

end Matches

section Streams

abbrev Runs (args : Args) : Label × State → Label × State → Prop :=
  Goes args.turn fun _ s => args.input.length - s.ip

theorem runs_turn {label label' : Label} {s' : State}
    (h : args.turn label s = .ok (.again label') s') (hip : s.ip < s'.ip)
    (hle : s'.ip ≤ args.input.length) : Runs args (label, s) (label', s') :=
  .single ⟨h, by simp only; omega⟩

def Ahead (rest : List UInt8) : Prop :=
  3 ≤ rest.length ∧ ∃ byte xs, rest = byte :: xs ∧ 16 ≤ byte.toNat

def At (args : Args) (rest : List UInt8) (x : Label × State) : Prop :=
  1 ≤ x.2.ip ∧ args.input.drop (x.2.ip - 1) = rest ∧ ∃ byte xs, rest = byte :: xs ∧
    x.1 = .isMatch byte.toNat

theorem at_next {byte : UInt8} (h : args.input.drop s.ip = byte :: xs) :
    At args (byte :: xs) (.isMatch byte.toNat, { s with ip := s.ip + 1 }) :=
  ⟨Nat.succ_le_succ (Nat.zero_le _), h, byte, xs, rfl, rfl⟩

theorem literals_behind {label : Label} (hlabel : label = .literalRun ∨ label = .firstLiteralRun)
    (hahead : Ahead rest) (h : args.input.drop s.ip = rest) :
    ∃ y, Runs args (label, s) y ∧ At args rest y ∧ y.2.out = s.out := by
  obtain ⟨hthree, byte, xs, rfl, hbyte⟩ := hahead
  have hlength := drop_length h (by simp)
  have hbytes := getElem_of_drop h
  rw [List.length_cons] at hlength hthree
  refine ⟨_, runs_turn ?_ (Nat.lt_succ_self _) (by simp only; omega), at_next h, rfl⟩
  rcases hlabel with rfl | rfl
  · rw [turn, turnLiteralRun, bind_assoc, bind_ok (needIp_eq (by omega)), bind_assoc,
      bind_ok (fetch_eq hbytes)]
    simp only [if_pos hbyte]
    rfl
  · rw [turn, turnFirstLiteralRun, bind_assoc, bind_ok (fetch_eq hbytes)]
    simp only [if_pos hbyte]
    rfl

theorem literalLength_eq {n : Nat} {head : UInt8} {long : List UInt8}
    (hn : 4 ≤ n ∧ n ≤ 2 ^ 32 - 511) (hheader : runHeader n = head :: long)
    (h : args.input.drop s.ip = long ++ rest) :
    head.toNat < 16 ∧
      args.literalLength head.toNat s = .ok (n - 3) { s with ip := s.ip + long.length } := by
  rw [runHeader] at hheader
  split at hheader
  · obtain ⟨rfl, rfl⟩ := List.cons.inj hheader
    have hhead : (UInt8.ofNat (n - 3)).toNat = n - 3 :=
      UInt8.toNat_ofNat_of_lt' (by rw [UInt8.size]; omega)
    rw [hhead, literalLength, if_neg (by omega)]
    exact ⟨by omega, rfl⟩
  · obtain ⟨rfl, rfl⟩ := List.cons.inj hheader
    have hsmall : n - 18 ≤ 2 ^ 32 - 511 := Nat.le_trans (Nat.sub_le _ _) hn.2
    have hvalue : n - 18 + 15 = n - 3 := by omega
    refine ⟨by decide, ?_⟩
    rw [literalLength, if_pos (by decide),
      longLength_eq testIv_eq (by omega) hsmall (by decide) h, hvalue]

theorem literals_run {lits : List UInt8} (hlits : 4 ≤ lits.length ∧ lits.length ≤ 2 ^ 32 - 511)
    (hahead : Ahead rest) (hroom : s.out.length + lits.length ≤ args.room)
    (h : args.input.drop s.ip = runHeader lits.length ++ lits ++ rest) :
    ∃ y, Runs args (.literalRun, s) y ∧ At args rest y ∧ y.2.out = s.out ++ lits := by
  obtain ⟨head, long, hheader⟩ : ∃ head long, runHeader lits.length = head :: long := by
    rw [runHeader]
    split <;> exact ⟨_, _, rfl⟩
  rw [hheader, List.cons_append, List.cons_append, List.append_assoc] at h
  have hlong : args.input.drop (s.ip + 1) = long ++ (lits ++ rest) := drop_next h
  have hdata := drop_of_drop hlong
  have hrest := drop_of_drop hdata
  have hlength := drop_length h (by simp)
  have hthree := hahead.1
  simp only [List.length_cons, List.length_append] at hlength
  obtain ⟨hlow, hvalue⟩ := literalLength_eq (s := ⟨s.ip + 1, s.out⟩) hlits hheader hlong
  have hturn : args.turn .literalRun s =
      .ok (.again .firstLiteralRun) ⟨s.ip + 1 + long.length + lits.length, s.out ++ lits⟩ := by
    have hsum : lits.length - 3 + 3 = lits.length := by omega
    have hcopy := copyIn_eq (s := ⟨s.ip + 1 + long.length, s.out⟩) hdata hroom
    have hrun : args.turnLiteralRun s =
        .ok .firstLiteralRun ⟨s.ip + 1 + long.length + lits.length, s.out ++ lits⟩ := by
      rw [turnLiteralRun, bind_ok (needIp_eq (by omega)), bind_ok (fetch_eq (getElem_of_drop h))]
      simp only [if_neg (Nat.not_le.mpr hlow)]
      rw [bind_ok hvalue, bind_ok (assert_eq (by omega)), hsum,
        bind_ok (needOp_eq (s := ⟨s.ip + 1 + long.length, s.out⟩) hroom),
        bind_ok (needIp_eq (by simp only; omega)), bind_ok hcopy]
      rfl
    exact bind_ok hrun
  obtain ⟨y, hruns, hat, hout⟩ :=
    literals_behind (s := ⟨s.ip + 1 + long.length + lits.length, s.out ++ lits⟩)
      (.inr rfl) hahead hrest
  exact ⟨y, .trans (runs_turn hturn (by simp only; omega) (by simp only; omega)) hruns, hat, hout⟩

theorem literals_next {lits : List UInt8} (hlits : 1 ≤ lits.length ∧ lits.length ≤ 3)
    (hahead : Ahead rest) (hroom : s.out.length + lits.length ≤ args.room)
    (h : args.input.drop s.ip = lits ++ rest) :
    ∃ y, Runs args (.matchNext lits.length, s) y ∧ At args rest y ∧ y.2.out = s.out ++ lits := by
  obtain ⟨hthree, byte, xs, rfl, hbyte⟩ := hahead
  have hrest := drop_of_drop h
  have hlength := drop_length h (by simp)
  simp only [List.length_append] at hlength
  have hturn : args.turn (.matchNext lits.length) s =
      .ok (.again (.isMatch byte.toNat)) ⟨s.ip + lits.length + 1, s.out ++ lits⟩ := by
    have hrun : args.turnMatchNext lits.length s =
        .ok (.isMatch byte.toNat) ⟨s.ip + lits.length + 1, s.out ++ lits⟩ := by
      rw [turnMatchNext, bind_ok (assert_eq (show 0 < lits.length from hlits.1)),
        bind_ok (assert_eq (by omega)), bind_ok (needOp_eq hroom), bind_ok (needIp_eq (by omega)),
        bind_ok (copyIn_eq h hroom), bind_ok (fetch_eq (getElem_of_drop hrest))]
      rfl
    exact bind_ok hrun
  rw [List.length_cons] at hlength
  exact ⟨_, runs_turn hturn (by simp only; omega) (by simp only; omega),
    at_next (s := ⟨s.ip + lits.length, s.out ++ lits⟩) hrest, rfl⟩

/-- The tag counts the literals that need no header. -/
theorem piece_run {p : Piece UInt8} {x : Label × State} (hp : Codable p)
    (hlen : p.len ≤ 2 ^ 32 - 511 ∧ p.lits.length ≤ 2 ^ 32 - 511) (hfits : p.Fits x.2.out)
    (hroom : (p.extend x.2.out).length ≤ args.room) (hahead : Ahead rest)
    (hat : At args (pieceBytes p ++ rest) x) :
    ∃ y, Runs args x y ∧ At args rest y ∧ y.2.out = p.extend x.2.out := by
  obtain ⟨label, s⟩ := x
  obtain ⟨hip, hdrop, byte, xs, hbytes, rfl⟩ := hat
  simp only at hip hdrop hfits hroom
  rw [length_extend hfits] at hroom
  rw [pieceBytes, List.append_assoc] at hbytes hdrop
  have hafter :=
    turnMatch_eq ⟨hp.len_ge, hlen.1⟩ ⟨hp.off_pos, hp.off_le⟩ hip (hdrop.trans hbytes) hbytes.symm
  have hturn := hafter.copied hp.len_ge hfits (by omega)
  have hlong := tagged_length (matchBytes p.len p.off) p.lits.length
  have hbehind := drop_of_drop hdrop
  rw [hlong] at hbehind
  have htwo := matchBytes_length p.len p.off
  have hlength := drop_length hdrop (by rw [hbytes]; simp)
  have hthree := hahead.1
  rw [List.length_append, List.length_append, hlong] at hlength
  have hcopied := length_copyBehind hfits.1 hfits.2 p.len
  have hfirst : Runs args (.isMatch byte.toNat, s)
      (behindMatch p.lits.length,
        ⟨s.ip - 1 + (matchBytes p.len p.off).length, copyBehind s.out p.off p.len⟩) :=
    runs_turn hturn (by simp only; omega) (by simp only; omega)
  have hrest : ∃ y, Runs args (behindMatch p.lits.length,
      ⟨s.ip - 1 + (matchBytes p.len p.off).length, copyBehind s.out p.off p.len⟩) y ∧
      At args rest y ∧ y.2.out = p.extend s.out := by
    rcases Nat.lt_or_ge 3 p.lits.length with hmany | hfew
    · rw [runBytes, if_neg (Nat.not_le.mpr hmany)] at hbehind
      rw [behindMatch, if_pos (.inr hmany)]
      exact literals_run ⟨hmany, hlen.2⟩ hahead (by simp only; omega) hbehind
    · rw [runBytes, if_pos hfew] at hbehind
      rcases Nat.eq_zero_or_pos p.lits.length with hzero | hpos
      · obtain hnone := List.length_eq_zero_iff.mp hzero
        rw [hnone, List.nil_append] at hbehind
        rw [behindMatch, if_pos (.inl hzero)]
        obtain ⟨y, hruns, hat, hout⟩ :=
          literals_behind (s := ⟨_, copyBehind s.out p.off p.len⟩) (.inl rfl) hahead hbehind
        exact ⟨y, hruns, hat, by rw [hout, Piece.extend, hnone, List.append_nil]⟩
      · rw [behindMatch, if_neg (by omega)]
        exact literals_next ⟨hpos, hfew⟩ hahead (by simp only; omega) hbehind
  obtain ⟨y, hruns, hy⟩ := hrest
  exact ⟨y, .trans hfirst hruns, hy⟩

theorem ahead_piece {p : Piece UInt8} (hp : Codable p) (hahead : Ahead rest) :
    Ahead (pieceBytes p ++ rest) := by
  have htwo := matchBytes_length p.len p.off
  refine ⟨?_, ?_⟩
  · have := hahead.1
    rw [pieceBytes]
    simp only [List.length_append, tagged_length]
    omega
  · by_cases hshort : p.len ≤ 8 ∧ p.off ≤ 0x800
    · obtain ⟨x, y, hmatch, hx, hy⟩ := matchBytes_m2 ⟨hp.len_ge, hshort.1⟩ ⟨hp.off_pos, hshort.2⟩
      have htagged := tagged_append [] x y p.lits.length
      have hbyte := tag_byte (show x.toNat % 4 = 0 by omega) p.lits.length
      have hge := hp.len_ge
      rw [List.nil_append, List.nil_append] at htagged
      rw [pieceBytes, hmatch, htagged]
      exact ⟨_, _, rfl, by omega⟩
    · have hfar : ∃ head long x y, matchBytes p.len p.off = head :: long ++ [x, y] ∧
          16 ≤ head.toNat := by
        by_cases hnear : p.off ≤ 0x4000
        · obtain ⟨head, long, low, x, y, hmatch, hhead, -⟩ :=
            matchBytes_m3 hp.len_ge ⟨hp.off_pos, hnear⟩ hshort
          exact ⟨head, long, x, y, hmatch, by omega⟩
        · obtain ⟨head, long, low, x, y, hmatch, hhead, -⟩ :=
            matchBytes_m4 hp.len_ge ⟨Nat.not_le.mp hnear, hp.off_le⟩
          exact ⟨head, long, x, y, hmatch, by omega⟩
      obtain ⟨head, long, x, y, hmatch, hhead⟩ := hfar
      rw [pieceBytes, hmatch, tagged_append (head :: long)]
      exact ⟨head, _, rfl, hhead⟩

theorem ahead_endMark : Ahead endMark := ⟨by decide, 17, [0, 0], rfl, by decide⟩

theorem ahead_pieces {ps : List (Piece UInt8)} (hps : ∀ p ∈ ps, Codable p) :
    Ahead (ps.flatMap pieceBytes ++ endMark) := by
  induction ps with
  | nil => exact ahead_endMark
  | cons p ps ih =>
    rw [List.flatMap_cons, List.append_assoc]
    exact ahead_piece (hps p (by simp)) (ih fun q hq => hps q (by simp [hq]))

theorem pieces_run {ps : List (Piece UInt8)} {x : Label × State}
    (hps : ∀ p ∈ ps, Codable p ∧ Short p) (hfit : AllFit x.2.out ps)
    (hroom : (expand x.2.out ps).length ≤ args.room)
    (hat : At args (ps.flatMap pieceBytes ++ endMark) x) :
    ∃ y, Runs args x y ∧ At args endMark y ∧ y.2.out = expand x.2.out ps := by
  induction ps generalizing x with
  | nil => exact ⟨x, .refl, hat, rfl⟩
  | cons p ps ih =>
    obtain ⟨hfits, hrest⟩ := hfit
    have hp := hps p (by simp)
    have hmore := length_le_expand (p.extend x.2.out) ps
    rw [expand_cons] at hroom ⊢
    rw [List.flatMap_cons, List.append_assoc] at hat
    obtain ⟨y, hruns, haty, hout⟩ := piece_run hp.1 hp.2 hfits (Nat.le_trans hmore hroom)
      (ahead_pieces fun q hq => (hps q (by simp [hq])).1) hat
    rw [← hout] at hrest hroom ⊢
    obtain ⟨z, hruns', hz⟩ := ih (fun q hq => hps q (by simp [hq])) hrest hroom haty
    exact ⟨z, .trans hruns hruns', hz⟩

theorem endMark_stop {x : Label × State} (hat : At args endMark x) :
    args.turn x.1 x.2 = .ok (.stop .ok) { x.2 with ip := x.2.ip + 2 } := by
  obtain ⟨label, s⟩ := x
  obtain ⟨hip, hdrop, byte, xs, hbytes, rfl⟩ := hat
  simp only at hip hdrop
  obtain ⟨rfl, rfl⟩ := List.cons.inj hbytes
  have hlength := drop_length hdrop (by simp [endMark])
  have hnext : s.ip - 1 + 1 = s.ip := by omega
  have hzeros : args.input.drop s.ip = [0, 0] := by
    rw [← hnext]
    exact drop_next hdrop
  have hlast : args.input.drop (s.ip + 1) = [0] := drop_next hzeros
  have hend : s.ip + 2 = args.input.length := by
    rw [← hlength]
    simp only [endMark, List.length_cons, List.length_nil]
    omega
  have hwhere : (s.out.length : Int) - ((17 &&& 8) <<< 11 : Nat) -
      ((0 : UInt8).toNat >>> 2 + (0 : UInt8).toNat <<< 6 : Nat) = s.out.length := by
    have hbit : (17 &&& 8) <<< 11 = 0 := by decide
    have hoff : (0 : UInt8).toNat >>> 2 + (0 : UInt8).toNat <<< 6 = 0 := by decide
    rw [hbit, hoff]
    simp
  have hturn : args.turnMatch 17 s = .ok (.stop .ok) { s with ip := s.ip + 2 } := by
    rw [turnMatch, bind_ok (get_eq s)]
    simp only
    rw [if_neg (by decide), if_neg (by decide), if_pos (by decide),
      bind_ok (show args.matchLength 7 (17 &&& 7) s = .ok 1 s from rfl),
      bind_ok (peek_eq (Int.add_zero _) (getElem_of_drop hzeros)),
      bind_ok (peek_eq (Int.natCast_succ _).symm (getElem_of_drop hlast)), bind_ok (skip_eq 2),
      if_pos hwhere, bind_ok (get_eq _)]
    simp only
    rw [if_pos hend]
    rfl
  exact hturn

def Starts (args : Args) (rest out : List UInt8) : Prop :=
  ∃ label s x, args.start ⟨0, []⟩ = .ok label s ∧ s.ip ≤ args.input.length ∧
    Runs args (label, s) x ∧ At args rest x ∧ x.2.out = out

theorem start_endMark (hinput : args.input = endMark) : Starts args endMark [] := by
  have hdrop : args.input.drop 0 = endMark := hinput
  have hstart : args.start ⟨0, []⟩ = .ok .literalRun ⟨0, []⟩ := by
    rw [start, bind_ok (needIp_eq (by rw [hinput]; decide)),
      bind_ok (peek_eq (Int.add_zero _) (getElem_of_drop hdrop))]
    rfl
  obtain ⟨x, hruns, hat, hout⟩ := literals_behind (s := ⟨0, []⟩) (.inl rfl) ahead_endMark hdrop
  exact ⟨_, _, x, hstart, Nat.zero_le _, hruns, hat, hout⟩

theorem start_header {first : List UInt8} (hfirst : 4 ≤ first.length ∧ first.length ≤ 2 ^ 32 - 511)
    (hahead : Ahead rest) (hroom : first.length ≤ args.room)
    (hinput : args.input = runHeader first.length ++ first ++ rest) : Starts args rest first := by
  have hdrop : args.input.drop 0 = runHeader first.length ++ first ++ rest := hinput
  obtain ⟨head, long, hheader⟩ : ∃ head long, runHeader first.length = head :: long := by
    rw [runHeader]
    split <;> exact ⟨_, _, rfl⟩
  have hbytes := hdrop
  rw [hheader, List.cons_append, List.cons_append] at hbytes
  have hlow : head.toNat < 16 := by
    have hrest : args.input.drop 1 = long ++ (first ++ rest) := by
      rw [← List.append_assoc]
      exact drop_next hbytes
    exact (literalLength_eq (s := ⟨1, []⟩) hfirst hheader hrest).1
  have hone : 1 ≤ args.input.length := by
    have := drop_length hbytes (by simp)
    rw [List.length_cons] at this
    omega
  have hstart : args.start ⟨0, []⟩ = .ok .literalRun ⟨0, []⟩ := by
    rw [start, bind_ok (needIp_eq hone),
      bind_ok (peek_eq (Int.add_zero _) (getElem_of_drop hbytes)), if_neg (by omega)]
    rfl
  obtain ⟨x, hruns, hat, hout⟩ :=
    literals_run (s := ⟨0, []⟩) hfirst hahead (by simpa using hroom) hdrop
  exact ⟨_, _, x, hstart, Nat.zero_le _, hruns, hat, hout⟩

/-- One byte says how many literals there are, and three or fewer are read as those of a match. -/
theorem start_short {first : List UInt8} (hfirst : 1 ≤ first.length ∧ first.length ≤ 238)
    (hahead : Ahead rest) (hroom : first.length ≤ args.room)
    (hinput : args.input = shortBytes first ++ rest) : Starts args rest first := by
  have hdrop : args.input.drop 0 = shortBytes first ++ rest := hinput
  have hbyte : (UInt8.ofNat (17 + first.length)).toNat = 17 + first.length :=
    UInt8.toNat_ofNat_of_lt' (by rw [UInt8.size]; omega)
  have hcount : 17 + first.length - 17 = first.length := by omega
  rw [shortBytes, List.cons_append] at hdrop
  have hdata : args.input.drop 1 = first ++ rest := drop_next hdrop
  have hlength := drop_length hdrop (by simp)
  have hthree := hahead.1
  simp only [List.length_cons, List.length_append] at hlength
  by_cases hfew : first.length < 4
  · have hstart : args.start ⟨0, []⟩ = .ok (.matchNext first.length) ⟨1, []⟩ := by
      rw [start, bind_ok (needIp_eq (by simp only; omega)),
        bind_ok (peek_eq (Int.add_zero _) (getElem_of_drop hdrop)), if_pos (by omega),
        bind_ok (fetch_eq (getElem_of_drop hdrop)), hbyte, hcount]
      simp only [if_pos hfew]
      rfl
    obtain ⟨x, hruns, hat, hout⟩ := literals_next (s := ⟨1, []⟩) ⟨hfirst.1, by omega⟩ hahead
      (by simpa using hroom) hdata
    exact ⟨_, _, x, hstart, by simp only; omega, hruns, hat, hout⟩
  · have hcopy := copyIn_eq (s := ⟨1, []⟩) hdata (by simpa using hroom)
    have hstart : args.start ⟨0, []⟩ = .ok .firstLiteralRun ⟨1 + first.length, first⟩ := by
      rw [start, bind_ok (needIp_eq (by simp only; omega)),
        bind_ok (peek_eq (Int.add_zero _) (getElem_of_drop hdrop)), if_pos (by omega),
        bind_ok (fetch_eq (getElem_of_drop hdrop)), hbyte, hcount]
      simp only [if_neg hfew]
      rw [bind_ok (assert_eq (by omega)), bind_ok (needOp_eq (by simpa using hroom)),
        bind_ok (needIp_eq (by simp only; omega)), bind_ok hcopy]
      rfl
    obtain ⟨x, hruns, hat, hout⟩ :=
      literals_behind (s := ⟨1 + first.length, first⟩) (.inr rfl) hahead
        (drop_of_drop hdata)
    exact ⟨_, _, x, hstart, by simp only; omega, hruns, hat, hout⟩

theorem start_run {first lead : List UInt8} {ps : List (Piece UInt8)} (hlead : Lead first ps lead)
    (hps : ∀ p ∈ ps, Codable p) (hfirst : first.length ≤ 2 ^ 32 - 511)
    (hroom : first.length ≤ args.room)
    (hinput : args.input = lead ++ (ps.flatMap pieceBytes ++ endMark)) :
    Starts args (ps.flatMap pieceBytes ++ endMark) first := by
  rcases hlead with ⟨rfl, rfl, rfl⟩ | ⟨hfour, rfl⟩ | ⟨hpos, hshort, rfl⟩
  · exact start_endMark hinput
  · exact start_header ⟨hfour, hfirst⟩ (ahead_pieces hps) hroom hinput
  · exact start_short ⟨hpos, hshort⟩ (ahead_pieces hps) hroom hinput

/-- The decompressor gives the text that is encoded, with the tests or without. -/
theorem decompress_of_encodes {text : List UInt8} (h : Encodes args.input text)
    (hroom : text.length ≤ args.room) : args.decompress = some (.ok, text) := by
  obtain ⟨first, ps, lead, hlead, hfirst, hfit, hps, hinput, rfl⟩ := h
  have hmore := length_le_expand first ps
  rw [List.append_assoc] at hinput
  obtain ⟨label, s, x, hstart, hip, hruns, hat, hout⟩ :=
    start_run hlead (fun p hp => (hps p hp).1) hfirst (by omega) hinput
  rw [← hout] at hfit hroom ⊢
  obtain ⟨y, hruns', haty, hout'⟩ := pieces_run hps hfit hroom hat
  have hall : Runs args (label, s) y := .trans hruns hruns'
  have hbody : args.body ⟨0, []⟩ = .ok .ok { y.2 with ip := y.2.ip + 2 } := by
    rw [body, bind_ok hstart]
    exact Goes.loop hall (endMark_stop haty) (by omega)
  rw [decompress, hbody, ← hout']

end Streams

end Mangoxx.Lzo.Args
