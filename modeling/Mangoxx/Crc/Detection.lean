import Mangoxx.Crc.Division
import Mathlib.GroupTheory.OrderOfElement
import Mathlib.Tactic.NormNum.Prime

namespace Mangoxx.Crc

open Lib Gf2 BitString Polynomial

section Differences

variable {width : Nat} (std : Standard width) {message message' : List UInt8}

def differences (message message' : List UInt8) : List Bool :=
  List.zipWith xor (messageBits std message) (messageBits std message')

theorem messageBits_injective : Function.Injective (messageBits std) := by
  have hbyte : Function.Injective (byteBits std) := by
    intro byte byte' h
    have hbits : toBits 8 byte.toNat = toBits 8 byte'.toNat := by
      rw [byteBits, byteBits] at h
      split at h
      · exact List.reverse_injective h
      · exact h
    have hnat := congrArg ofBits hbits
    rw [ofBits_toBits, ofBits_toBits, Nat.mod_eq_of_lt byte.toNat_lt,
      Nat.mod_eq_of_lt byte'.toNat_lt] at hnat
    exact UInt8.toNat_inj.mp hnat
  intro message
  induction message with
  | nil =>
    intro message' h
    have hlength := congrArg List.length h
    rw [length_messageBits, length_messageBits] at hlength
    exact (List.length_eq_zero_iff.mp (by simpa using hlength.symm)).symm
  | cons byte message ih =>
    intro message' h
    cases message' with
    | nil => simpa using congrArg List.length h
    | cons byte' message' =>
      rw [messageBits, messageBits, List.flatMap_cons, List.flatMap_cons] at h
      obtain ⟨hfirst, hrest⟩ := List.append_inj h (by simp)
      rw [hbyte hfirst, ih hrest]

theorem divisor_dvd_differences (h : 8 ≤ width) (hodd : std.polynomial.toNat.testBit 0 = true)
    (hlength : message.length = message'.length)
    (hregister : register std message = register std message') :
    divisor std ∣ poly (ofBits (differences std message message')) := by
  have hconst : (divisor std).coeff 0 = 1 := by
    have hw : 0 ≠ width := by omega
    simp [divisor, generator, coeff_poly, coeff_X_pow, hodd, hw]
  have hsum : poly (ofBits (differences std message message')) =
      messagePoly std message + messagePoly std message' :=
    poly_ofBits_xor (by simp [hlength])
  have hvalue := congrArg (value std) hregister
  rw [value_register std h, value_register std h, hlength, add_right_inj] at hvalue
  rw [← dvd_X_pow_mul hconst width, ← AdjoinRoot.mk_eq_zero, hsum, mul_add, map_add,
    map_mul, map_mul, map_pow, AdjoinRoot.mk_X]
  exact (congrArg (· + _) hvalue).trans (add_self std _)

end Differences

section Order

variable {width : Nat} (std : Standard width)

def square (r : BitVec width) : BitVec width :=
  (toBits width r.toNat).foldl
    (fun acc b => std.divideBit (std.divideBit acc) ^^^ BitVec.ofNat width b.toNat) 0

def power (exponent : List Bool) : BitVec width :=
  exponent.foldl (fun acc b => if b then std.divideBit (square std acc) else square std acc) 1

theorem value_bit (h : 0 < width) (b : Bool) :
    value std (BitVec.ofNat width b.toNat) = AdjoinRoot.mk _ (poly b.toNat) := by
  have hlt : b.toNat < 2 ^ width := b.toNat_lt.trans_le (Nat.pow_le_pow_right Nat.two_pos h)
  rw [value, BitVec.toNat_ofNat, Nat.mod_eq_of_lt hlt]

theorem value_one (h : 0 < width) : value std 1 = 1 := by
  have hbit := value_bit std h true
  rwa [Bool.toNat_true, poly_one, map_one] at hbit

theorem value_square (h : 0 < width) (r : BitVec width) :
    value std (square std r) = value std r ^ 2 := by
  have hbits (bs : List Bool) :
      value std (bs.foldl
        (fun acc b => std.divideBit (std.divideBit acc) ^^^ BitVec.ofNat width b.toNat) 0) =
      AdjoinRoot.mk _ (poly (ofBits bs)) ^ 2 := by
    induction bs using List.reverseRecOn with
    | nil => simp [value]
    | append_singleton bs b ih =>
      have hbit : AdjoinRoot.mk (divisor std) (poly b.toNat) ^ 2 =
          AdjoinRoot.mk _ (poly b.toNat) := by
        cases b <;> simp [poly_one]
      have hmixed (u v : AdjoinRoot (divisor std)) : (u + v) ^ 2 = u ^ 2 + v ^ 2 := by
        rw [add_sq, mul_assoc, two_mul, add_self, add_zero]
      rw [List.foldl_append, List.foldl_cons, List.foldl_nil, value_xor, value_divideBit std h,
        value_divideBit std h, ih, value_bit std h, poly_ofBits_snoc, map_add, map_mul,
        AdjoinRoot.mk_X, hmixed, hbit, mul_pow, ← mul_assoc, ← pow_two]
      rfl
  rw [square, hbits, ofBits_toBits, Nat.mod_eq_of_lt r.isLt]
  rfl

theorem value_power (h : 0 < width) (exponent : List Bool) :
    value std (power std exponent) = root std ^ ofBits exponent := by
  induction exponent using List.reverseRecOn with
  | nil => exact (value_one std h).trans (pow_zero _).symm
  | append_singleton bs b ih =>
    have hbits : ofBits (bs ++ [b]) = ofBits bs * 2 + b.toNat := by
      rw [ofBits_append]
      simp [ofBits]
    rw [power, List.foldl_append, List.foldl_cons, List.foldl_nil, ← power, hbits, pow_add, pow_mul]
    cases b with
    | false => simp [value_square std h, ih]
    | true => simp [value_divideBit std h, value_square std h, ih, mul_comm]

theorem root_pow_eq_one (h : 0 < width) (n : Nat) (k : Nat) (hn : n < 2 ^ k) :
    root std ^ n = 1 ↔ power std (toBits k n) = 1 := by
  have hvalue := value_power std h (toBits k n)
  rw [ofBits_toBits, Nat.mod_eq_of_lt hn] at hvalue
  rw [← hvalue, ← value_one std h, (value_injective std).eq_iff]

/-- `X` runs through all the remainders that its parity allows. -/
theorem orderOf_crcCcitt : orderOf (root crcCcitt) = 32767 := by
  apply orderOf_eq_of_pow_and_pow_div_prime (by decide)
  · rw [root_pow_eq_one _ (by decide) _ 15 (by decide)]
    decide +kernel
  · intro p hp hdvd
    have hcases : p = 7 ∨ p = 31 ∨ p = 151 := by
      have hfactors : 32767 = 7 * 31 * 151 := by decide
      rw [hfactors, hp.dvd_mul, hp.dvd_mul, Nat.prime_dvd_prime_iff_eq hp (by norm_num),
        Nat.prime_dvd_prime_iff_eq hp (by norm_num),
        Nat.prime_dvd_prime_iff_eq hp (by norm_num)] at hdvd
      tauto
    rw [ne_eq,
      root_pow_eq_one _ (by decide) _ 15 (by rcases hcases with rfl | rfl | rfl <;> decide)]
    rcases hcases with rfl | rfl | rfl <;> decide +kernel

end Order

section Ccitt

variable {message message' : List UInt8}

theorem divisor_coeff_zero : (divisor crcCcitt).coeff 0 = 1 := by
  simp [divisor, generator, coeff_poly, coeff_X_pow, crcCcitt]

theorem divisor_eval_one : (divisor crcCcitt).eval 1 = 0 := by
  have hbits : divisor crcCcitt = poly (ofBits (toBits 17 0x11021)) := by
    have hsplit : poly 0x11021 = X ^ 16 * poly 1 + poly 0x1021 := poly_split 0x11021 16
    rw [ofBits_toBits, divisor, generator, crcCcitt]
    simpa [poly_one] using hsplit.symm
  rw [hbits, eval_one_poly]
  decide

theorem crcSlow_crcCcitt (message : List UInt8) :
    crcCcitt.crcSlow message = register crcCcitt message := BitVec.xor_zero

def crcBytes (c : BitVec 16) : List UInt8 := [⟨c.extractLsb' 8 8⟩, ⟨c.extractLsb' 0 8⟩]

theorem value_register_crcBytes (message : List UInt8) (c : BitVec 16) :
    value crcCcitt (register crcCcitt (message ++ crcBytes c)) =
      root crcCcitt ^ 16 * (value crcCcitt (register crcCcitt message) + value crcCcitt c) := by
  have hplain (byte : UInt8) : crcCcitt.reflectedData byte = byte.toBitVec := rfl
  have hsplit : value crcCcitt c =
      root crcCcitt ^ 8 * AdjoinRoot.mk _ (poly (c.extractLsb' 8 8).toNat) +
        AdjoinRoot.mk _ (poly (c.extractLsb' 0 8).toNat) := by
    have hlt : c.toNat >>> 8 < 2 ^ 8 := by
      have := c.isLt
      omega
    rw [value, poly_split c.toNat 8, map_add, map_mul, map_pow, AdjoinRoot.mk_X,
      BitVec.extractLsb'_toNat, BitVec.extractLsb'_toNat, Nat.mod_eq_of_lt hlt, Nat.shiftRight_zero]
    rfl
  rw [register, List.foldl_append, ← register]
  simp only [crcBytes, List.foldl_cons, List.foldl_nil]
  rw [value_slowByte _ (by decide), value_slowByte _ (by decide), hplain, hplain, hsplit]
  ring

/-- A receiver that divides a message with its checksum gets zero if and only if the checksum is the
one of the message. -/
theorem crcSlow_append_eq_zero_iff (message : List UInt8) (c : BitVec 16) :
    crcCcitt.crcSlow (message ++ crcBytes c) = 0 ↔ c = crcCcitt.crcSlow message := by
  have hzero : value crcCcitt 0 = 0 := by simp [value]
  rw [crcSlow_crcCcitt, crcSlow_crcCcitt, ← (value_injective crcCcitt).eq_iff, hzero,
    value_register_crcBytes]
  constructor
  · intro h
    have hdvd : divisor crcCcitt ∣
        X ^ 16 * (poly (register crcCcitt message).toNat + poly c.toNat) := by
      rw [← AdjoinRoot.mk_eq_zero, map_mul, map_pow, AdjoinRoot.mk_X, map_add]
      exact h
    rw [dvd_X_pow_mul divisor_coeff_zero, ← AdjoinRoot.mk_eq_zero, map_add] at hdvd
    apply value_injective crcCcitt
    rw [← add_right_inj (value crcCcitt (register crcCcitt message)), add_self]
    exact hdvd
  · rintro rfl
    rw [add_self, mul_zero]

theorem two_bits_not_dvd {before between behind : List Bool} (hbefore : true ∉ before)
    (hbetween : true ∉ between) (hbehind : true ∉ behind) (hsize : between.length + 1 < 32767) :
    ¬ divisor crcCcitt ∣ poly (ofBits (before ++ true :: between ++ true :: behind)) := by
  intro hdvd
  have hpoly : poly (ofBits (before ++ true :: between ++ true :: behind)) =
      X ^ behind.length * (X ^ (between.length + 1) + 1) := by
    have hlast : poly (ofBits (true :: behind)) = X ^ behind.length :=
      poly_ofBits_single (show true ∉ [] from List.not_mem_nil) hbehind
    rw [poly_ofBits_append, poly_ofBits_single hbefore hbetween, hlast, List.length_cons]
    ring
  rw [hpoly, dvd_X_pow_mul divisor_coeff_zero, ← AdjoinRoot.mk_eq_zero, map_add, map_pow,
    AdjoinRoot.mk_X, map_one] at hdvd
  have hone : root crcCcitt ^ (between.length + 1) = 1 := by
    rw [← add_left_inj 1, add_self]
    exact hdvd
  have horder := orderOf_dvd_of_pow_eq_one hone
  rw [orderOf_crcCcitt] at horder
  exact absurd (Nat.le_of_dvd (Nat.succ_pos _) horder) (Nat.not_le.mpr hsize)

/-- Another message of the same length with the same checksum differs in an even number of bits, in
four at least, and not within sixteen bits that follow each other. -/
theorem crcCcitt_detects (hlength : message.length = message'.length) (hne : message ≠ message')
    (hsize : 8 * message.length ≤ 32767)
    (hcrc : crcCcitt.crcSlow message = crcCcitt.crcSlow message') :
    Even ((differences crcCcitt message message').count true) ∧
      4 ≤ (differences crcCcitt message message').count true ∧
      ∀ before burst behind, differences crcCcitt message message' = before ++ burst ++ behind →
        true ∉ before → true ∉ behind → 16 < burst.length := by
  have hregister : register crcCcitt message = register crcCcitt message' := by
    rwa [crcSlow_crcCcitt, crcSlow_crcCcitt] at hcrc
  have hdvd := divisor_dvd_differences crcCcitt (by decide) rfl hlength hregister
  have hmem : true ∈ differences crcCcitt message message' :=
    true_mem_zipWith_xor (by simp [hlength]) (mt (messageBits_injective crcCcitt ·) hne)
  have hsizes : (differences crcCcitt message message').length ≤ 32767 := by
    simpa [differences, hlength] using hlength ▸ hsize
  have heven : Even ((differences crcCcitt message message').count true) := by
    rw [← ZMod.natCast_eq_zero_iff_even, ← eval_one_poly]
    exact eval_one_of_dvd divisor_eval_one hdvd
  refine ⟨heven, ?_, ?_⟩
  · by_contra hfew
    have hpos := List.count_pos_iff.mpr hmem
    have htwo : (differences crcCcitt message message').count true = 2 := by
      obtain ⟨k, hk⟩ := heven
      omega
    obtain ⟨before, rest, hfirst, hbefore⟩ := List.eq_append_cons_of_mem hmem
    rw [hfirst, List.count_append, List.count_cons_self, List.count_eq_zero.mpr hbefore] at htwo
    obtain ⟨between, behind, hsecond, hbetween⟩ :=
      List.eq_append_cons_of_mem (List.count_pos_iff.mp (by omega : 0 < rest.count true))
    rw [hsecond, List.count_append, List.count_cons_self, List.count_eq_zero.mpr hbetween] at htwo
    have hbehind : true ∉ behind := List.count_eq_zero.mp (by omega)
    rw [hfirst, hsecond] at hdvd hsizes
    refine two_bits_not_dvd hbefore hbetween hbehind ?_ (by simpa using hdvd)
    simp only [List.length_append, List.length_cons] at hsizes
    omega
  · intro before burst behind hsplit hbefore hbehind
    by_contra hshort
    have hburst : true ∈ burst := by
      rw [hsplit, List.mem_append, List.mem_append] at hmem
      tauto
    rw [hsplit, poly_ofBits_append, poly_ofBits_append, ofBits_eq_zero_iff.mpr hbefore,
      ofBits_eq_zero_iff.mpr hbehind,
      poly_zero, mul_zero, zero_add, add_zero, dvd_X_pow_mul divisor_coeff_zero] at hdvd
    have hsmall : (poly (ofBits burst)).degree < (divisor crcCcitt).degree := by
      rw [divisor_degree]
      apply degree_poly_lt
      exact (ofBits_lt burst).trans_le (Nat.pow_le_pow_right (by decide) (Nat.le_of_not_lt hshort))
    have hzero : ofBits burst = 0 :=
      poly_injective ((eq_zero_of_dvd hdvd hsmall).trans poly_zero.symm)
    exact ofBits_eq_zero_iff.mp hzero hburst

theorem crcCcitt_detects_divisor :
    4 ≤ (differences crcCcitt [0, 0, 0] [0x01, 0x10, 0x21]).count true := by
  have hdetects := @crcCcitt_detects [0, 0, 0] [0x01, 0x10, 0x21] rfl (by decide) (by decide)
    (by decide +kernel)
  exact hdetects.2.1

end Ccitt

end Mangoxx.Crc
