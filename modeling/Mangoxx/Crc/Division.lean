import Mangoxx.Crc.Defs
import Mathlib.Data.BitVec

namespace Mangoxx.Crc

open Lib Gf2 BitString Polynomial

section Reflect

theorem lsb_ne_zero (x : BitVec 32) : x &&& 1 ≠ 0 ↔ x.getLsbD 0 = true := by
  have h : x &&& 1 = (BitVec.ofBool (x.getLsbD 0)).setWidth 32 :=
    BitVec.and_one_eq_setWidth_ofBool_getLsbD
  rw [h]
  cases x.getLsbD 0 <;> decide

/-- After `k` turns the last `k` bits of the data stand reversed at the upper end. -/
theorem reflectBit_run (data : BitVec 32) {nBits k : Nat} (h : nBits ≤ 32) (hk : k ≤ nBits) :
    ((List.range k).foldl (reflectBit nBits) (data, 0)).1 = data >>> k ∧
      ∀ i, ((List.range k).foldl (reflectBit nBits) (data, 0)).2.getLsbD i =
        (decide (nBits - k ≤ i ∧ i < nBits) && data.getLsbD (nBits - 1 - i)) := by
  induction k with
  | zero =>
    refine ⟨by simp, fun i => ?_⟩
    have hnone : ¬ (nBits - 0 ≤ i ∧ i < nBits) := by omega
    rw [decide_eq_false hnone]
    simp
  | succ k ih =>
    obtain ⟨hdata, hreflection⟩ := ih (by omega)
    rw [List.range_succ, List.foldl_append, List.foldl_cons, List.foldl_nil, reflectBit, hdata]
    refine ⟨by rw [BitVec.shiftRight_add], fun i => ?_⟩
    have hbit : data >>> k &&& 1 ≠ 0 ↔ data.getLsbD k = true := by
      rw [lsb_ne_zero, BitVec.getLsbD_ushiftRight, Nat.add_zero]
    have hone : (1#32 <<< (nBits - 1 - k)).getLsbD i = decide (i = nBits - 1 - k) := by
      rw [BitVec.getLsbD_shiftLeft, BitVec.getLsbD_one]
      by_cases hi : i = nBits - 1 - k
      · subst hi
        simp
        omega
      · have : ¬ (i - (nBits - 1 - k) = 0 ∧ nBits - 1 - k ≤ i) := by omega
        simp only [hi, decide_false]
        by_cases hle : i < nBits - 1 - k
        · simp [hle]
        · have hpos : i - (nBits - 1 - k) ≠ 0 := by omega
          simp [hpos]
    by_cases hi : i = nBits - 1 - k
    · subst hi
      have hback : nBits - 1 - (nBits - 1 - k) = k := by omega
      have hin : nBits - (k + 1) ≤ nBits - 1 - k ∧ nBits - 1 - k < nBits := by omega
      have hout : ¬ (nBits - k ≤ nBits - 1 - k ∧ nBits - 1 - k < nBits) := by omega
      split_ifs with hset
      · rw [BitVec.getLsbD_or, hone, decide_eq_true hin, hback, hbit.mp hset]
        simp
      · have hclear : data.getLsbD k = false := Bool.eq_false_iff.mpr (mt hbit.mpr hset)
        rw [hreflection, hback, hclear, Bool.and_false, Bool.and_false]
    · have hin : (nBits - (k + 1) ≤ i ∧ i < nBits) ↔ (nBits - k ≤ i ∧ i < nBits) := by omega
      simp only [hin]
      split_ifs
      · rw [BitVec.getLsbD_or, hone, hreflection, decide_eq_false hi, Bool.or_false]
      · exact hreflection i

theorem getLsbD_reflect (data : BitVec 32) {nBits : Nat} (h : nBits ≤ 32) (i : Nat) :
    (reflect data nBits).getLsbD i = (decide (i < nBits) && data.getLsbD (nBits - 1 - i)) := by
  rw [reflect, (reflectBit_run data h le_rfl).2]
  simp

end Reflect

section Remainder

variable {width : Nat} (std : Standard width) {r r' : BitVec width}

def byteBits (byte : UInt8) : List Bool :=
  if std.reflectData then (toBits 8 byte.toNat).reverse else toBits 8 byte.toNat

def messageBits (message : List UInt8) : List Bool := message.flatMap (byteBits std)

@[simp] theorem length_byteBits (byte : UInt8) : (byteBits std byte).length = 8 := by
  rw [byteBits]
  split <;> simp

@[simp] theorem length_messageBits (message : List UInt8) :
    (messageBits std message).length = 8 * message.length := by
  induction message with
  | nil => rfl
  | cons byte message ih =>
    rw [messageBits, List.flatMap_cons, List.length_append, length_byteBits, ← messageBits, ih,
      List.length_cons, Nat.mul_succ, Nat.add_comm]

theorem toBits_reflectedData (byte : UInt8) :
    toBits 8 (std.reflectedData byte).toNat = byteBits std byte := by
  rw [byteBits, Standard.reflectedData]
  split
  · apply List.ext_getElem (by simp)
    intro i hi _
    have hi : i < 8 := by simpa using hi
    rw [List.getElem_reverse, getElem_toBits, getElem_toBits, BitVec.testBit_toNat,
      BitVec.getLsbD_setWidth, getLsbD_reflect _ (by decide), BitVec.getLsbD_setWidth,
      BitVec.getLsbD, toBits_length]
    have hin : 8 - 1 - i < 8 := by omega
    have hback : 8 - 1 - (8 - 1 - i) < 32 := by omega
    rw [decide_eq_true hin, decide_eq_true hback, Bool.true_and, Bool.true_and, Bool.true_and]
    rfl
  · rfl

noncomputable section

def divisor : (ZMod 2)[X] := generator width std.polynomial.toNat

def value (r : BitVec width) : AdjoinRoot (divisor std) := AdjoinRoot.mk _ (poly r.toNat)

def root : AdjoinRoot (divisor std) := AdjoinRoot.root _

end

theorem divisor_monic : (divisor std).Monic := generator_monic std.polynomial.isLt

theorem divisor_degree : (divisor std).degree = width := generator_degree std.polynomial.isLt

theorem value_injective : Function.Injective (value std) := by
  intro r r' h
  have hdegree (r : BitVec width) : (poly r.toNat).degree < (divisor std).degree := by
    rw [divisor_degree]
    exact degree_poly_lt r.isLt
  apply BitVec.eq_of_toNat_eq
  exact poly_injective (eq_of_mk_eq (divisor_monic std) (hdegree r) (hdegree r') h)

theorem value_xor : value std (r ^^^ r') = value std r + value std r' := by
  rw [value, BitVec.toNat_xor, poly_xor, map_add]
  rfl

theorem add_self (v : AdjoinRoot (divisor std)) : v + v = 0 := ZModModule.add_self v

theorem value_polynomial : value std std.polynomial = root std ^ width := by
  have hzero : root std ^ width + value std std.polynomial = 0 := by
    have := AdjoinRoot.mk_self (f := divisor std)
    rwa [divisor, generator, map_add, map_pow, AdjoinRoot.mk_X] at this
  rw [← add_left_inj (value std std.polynomial), hzero, add_self]

theorem value_shiftLeft (r : BitVec width) (k : Nat) :
    value std (r <<< k) = root std ^ k * value std r +
      root std ^ width * AdjoinRoot.mk _ (poly (r.toNat <<< k >>> width)) := by
  have hsplit := congrArg (AdjoinRoot.mk (divisor std)) (poly_split (r.toNat <<< k) width)
  rw [poly_shiftLeft, map_add, map_mul, map_mul, map_pow, map_pow, AdjoinRoot.mk_X] at hsplit
  rw [value, BitVec.toNat_shiftLeft, value, root, hsplit, add_comm, ← add_assoc, add_self, zero_add]

theorem topbit_ne_zero (h : 0 < width) (r : BitVec width) :
    r &&& Standard.topbit width ≠ 0 ↔ r.getLsbD (width - 1) = true := by
  have hbit : (r &&& Standard.topbit width).getLsbD (width - 1) = r.getLsbD (width - 1) := by
    simp [Standard.topbit, h]
  constructor
  · intro hne
    by_contra hclear
    apply hne
    ext i hi
    by_cases htop : i = width - 1
    · subst htop
      simp [← BitVec.getLsbD_eq_getElem, Bool.eq_false_iff.mpr hclear]
    · have hlow : i < width - 1 := by omega
      simp [Standard.topbit, hlow]
  · intro hset hzero
    rw [hzero, hset] at hbit
    simp at hbit

theorem shift_out (h : 0 < width) (r : BitVec width) :
    r.toNat <<< 1 >>> width = (r.getLsbD (width - 1)).toNat := by
  have hlt := r.isLt
  obtain ⟨w, rfl⟩ : ∃ w, width = w + 1 := ⟨width - 1, by omega⟩
  rw [Nat.shiftLeft_eq, pow_one, Nat.shiftRight_eq_div_pow, pow_succ,
    Nat.mul_div_mul_right _ _ (by decide), Nat.add_sub_cancel, BitVec.getLsbD,
    Nat.testBit_eq_decide_div_mod_eq]
  have hdiv : r.toNat / 2 ^ w < 2 := by
    rw [Nat.div_lt_iff_lt_mul (Nat.two_pow_pos w), ← pow_succ']
    exact hlt
  interval_cases r.toNat / 2 ^ w <;> rfl

theorem value_divideBit (h : 0 < width) (r : BitVec width) :
    value std (std.divideBit r) = root std * value std r := by
  rw [Standard.divideBit]
  split_ifs with htop
  · rw [topbit_ne_zero h] at htop
    have hout := shift_out h r
    rw [htop, Bool.toNat_true] at hout
    rw [value_xor, value_shiftLeft, value_polynomial, hout, poly_one, map_one, mul_one, pow_one,
      add_assoc, add_self, add_zero]
  · rw [topbit_ne_zero h, Bool.not_eq_true] at htop
    have hout := shift_out h r
    rw [htop, Bool.toNat_false] at hout
    rw [value_shiftLeft, hout, poly_zero, map_zero, mul_zero, add_zero, pow_one]

theorem value_divideByte (h : 0 < width) (r : BitVec width) :
    value std (std.divideByte r) = root std ^ 8 * value std r := by
  have hturns (n : Nat) : value std (std.divideBit^[n] r) = root std ^ n * value std r := by
    induction n with
    | zero => simp
    | succ n ih =>
      rw [Function.iterate_succ_apply', value_divideBit std h, ih, pow_succ', mul_assoc]
  exact hturns 8

theorem value_byte (h : 8 ≤ width) (b : BitVec 8) :
    value std (b.setWidth width <<< (width - 8)) =
      root std ^ (width - 8) * AdjoinRoot.mk _ (poly b.toNat) := by
  have hfits : b.toNat <<< (width - 8) < 2 ^ width := by
    have hpow : 2 ^ width = 2 ^ 8 * 2 ^ (width - 8) := by rw [← pow_add, Nat.add_sub_cancel' h]
    rw [Nat.shiftLeft_eq, hpow]
    exact Nat.mul_lt_mul_of_pos_right b.isLt (Nat.two_pow_pos _)
  have hnat : (b.setWidth width <<< (width - 8)).toNat = b.toNat <<< (width - 8) := by
    rw [BitVec.toNat_shiftLeft, BitVec.toNat_setWidth_of_le h, Nat.mod_eq_of_lt hfits]
  rw [value, hnat, poly_shiftLeft, map_mul, map_pow, AdjoinRoot.mk_X]
  rfl

theorem value_slowByte (h : 8 ≤ width) (r : BitVec width) (byte : UInt8) :
    value std (std.slowByte r byte) = root std ^ 8 * value std r +
      root std ^ width * AdjoinRoot.mk _ (poly (std.reflectedData byte).toNat) := by
  rw [Standard.slowByte, value_divideByte std (by omega), value_xor, value_byte std h, mul_add,
    ← mul_assoc, ← pow_add, Nat.add_sub_cancel' h]

theorem getElem_foldl_set {α : Type*} {n : Nat} (f : Fin n → α) (is : List (Fin n)) (v : Vector α n)
    (j : Fin n) :
    (is.foldl (fun v i => v.set i (f i)) v)[j] = if j ∈ is then f j else v[j] := by
  induction is generalizing v with
  | nil => rfl
  | cons i is ih =>
    rw [List.foldl_cons, ih]
    by_cases hj : j ∈ is
    · simp [hj]
    · by_cases hji : j = i
      · subst hji
        simp [hj]
      · have hne : ¬ i.val = j.val := fun h => hji (Fin.ext h.symm)
        simp [hj, hji, hne]

theorem value_fastByte (h : 8 ≤ width) (crcTable : CrcTable width) (r : BitVec width)
    (byte : UInt8) :
    value std (std.fastByte (std.crcInit crcTable) r byte) = root std ^ 8 * value std r +
      root std ^ width * AdjoinRoot.mk _ (poly (std.reflectedData byte).toNat) := by
  have hout : ((r >>> (width - 8)).setWidth 8).toNat = r.toNat <<< 8 >>> width := by
    have hlt : r.toNat / 2 ^ (width - 8) < 2 ^ 8 := by
      rw [Nat.div_lt_iff_lt_mul (Nat.two_pow_pos _), ← pow_add, Nat.add_sub_cancel' h]
      exact r.isLt
    have hpow : 2 ^ width = 2 ^ (width - 8) * 2 ^ 8 := by rw [← pow_add, Nat.sub_add_cancel h]
    rw [BitVec.toNat_setWidth, BitVec.toNat_ushiftRight, Nat.shiftRight_eq_div_pow,
      Nat.mod_eq_of_lt hlt, Nat.shiftLeft_eq, Nat.shiftRight_eq_div_pow, hpow,
      Nat.mul_div_mul_right _ _ (Nat.two_pow_pos 8)]
  have hindex (b : BitVec 8) : BitVec.ofNat width b.toFin = b.setWidth width :=
    BitVec.ofNat_toNat width b
  rw [Standard.fastByte, value_xor, Standard.crcInit, getElem_foldl_set,
    if_pos (List.mem_finRange _), hindex, value_divideByte std (by omega), value_byte std h,
    ← mul_assoc, ← pow_add, Nat.add_sub_cancel' h, BitVec.toNat_xor, poly_xor, map_add,
    value_shiftLeft, hout, mul_add, add_assoc,
    add_left_comm (_ * AdjoinRoot.mk _ (poly (_ <<< _ >>> _))), add_self, add_zero, add_comm]

/-- The table gives the checksum that division bit by bit gives. -/
theorem crcFast_eq_crcSlow (h : 8 ≤ width) (crcTable : CrcTable width) (message : List UInt8) :
    std.crcFast (std.crcInit crcTable) message = std.crcSlow message := by
  have hbyte : std.fastByte (std.crcInit crcTable) = std.slowByte := by
    funext r byte
    apply value_injective std
    rw [value_fastByte std h, value_slowByte std h]
  rw [Standard.crcFast, hbyte]
  rfl

theorem crcFast_eq_crcSlow_crc32 :
    crc32.crcFast (crc32.crcInit (.replicate 256 0)) [0x31, 0x32, 0x33] =
      crc32.crcSlow [0x31, 0x32, 0x33] :=
  crcFast_eq_crcSlow crc32 (by decide) _ _

-- the values `CHECK_VALUE` of the three standards, for the text `123456789`
example : crcCcitt.crcSlow [49, 50, 51, 52, 53, 54, 55, 56, 57] = 0x29B1 := by decide +kernel
example : crc16.crcSlow [49, 50, 51, 52, 53, 54, 55, 56, 57] = 0xBB3D := by decide +kernel
example : crc32.crcSlow [49, 50, 51, 52, 53, 54, 55, 56, 57] = 0xCBF43926 := by decide +kernel

def register (message : List UInt8) : BitVec width :=
  message.foldl std.slowByte std.initialRemainder

noncomputable def messagePoly (message : List UInt8) : (ZMod 2)[X] :=
  poly (ofBits (messageBits std message))

theorem value_register (h : 8 ≤ width) (message : List UInt8) :
    value std (register std message) =
      root std ^ (8 * message.length) * value std std.initialRemainder +
        root std ^ width * AdjoinRoot.mk _ (messagePoly std message) := by
  induction message using List.reverseRecOn with
  | nil => simp [register, messagePoly, messageBits]
  | append_singleton message byte ih =>
    have hstep : register std (message ++ [byte]) = std.slowByte (register std message) byte := by
      rw [register, List.foldl_append]
      rfl
    have hbyte : poly (ofBits (byteBits std byte)) = poly (std.reflectedData byte).toNat := by
      rw [← toBits_reflectedData, ofBits_toBits, Nat.mod_eq_of_lt (std.reflectedData byte).isLt]
    have hpoly : messagePoly std (message ++ [byte]) =
        X ^ 8 * messagePoly std message + poly (std.reflectedData byte).toNat := by
      rw [messagePoly, messageBits, List.flatMap_append, List.flatMap_singleton, poly_ofBits_append,
        length_byteBits, hbyte]
      rfl
    rw [hstep, value_slowByte std h, ih, hpoly, List.length_append, List.length_singleton, mul_add,
      map_add, map_mul, map_pow, AdjoinRoot.mk_X]
    rw [show AdjoinRoot.root (divisor std) = root std from rfl]
    ring

/-- The remainder is the one of the message, with the initial one in front and zeros behind. -/
theorem crcSlow_is_remainder (h : 8 ≤ width) (message : List UInt8) :
    ∃ remainder : BitVec width,
      std.crcSlow message = std.reflectedRemainder remainder ^^^ std.finalXorValue ∧
      poly remainder.toNat =
        (X ^ (8 * message.length) * poly std.initialRemainder.toNat +
          X ^ width * messagePoly std message) %ₘ divisor std := by
  refine ⟨register std message, rfl, ?_⟩
  apply eq_modByMonic_of_mk_eq (divisor_monic std)
  · rw [divisor_degree]
    exact degree_poly_lt (register std message).isLt
  · have hvalue := value_register std h message
    rw [map_add, map_mul, map_mul, map_pow, map_pow, AdjoinRoot.mk_X]
    exact hvalue

theorem crcSlow_is_remainder_crc16 :
    ∃ remainder : BitVec 16,
      crc16.crcSlow [0x31, 0x32] = crc16.reflectedRemainder remainder ^^^ crc16.finalXorValue ∧
      poly remainder.toNat =
        (X ^ (8 * 2) * poly crc16.initialRemainder.toNat +
          X ^ 16 * messagePoly crc16 [0x31, 0x32]) %ₘ divisor crc16 :=
  crcSlow_is_remainder crc16 (by decide) [0x31, 0x32]

end Remainder

end Mangoxx.Crc
