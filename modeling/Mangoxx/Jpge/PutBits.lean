import Mangoxx.Jpge.Output
import Mangoxx.Lib.BitString

namespace Mangoxx.Jpge

open Mangoxx.Lib BitString

structure Encoder where
  out : Output
  mLastDcVal : Nat → Int
  mMcuYOfs : Nat
  mBitBuffer : Nat
  mBitsIn : Nat
  mPassNum : Nat

namespace Encoder

def start (out : Output) : Encoder := ⟨out, fun _ => 0, 0, 0, 0, 2⟩

def drainByte (e : Encoder) : Encoder :=
  let c : UInt8 := .ofNat ((e.mBitBuffer >>> 16) &&& 0xFF)
  let out := e.out.emitByte c
  { e with
    out := if c = 0xFF then out.emitByte 0 else out
    mBitBuffer := (e.mBitBuffer <<< 8) % 2 ^ 32
    mBitsIn := e.mBitsIn - 8 }

def drain (e : Encoder) : Encoder :=
  if 8 ≤ e.mBitsIn then drain e.drainByte else e
termination_by e.mBitsIn
decreasing_by
  simp only [drainByte]
  omega

def putBits (bits len : Nat) (e : Encoder) : Encoder :=
  let bitsIn := (e.mBitsIn + len) % 2 ^ 32
  drain { e with
    mBitsIn := bitsIn
    mBitBuffer := e.mBitBuffer ||| ((bits <<< (24 - bitsIn)) % 2 ^ 32) }

/-- The bits in the buffer that have not been emitted are the last ones above its bit
`24 - m_bits_in`; what is above them has been emitted. -/
structure Holds (e : Encoder) (pend : List Bool) : Prop where
  bitsIn : e.mBitsIn = pend.length
  buffer : ∃ high, e.mBitBuffer = (high * 2 ^ pend.length + ofBits pend) * 2 ^ (24 - pend.length)

end Encoder

def stuff (raw : List UInt8) : List UInt8 :=
  raw.flatMap fun b => if b = 0xFF then [0xFF, 0] else [b]

@[simp] theorem stuff_append (as bs : List UInt8) : stuff (as ++ bs) = stuff as ++ stuff bs :=
  List.flatMap_append

namespace Encoder

/-- From one state to the other the bits `bs` have been put: of these and the pending ones, whole
bytes have been emitted. -/
structure Puts (e : Encoder) (bs : List Bool) (e' : Encoder) : Prop where
  mMcuYOfs : e'.mMcuYOfs = e.mMcuYOfs
  emits : ∀ pend, pend.length ≤ 7 → e.Holds pend → ∃ raw pend', pend'.length ≤ 7 ∧ e'.Holds pend' ∧
    e'.out.emitted = e.out.emitted ++ stuff raw ∧ bytesToBits raw ++ pend' = pend ++ bs

variable {e e' e'' : Encoder} {bs bs' pend : List Bool}

theorem Puts.nil (hofs : e'.mMcuYOfs = e.mMcuYOfs) (hbits : e'.mBitsIn = e.mBitsIn)
    (hbuffer : e'.mBitBuffer = e.mBitBuffer) (hout : e'.out = e.out) : Puts e [] e' where
  mMcuYOfs := hofs
  emits pend hpend hholds := by
    refine ⟨[], pend, hpend, ⟨hbits.trans hholds.bitsIn, hbuffer ▸ hholds.buffer⟩, ?_, ?_⟩
    · simp [hout, stuff]
    · simp

theorem Puts.trans (h : Puts e bs e') (h' : Puts e' bs' e'') : Puts e (bs ++ bs') e'' where
  mMcuYOfs := h'.mMcuYOfs.trans h.mMcuYOfs
  emits pend hpend hholds := by
    obtain ⟨raw, pend', hpend', hholds', hemitted, hbits⟩ := h.emits pend hpend hholds
    obtain ⟨raw', pend'', hpend'', hholds'', hemitted', hbits'⟩ := h'.emits pend' hpend' hholds'
    refine ⟨raw ++ raw', pend'', hpend'', hholds'', ?_, ?_⟩
    · rw [hemitted', hemitted, stuff_append, List.append_assoc]
    · rw [bytesToBits_append, List.append_assoc, hbits', ← List.append_assoc, hbits,
        List.append_assoc]

theorem Holds.word {top rest : List Bool} (h : e.Holds (top ++ rest)) (htop : top.length = 8)
    (hrest : rest.length ≤ 16) : ∃ high r, e.mBitBuffer = (high * 256 + ofBits top) * 2 ^ 16 + r ∧
      r = ofBits rest * 2 ^ (16 - rest.length) ∧ r < 2 ^ 16 := by
  obtain ⟨-, high, hbuffer⟩ := h
  have hpow : 2 ^ rest.length * 2 ^ (16 - rest.length) = 2 ^ 16 := by
    rw [← pow_add, Nat.add_sub_cancel' hrest]
  refine ⟨high, ofBits rest * 2 ^ (16 - rest.length), ?_, rfl, ?_⟩
  · have hlength : (top ++ rest).length = rest.length + 8 := by simp [htop, Nat.add_comm]
    have hk : 24 - (rest.length + 8) = 16 - rest.length := by omega
    calc e.mBitBuffer
        = ((high * 256 + ofBits top) * 2 ^ rest.length + ofBits rest) * 2 ^ (16 - rest.length) := by
          rw [hbuffer, hlength, ofBits_append, hk]
          ring
      _ = (high * 256 + ofBits top) * (2 ^ rest.length * 2 ^ (16 - rest.length)) +
          ofBits rest * 2 ^ (16 - rest.length) := by ring
      _ = (high * 256 + ofBits top) * 2 ^ 16 + ofBits rest * 2 ^ (16 - rest.length) := by rw [hpow]
  · rw [← hpow]
    exact Nat.mul_lt_mul_of_pos_right (ofBits_lt rest) (Nat.two_pow_pos _)

theorem Holds.drainByte (h : e.Holds pend) (hmore : 8 ≤ pend.length) (hfits : pend.length ≤ 24) :
    ∃ b : UInt8, toBits 8 b.toNat = pend.take 8 ∧ e.drainByte.Holds (pend.drop 8) ∧
      e.drainByte.out.emitted = e.out.emitted ++ stuff [b] := by
  obtain ⟨top, rest, rfl, htop⟩ : ∃ top rest, pend = top ++ rest ∧ top.length = 8 :=
    ⟨pend.take 8, pend.drop 8, (List.take_append_drop 8 pend).symm, by simpa using hmore⟩
  have hlength : (top ++ rest).length = rest.length + 8 := by simp [htop, Nat.add_comm]
  have hlt : ofBits top < 256 := by simpa [htop] using ofBits_lt top
  obtain ⟨high, r, hbuf, hr, hr'⟩ := h.word htop (by omega)
  have hbyte : (e.mBitBuffer >>> 16) &&& 0xFF = ofBits top := by
    have hmask : (0xFF : Nat) = 2 ^ 8 - 1 := rfl
    rw [hmask, Nat.and_two_pow_sub_one_eq_mod, Nat.shiftRight_eq_div_pow]
    omega
  refine ⟨.ofNat (ofBits top), ?_, ⟨?_, ofBits top, ?_⟩, ?_⟩
  · have htoBits := toBits_ofBits top
    rw [htop] at htoBits
    rw [UInt8.toNat_ofNat_of_lt' hlt, List.take_left' htop, htoBits]
  · simp only [Encoder.drainByte, h.bitsIn, hlength, List.drop_left' htop, Nat.add_sub_cancel]
  · have hshift : (e.mBitBuffer <<< 8) % 2 ^ 32 = ofBits top * 2 ^ 24 + r * 2 ^ 8 := by
      rw [Nat.shiftLeft_eq]
      omega
    have hk : 24 - rest.length = 16 - rest.length + 8 := by omega
    have hk' : 24 = rest.length + (16 - rest.length) + 8 := by omega
    rw [List.drop_left' htop]
    calc (e.mBitBuffer <<< 8) % 2 ^ 32
        = ofBits top * 2 ^ (rest.length + (16 - rest.length) + 8) +
          ofBits rest * 2 ^ (16 - rest.length) * 2 ^ 8 := by rw [hshift, hr, ← hk']
      _ = (ofBits top * 2 ^ rest.length + ofBits rest) * 2 ^ (24 - rest.length) := by
          rw [hk, pow_add, pow_add, pow_add]
          ring
  · simp only [Encoder.drainByte, hbyte]
    by_cases hff : (UInt8.ofNat (ofBits top)) = 0xFF
    · simp [hff, stuff]
    · simp [hff, stuff]

theorem drain_holds (h : e.Holds pend) (hfits : pend.length ≤ 24) :
    ∃ raw pend', pend'.length ≤ 7 ∧ e.drain.Holds pend' ∧
      e.drain.out.emitted = e.out.emitted ++ stuff raw ∧ bytesToBits raw ++ pend' = pend := by
  induction hn : pend.length using Nat.strongRecOn generalizing e pend with
  | ind n ih =>
    have hbitsIn := h.bitsIn
    rw [drain]
    by_cases hmore : 8 ≤ pend.length
    · obtain ⟨b, hb, hholds, hemitted⟩ := h.drainByte hmore hfits
      have hless : (pend.drop 8).length < n := by
        rw [List.length_drop]
        omega
      obtain ⟨raw, pend', hpend', hholds', hemitted', hbits⟩ := ih _ hless hholds (by omega) rfl
      rw [if_pos (by omega)]
      refine ⟨b :: raw, pend', hpend', hholds', ?_, ?_⟩
      · rw [hemitted', hemitted, List.append_assoc, ← stuff_append, List.singleton_append]
      · rw [bytesToBits_cons, List.append_assoc, hbits, hb, List.take_append_drop]
    · rw [if_neg (by omega)]
      exact ⟨[], pend, by omega, h, by simp [stuff], by simp⟩

theorem drain_rest (e : Encoder) :
    e.drain.mLastDcVal = e.mLastDcVal ∧ e.drain.mMcuYOfs = e.mMcuYOfs := by
  induction hn : e.mBitsIn using Nat.strongRecOn generalizing e with
  | ind n ih =>
    rw [drain]
    split
    · exact ih _ (by simp only [Encoder.drainByte]; omega) e.drainByte rfl
    · exact ⟨rfl, rfl⟩

theorem putBits_puts (e : Encoder) {bits len : Nat} (hbits : bits < 2 ^ len) (hlen : len ≤ 16) :
    Puts e (toBits len bits) (putBits bits len e) := by
  refine ⟨(drain_rest _).2, ?_⟩
  rintro pend hpend ⟨hbitsIn, high, hbuffer⟩
  obtain ⟨n, hn⟩ : ∃ n, n = 24 - (pend.length + len) := ⟨_, rfl⟩
  have hlength : (pend ++ toBits len bits).length = pend.length + len := by simp
  have hsum : (e.mBitsIn + len) % 2 ^ 32 = pend.length + len := by omega
  have hroom : 24 - pend.length = len + n := by omega
  have hlt : bits <<< n < 2 ^ (len + n) := by
    rw [Nat.shiftLeft_eq, pow_add]
    exact Nat.mul_lt_mul_of_pos_right hbits (Nat.two_pow_pos n)
  have hword : bits <<< n % 2 ^ 32 = bits <<< n :=
    Nat.mod_eq_of_lt (hlt.trans_le (Nat.pow_le_pow_right (by decide) (by omega)))
  have hor : e.mBitBuffer ||| (bits <<< n % 2 ^ 32) =
      (high * 2 ^ (pend ++ toBits len bits).length + ofBits (pend ++ toBits len bits)) * 2 ^ n := by
    rw [hword, hbuffer, hroom, ← Nat.shiftLeft_eq, ← Nat.shiftLeft_add_eq_or_of_lt hlt,
      ofBits_append, ofBits_toBits, Nat.mod_eq_of_lt hbits, toBits_length, hlength,
      Nat.shiftLeft_eq, Nat.shiftLeft_eq, pow_add, pow_add]
    ring
  have hholds : ({ e with
      mBitsIn := pend.length + len
      mBitBuffer := e.mBitBuffer ||| (bits <<< n % 2 ^ 32) } : Encoder).Holds
        (pend ++ toBits len bits) :=
    ⟨hlength.symm, high, by rw [hlength, ← hn, ← hlength]; exact hor⟩
  have hdrain := drain_holds hholds (by omega)
  rwa [hn, ← hsum] at hdrain

@[simp] theorem putBits_mLastDcVal (e : Encoder) (bits len : Nat) :
    (putBits bits len e).mLastDcVal = e.mLastDcVal :=
  (drain_rest _).1

end Encoder

theorem padding {raw bits pend : List Bool} (hpend : pend.length ≤ 7)
    (hall : raw ++ pend = bits ++ toBits 7 0x7F) :
    ∃ rest, raw = bits ++ rest ∧ rest.length < 8 ∧ ∀ b ∈ rest, b = true := by
  have hones : ∀ b ∈ toBits 7 0x7F, b = true := by decide
  rcases List.append_eq_append_iff.mp hall with ⟨as, hbits, hpend'⟩ | ⟨rest, hraw, hones'⟩
  · have hlength := congrArg List.length hpend'
    rw [List.length_append, toBits_length] at hlength
    have has : as = [] := List.length_eq_zero_iff.mp (by omega)
    exact ⟨[], by simp [hbits, has], by simp, by simp⟩
  · have hlength := congrArg List.length hones'
    rw [List.length_append, toBits_length] at hlength
    refine ⟨rest, hraw, by omega, fun b hb => hones b ?_⟩
    rw [hones']
    exact List.mem_append_left _ hb

structure Code where
  bits : Nat
  len : Nat
  bits_lt : bits < 2 ^ len
  len_le : len ≤ 16

def Code.string (c : Code) : List Bool := toBits c.len c.bits

def unstuffed : List UInt8 → List UInt8
  | b :: c :: rest => if b = 0xFF ∧ c = 0 then b :: unstuffed rest else b :: unstuffed (c :: rest)
  | rest => rest

def Stuffed (bytes : List UInt8) : Prop :=
  ∀ i : Nat, bytes[i]? = some 0xFF → bytes[i + 1]? = some 0

theorem stuff_cons (b : UInt8) (raw : List UInt8) :
    stuff (b :: raw) = if b = 0xFF then 0xFF :: 0 :: stuff raw else b :: stuff raw := by
  rw [stuff, List.flatMap_cons, ← stuff]
  split <;> rfl

theorem unstuffed_cons {b : UInt8} (hb : b ≠ 0xFF) (rest : List UInt8) :
    unstuffed (b :: rest) = b :: unstuffed rest := by
  cases rest with
  | nil => rfl
  | cons c rest => rw [unstuffed, if_neg fun h => hb h.1]

@[simp] theorem unstuffed_stuff (raw : List UInt8) : unstuffed (stuff raw) = raw := by
  induction raw with
  | nil => rfl
  | cons b raw ih =>
    rw [stuff_cons]
    split
    next hb => rw [unstuffed, if_pos ⟨rfl, rfl⟩, ih, hb]
    next hb => rw [unstuffed_cons hb, ih]

theorem Stuffed.cons {b : UInt8} (hb : b ≠ 0xFF) {bytes : List UInt8} (h : Stuffed bytes) :
    Stuffed (b :: bytes) := by
  intro i hi
  cases i with
  | zero => exact absurd (Option.some.inj hi) hb
  | succ i => exact h i hi

theorem Stuffed.escape {bytes : List UInt8} (h : Stuffed bytes) : Stuffed (0xFF :: 0 :: bytes) := by
  intro i hi
  cases i with
  | zero => rfl
  | succ i => exact h.cons (by decide) i hi

theorem stuff_stuffed (raw : List UInt8) : Stuffed (stuff raw) := by
  induction raw with
  | nil => exact nofun
  | cons b raw ih =>
    rw [stuff_cons]
    split
    next => exact ih.escape
    next hb => exact ih.cons hb

namespace Encoder

def pending (e : Encoder) : List Bool := toBits e.mBitsIn (e.mBitBuffer >>> (24 - e.mBitsIn))

def putCodes (codes : List Code) (e : Encoder) : Encoder :=
  codes.foldl (fun e c => e.putBits c.bits c.len) e

variable {e : Encoder} {pend : List Bool}

/-- Stale bits above the pending ones do not count. -/
theorem Holds.pending (h : e.Holds pend) : e.pending = pend := by
  obtain ⟨hbitsIn, high, hbuffer⟩ := h
  rw [Encoder.pending, hbitsIn, hbuffer, Nat.shiftRight_eq_div_pow,
    Nat.mul_div_cancel _ (Nat.two_pow_pos _), toBits_mul_add, toBits_ofBits]

theorem putCodes_puts (codes : List Code) :
    Puts e (codes.flatMap Code.string) (e.putCodes codes) := by
  induction codes generalizing e with
  | nil => exact .nil rfl rfl rfl rfl
  | cons c codes ih => exact (putBits_puts e c.bits_lt c.len_le).trans ih

end Encoder

/-- Codes are packed without a gap: the bytes and the pending bits after them are the codes, and a
last string of ones brings out the pending bits. -/
theorem put_bits_packs (e : Encoder) (hbuffer : e.mBitBuffer = 0) (hbitsIn : e.mBitsIn = 0)
    (codes : List Code) :
    let e' := e.putCodes codes
    let last := Encoder.putBits 0x7F 7 e'
    e'.mBitsIn ≤ 7 ∧ (∀ c : Code, e'.mBitsIn + c.len ≤ 24) ∧
    (∃ bytes, e'.out.emitted = e.out.emitted ++ bytes ∧ Stuffed bytes ∧
      bytesToBits (unstuffed bytes) ++ e'.pending = codes.flatMap Code.string) ∧
    ∃ bytes ones, last.out.emitted = e.out.emitted ++ bytes ∧ Stuffed bytes ∧
      bytesToBits (unstuffed bytes) = codes.flatMap Code.string ++ ones ∧ ones.length ≤ 7 ∧
      ∀ b ∈ ones, b = true := by
  intro e' last
  have hempty : e.Holds [] := ⟨by simp [hbitsIn], 0, by simp [hbuffer]⟩
  have hputs : Encoder.Puts e (codes.flatMap Code.string) e' := Encoder.putCodes_puts codes
  have hlast := hputs.trans (Encoder.putBits_puts e' (show 0x7F < 2 ^ 7 by decide) (by decide))
  obtain ⟨raw, pend, hpend, hholds, hemitted, hbits⟩ := hputs.emits [] (by simp) hempty
  obtain ⟨raw', pend', hpend', -, hemitted', hbits'⟩ := hlast.emits [] (by simp) hempty
  obtain ⟨ones, hraw', hless, hones⟩ := padding hpend' hbits'
  have hfew : e'.mBitsIn ≤ 7 := hholds.bitsIn ▸ hpend
  refine ⟨hfew, fun c => ?_, ⟨stuff raw, hemitted, stuff_stuffed raw, ?_⟩,
    stuff raw', ones, hemitted', stuff_stuffed raw', ?_, by omega, hones⟩
  · have := c.len_le
    omega
  · rw [unstuffed_stuff, hholds.pending, hbits, List.nil_append]
  · rw [unstuffed_stuff, hraw']

def sampleCodes : List Code := [⟨0xFF, 8, by decide, by decide⟩, ⟨5, 3, by decide, by decide⟩]

theorem put_bits_sample :
    let e := Encoder.start (.start (fun _ => true) fun _ => 0)
    (∃ bytes, (e.putCodes sampleCodes).out.emitted = bytes ∧ Stuffed bytes ∧
      bytesToBits (unstuffed bytes) ++ (e.putCodes sampleCodes).pending =
        toBits 8 0xFF ++ toBits 3 5) ∧
    ∃ bytes ones, (Encoder.putBits 0x7F 7 (e.putCodes sampleCodes)).out.emitted = bytes ∧
      bytesToBits (unstuffed bytes) = toBits 8 0xFF ++ toBits 3 5 ++ ones ∧ ones.length ≤ 7 := by
  obtain ⟨-, -, hcodes, bytes, ones, hemitted, -, hbits, hless, -⟩ :=
    put_bits_packs (.start (.start (fun _ => true) fun _ => 0)) rfl rfl sampleCodes
  exact ⟨hcodes, bytes, ones, hemitted, hbits, hless⟩

end Mangoxx.Jpge
