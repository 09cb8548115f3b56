import Mangoxx.Lib.Lz77
import Mangoxx.Lzo.Compress

/-! The compressed format: the first literals, matches with the literals behind them, and a mark at
the end.  Up to three literals are counted in the last bits of the match in front of them. -/

namespace Mangoxx.Lzo

open Lib Lz77 Source

def tagged (bytes : List UInt8) (t : Nat) : List UInt8 :=
  if t ≤ 3 then bytes.modify (bytes.length - 2) (· ||| UInt8.ofNat t) else bytes

def runBytes (lits : List UInt8) : List UInt8 :=
  if lits.length ≤ 3 then lits else runHeader lits.length ++ lits

def pieceBytes (p : Piece UInt8) : List UInt8 :=
  tagged (matchBytes p.len p.off) p.lits.length ++ runBytes p.lits

def shortBytes (lits : List UInt8) : List UInt8 := UInt8.ofNat (17 + lits.length) :: lits

def endMark : List UInt8 := [17, 0, 0]

structure Codable (p : Piece UInt8) : Prop where
  len_ge : 4 ≤ p.len
  off_pos : 1 ≤ p.off
  off_le : p.off ≤ 0xbfff

def Short (p : Piece UInt8) : Prop := p.len ≤ 2 ^ 32 - 511 ∧ p.lits.length ≤ 2 ^ 32 - 511

def Lead (first : List UInt8) (ps : List (Piece UInt8)) (lead : List UInt8) : Prop :=
  first = [] ∧ ps = [] ∧ lead = [] ∨ 4 ≤ first.length ∧ lead = runHeader first.length ++ first ∨
    1 ≤ first.length ∧ first.length ≤ 238 ∧ lead = shortBytes first

def Encodes (stream text : List UInt8) : Prop :=
  ∃ first ps lead, Lead first ps lead ∧ first.length ≤ 2 ^ 32 - 511 ∧ AllFit first ps ∧
    (∀ p ∈ ps, Codable p ∧ Short p) ∧ stream = lead ++ ps.flatMap pieceBytes ++ endMark ∧
    text = expand first ps

section Bytes

theorem lengthBytes_eq {tt : Nat} (h : 0 < tt) :
    ∃ k last, lengthBytes tt = List.replicate k 0 ++ [UInt8.ofNat last] ∧ tt = 255 * k + last ∧
      1 ≤ last ∧ last ≤ 255 := by
  induction tt using lengthBytes.induct with
  | case1 tt hlarge ih =>
    obtain ⟨k, last, hbytes, hsum, hrange⟩ := ih (by omega)
    refine ⟨k + 1, last, ?_, by omega, hrange⟩
    rw [lengthBytes, if_pos hlarge, hbytes]
    rfl
  | case2 tt hsmall =>
    refine ⟨0, tt, ?_, by omega, h, by omega⟩
    rw [lengthBytes, if_neg hsmall]
    rfl

theorem matchBytes_length (len off : Nat) : 2 ≤ (matchBytes len off).length := by
  rw [matchBytes]
  split
  · exact Nat.le_refl _
  split
  · simp
  · simp

@[simp] theorem tagged_length (bytes : List UInt8) (t : Nat) :
    (tagged bytes t).length = bytes.length := by
  rw [tagged]
  split <;> simp

theorem modify_append (front : List UInt8) (x : UInt8) (behind : List UInt8) (f : UInt8 → UInt8) :
    (front ++ x :: behind).modify front.length f = front ++ f x :: behind := by
  induction front with
  | nil => rfl
  | cons b front ih => simp [ih]

theorem tagged_append (front : List UInt8) (x y : UInt8) (t : Nat) :
    tagged (front ++ [x, y]) t = front ++ [if t ≤ 3 then x ||| UInt8.ofNat t else x, y] := by
  rw [tagged]
  split
  · have hplace : (front ++ [x, y]).length - 2 = front.length := by simp
    rw [hplace, modify_append]
  · rfl

def LengthCode (short len low : Nat) (long : List UInt8) : Prop :=
  len ≤ short + 2 ∧ low = len - 2 ∧ long = [] ∨
    short + 2 < len ∧ low = 0 ∧ long = lengthBytes (len - (short + 2))

theorem matchBytes_m2 {len off : Nat} (hlen : 4 ≤ len ∧ len ≤ 8) (hoff : 1 ≤ off ∧ off ≤ 0x800) :
    ∃ x y, matchBytes len off = [x, y] ∧ x.toNat = (len - 1) * 32 + (off - 1) % 8 * 4 ∧
      y.toNat = (off - 1) / 8 := by
  have hand : off - 1 &&& 7 = (off - 1) % 8 := Nat.and_two_pow_sub_one_eq_mod (off - 1) 3
  have hor : (len - 1) <<< 5 ||| (off - 1 &&& 7) <<< 2 = (len - 1) * 32 + (off - 1) % 8 * 4 := by
    rw [hand, Nat.shiftLeft_eq, Nat.shiftLeft_eq, Nat.mul_comm (len - 1),
      ← Nat.two_pow_add_eq_or_of_lt (by omega)]
  have hshift : (off - 1) >>> 3 = (off - 1) / 8 := Nat.shiftRight_eq_div_pow _ 3
  refine ⟨_, _, if_pos ⟨hlen.2, hoff.2⟩, ?_, ?_⟩
  · rw [hor]
    exact UInt8.toNat_ofNat_of_lt' (by rw [UInt8.size]; omega)
  · rw [hshift]
    exact UInt8.toNat_ofNat_of_lt' (by rw [UInt8.size]; omega)

theorem offset_bytes (mOff : Nat) :
    (UInt8.ofNat (mOff <<< 2)).toNat = mOff * 4 % 256 ∧
      (UInt8.ofNat (mOff >>> 6)).toNat = mOff / 64 % 256 := by
  rw [UInt8.toNat_ofNat', UInt8.toNat_ofNat', Nat.shiftLeft_eq, Nat.shiftRight_eq_div_pow]
  exact ⟨rfl, rfl⟩

theorem matchBytes_m3 {len off : Nat} (hlen : 4 ≤ len) (hoff : 1 ≤ off ∧ off ≤ 0x4000)
    (hnot : ¬ (len ≤ 8 ∧ off ≤ 0x800)) :
    ∃ head long low x y, matchBytes len off = head :: long ++ [x, y] ∧ head.toNat = 32 + low ∧
      low < 32 ∧ LengthCode 31 len low long ∧ x.toNat = (off - 1) * 4 % 256 ∧
      y.toNat = (off - 1) / 64 := by
  have hlow : (off - 1) / 64 < 256 := by omega
  have hbytes := offset_bytes (off - 1)
  rw [Nat.mod_eq_of_lt hlow] at hbytes
  by_cases hshort : len ≤ 33
  · refine ⟨.ofNat (32 ||| (len - 2)), [], len - 2, _, _, ?_, ?_, by omega,
      .inl ⟨hshort, rfl, rfl⟩, hbytes⟩
    · rw [matchBytes, if_neg hnot, if_pos hoff.2, if_pos hshort]
    · rw [← Nat.two_pow_add_eq_or_of_lt (i := 5) (b := len - 2) (by omega) 1]
      exact UInt8.toNat_ofNat_of_lt' (by rw [UInt8.size]; omega)
  · refine ⟨32 ||| 0, lengthBytes (len - 33), 0, _, _, ?_, rfl, by decide,
      .inr ⟨by omega, rfl, rfl⟩, hbytes⟩
    rw [matchBytes, if_neg hnot, if_pos hoff.2, if_neg hshort]

theorem matchBytes_m4 {len off : Nat} (hlen : 4 ≤ len) (hoff : 0x4000 < off ∧ off ≤ 0xbfff) :
    ∃ head long low x y, matchBytes len off = head :: long ++ [x, y] ∧
      head.toNat = 16 + (off - 0x4000) / 2 ^ 14 * 8 + low ∧ low < 8 ∧ LengthCode 7 len low long ∧
      x.toNat = (off - 0x4000) * 4 % 256 ∧ y.toNat = (off - 0x4000) / 64 % 256 := by
  have hbytes := offset_bytes (off - 0x4000)
  have hnot : ¬ (len ≤ 8 ∧ off ≤ 0x800) := by omega
  have hfar : ¬ off ≤ 0x4000 := by omega
  have hbit : 16 ||| ((off - 0x4000) >>> 11 &&& 8) = 16 + (off - 0x4000) / 2 ^ 14 * 8 := by
    have hhigh : (off - 0x4000) >>> 11 < 16 := by
      rw [Nat.shiftRight_eq_div_pow]
      omega
    have hand : ∀ n < 16, 16 ||| (n &&& 8) = 16 + n / 8 * 8 := by decide
    rw [hand _ hhigh, Nat.shiftRight_eq_div_pow]
    omega
  have htop : (off - 0x4000) / 2 ^ 14 ≤ 1 := by omega
  by_cases hshort : len ≤ 9
  · refine ⟨.ofNat (16 ||| ((off - 0x4000) >>> 11 &&& 8) ||| (len - 2)), [], len - 2, _, _, ?_, ?_,
      by omega, .inl ⟨hshort, rfl, rfl⟩, hbytes⟩
    · simp only [matchBytes, if_neg hnot, if_neg hfar, if_pos hshort]
    · have hmul : 16 + (off - 0x4000) / 2 ^ 14 * 8 = 2 ^ 3 * (2 + (off - 0x4000) / 2 ^ 14) := by
        omega
      rw [hbit, hmul, ← Nat.two_pow_add_eq_or_of_lt (by omega)]
      exact UInt8.toNat_ofNat_of_lt' (by rw [UInt8.size]; omega)
  · refine ⟨.ofNat (16 ||| ((off - 0x4000) >>> 11 &&& 8)), lengthBytes (len - 9), 0, _, _, ?_, ?_,
      by decide, .inr ⟨by omega, rfl, rfl⟩, hbytes⟩
    · simp only [matchBytes, if_neg hnot, if_neg hfar, if_neg hshort]
    · rw [hbit, Nat.add_zero]
      exact UInt8.toNat_ofNat_of_lt' (by rw [UInt8.size]; omega)

end Bytes

end Mangoxx.Lzo
