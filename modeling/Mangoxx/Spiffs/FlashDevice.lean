import Mangoxx.Lib.Bits
import Mangoxx.Lib.Memory

/-! The simulated flash of `flash_device.c`: memory in which a write can only clear bits and an
erase sets whole sectors to `0xff`. -/

namespace Mangoxx.Spiffs

open Mangoxx.Lib Mangoxx.Lib.Memory

def spiffsOk : Int := 0

structure FlashFile where
  flashMem : Memory UInt8
  flag : Bool

def flashSize : Nat := 8 * 1024 * 1024

inductive Fault
  | flashMem (addr size : Nat)
  | buffer
  deriving DecidableEq

def checkFlash (addr n : Nat) : Except Fault Unit :=
  if addr + n ≤ flashSize then .ok () else .error (.flashMem addr n)

def flashRead (addr size : Nat) (s : FlashFile) : Except Fault (Int × List UInt8) := do
  if s.flag = false then return (-1, [])
  checkFlash addr size
  return (spiffsOk, load s.flashMem addr size)

def flashWrite (addr size : Nat) (src : List UInt8) (s : FlashFile) :
    Except Fault (Int × FlashFile) := do
  if s.flag = false then return (-1, s)
  checkFlash addr size
  if src.length < size then throw .buffer
  let cleared := List.zipWith (· &&& ·) (load s.flashMem addr size) src
  return (spiffsOk, { s with flashMem := store s.flashMem addr cleared })

/-- The address is rounded down to a sector and the size rounded up. -/
def flashErase (addr size : Nat) (s : FlashFile) : Except Fault (Int × FlashFile) := do
  if s.flag = false then return (-1, s)
  let addr := addr &&& (2 ^ 32 - 4096)
  let size := ((size + 4095) % 2 ^ 32) &&& (2 ^ 32 - 4096)
  checkFlash addr size
  return (spiffsOk, { s with flashMem := store s.flashMem addr (List.replicate size 0xff) })

variable {s : FlashFile} {addr size : Nat}

theorem checkFlash_ok (h : addr + size ≤ flashSize) : checkFlash addr size = .ok () := if_pos h

theorem flashRead_ok (hflag : s.flag = true) (h : addr + size ≤ flashSize) :
    flashRead addr size s = .ok (0, load s.flashMem addr size) := by
  simp [flashRead, hflag, checkFlash_ok h, spiffsOk, bind, Except.bind, pure, Except.pure]

theorem flashWrite_ok (hflag : s.flag = true) (h : addr + size ≤ flashSize) {src : List UInt8}
    (hsrc : size ≤ src.length) :
    flashWrite addr size src s = .ok (0, { s with
      flashMem :=
        store s.flashMem addr (List.zipWith (· &&& ·) (load s.flashMem addr size) src) }) := by
  simp [flashWrite, hflag, checkFlash_ok h, spiffsOk, Nat.not_lt.mpr hsrc, bind, Except.bind, pure,
    Except.pure]

theorem flashErase_ok (hflag : s.flag = true) (h : addr + size ≤ flashSize) :
    flashErase addr size s = .ok (0, { s with
      flashMem := store s.flashMem (4096 * (addr / 4096) : Nat)
        (List.replicate (4096 * ((size + 4095) / 4096)) 0xff) }) := by
  have hlimit : flashSize = 8388608 := rfl
  have haddr : addr &&& (2 ^ 32 - 4096) = 4096 * (addr / 4096) := by
    rw [show 2 ^ 32 - 4096 = 2 ^ 32 - 2 ^ 12 from rfl, Bits.and_high (by omega) (by decide),
      show 2 ^ 12 = 4096 from rfl, Nat.mul_comm]
  have hsize : ((size + 4095) % 2 ^ 32) &&& (2 ^ 32 - 4096) = 4096 * ((size + 4095) / 4096) := by
    rw [Nat.mod_eq_of_lt (by omega), show 2 ^ 32 - 4096 = 2 ^ 32 - 2 ^ 12 from rfl,
      Bits.and_high (by omega) (by decide), show 2 ^ 12 = 4096 from rfl, Nat.mul_comm]
  have hfits : 4096 * (addr / 4096) + 4096 * ((size + 4095) / 4096) ≤ flashSize := by omega
  simp only [flashErase, hflag, haddr, hsize, checkFlash_ok hfits]
  rfl

theorem flashErase_sector (hflag : s.flag = true) {sector : Nat}
    (h : 4096 * sector + 4096 ≤ flashSize) :
    flashErase (4096 * sector) 4096 s = .ok (0, { s with
      flashMem := store s.flashMem (4096 * sector : Nat) (List.replicate 4096 0xff) }) := by
  have hcall := flashErase_ok hflag h
  rwa [Nat.mul_div_cancel_left _ (by decide), show 4096 * ((4096 + 4095) / 4096) = 4096 from rfl]
    at hcall

theorem and_erased (data : List UInt8) :
    List.zipWith (· &&& ·) (List.replicate data.length (0xff : UInt8)) data = data := by
  induction data with
  | nil => rfl
  | cons b data ih =>
    rw [List.length_cons, List.replicate_succ, List.zipWith_cons_cons, ih]
    rw [show (0xff : UInt8) &&& b = b from UInt8.toBitVec_inj.mp BitVec.allOnes_and]

theorem flashWrite_erased (hflag : s.flag = true) {data : List UInt8}
    (h : addr + data.length ≤ flashSize) :
    flashWrite addr data.length data { s with
        flashMem := store s.flashMem addr (List.replicate data.length 0xff) } =
      .ok (0, { s with flashMem := store s.flashMem addr data }) := by
  have hload : load (store s.flashMem addr (List.replicate data.length 0xff)) addr data.length =
      List.replicate data.length 0xff := by
    have hself := load_store_self s.flashMem addr (List.replicate data.length (0xff : UInt8))
    rwa [List.length_replicate] at hself
  rw [flashWrite_ok (by exact hflag) h (Nat.le_refl _)]
  dsimp only
  rw [hload, and_erased, store_store _ _ List.length_replicate]

def Overlaps (addr size a : Nat) : Prop := ∃ b, addr ≤ b ∧ b < addr + size ∧ b / 4096 = a / 4096

/-- The call succeeds, the range asked for is erased, and so is nothing outside its sectors. -/
def Erases (s : FlashFile) (addr size : Nat) : Prop :=
  ∃ s', flashErase addr size s = .ok (spiffsOk, s') ∧ s'.flag = true ∧
    (∀ a : Nat, addr ≤ a → a < addr + size → s'.flashMem a = 0xff) ∧
    ∀ a : Nat, ¬ Overlaps addr size a → s'.flashMem a = s.flashMem a

def eraseEnd (addr size : Nat) : Nat := 4096 * (addr / 4096 + (size + 4095) / 4096)

theorem erased_at (mem : Memory UInt8) (addr size a : Nat) :
    store mem (4096 * (addr / 4096) : Nat) (List.replicate (4096 * ((size + 4095) / 4096)) 0xff) a =
      if 4096 * (addr / 4096) ≤ a ∧ a < eraseEnd addr size then 0xff else mem a := by
  unfold eraseEnd
  split
  · rename_i ha
    obtain ⟨k, rfl⟩ := Nat.exists_eq_add_of_le ha.1
    rw [Int.natCast_add, store_at, List.getElem?_replicate_of_lt (by omega), Option.getD_some]
  · rename_i ha
    by_cases hlow : a < 4096 * (addr / 4096)
    · exact store_of_lt _ _ (by omega)
    · apply store_of_ge
      rw [List.length_replicate]
      omega

theorem outside_of_not_overlaps {a : Nat} (h : ¬ Overlaps addr size a) :
    ¬ (4096 * (addr / 4096) ≤ a ∧ a < eraseEnd addr size) := by
  rintro ⟨hlow, hhigh⟩
  unfold eraseEnd at hhigh
  apply h
  by_cases hfirst : a < addr
  · exact ⟨addr, Nat.le_refl _, by omega, by omega⟩
  · by_cases hlast : a < addr + size
    · exact ⟨a, by omega, hlast, rfl⟩
    · exact ⟨addr + size - 1, by omega, by omega, by omega⟩

theorem eraseEnd_covers (h : addr % 4096 + size ≤ 4096 * ((size + 4095) / 4096)) :
    addr + size ≤ eraseEnd addr size := by
  unfold eraseEnd
  omega

/-- The bytes of the range beyond the end of what is erased have to be erased already.  There are
none if the offset in the first sector and the size fit the rounded size. -/
theorem erases_iff (hflag : s.flag = true) (h : addr + size ≤ flashSize) :
    Erases s addr size ↔
      ∀ a : Nat, addr ≤ a → eraseEnd addr size ≤ a → a < addr + size → s.flashMem a = 0xff := by
  have hcall := flashErase_ok hflag h
  constructor
  · rintro ⟨s', hs', -, hinside, -⟩ a haddr hend ha
    rw [hcall] at hs'
    cases hs'
    have hbyte := hinside a haddr ha
    dsimp only at hbyte
    rwa [erased_at, if_neg (by omega)] at hbyte
  · intro htail
    refine ⟨_, hcall, hflag, fun a ha ha' => ?_, fun a ha => ?_⟩
    · dsimp only
      rw [erased_at]
      split
      · rfl
      · exact htail a ha (by omega) ha'
    · dsimp only
      rw [erased_at, if_neg (outside_of_not_overlaps ha)]

theorem erases_aligned : Erases ⟨fun _ => 0, true⟩ 4096 4096 :=
  (erases_iff rfl (by decide)).mpr fun a _ ha ha' =>
    absurd (Nat.lt_of_lt_of_le ha' (eraseEnd_covers (by decide))) (Nat.not_lt.mpr ha)

theorem straddling_erase_keeps : ¬ Erases ⟨fun _ => 0, true⟩ 4095 2 := by
  rintro ⟨s', hs', -, hinside, -⟩
  rw [flashErase_ok rfl (by decide)] at hs'
  cases hs'
  have hbyte := hinside 4096 (by decide) (by decide)
  dsimp only at hbyte
  rw [erased_at, if_neg (by decide)] at hbyte
  exact absurd hbyte (by decide)

end Mangoxx.Spiffs
