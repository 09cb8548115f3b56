import Mangoxx.Lib.Loop
import Mangoxx.Spiffs.FlashDevice

namespace Mangoxx.CmdMem

open Mangoxx.Lib Mangoxx.Lib.Memory Mangoxx.Spiffs

/-- The variables of the loop.  `writeaddr` is kept up to date and not used. -/
structure Sfmw where
  secpos : Nat
  secoff : Nat
  secremain : Nat
  writeaddr : Nat
  num : Nat
  pbuf : List UInt8
  flash : FlashFile

def copyIn (pmem pbuf : List UInt8) (secoff secremain : Nat) : Except Fault (List UInt8) :=
  if secoff + secremain ≤ pmem.length ∧ secremain ≤ pbuf.length then
    .ok (pmem.take secoff ++ pbuf.take secremain ++ pmem.drop (secoff + secremain))
  else .error .buffer

def Sfmw.rewrite (v : Sfmw) : Except Fault (Int × FlashFile) := do
  let (status, pmem) ← flashRead (v.secpos * 4096 % 2 ^ 32) 4096 v.flash
  if status ≠ 0 then return (status, v.flash)
  let (status, flash) ← flashErase (v.secpos * 4096 % 2 ^ 32) 4096 v.flash
  if status ≠ 0 then return (status, flash)
  let pmem ← copyIn pmem v.pbuf v.secoff v.secremain
  flashWrite (v.secpos * 4096 % 2 ^ 32) 4096 pmem flash

def Sfmw.next (v : Sfmw) (flash : FlashFile) : Sfmw :=
  let num := (v.num + 2 ^ 32 - v.secremain) % 2 ^ 32
  { secpos := (v.secpos + 1) % 2 ^ 32
    secoff := 0
    secremain := if num > 4096 then 4096 else num % 2 ^ 16
    writeaddr := (v.writeaddr + v.secremain) % 2 ^ 32
    num := num
    pbuf := v.pbuf.drop v.secremain
    flash := flash }

def Sfmw.turn (v : Sfmw) : Turn Sfmw (Except Fault (Int × FlashFile)) :=
  match v.rewrite with
  | .error f => .stop (.error f)
  | .ok (status, flash) =>
    if status ≠ 0 then .stop (.ok (status, flash))
    else if v.num = v.secremain then .stop (.ok (0, flash))
    else .again (v.next flash)

def Sfmw.start (writeaddr : Nat) (pbuf : List UInt8) (num : Nat) (flash : FlashFile) : Sfmw :=
  let secoff := writeaddr % 4096
  let secremain := 4096 - secoff
  { secpos := writeaddr / 4096
    secoff := secoff
    secremain := if num ≤ secremain then num % 2 ^ 16 else secremain
    writeaddr := writeaddr
    num := num
    pbuf := pbuf
    flash := flash }

/-- `malloc` says whether there was memory for the sector; `none` means that the fuel was too
little. -/
def sfmw (fuel : Nat) (malloc : Bool) (writeaddr : Nat) (pbuf : List UInt8) (num : Nat)
    (flash : FlashFile) : Option (Except Fault (Int × FlashFile)) :=
  if malloc then Loop.iterate Sfmw.turn fuel (.start writeaddr pbuf num flash)
  else some (.ok (-1, flash))

namespace Sfmw

variable {v : Sfmw}

def addr (v : Sfmw) : Nat := 4096 * v.secpos + v.secoff

/-- The head of the loop: the rest of the buffer fits the flash, and the sector takes all of it or
is filled. -/
structure Inv (v : Sfmw) : Prop where
  flag : v.flash.flag = true
  num_eq : v.num = v.pbuf.length
  off : v.secoff < 4096
  remain : v.secremain = v.num ∧ v.secoff + v.num ≤ 4096 ∨
    v.secoff + v.secremain = 4096 ∧ v.secremain < v.num
  fits : v.addr + v.num ≤ flashSize
  sector : 4096 * v.secpos < flashSize

theorem copyIn_ok {pmem pbuf : List UInt8} {secoff secremain : Nat}
    (h : secoff + secremain ≤ pmem.length) (h' : secremain ≤ pbuf.length) :
    copyIn pmem pbuf secoff secremain =
      .ok (pmem.take secoff ++ pbuf.take secremain ++ pmem.drop (secoff + secremain)) :=
  if_pos ⟨h, h'⟩

theorem Inv.rewrite (h : Inv v) : v.rewrite = .ok (0, { v.flash with
    flashMem := store v.flash.flashMem v.addr (v.pbuf.take v.secremain) }) := by
  obtain ⟨hflag, hnum, hoff, hremain, hfits, hsector⟩ := h
  have hsize : flashSize = 8388608 := rfl
  have hend : 4096 * v.secpos + 4096 ≤ flashSize := by omega
  have hmod : v.secpos * 4096 % 2 ^ 32 = 4096 * v.secpos := by
    rw [Nat.mul_comm, Nat.mod_eq_of_lt (by omega)]
  have hpart : (v.pbuf.take v.secremain).length = v.secremain := by
    rw [List.length_take]
    omega
  obtain ⟨pmem, hpmem⟩ : ∃ pmem, pmem = load v.flash.flashMem (4096 * v.secpos : Nat) 4096 :=
    ⟨_, rfl⟩
  have hlength : pmem.length = 4096 := by rw [hpmem, load_length]
  obtain ⟨buf, hbuf⟩ : ∃ buf, buf = pmem.take v.secoff ++ v.pbuf.take v.secremain ++
      pmem.drop (v.secoff + v.secremain) := ⟨_, rfl⟩
  have hsector : 4096 = buf.length := by
    simp only [hbuf, List.length_append, List.length_drop, List.length_take, hlength]
    omega
  have hcopy : copyIn pmem v.pbuf v.secoff v.secremain = .ok buf := by
    rw [hbuf]
    exact copyIn_ok (by omega) (by omega)
  have hpatch : store v.flash.flashMem (4096 * v.secpos : Nat) buf =
      store v.flash.flashMem v.addr (v.pbuf.take v.secremain) := by
    have hstore := @store_patch _ v.flash.flashMem (4096 * v.secpos : Nat) 4096 v.secoff
      (v.pbuf.take v.secremain) (by omega)
    rwa [hpart, ← hpmem, ← hbuf, ← Int.natCast_add] at hstore
  have hwrite := @flashWrite_erased v.flash (4096 * v.secpos) hflag buf (by omega)
  rw [← hsector, hpatch] at hwrite
  simp only [Sfmw.rewrite, hmod, flashRead_ok hflag hend, flashErase_sector hflag hend, ← hpmem,
    hcopy, hwrite, bind, Except.bind, ne_eq, not_true_eq_false, if_false]

theorem Inv.next (h : Inv v) (hmore : v.num ≠ v.secremain) {flash : FlashFile}
    (hflag : flash.flag = true) :
    Inv (v.next flash) ∧ (v.next flash).num < v.num ∧
      (v.next flash).addr = v.addr + v.secremain := by
  obtain ⟨-, hnum, hoff, hremain, hfits, -⟩ := h
  have hsize : flashSize = 8388608 := rfl
  have hfull : v.secoff + v.secremain = 4096 ∧ v.secremain < v.num := by omega
  rw [addr] at hfits
  have hrest : (v.num + 2 ^ 32 - v.secremain) % 2 ^ 32 = v.num - v.secremain := by
    rw [show v.num + 2 ^ 32 - v.secremain = v.num - v.secremain + 2 ^ 32 by omega,
      Nat.add_mod_right, Nat.mod_eq_of_lt (by omega)]
  have hpos : (v.secpos + 1) % 2 ^ 32 = v.secpos + 1 := Nat.mod_eq_of_lt (by omega)
  refine ⟨⟨hflag, ?_, Nat.zero_lt_succ _, ?_, ?_, ?_⟩, ?_, ?_⟩
  · simp only [Sfmw.next, hrest, List.length_drop]
    omega
  · simp only [Sfmw.next, hrest]
    split <;> omega
  · simp only [Sfmw.next, addr, hrest, hpos]
    omega
  · simp only [Sfmw.next, hpos]
    omega
  · simp only [Sfmw.next, hrest]
    omega
  · simp only [Sfmw.next, addr, hpos]
    omega

theorem Inv.ends (h : Inv v) : Loop.Ends turn v (.ok (0, { v.flash with
    flashMem := store v.flash.flashMem v.addr v.pbuf })) := by
  induction hn : v.num using Nat.strongRecOn generalizing v with
  | ind n ih =>
    have hrewrite := h.rewrite
    by_cases hlast : v.num = v.secremain
    · apply Loop.ends_stop
      rw [List.take_of_length_le (by rw [← h.num_eq, hlast])] at hrewrite
      simp [turn, hrewrite, hlast]
    · have hnext := @Inv.next v h hlast { v.flash with
        flashMem := store v.flash.flashMem v.addr (v.pbuf.take v.secremain) } h.flag
      obtain ⟨hnext, hless, haddr⟩ := hnext
      have hends := ih _ (hn ▸ hless) hnext rfl
      have hremain := h.remain
      have hlength : (v.pbuf.take v.secremain).length = v.secremain := by
        rw [List.length_take, ← h.num_eq]
        omega
      have hstore := store_append v.flash.flashMem v.addr (v.pbuf.take v.secremain)
        (v.pbuf.drop v.secremain)
      rw [List.take_append_drop, hlength, ← Int.natCast_add] at hstore
      rw [haddr] at hends
      rw [hstore]
      exact hends.again (by simp [turn, hrewrite, hlast])

theorem Inv.start {flash : FlashFile} (hflag : flash.flag = true) {writeaddr : Nat}
    (haddr : writeaddr < flashSize) {pbuf : List UInt8}
    (hfits : writeaddr + pbuf.length ≤ flashSize) :
    Inv (.start writeaddr pbuf pbuf.length flash) ∧
      (Sfmw.start writeaddr pbuf pbuf.length flash).addr = writeaddr := by
  have hsize : flashSize = 8388608 := rfl
  have hsplit : 4096 * (writeaddr / 4096) + writeaddr % 4096 = writeaddr :=
    Nat.div_add_mod writeaddr 4096
  have hoff : writeaddr % 4096 < 4096 := Nat.mod_lt _ (by decide)
  refine ⟨⟨hflag, rfl, hoff, ?_, ?_, ?_⟩, hsplit⟩
  · simp only [Sfmw.start]
    split <;> omega
  · simpa only [addr, Sfmw.start, hsplit] using hfits
  · simp only [Sfmw.start]
    omega

end Sfmw

/-- With memory for a sector, `sfmw` returns 0 and the flash holds the bytes of the buffer from
`writeaddr` on and what it held before elsewhere. -/
theorem sfmw_stores (flash : FlashFile) (hflag : flash.flag = true) (writeaddr : Nat)
    (haddr : writeaddr < flashSize) (num : Nat) (pbuf : List UInt8) (hnum : pbuf.length = num)
    (hfits : writeaddr + num ≤ flashSize) :
    ∃ fuel flash', sfmw fuel true writeaddr pbuf num flash = some (.ok (0, flash')) ∧
      flash'.flag = true ∧
      (∀ i (hi : i < num), flash'.flashMem (writeaddr + i) = pbuf[i]) ∧
      ∀ a : Nat, a < writeaddr ∨ writeaddr + num ≤ a → flash'.flashMem a = flash.flashMem a := by
  subst hnum
  obtain ⟨hinv, hstart⟩ := Sfmw.Inv.start hflag haddr hfits
  obtain ⟨fuel, hends⟩ := hinv.ends
  rw [hstart] at hends
  refine ⟨fuel, _, hends, hflag, fun i hi => ?_, fun a ha => ?_⟩
  · exact (store_at _ _ pbuf i).trans (by rw [List.getElem?_eq_getElem hi, Option.getD_some])
  · dsimp only [Sfmw.start]
    rcases ha with ha | ha
    · exact store_of_lt _ pbuf (by omega)
    · exact store_of_ge _ pbuf (by omega)

theorem sfmw_across_sectors :
    ∃ fuel flash', sfmw fuel true 4094 [1, 2, 3, 4, 5] 5 ⟨fun _ => 7, true⟩ =
        some (.ok (0, flash')) ∧
      flash'.flag = true ∧
      (∀ (i : Nat) (hi : i < 5),
        flash'.flashMem ((4094 : Nat) + i) = ([1, 2, 3, 4, 5] : List UInt8)[i]) ∧
      ∀ a : Nat, a < 4094 ∨ 4094 + 5 ≤ a → flash'.flashMem a = 7 :=
  sfmw_stores ⟨fun _ => 7, true⟩ rfl 4094 (by decide) 5 [1, 2, 3, 4, 5] rfl (by decide)

end Mangoxx.CmdMem
