import Mangoxx.Spiffs.FlashDevice

/-! The layer of `flash_spiffs.c` between the file system and the flash, which widens every access
to units of four bytes: it reads the neighbours of the bytes it is asked for and writes them
back. -/

namespace Mangoxx.Spiffs

open Mangoxx.Lib Mangoxx.Lib.Memory

def flashUnitSize : Nat := 4
def spiffsErrNotConfigured : Int := -10024

def fs1FlashSize : Nat := 512 * 1024
def fs1FlashAddr : Nat := 0x00200000

/-- The result, the bytes for `p` of a read, and the flash.  An access to `tmp_buf` is checked
against its size and, where it reads, against what `flash_read` has put there. -/
def lowlevelSpiffsReadwrite (logPageSize addr size : Nat) (p : List UInt8) (write : Bool)
    (s : FlashFile) : Except Fault ((Int × List UInt8) × FlashFile) := do
  if size > logPageSize then return ((spiffsErrNotConfigured, []), s)
  let tmpSize := (logPageSize + flashUnitSize * 2) % 2 ^ 32
  let alignedAddr := addr &&& (2 ^ 32 - flashUnitSize)
  let alignedSize := ((((size + (flashUnitSize - 1)) % 2 ^ 32) &&& (2 ^ 32 - flashUnitSize)) +
    flashUnitSize) % 2 ^ 32
  if tmpSize < alignedSize then throw .buffer
  let (res, tmp) ← flashRead alignedAddr alignedSize s
  if res ≠ 0 then return ((res, []), s)
  let off := addr - alignedAddr
  if tmp.length < off + size then throw .buffer
  if !write then return ((spiffsOk, (tmp.drop off).take size), s)
  if p.length < size then throw .buffer
  let (res, s) ← flashWrite alignedAddr alignedSize
    (tmp.take off ++ p.take size ++ tmp.drop (off + size)) s
  if res ≠ 0 then return ((res, []), s)
  return ((spiffsOk, []), s)

def spiffsRead (logPageSize addr size : Nat) (s : FlashFile) :
    Except Fault ((Int × List UInt8) × FlashFile) :=
  lowlevelSpiffsReadwrite logPageSize addr size [] false s

def spiffsWrite (logPageSize addr size : Nat) (src : List UInt8) (s : FlashFile) :
    Except Fault ((Int × List UInt8) × FlashFile) :=
  lowlevelSpiffsReadwrite logPageSize addr size src true s

structure Widened (addr size start width : Nat) : Prop where
  start_eq : addr &&& (2 ^ 32 - flashUnitSize) = start
  width_eq : ((((size + (flashUnitSize - 1)) % 2 ^ 32) &&& (2 ^ 32 - flashUnitSize)) +
    flashUnitSize) % 2 ^ 32 = width
  before : start ≤ addr
  covers : addr - start + size ≤ width
  room : width ≤ size + flashUnitSize * 2
  fits : start + width ≤ flashSize

theorem widened (h : addr + size ≤ fs1FlashAddr + fs1FlashSize) :
    ∃ start width, Widened addr size start width := by
  have hend : fs1FlashAddr + fs1FlashSize = 2621440 := rfl
  have hsize : flashSize = 8388608 := rfl
  have hmask : ∀ x, x < 2 ^ 32 → x &&& (2 ^ 32 - flashUnitSize) = 4 * (x / 4) := fun x hx =>
    (Bits.and_high (k := 2) hx (by decide)).trans (Nat.mul_comm _ _)
  have hlow : addr % 4 < 4 := Nat.mod_lt _ (by decide)
  have hsplit := Nat.div_add_mod addr 4
  have hup : (size + 3) % 4 < 4 := Nat.mod_lt _ (by decide)
  have hsplit' := Nat.div_add_mod (size + 3) 4
  refine ⟨4 * (addr / 4), 4 * ((size + 3) / 4) + 4, ?_, ?_, ?_, ?_, ?_, ?_⟩
  · exact hmask addr (by omega)
  · rw [show flashUnitSize - 1 = 3 from rfl, Nat.mod_eq_of_lt (a := size + 3) (by omega),
      hmask _ (by omega),
      show flashUnitSize = 4 from rfl, Nat.mod_eq_of_lt (by omega)]
  · omega
  · omega
  · rw [show flashUnitSize = 4 from rfl]
    omega
  · omega

theorem and_self (data : List UInt8) : List.zipWith (· &&& ·) data data = data := by
  induction data with
  | nil => rfl
  | cons b data ih => rw [List.zipWith_cons_cons, ih, UInt8.and_self]

/-- The neighbours of the new bytes are written over themselves. -/
theorem and_patch {old data : List UInt8} {off : Nat} (h : off + data.length ≤ old.length) :
    List.zipWith (· &&& ·) old (old.take off ++ data ++ old.drop (off + data.length)) =
      old.take off ++ List.zipWith (· &&& ·) ((old.drop off).take data.length) data ++
        old.drop (off + data.length) := by
  have hsplit : old = old.take off ++ (old.drop off).take data.length ++
      old.drop (off + data.length) := by
    rw [List.append_assoc, ← List.drop_drop, List.take_append_drop, List.take_append_drop]
  have hmiddle : ((old.drop off).take data.length).length = data.length := by
    rw [List.length_take, List.length_drop]
    omega
  calc
    List.zipWith (· &&& ·) old (old.take off ++ data ++ old.drop (off + data.length)) =
        List.zipWith (· &&& ·)
          (old.take off ++ (old.drop off).take data.length ++ old.drop (off + data.length))
          (old.take off ++ data ++ old.drop (off + data.length)) := by rw [← hsplit]
    _ = old.take off ++ List.zipWith (· &&& ·) ((old.drop off).take data.length) data ++
          old.drop (off + data.length) := by
      rw [List.zipWith_append (by simp only [List.length_append, hmiddle]),
        List.zipWith_append rfl, and_self, and_self]

theorem load_part (mem : Memory UInt8) {start addr width size : Nat} (hbefore : start ≤ addr)
    (hcovers : addr - start + size ≤ width) :
    ((load mem start width).drop (addr - start)).take size = load mem addr size := by
  have haddr : (start : Int) + (addr - start : Nat) = addr := by omega
  rw [← load_drop, haddr, ← load_take mem addr (by omega)]

theorem read_closed (hflag : s.flag = false) (addr size : Nat) :
    flashRead addr size s = .ok (-1, []) := by
  simp [flashRead, hflag, pure, Except.pure]

theorem write_closed (hflag : s.flag = false) (addr size : Nat) (src : List UInt8) :
    flashWrite addr size src s = .ok (-1, s) := by
  simp [flashWrite, hflag, pure, Except.pure]

section Transparent

variable {logPageSize addr size : Nat}

theorem spiffsRead_eq (hpage : logPageSize + 8 < 2 ^ 32)
    (h : addr + size ≤ fs1FlashAddr + fs1FlashSize) (hsize : size ≤ logPageSize) (s : FlashFile) :
    spiffsRead logPageSize addr size s = (flashRead addr size s).map fun r => (r, s) := by
  obtain ⟨start, width, hstart, hwidth, hbefore, hcovers, hroom, hfits⟩ := widened h
  have hunit : flashUnitSize * 2 = 8 := rfl
  have htmp : (logPageSize + flashUnitSize * 2) % 2 ^ 32 = logPageSize + 8 := Nat.mod_eq_of_lt hpage
  have hwide : ¬ logPageSize + 8 < width := by omega
  simp only [spiffsRead, lowlevelSpiffsReadwrite, hstart, hwidth, htmp,
    if_neg (Nat.not_lt.mpr hsize), if_neg hwide]
  cases hflag : s.flag with
  | false =>
    rw [read_closed hflag, read_closed hflag]
    rfl
  | true =>
    rw [flashRead_ok hflag hfits, flashRead_ok hflag (by omega)]
    simp [bind, Except.bind, pure, Except.pure, Except.map, spiffsOk, Nat.not_lt.mpr hcovers,
      load_part s.flashMem hbefore hcovers]

theorem spiffsWrite_eq (hpage : logPageSize + 8 < 2 ^ 32)
    (h : addr + size ≤ fs1FlashAddr + fs1FlashSize) (hsize : size ≤ logPageSize) (s : FlashFile)
    {src : List UInt8} (hsrc : src.length = size) :
    spiffsWrite logPageSize addr size src s =
      (flashWrite addr size src s).map fun r => ((r.1, []), r.2) := by
  obtain ⟨start, width, hstart, hwidth, hbefore, hcovers, hroom, hfits⟩ := widened h
  have hunit : flashUnitSize * 2 = 8 := rfl
  have htmp : (logPageSize + flashUnitSize * 2) % 2 ^ 32 = logPageSize + 8 := Nat.mod_eq_of_lt hpage
  have hwide : ¬ logPageSize + 8 < width := by omega
  simp only [spiffsWrite, lowlevelSpiffsReadwrite, hstart, hwidth, htmp,
    if_neg (Nat.not_lt.mpr hsize), if_neg hwide]
  cases hflag : s.flag with
  | false =>
    rw [read_closed hflag, write_closed hflag]
    rfl
  | true =>
    subst hsrc
    have hpatch := @and_patch (load s.flashMem start width) src (addr - start)
      (by rwa [load_length])
    rw [load_part s.flashMem hbefore hcovers] at hpatch
    have hlength : width ≤ ((load s.flashMem start width).take (addr - start) ++ src ++
        (load s.flashMem start width).drop (addr - start + src.length)).length := by
      simp only [List.length_append, List.length_take, List.length_drop, load_length]
      omega
    have hwrite := flashWrite_ok hflag hfits hlength
    have hmerged : (List.zipWith (· &&& ·) (load s.flashMem addr src.length) src).length =
        src.length := by
      rw [List.length_zipWith, load_length, Nat.min_self]
    have hstore := @store_patch _ s.flashMem start width (addr - start)
      (List.zipWith (· &&& ·) (load s.flashMem addr src.length) src) (by omega)
    have haddr : (start : Int) + (addr - start : Nat) = addr := by omega
    rw [hmerged, haddr] at hstore
    rw [hpatch, hstore] at hwrite
    rw [flashRead_ok hflag hfits, flashWrite_ok hflag (by omega) (Nat.le_refl _)]
    simp [-List.append_assoc, bind, Except.bind, pure, Except.pure, Except.map, spiffsOk,
      Nat.not_lt.mpr hcovers, hwrite]

theorem lowlevel_refused (h : logPageSize < size) (p : List UInt8) (write : Bool) (s : FlashFile) :
    lowlevelSpiffsReadwrite logPageSize addr size p write s =
      .ok ((spiffsErrNotConfigured, []), s) := by
  rw [lowlevelSpiffsReadwrite, if_pos h]
  rfl

end Transparent

/-- Inside the partition the file system sees the flash as it is, and a request for more than a page
is refused.  `log_page_size` is 128 in the source; here its temporary buffer must have a size. -/
theorem lowlevel_transparent (logPageSize : Nat) (hpage : logPageSize + 8 < 2 ^ 32)
    (s : FlashFile) :
    (∀ addr size, fs1FlashAddr ≤ addr → addr + size ≤ fs1FlashAddr + fs1FlashSize →
      size ≤ logPageSize →
        spiffsRead logPageSize addr size s = (flashRead addr size s).map (fun r => (r, s)) ∧
          ∀ src, src.length = size → spiffsWrite logPageSize addr size src s =
            (flashWrite addr size src s).map fun r => ((r.1, []), r.2)) ∧
      ∀ addr size src, logPageSize < size →
        spiffsRead logPageSize addr size s = .ok ((spiffsErrNotConfigured, []), s) ∧
          spiffsWrite logPageSize addr size src s = .ok ((spiffsErrNotConfigured, []), s) := by
  constructor
  · intro addr size _ hend hsize
    exact ⟨spiffsRead_eq hpage hend hsize s, fun src hsrc => spiffsWrite_eq hpage hend hsize s hsrc⟩
  · intro addr size src hsize
    exact ⟨lowlevel_refused hsize [] false s, lowlevel_refused hsize src true s⟩

theorem lowlevel_page :
    spiffsWrite 128 0x200001 3 [1, 2, 3] ⟨fun _ => 0xff, true⟩ =
        (flashWrite 0x200001 3 [1, 2, 3] ⟨fun _ => 0xff, true⟩).map (fun r => ((r.1, []), r.2)) ∧
      spiffsRead 128 0x200001 129 ⟨fun _ => 0xff, true⟩ =
        .ok ((spiffsErrNotConfigured, []), ⟨fun _ => 0xff, true⟩) := by
  have h := lowlevel_transparent 128 (by decide) ⟨fun _ => 0xff, true⟩
  exact ⟨(h.1 0x200001 3 (by decide) (by decide) (by decide)).2 [1, 2, 3] rfl,
    (h.2 0x200001 129 [] (by decide)).1⟩

end Mangoxx.Spiffs
