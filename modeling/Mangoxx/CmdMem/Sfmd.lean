import Mangoxx.Lib.CInt
import Mangoxx.Lib.Dump
import Mangoxx.Spiffs.FlashDevice

namespace Mangoxx.CmdMem

open Mangoxx.Lib Mangoxx.Lib.CInt Mangoxx.Lib.Dump Mangoxx.Lib.Memory Mangoxx.Spiffs

def ascii (b : UInt8) : Char :=
  if ' '.toNat ≤ b.toNat ∧ b.toNat ≤ '~'.toNat then Char.ofNat b.toNat else '.'

structure Sfmd where
  lineElem : Nat
  addr : Nat
  pcbuf : List UInt8
  out : List Char

def dumpLine (addr : Nat) (pcbuf : List UInt8) (lineElem elemSize : Nat) : List Char :=
  hex 8 addr ++ [':'] ++
    (List.range lineElem).flatMap (fun i =>
      ' ' :: hex (2 * elemSize) (littleEndian ((pcbuf.drop (elemSize * i)).take elemSize))) ++
    [' ', ' '] ++ (pcbuf.take (lineElem * elemSize)).map ascii ++ ['\n']

def Sfmd.line (elemSize lineCount lineRemain : Nat) (v : Sfmd) (j : Nat) : Except Fault Sfmd :=
  let lineElem := if j = lineCount - 1 ∧ lineRemain ≠ 0 then lineRemain else v.lineElem
  if lineElem * elemSize ≤ v.pcbuf.length then
    .ok {
      lineElem := lineElem
      addr := (v.addr + lineElem * elemSize) % 2 ^ 32
      pcbuf := v.pcbuf.drop (lineElem * elemSize)
      out := v.out ++ dumpLine v.addr v.pcbuf lineElem elemSize }
  else .error .buffer

def readErr (addr size : Nat) : List Char :=
  "HAL_Flash_Read err! (#".toList ++ (hex 8 addr).map Char.toLower ++ [' '] ++
    (toString (int32 size)).toList ++ ")\n".toList

/-- `block` is what `malloc` returns, with what the memory holds.  A negative `elemCnt` makes no
line. -/
def sfmd (block : Option (Nat → UInt8)) (addr : Nat) (elemCnt elemSize : Int) (flash : FlashFile) :
    Except Fault (Int × List Char) := do
  let size := uint32 (elemCnt * elemSize) &&& 0xFFFFFFFC
  let some block := block | return (-1, "memory err\n".toList)
  let (status, data) ← flashRead addr size flash
  if status ≠ 0 then return (-3, readErr addr size)
  let pbuf := data ++ (List.range 4).map fun k => block (size + k)
  if ¬ (elemSize = 1 ∨ elemSize = 2 ∨ elemSize = 4) then return (-4, [])
  let lineElem := (Int.tdiv 16 elemSize).toNat
  let lineCount := (Int.tdiv (elemCnt + lineElem - 1) lineElem).toNat
  let lineRemain := (Int.tmod elemCnt lineElem).toNat
  let v ← (List.range lineCount).foldlM (Sfmd.line elemSize.toNat lineCount lineRemain)
    ⟨lineElem, addr, pbuf, []⟩
  return (0, v.out)

section Text

def inLine (cnt size r : Nat) : Nat := min (16 / size) (cnt - 16 / size * r)

/-- Line `r` of the dump of the bytes `byte 0`, `byte 1`, ... at `addr`: it is labelled with the
address of its first byte and has the elements from `16 / size * r` on. -/
def textLine (byte : Nat → UInt8) (addr cnt size r : Nat) : List Char :=
  hex 8 (addr + 16 * r) ++ [':'] ++
    (List.range (inLine cnt size r)).flatMap (fun i =>
      let k := 16 / size * r + i
      ' ' :: hex (2 * size) (littleEndian ((List.range size).map fun n => byte (size * k + n)))) ++
    [' ', ' '] ++
    (List.range (size * inLine cnt size r)).map (fun i => ascii (byte (16 * r + i))) ++ ['\n']

def dumpText (byte : Nat → UInt8) (addr cnt size : Nat) : List Char :=
  (List.range ((cnt * size + 15) / 16)).flatMap (textLine byte addr cnt size)

def ShowsFlash (flash : FlashFile) (addr cnt size : Nat) : Prop :=
  ∀ heap, sfmd (some heap) addr cnt size flash =
    .ok (0, dumpText (fun k => flash.flashMem (addr + k : Nat)) addr cnt size)

variable {cnt size r : Nat}

theorem per_line (hsize : size = 1 ∨ size = 2 ∨ size = 4) : size * (16 / size) = 16 := by
  rcases hsize with rfl | rfl | rfl <;> rfl

theorem inLine_full (hsize : size = 1 ∨ size = 2 ∨ size = 4)
    (h : r + 1 < (cnt * size + 15) / 16) : inLine cnt size r = 16 / size := by
  unfold inLine
  rcases hsize with rfl | rfl | rfl <;> omega

theorem inLine_last (hsize : size = 1 ∨ size = 2 ∨ size = 4)
    (h : r + 1 = (cnt * size + 15) / 16) :
    inLine cnt size r = if cnt % (16 / size) ≠ 0 then cnt % (16 / size) else 16 / size := by
  unfold inLine
  rcases hsize with rfl | rfl | rfl <;> split <;> omega

theorem inLine_bounds (hsize : size = 1 ∨ size = 2 ∨ size = 4)
    (h : r < (cnt * size + 15) / 16) :
    0 < inLine cnt size r ∧ 16 * r + inLine cnt size r * size ≤ cnt * size := by
  unfold inLine
  rcases hsize with rfl | rfl | rfl <;> omega

theorem lineCount_eq (hsize : size = 1 ∨ size = 2 ∨ size = 4) :
    (cnt + 16 / size - 1) / (16 / size) = (cnt * size + 15) / 16 := by
  rcases hsize with rfl | rfl | rfl <;> omega

theorem elements_in_order (hsize : size = 1 ∨ size = 2 ∨ size = 4) :
    (List.range ((cnt * size + 15) / 16)).flatMap (fun r =>
      (List.range (inLine cnt size r)).flatMap fun i => [16 / size * r + i]) = List.range cnt := by
  have hcover : cnt ≤ 16 / size * ((cnt * size + 15) / 16) := by
    rcases hsize with rfl | rfl | rfl <;> omega
  have hrows := flatMap_rows (fun k => [k]) hcover
  rwa [List.flatMap_singleton'] at hrows

end Text

section Lines

variable {addr cnt size r : Nat} {pbuf : List UInt8}

theorem dumpLine_eq (hsize : size = 1 ∨ size = 2 ∨ size = 4)
    (h : 16 * r + inLine cnt size r * size ≤ pbuf.length) :
    dumpLine (addr + 16 * r) (pbuf.drop (16 * r)) (inLine cnt size r) size =
      textLine (fun k => pbuf.getD k 0) addr cnt size r := by
  unfold dumpLine textLine
  rw [Nat.mul_comm (inLine cnt size r), slice_eq pbuf 0 (by rwa [Nat.mul_comm size]), List.map_map]
  congr 3
  congr 1
  apply List.flatMap_congr
  intro i hi
  have hfirst : size * (16 / size * r + i) = 16 * r + size * i := by
    rw [Nat.mul_add, ← Nat.mul_assoc, per_line hsize]
  have hlast : size * i + size ≤ inLine cnt size r * size := by
    rw [Nat.mul_comm (inLine cnt size r), ← Nat.mul_succ]
    exact Nat.mul_le_mul_left size (List.mem_range.mp hi)
  simp only [List.drop_drop, slice_eq pbuf 0 (show 16 * r + size * i + size ≤ pbuf.length by omega),
    hfirst]

structure AtLine (pbuf : List UInt8) (addr cnt size j : Nat) (v : Sfmd) : Prop where
  out : v.out = (List.range j).flatMap (textLine (fun k => pbuf.getD k 0) addr cnt size)
  more : j < (cnt * size + 15) / 16 →
    v.lineElem = 16 / size ∧ v.addr = addr + 16 * j ∧ v.pcbuf = pbuf.drop (16 * j)

theorem AtLine.line (hsize : size = 1 ∨ size = 2 ∨ size = 4) (hbuf : cnt * size ≤ pbuf.length)
    (hfits : addr + cnt * size < 2 ^ 32) {j : Nat} (hj : j < (cnt * size + 15) / 16) {v : Sfmd}
    (h : AtLine pbuf addr cnt size j v) :
    ∃ v', v.line size ((cnt * size + 15) / 16) (cnt % (16 / size)) j = .ok v' ∧
      AtLine pbuf addr cnt size (j + 1) v' := by
  obtain ⟨helem, haddr, hpcbuf⟩ := h.more hj
  have hcount : (if j = (cnt * size + 15) / 16 - 1 ∧ cnt % (16 / size) ≠ 0 then cnt % (16 / size)
      else v.lineElem) = inLine cnt size j := by
    by_cases hlast : j + 1 = (cnt * size + 15) / 16
    · have hj' : j = (cnt * size + 15) / 16 - 1 := by omega
      rw [inLine_last hsize hlast, helem]
      exact if_congr (and_iff_right hj') rfl rfl
    · rw [inLine_full hsize (by omega), if_neg (by omega), helem]
  obtain ⟨-, hend⟩ := inLine_bounds hsize hj
  have hroom : inLine cnt size j * size ≤ v.pcbuf.length := by
    rw [hpcbuf, List.length_drop]
    omega
  refine ⟨_, by simp only [Sfmd.line, hcount, if_pos hroom]; rfl, ⟨?_, fun hmore => ?_⟩⟩
  · dsimp only
    rw [h.out, haddr, hpcbuf, dumpLine_eq hsize (by omega), List.range_succ, List.flatMap_append,
      List.flatMap_singleton]
  · have hbytes : inLine cnt size j * size = 16 := by
      rw [inLine_full hsize hmore, Nat.mul_comm, per_line hsize]
    dsimp only
    refine ⟨inLine_full hsize hmore, ?_, ?_⟩
    · rw [hbytes, haddr, Nat.mod_eq_of_lt (by omega), Nat.mul_succ, ← Nat.add_assoc]
    · rw [hbytes, hpcbuf, List.drop_drop, Nat.mul_succ]

theorem AtLine.run (hsize : size = 1 ∨ size = 2 ∨ size = 4) (hbuf : cnt * size ≤ pbuf.length)
    (hfits : addr + cnt * size < 2 ^ 32) {j : Nat} (hj : j ≤ (cnt * size + 15) / 16) {v : Sfmd}
    (h : AtLine pbuf addr cnt size 0 v) :
    ∃ v', (List.range j).foldlM (Sfmd.line size ((cnt * size + 15) / 16) (cnt % (16 / size))) v =
      .ok v' ∧ AtLine pbuf addr cnt size j v' := by
  induction j with
  | zero => exact ⟨v, rfl, h⟩
  | succ j ih =>
    obtain ⟨v', hv', hat⟩ := ih (by omega)
    obtain ⟨v'', hv'', hnext⟩ := hat.line hsize hbuf hfits hj
    refine ⟨v'', ?_, hnext⟩
    rw [List.range_succ, List.foldlM_append, hv']
    simp only [List.foldlM_cons, List.foldlM_nil, bind, Except.bind, hv'']
    rfl

theorem lines_ok (hsize : size = 1 ∨ size = 2 ∨ size = 4) (hbuf : cnt * size ≤ pbuf.length)
    (hfits : addr + cnt * size < 2 ^ 32) :
    ∃ v', (List.range ((cnt * size + 15) / 16)).foldlM
        (Sfmd.line size ((cnt * size + 15) / 16) (cnt % (16 / size)))
        ⟨16 / size, addr, pbuf, []⟩ = .ok v' ∧
      v'.out = dumpText (fun k => pbuf.getD k 0) addr cnt size := by
  obtain ⟨v', hv', hat⟩ := AtLine.run hsize hbuf hfits (Nat.le_refl _)
    (v := ⟨16 / size, addr, pbuf, []⟩) ⟨rfl, fun _ => ⟨rfl, rfl, rfl⟩⟩
  exact ⟨v', hv', hat.out⟩

end Lines

section Contents

variable {byte byte' : Nat → UInt8} {addr cnt size : Nat}

theorem dumpText_congr (hsize : size = 1 ∨ size = 2 ∨ size = 4)
    (h : ∀ k < cnt * size, byte k = byte' k) :
    dumpText byte addr cnt size = dumpText byte' addr cnt size := by
  apply List.flatMap_congr
  intro r hr
  obtain ⟨-, hend⟩ := inLine_bounds hsize (List.mem_range.mp hr)
  rw [Nat.mul_comm (inLine cnt size r)] at hend
  have helements : ∀ i ∈ List.range (inLine cnt size r), ∀ n ∈ List.range size,
      byte (size * (16 / size * r + i) + n) = byte' (size * (16 / size * r + i) + n) := by
    intro i hi n hn
    apply h
    have hlast := Nat.mul_le_mul_left size (List.mem_range.mp hi)
    rw [Nat.mul_succ] at hlast
    rw [Nat.mul_add, ← Nat.mul_assoc, per_line hsize]
    have := List.mem_range.mp hn
    omega
  have hbytes : ∀ i ∈ List.range (size * inLine cnt size r), byte (16 * r + i) =
      byte' (16 * r + i) := by
    intro i hi
    apply h
    have := List.mem_range.mp hi
    omega
  unfold textLine
  congr 2
  · congr 2
    apply List.flatMap_congr
    intro i hi
    dsimp only
    rw [List.map_congr_left (helements i hi)]
  · apply List.map_congr_left
    intro i hi
    rw [hbytes i hi]

theorem dumpText_last (hsize : size = 1 ∨ size = 2 ∨ size = 4) (h : 0 < cnt * size)
    (byte : Nat → UInt8) :
    ∃ front, dumpText byte addr cnt size = front ++ [ascii (byte (cnt * size - 1)), '\n'] := by
  obtain ⟨r, hr⟩ : ∃ r, r + 1 = (cnt * size + 15) / 16 := ⟨(cnt * size - 1) / 16, by omega⟩
  have hend : 16 * r + size * inLine cnt size r = cnt * size := by
    rw [inLine_last hsize hr]
    rcases hsize with rfl | rfl | rfl <;> split <;> omega
  obtain ⟨n, hn⟩ : ∃ n, size * inLine cnt size r = n + 1 := ⟨cnt * size - 16 * r - 1, by omega⟩
  rw [dumpText, ← hr, List.range_succ, List.flatMap_append, List.flatMap_singleton, textLine, hn,
    List.range_succ, List.map_append, List.map_singleton, show 16 * r + n = cnt * size - 1 by omega]
  simp only [← List.append_assoc]
  exact ⟨_, List.append_assoc _ [_] ['\n']⟩

variable {flash : FlashFile}

theorem readSize_eq (h : cnt * size ≤ flashSize) :
    uint32 (cnt * size : Int) &&& 0xFFFFFFFC = 4 * (cnt * size / 4) := by
  have hlimit : flashSize = 8388608 := rfl
  have hcast : uint32 (cnt * size : Int) = cnt * size := by
    rw [← Int.natCast_mul]
    unfold uint32
    omega
  rw [hcast, show 0xFFFFFFFC = 2 ^ 32 - 2 ^ 2 from rfl, Bits.and_high (by omega) (by decide),
    show 2 ^ 2 = 4 from rfl, Nat.mul_comm]

theorem lines_toNat (hsize : size = 1 ∨ size = 2 ∨ size = 4) :
    (Int.tdiv 16 (size : Int)).toNat = 16 / size ∧
    (Int.tdiv ((cnt : Int) + (16 / size : Nat) - 1) (16 / size : Nat)).toNat =
      (cnt * size + 15) / 16 ∧
    (Int.tmod (cnt : Int) (16 / size : Nat)).toNat = cnt % (16 / size) := by
  have hpos : 0 < 16 / size := by rcases hsize with rfl | rfl | rfl <;> decide
  refine ⟨?_, ?_, ?_⟩
  · rcases hsize with rfl | rfl | rfl <;> rfl
  · rw [show (cnt : Int) + (16 / size : Nat) - 1 = (cnt + 16 / size - 1 : Nat) by omega,
      ← Int.ofNat_tdiv, Int.toNat_natCast, lineCount_eq hsize]
  · rw [← Int.ofNat_tmod, Int.toNat_natCast]

theorem buffer_getD (memory heap : Nat → UInt8) {m k : Nat} (h : k < m + 4) :
    ((List.range m).map memory ++ (List.range 4).map fun k => heap (m + k)).getD k 0 =
      if k < m then memory k else heap k := by
  rw [List.getD_eq_getElem?_getD]
  by_cases hlow : k < m
  · rw [if_pos hlow, List.getElem?_append_left (by simpa using hlow)]
    simp [hlow]
  · rw [if_neg hlow, List.getElem?_append_right (by simpa using hlow), List.length_map,
      List.length_range, List.getElem?_map, List.getElem?_range (by omega), Option.map_some,
      Option.getD_some, Nat.add_sub_cancel' (Nat.le_of_not_lt hlow)]

theorem sfmd_ok (hflag : flash.flag = true) (hsize : size = 1 ∨ size = 2 ∨ size = 4)
    (h : addr + cnt * size ≤ flashSize) (heap : Nat → UInt8) :
    sfmd (some heap) addr cnt size flash = .ok (0, dumpText (fun k =>
      if k < 4 * (cnt * size / 4) then flash.flashMem (addr + k : Nat) else heap k)
      addr cnt size) := by
  have hlimit : flashSize = 8388608 := rfl
  obtain ⟨hper, hcount, hremain⟩ := @lines_toNat cnt size hsize
  obtain ⟨pbuf, hpbuf⟩ : ∃ pbuf, pbuf = load flash.flashMem addr (4 * (cnt * size / 4)) ++
    (List.range 4).map fun k => heap (4 * (cnt * size / 4) + k) := ⟨_, rfl⟩
  have hlength : pbuf.length = 4 * (cnt * size / 4) + 4 := by
    rw [hpbuf, List.length_append, load_length]
    rfl
  obtain ⟨v, hv, hout⟩ := @lines_ok addr cnt size pbuf hsize (by omega) (by omega)
  have hbytes : ∀ k < cnt * size, pbuf.getD k 0 =
      if k < 4 * (cnt * size / 4) then flash.flashMem (addr + k : Nat) else heap k := by
    intro k hk
    rw [hpbuf]
    exact buffer_getD (fun k => flash.flashMem (addr + k : Nat)) heap (by omega)
  rw [dumpText_congr hsize hbytes] at hout
  simp only [sfmd, readSize_eq (show cnt * size ≤ flashSize by omega),
    flashRead_ok hflag (show addr + 4 * (cnt * size / 4) ≤ flashSize by omega), ← hpbuf, bind,
    Except.bind, hper, hcount, hremain, Int.toNat_natCast, hv, hout]
  rw [if_neg (by decide), if_neg (not_not.mpr (by omega))]
  rfl

/-- The text is the right one if the elements fill whole words: otherwise the heap shows in the last
one.  The lines of the right text have the elements in order, each of them once. -/
theorem sfmd_shows_flash_iff (hflag : flash.flag = true)
    (hsize : size = 1 ∨ size = 2 ∨ size = 4) (h : addr + cnt * size ≤ flashSize) :
    (ShowsFlash flash addr cnt size ↔ cnt * size % 4 = 0) ∧
      (List.range ((cnt * size + 15) / 16)).flatMap (fun r =>
        (List.range (inLine cnt size r)).flatMap fun i => [16 / size * r + i]) =
          List.range cnt := by
  refine ⟨?_, elements_in_order hsize⟩
  constructor
  · intro hshows
    by_contra hpart
    have hpos : 0 < cnt * size := by omega
    have hlast : ∀ b, ascii b = ascii (flash.flashMem (addr + (cnt * size - 1) : Nat)) := by
      intro b
      have htext := (sfmd_ok hflag hsize h fun _ => b).symm.trans (hshows fun _ => b)
      rw [Except.ok.injEq, Prod.mk.injEq] at htext
      obtain ⟨front, hfront⟩ := @dumpText_last addr cnt size hsize hpos fun k =>
        if k < 4 * (cnt * size / 4) then flash.flashMem (addr + k : Nat) else b
      obtain ⟨front', hfront'⟩ := @dumpText_last addr cnt size hsize hpos fun k =>
        flash.flashMem (addr + k : Nat)
      rw [hfront, hfront', if_neg (by omega)] at htext
      exact (List.cons.inj (List.append_inj' htext.2 rfl).2).1
    exact absurd ((hlast 65).trans (hlast 66).symm) (by decide)
  · intro hwords heap
    have htext : dumpText (fun k => if k < 4 * (cnt * size / 4) then flash.flashMem (addr + k : Nat)
        else heap k) addr cnt size = dumpText (fun k => flash.flashMem (addr + k : Nat)) addr cnt
          size := by
      apply dumpText_congr hsize
      intro k hk
      exact if_pos (by omega)
    rw [sfmd_ok hflag hsize h heap, htext]

theorem twenty_bytes_shown : ShowsFlash ⟨fun _ => 0xff, true⟩ 8 20 1 :=
  (sfmd_shows_flash_iff rfl (.inl rfl) (by decide)).1.mpr rfl

theorem single_byte_from_heap : ¬ ShowsFlash ⟨fun _ => 0xff, true⟩ 0 1 1 := by
  intro h
  exact absurd (h fun _ => 65) (by decide)

end Contents

end Mangoxx.CmdMem
