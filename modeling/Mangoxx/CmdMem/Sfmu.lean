import Mangoxx.Lib.Dump
import Mangoxx.Spiffs.FlashDevice

namespace Mangoxx.CmdMem

open Mangoxx.Lib Mangoxx.Lib.Dump Mangoxx.Lib.Memory Mangoxx.Spiffs

def sectorUsed (pmem : List UInt8) : (n i v : Nat) → Bool
  | 0, _, _ => false
  | n + 1, i, v =>
    let v := v &&& littleEndian ((pmem.drop (4 * i)).take 4)
    if v ≠ 0xFFFFFFFF then true else sectorUsed pmem n (i + 1) v

structure Sfmu where
  secpos : Nat
  indicateAddr : Nat
  out : List Char

def mapHeader : List Char :=
  " .-idle X-used    sector offset(4k)\naddr      0 1 2 3 4 5 6 7  8 9 A B C D E F".toList

def rowLabel (indicateAddr : Nat) : List Char := '\n' :: hex 8 indicateAddr ++ [':']

def Sfmu.indicate (v : Sfmu) (j : Nat) : Sfmu :=
  if j = 0 then { v with out := v.out ++ rowLabel v.indicateAddr }
  else if j / 8 % 2 = 1 ∧ j % 8 = 0 then { v with out := v.out ++ [' '] }
  else if j % 16 = 0 then
    let indicateAddr := (v.indicateAddr + 4096 * 16) % 2 ^ 32
    { v with indicateAddr := indicateAddr, out := v.out ++ rowLabel indicateAddr }
  else v

def mark (used : Bool) : List Char := if used then [' ', 'X'] else [' ', '.']

/-- The message has a form feed for the `f` of `flash`. -/
def mapReadErr (addr : Nat) : List Char :=
  Char.ofNat 12 :: "lash read err! (#".toList ++ (hex 8 addr).map Char.toLower ++ " 4096)\n".toList

def Sfmu.sectors (flash : FlashFile) : (n j : Nat) → Sfmu → Except Fault (Int × List Char)
  | 0, _, v => .ok (0, v.out ++ ['\n'])
  | n + 1, j, v => do
    let v := v.indicate j
    let (status, pmem) ← flashRead (v.secpos * 4096 % 2 ^ 32) 4096 flash
    if status ≠ 0 then return (status, v.out ++ mapReadErr (v.secpos * 4096 % 2 ^ 32))
    Sfmu.sectors flash n (j + 1) { v with
      secpos := (v.secpos + 1) % 2 ^ 32
      out := v.out ++ mark (sectorUsed pmem 1024 0 0xFFFFFFFF) }

def sfmu (malloc : Bool) (startAddr sectors : Nat) (flash : FlashFile) :
    Except Fault (Int × List Char) :=
  if malloc then
    let startAddr := startAddr &&& (2 ^ 32 - 4096)
    Sfmu.sectors flash sectors 0 ⟨startAddr / 4096, startAddr, mapHeader⟩
  else .ok (-1, [])

section Reading

def readMarks : List Char → Option (List Bool)
  | [] => some []
  | c :: cs =>
    if c = ' ' then readMarks cs
    else if c = 'X' then (readMarks cs).map (true :: ·)
    else if c = '.' then (readMarks cs).map (false :: ·)
    else none

def readRow (cs : List Char) : Option (Nat × List Bool) :=
  if cs[8]? = some ':' then
    (readHex 0 (cs.take 8)).bind fun addr => (readMarks (cs.drop 9)).map (Prod.mk addr)
  else none

def readMap (text : List Char) : Option (List (Nat × List Bool)) :=
  if mapHeader.isPrefixOf text then
    ((text.drop mapHeader.length).splitOn '\n').tail.dropLast.mapM readRow
  else none

def SectorInUse (flash : FlashFile) (sector : Nat) : Prop :=
  ∃ k, k < 4096 ∧ flash.flashMem (4096 * sector + k : Nat) ≠ 0xff

instance (flash : FlashFile) (sector : Nat) : Decidable (SectorInUse flash sector) :=
  inferInstanceAs (Decidable (∃ k, k < 4096 ∧ _))

def usageRows (flash : FlashFile) (sector sectors : Nat) : List (Nat × List Bool) :=
  (List.range ((sectors + 15) / 16)).map fun r => (4096 * sector + r * 0x10000,
    (List.range (min 16 (sectors - 16 * r))).map fun i =>
      decide (SectorInUse flash (sector + (16 * r + i))))

end Reading

section Used

variable {pmem : List UInt8} {n i : Nat}

theorem word_ones {bs : List UInt8} (h : bs.length = 4) :
    0xFFFFFFFF &&& littleEndian bs = 0xFFFFFFFF ↔ ∀ b ∈ bs, b = 0xff := by
  have hlt : littleEndian bs < 2 ^ 32 := by
    calc littleEndian bs < 256 ^ bs.length := littleEndian_lt bs
      _ = 2 ^ 32 := by rw [h]; rfl
  rw [Nat.and_comm, show 0xFFFFFFFF = 2 ^ 32 - 1 from rfl, Nat.and_two_pow_sub_one_eq_mod,
    Nat.mod_eq_of_lt hlt]
  constructor
  · intro hones
    have hall : littleEndian bs = littleEndian (List.replicate 4 0xff) := hones.trans (by rfl)
    rw [littleEndian_inj (by rw [h]; rfl) hall]
    intro b hb
    exact List.eq_of_mem_replicate hb
  · intro hall
    rw [List.eq_replicate_of_mem hall, h]
    rfl

theorem sectorUsed_iff (h : 4 * (i + n) ≤ pmem.length) :
    sectorUsed pmem n i 0xFFFFFFFF = true ↔ ∃ b ∈ (pmem.drop (4 * i)).take (4 * n), b ≠ 0xff := by
  induction n generalizing i with
  | zero => simp [sectorUsed]
  | succ n ih =>
    have hword : ((pmem.drop (4 * i)).take 4).length = 4 := by
      rw [List.length_take, List.length_drop]
      omega
    have hsplit : (pmem.drop (4 * i)).take (4 * (n + 1)) =
        (pmem.drop (4 * i)).take 4 ++ (pmem.drop (4 * (i + 1))).take (4 * n) := by
      rw [show 4 * (n + 1) = 4 + 4 * n by omega, List.take_add, List.drop_drop, Nat.mul_succ]
    rw [sectorUsed, hsplit]
    by_cases hones : ∀ b ∈ (pmem.drop (4 * i)).take 4, b = 0xff
    · rw [(word_ones hword).mpr hones, if_neg (by simp), ih (by omega)]
      constructor
      · rintro ⟨b, hb, hne⟩
        exact ⟨b, List.mem_append_right _ hb, hne⟩
      · rintro ⟨b, hb, hne⟩
        rcases List.mem_append.mp hb with hb | hb
        · exact absurd (hones b hb) hne
        · exact ⟨b, hb, hne⟩
    · rw [if_pos (mt (word_ones hword).mp hones)]
      obtain ⟨b, hb, hne⟩ := not_forall₂.mp hones
      exact iff_of_true rfl ⟨b, List.mem_append_left _ hb, hne⟩

theorem sectorUsed_load (flash : FlashFile) (sector : Nat) :
    sectorUsed (load flash.flashMem (4096 * sector : Nat) 4096) 1024 0 0xFFFFFFFF =
      decide (SectorInUse flash sector) := by
  rw [Bool.eq_iff_iff, decide_eq_true_iff, sectorUsed_iff (by rw [load_length])]
  rw [Nat.mul_zero, List.drop_zero, List.take_of_length_le (by rw [load_length])]
  constructor
  · rintro ⟨b, hb, hne⟩
    obtain ⟨k, hk, rfl⟩ := List.mem_map.mp hb
    exact ⟨k, List.mem_range.mp hk, hne⟩
  · rintro ⟨k, hk, hne⟩
    exact ⟨_, List.mem_map.mpr ⟨k, List.mem_range.mpr hk, rfl⟩, hne⟩

end Used

section Text

def cellText (sector : Nat) (used : Nat → Bool) (j : Nat) : List Char :=
  (if j % 16 = 0 then rowLabel (4096 * sector + 65536 * (j / 16))
    else if j % 8 = 0 then [' '] else []) ++ mark (used j)

def rowText (sector sectors : Nat) (used : Nat → Bool) (r : Nat) : List Char :=
  hex 8 (4096 * sector + 65536 * r) ++ [':'] ++
    (List.range (min 16 (sectors - 16 * r))).flatMap fun i =>
      (if i = 8 then [' '] else []) ++ mark (used (16 * r + i))

variable {sector j n : Nat} {v : Sfmu} {flash : FlashFile}

theorem indicate_eq (haddr : v.indicateAddr = 4096 * sector + 65536 * ((j - 1) / 16))
    (hlt : 4096 * (sector + j) < 2 ^ 32) :
    v.indicate j = { v with
      indicateAddr := 4096 * sector + 65536 * (j / 16)
      out := v.out ++ if j % 16 = 0 then rowLabel (4096 * sector + 65536 * (j / 16))
        else if j % 8 = 0 then [' '] else [] } := by
  obtain ⟨secpos, indicateAddr, out⟩ := v
  dsimp only at haddr
  subst haddr
  unfold Sfmu.indicate
  by_cases hfirst : j = 0
  · subst hfirst
    rfl
  · rw [if_neg hfirst]
    by_cases hgap : j / 8 % 2 = 1 ∧ j % 8 = 0
    · rw [if_pos hgap, if_neg (by omega), if_pos hgap.2, show (j - 1) / 16 = j / 16 by omega]
    · rw [if_neg hgap]
      by_cases hrow : j % 16 = 0
      · rw [if_pos hrow, if_pos hrow]
        have hnext : (4096 * sector + 65536 * ((j - 1) / 16) + 4096 * 16) % 2 ^ 32 =
            4096 * sector + 65536 * (j / 16) := by
          rw [Nat.mod_eq_of_lt (by omega)]
          omega
        simp only [hnext]
      · rw [if_neg hrow, if_neg hrow, if_neg (by omega), List.append_nil,
          show (j - 1) / 16 = j / 16 by omega]

theorem sectors_eq (hflag : flash.flag = true) (hpos : v.secpos = sector + j)
    (haddr : v.indicateAddr = 4096 * sector + 65536 * ((j - 1) / 16))
    (hfits : ∀ k < n, 4096 * (sector + (j + k)) + 4096 ≤ flashSize) :
    Sfmu.sectors flash n j v = .ok (0, v.out ++ (List.range n).flatMap (fun k =>
      cellText sector (fun j => decide (SectorInUse flash (sector + j))) (j + k)) ++ ['\n']) := by
  induction n generalizing j v with
  | zero => simp [Sfmu.sectors]
  | succ n ih =>
    have hlimit : flashSize = 8388608 := rfl
    have hfirst : 4096 * (sector + j) + 4096 ≤ flashSize := hfits 0 (Nat.zero_lt_succ n)
    have hread : (v.indicate j).secpos * 4096 % 2 ^ 32 = 4096 * (sector + j) := by
      rw [indicate_eq haddr (by omega)]
      dsimp only
      rw [hpos, Nat.mul_comm, Nat.mod_eq_of_lt (by omega)]
    have hrest : ∀ k < n, 4096 * (sector + (j + 1 + k)) + 4096 ≤ flashSize := by
      intro k hk
      have := hfits (k + 1) (by omega)
      rwa [Nat.add_assoc j, Nat.add_comm 1]
    rw [Sfmu.sectors, hread]
    simp only [flashRead_ok hflag hfirst, sectorUsed_load, bind, Except.bind, ne_eq,
      not_true_eq_false, if_false]
    rw [indicate_eq haddr (by omega), ih _ _ hrest]
    · have hshift : ∀ k,
          cellText sector (fun j => decide (SectorInUse flash (sector + j))) (j + 1 + k) =
            cellText sector (fun j => decide (SectorInUse flash (sector + j))) (j + (k + 1)) := by
        intro k
        rw [Nat.add_assoc j, Nat.add_comm 1]
      rw [funext hshift, List.range_succ_eq_map, List.flatMap_cons, List.flatMap_map]
      simp only [Nat.add_zero, cellText, List.append_assoc, Nat.succ_eq_add_one]
    · dsimp only
      rw [hpos, Nat.mod_eq_of_lt (by omega), Nat.add_assoc]
    · rfl

theorem row_cells (sector sectors : Nat) (used : Nat → Bool) {r : Nat} (h : 16 * r < sectors) :
    (List.range (min 16 (sectors - 16 * r))).flatMap (fun i => cellText sector used (16 * r + i)) =
      '\n' :: rowText sector sectors used r := by
  obtain ⟨m, hm⟩ : ∃ m, min 16 (sectors - 16 * r) = m + 1 :=
    ⟨min 16 (sectors - 16 * r) - 1, by omega⟩
  have hcell : ∀ i ∈ List.range m, cellText sector used (16 * r + (i + 1)) =
      (if i + 1 = 8 then [' '] else []) ++ mark (used (16 * r + (i + 1))) := by
    intro i hi
    have hlt := List.mem_range.mp hi
    rw [cellText, if_neg (by omega)]
    congr 1
    exact if_congr (by omega) rfl rfl
  rw [rowText, hm, List.range_succ_eq_map, List.flatMap_cons, List.flatMap_cons, List.flatMap_map,
    List.flatMap_map, List.flatMap_congr hcell, cellText, if_pos (by omega),
    show (16 * r + 0) / 16 = r by omega, if_neg (by decide)]
  simp [rowLabel]

theorem map_cells (sector sectors : Nat) (used : Nat → Bool) :
    (List.range sectors).flatMap (cellText sector used) =
      ((List.range ((sectors + 15) / 16)).map (rowText sector sectors used)).flatMap
        ('\n' :: ·) := by
  have hcover : sectors ≤ 16 * ((sectors + 15) / 16) := by omega
  rw [← flatMap_rows (cellText sector used) hcover, List.flatMap_map]
  apply List.flatMap_congr
  intro r hr
  have hlt := List.mem_range.mp hr
  exact row_cells sector sectors used (by omega)

theorem sfmu_ok (hflag : flash.flag = true) {startAddr sectors : Nat} (hstart : startAddr < 2 ^ 32)
    (hfits : ∀ k < sectors, 4096 * (startAddr / 4096 + k) + 4096 ≤ flashSize) :
    sfmu true startAddr sectors flash = .ok (0, mapHeader ++
      (((List.range ((sectors + 15) / 16)).map (rowText (startAddr / 4096) sectors fun j =>
        decide (SectorInUse flash (startAddr / 4096 + j)))).flatMap ('\n' :: ·) ++ ['\n'])) := by
  have haddr : startAddr &&& (2 ^ 32 - 4096) = 4096 * (startAddr / 4096) := by
    rw [show 2 ^ 32 - 4096 = 2 ^ 32 - 2 ^ 12 from rfl, Bits.and_high hstart (by decide),
      show 2 ^ 12 = 4096 from rfl, Nat.mul_comm]
  have hloop := @sectors_eq (startAddr / 4096) 0 sectors
    ⟨startAddr / 4096, 4096 * (startAddr / 4096), mapHeader⟩ flash hflag rfl rfl
    (by simpa only [Nat.zero_add] using hfits)
  simp only [Nat.zero_add] at hloop
  rw [map_cells] at hloop
  simp only [sfmu, if_true, haddr, Nat.mul_div_cancel_left _ (show 0 < 4096 by decide)]
  rw [hloop, List.append_assoc]

end Text

section Decoding

variable (sector sectors : Nat) (used : Nat → Bool) (r : Nat)

theorem readMarks_append (cs ds : List Char) : readMarks (cs ++ ds) =
    (readMarks cs).bind fun marks => (readMarks ds).map (marks ++ ·) := by
  induction cs with
  | nil => simp [readMarks]
  | cons c cs ih =>
    simp only [List.cons_append, readMarks, ih]
    split
    · rfl
    · split
      · cases readMarks cs <;> cases readMarks ds <;> rfl
      · split
        · cases readMarks cs <;> cases readMarks ds <;> rfl
        · rfl

theorem readMarks_mark (used : Bool) : readMarks (mark used) = some [used] := by
  cases used <;> rfl

theorem readMarks_cells (gap : Nat → Bool) (is : List Nat) :
    readMarks (is.flatMap fun i => (if gap i then [' '] else []) ++ mark (used i)) =
      some (is.map used) := by
  induction is with
  | nil => rfl
  | cons i is ih =>
    have hcell : readMarks ((if gap i then [' '] else []) ++ mark (used i)) = some [used i] := by
      rw [readMarks_append, readMarks_mark]
      cases gap i <;> rfl
    rw [List.flatMap_cons, readMarks_append, hcell, ih]
    rfl

variable {sector sectors r}

theorem readRow_rowText (h : 4096 * sector + 65536 * r < 2 ^ 32) :
    readRow (rowText sector sectors used r) = some (4096 * sector + r * 0x10000,
      (List.range (min 16 (sectors - 16 * r))).map fun i => used (16 * r + i)) := by
  have hlabel := hex_length 8 (4096 * sector + 65536 * r)
  have hcells := readMarks_cells (fun i => used (16 * r + i)) (fun i => decide (i = 8))
    (List.range (min 16 (sectors - 16 * r)))
  simp only [decide_eq_true_eq] at hcells
  unfold rowText readRow
  rw [List.append_assoc, List.getElem?_append_right (Nat.le_of_eq hlabel), hlabel,
    List.take_left' hlabel, readHex_hex h, ← List.append_assoc,
    List.drop_left' (by rw [List.length_append, hlabel]; rfl), hcells, Nat.mul_comm r]
  rfl

theorem newline_not_mem_row : '\n' ∉ rowText sector sectors used r := by
  unfold rowText
  rw [List.mem_append, List.mem_append]
  rintro ((h | h) | h)
  · exact newline_not_mem_hex _ _ h
  · exact absurd h (by decide)
  · obtain ⟨i, -, hi⟩ := List.mem_flatMap.mp h
    revert hi
    cases used (16 * r + i) <;> split <;> decide

theorem readMap_rows {rows : List (List Char)} (h : ∀ row ∈ rows, '\n' ∉ row) :
    readMap (mapHeader ++ (rows.flatMap ('\n' :: ·) ++ ['\n'])) = rows.mapM readRow := by
  have hheader : mapHeader.isPrefixOf (mapHeader ++ (rows.flatMap ('\n' :: ·) ++ ['\n'])) = true :=
    List.isPrefixOf_iff_prefix.mpr (List.prefix_append _ _)
  have hlines := splitOn_lines (List.not_mem_nil (a := '\n')) h
  rw [List.nil_append] at hlines
  rw [readMap, if_pos hheader, List.drop_left, hlines, List.tail_cons, List.dropLast_concat]

end Decoding

/-- The map reads back as the usage of the sectors. -/
theorem sfmu_reads_back (flash : FlashFile) (hflag : flash.flag = true) (startAddr : Nat)
    (hstart : startAddr < 2 ^ 32) (sectors : Nat)
    (hfits : ∀ k < sectors, 4096 * (startAddr / 4096 + k) + 4096 ≤ flashSize) :
    ∃ text, sfmu true startAddr sectors flash = .ok (0, text) ∧
      readMap text = some (usageRows flash (startAddr / 4096) sectors) := by
  refine ⟨_, sfmu_ok hflag hstart hfits, ?_⟩
  rw [readMap_rows, List.mapM_map]
  · apply mapM_some
    intro r hr
    have hlimit : flashSize = 8388608 := rfl
    have hlt := List.mem_range.mp hr
    have hlast := hfits (16 * r) (by omega)
    rw [Function.comp_apply]
    exact readRow_rowText _ (by omega)
  · intro row hrow
    obtain ⟨r, -, rfl⟩ := List.mem_map.mp hrow
    exact newline_not_mem_row _

theorem used_map_reads_back :
    ∃ text, sfmu true 0 17 ⟨fun a => if a = 4100 then 7 else 0xff, true⟩ = .ok (0, text) ∧
      readMap text = some (usageRows ⟨fun a => if a = 4100 then 7 else 0xff, true⟩ 0 17) :=
  sfmu_reads_back ⟨fun a => if a = 4100 then 7 else 0xff, true⟩ rfl 0 (by decide) 17 (by decide)

end Mangoxx.CmdMem
