import Mangoxx.Lib.Loop
import Mangoxx.Spiffs.FlashDevice

/-! The flash is loaded from an image file and saved to it by loops that ask for 4096 bytes at a
time; how many a call transfers is up to the operating system. -/

namespace Mangoxx.Spiffs

open Mangoxx.Lib Mangoxx.Lib.Memory

/-- How many bytes the calls of a loop transfer, one after the other, where the file has as many. -/
structure Schedule where
  count : Nat → Nat
  pos : ∀ k, 0 < count k
  le : ∀ k, count k ≤ 4096

structure Host where
  flash : FlashFile
  file : List UInt8
  touched : List (Int × Nat)

structure Transfer where
  k : Nat
  n : Nat
  mem : Memory UInt8
  file : List UInt8
  touched : List (Int × Nat)

def Transfer.afterRead (v : Transfer) (br : Nat) : Transfer where
  k := v.k + 1
  n := v.n + br
  mem := store v.mem v.n ((v.file.drop v.n).take br)
  file := v.file
  touched := v.touched ++ [((v.n : Int), br)]

def Transfer.afterWrite (v : Transfer) (bw : Nat) : Transfer where
  k := v.k + 1
  n := v.n + bw
  mem := v.mem
  file := v.file.take v.n ++ load v.mem v.n bw ++ v.file.drop (v.n + bw)
  touched := v.touched ++ [((v.n : Int), bw)]

/-- `while ((br = read(fd, flash_mem + n, 4096)))`; a read gives 0 only at the end of the file. -/
def readTurn (sched : Schedule) (v : Transfer) : Turn Transfer Transfer :=
  let br := min (sched.count v.k) (v.file.length - v.n)
  if br = 0 then .stop v
  else if v.n + br ≥ flashSize then .stop (v.afterRead br)
  else .again (v.afterRead br)

def writeTurn (sched : Schedule) (v : Transfer) : Turn Transfer Transfer :=
  let bw := sched.count v.k
  if bw = 0 then .stop v
  else if v.n + bw ≥ flashSize then .stop (v.afterWrite bw)
  else .again (v.afterWrite bw)

def flashInit (fuel : Nat) (sched : Schedule) (block : Memory UInt8) (h : Host) :
    Option (Int × Host) :=
  if h.flash.flag then some (0, h)
  else (Loop.iterate (readTurn sched) fuel ⟨0, 0, block, h.file, h.touched⟩).map fun v =>
    (0, ⟨⟨v.mem, true⟩, v.file, v.touched⟩)

def flashFlush (fuel : Nat) (sched : Schedule) (h : Host) : Option (Int × Host) :=
  if h.flash.flag = false then some (-1, h)
  else
    (Loop.iterate (writeTurn sched) fuel ⟨0, 0, h.flash.flashMem, h.file, h.touched⟩).map fun v =>
      (0, ⟨⟨v.mem, true⟩, v.file, v.touched⟩)

def flashExit (fuel : Nat) (sched : Schedule) (h : Host) : Option (Int × Host) :=
  if h.flash.flag = false then some (0, h)
  else
    (Loop.iterate (writeTurn sched) fuel ⟨0, 0, h.flash.flashMem, h.file, h.touched⟩).map fun v =>
      (0, ⟨⟨v.mem, false⟩, v.file, v.touched⟩)

def InRange (blocks : List (Int × Nat)) : Prop := ∀ b ∈ blocks, Within 0 flashSize b.1 b.2

namespace Schedule

def moved (sched : Schedule) : Nat → Nat
  | 0 => 0
  | k + 1 => sched.moved k + sched.count k

variable (sched : Schedule)

def Hits : Prop := ∃ k, sched.moved k = flashSize

theorem moved_succ (k : Nat) : sched.moved (k + 1) = sched.moved k + sched.count k := rfl

theorem moved_mono {j k : Nat} (h : j ≤ k) : sched.moved j ≤ sched.moved k := by
  induction h with
  | refl => exact Nat.le_refl _
  | step _ ih =>
    rw [Nat.succ_eq_add_one, moved_succ]
    omega

/-- Only the call that passes the end can reach it exactly. -/
theorem hits_iff {k : Nat} (h : sched.moved k < flashSize) (h' : flashSize ≤ sched.moved (k + 1)) :
    sched.Hits ↔ sched.moved (k + 1) = flashSize := by
  constructor
  · rintro ⟨j, hj⟩
    have hlow : k < j := by
      by_contra hle
      have hmono := sched.moved_mono (Nat.le_of_not_lt hle)
      omega
    have hsucc : k + 1 ≤ j := hlow
    have hmono := sched.moved_mono hsucc
    omega
  · exact fun heq => ⟨k + 1, heq⟩

end Schedule

theorem inRange_snoc (blocks : List (Int × Nat)) (n m : Nat) :
    InRange (blocks ++ [((n : Int), m)]) ↔ InRange blocks ∧ (m = 0 ∨ n + m ≤ flashSize) := by
  simp only [InRange, List.mem_append, List.mem_singleton, or_imp, forall_and, forall_eq,
    within_iff]
  refine and_congr_right fun _ => or_congr_right ?_
  omega

structure Saving (sched : Schedule) (mem : Memory UInt8) (v : Transfer) : Prop where
  mem_eq : v.mem = mem
  n_eq : v.n = sched.moved v.k
  more : v.n < flashSize
  saved : v.file.take v.n = load mem 0 v.n
  touched : InRange v.touched

structure Saved (sched : Schedule) (mem : Memory UInt8) (v : Transfer) : Prop where
  mem_eq : v.mem = mem
  saved : v.file.take flashSize = load mem 0 flashSize
  touched : InRange v.touched ↔ sched.Hits

theorem take_of_take {xs ys : List UInt8} (h : xs.take n = ys.take n) (hm : m ≤ n) :
    xs.take m = ys.take m := by
  have := congrArg (List.take m) h
  rwa [List.take_take, List.take_take, Nat.min_eq_left hm] at this

theorem Saving.ends {sched : Schedule} {mem : Memory UInt8} {v : Transfer}
    (h : Saving sched mem v) :
    ∃ v', Loop.Ends (writeTurn sched) v v' ∧ Saved sched mem v' := by
  induction hleft : flashSize - v.n using Nat.strongRecOn generalizing v with
  | ind left ih =>
    obtain ⟨hmem, hn, hmore, hsaved, htouched⟩ := h
    have hpos := sched.pos v.k
    have hlength : v.n ≤ v.file.length := by
      have := congrArg List.length hsaved
      rw [List.length_take, load_length] at this
      omega
    have hnext : sched.moved (v.k + 1) = v.n + sched.count v.k := by rw [sched.moved_succ, hn]
    have hfile : (v.afterWrite (sched.count v.k)).file.take (v.n + sched.count v.k) =
        load mem 0 (v.n + sched.count v.k) := by
      rw [Transfer.afterWrite, hsaved, hmem, load_add, Int.zero_add, List.take_left' (by simp)]
    have hblocks := inRange_snoc v.touched v.n (sched.count v.k)
    by_cases hend : v.n + sched.count v.k ≥ flashSize
    · refine ⟨v.afterWrite (sched.count v.k), ?_, hmem, ?_, ?_⟩
      · apply Loop.ends_stop
        rw [writeTurn, if_neg (by omega), if_pos hend]
      · have hwhole : load mem 0 (v.n + sched.count v.k) =
            (load mem 0 (v.n + sched.count v.k)).take (v.n + sched.count v.k) :=
          (List.take_of_length_le (by simp)).symm
        have htake := take_of_take (hfile.trans hwhole) hend
        rw [htake, ← load_take mem 0 hend]
      · rw [sched.hits_iff (k := v.k) (by omega) (by omega)]
        exact hblocks.trans ⟨fun hb => by omega, fun heq => ⟨htouched, by omega⟩⟩
    · obtain ⟨v', hends, hsaved'⟩ := ih _ (by dsimp only [Transfer.afterWrite]; omega)
        (v := v.afterWrite (sched.count v.k))
        ⟨hmem, hnext.symm, Nat.lt_of_not_le hend, hfile, hblocks.mpr ⟨htouched, by omega⟩⟩ rfl
      refine ⟨v', hends.again ?_, hsaved'⟩
      rw [writeTurn, if_neg (by omega), if_neg hend]

structure Loading (sched : Schedule) (file : List UInt8) (v : Transfer) : Prop where
  file_eq : v.file = file
  n_eq : v.n = sched.moved v.k ∨ v.n = file.length
  le : v.n ≤ file.length
  more : v.n < flashSize
  loaded : load v.mem 0 v.n = file.take v.n
  touched : InRange v.touched

structure Loaded (sched : Schedule) (file : List UInt8) (v : Transfer) : Prop where
  file_eq : v.file = file
  loaded : load v.mem 0 (min flashSize file.length) = file.take flashSize
  touched : InRange v.touched ↔ file.length ≤ flashSize ∨ sched.Hits

theorem load_afterRead {v : Transfer} {br : Nat} (h : load v.mem 0 v.n = v.file.take v.n)
    (hbr : v.n + br ≤ v.file.length) :
    load (v.afterRead br).mem 0 (v.n + br) = v.file.take (v.n + br) := by
  have hdata : ((v.file.drop v.n).take br).length = br := by
    rw [List.length_take, List.length_drop]
    omega
  have hself := load_store_self v.mem v.n ((v.file.drop v.n).take br)
  rw [hdata] at hself
  rw [Transfer.afterRead, load_add, load_store_of_disjoint _ (.inl (by omega)),
    Int.zero_add, hself, h, List.take_add]

theorem Loading.ends {sched : Schedule} {file : List UInt8} {v : Transfer}
    (h : Loading sched file v) :
    ∃ v', Loop.Ends (readTurn sched) v v' ∧ Loaded sched file v' := by
  induction hleft : flashSize - v.n using Nat.strongRecOn generalizing v with
  | ind left ih =>
    obtain ⟨rfl, hn, hle, hmore, hloaded, htouched⟩ := h
    have hpos := sched.pos v.k
    obtain ⟨br, hbr⟩ : ∃ br, br = min (sched.count v.k) (v.file.length - v.n) := ⟨_, rfl⟩
    by_cases hzero : br = 0
    · -- the end of the file
      have hlength : v.n = v.file.length := by omega
      refine ⟨v, Loop.ends_stop (by rw [readTurn, ← hbr, if_pos hzero]), rfl, ?_, ?_⟩
      · rw [← hlength, Nat.min_eq_right (Nat.le_of_lt hmore), hloaded, hlength, List.take_length,
          List.take_of_length_le (by omega)]
      · exact iff_of_true htouched (.inl (by omega))
    · have hmoved : v.n = sched.moved v.k := by omega
      have hnext : sched.moved (v.k + 1) = v.n + sched.count v.k := by
        rw [sched.moved_succ, hmoved]
      have hload := @load_afterRead v br hloaded (by omega)
      have hblocks := inRange_snoc v.touched v.n br
      by_cases hend : v.n + br ≥ flashSize
      · refine ⟨v.afterRead br, ?_, rfl, ?_, ?_⟩
        · apply Loop.ends_stop
          rw [readTurn, ← hbr, if_neg hzero, if_pos hend]
        · rw [Nat.min_eq_left (by omega), load_take _ 0 hend, hload, List.take_take,
            Nat.min_eq_left hend]
        · rw [sched.hits_iff (k := v.k) (by omega) (by omega)]
          exact hblocks.trans ⟨fun hb => by omega, fun hor => ⟨htouched, by omega⟩⟩
      · obtain ⟨v', hends, hloaded'⟩ := ih _ (by dsimp only [Transfer.afterRead]; omega)
          (v := v.afterRead br)
          ⟨rfl, by dsimp only [Transfer.afterRead]; omega,
            by dsimp only [Transfer.afterRead]; omega,
            Nat.lt_of_not_le hend, hload, hblocks.mpr ⟨htouched, by omega⟩⟩ rfl
        refine ⟨v', hends.again ?_, hloaded'⟩
        rw [readTurn, ← hbr, if_neg hzero, if_neg hend]

theorem flashSize_pos : 0 < flashSize := by decide

section Image

variable (sched : Schedule) (mem block : Memory UInt8) (file : List UInt8)

theorem flashInit_ends :
    ∃ fuel h, flashInit fuel sched block ⟨⟨mem, false⟩, file, []⟩ = some (0, h) ∧
      h.flash.flag = true ∧ h.file = file ∧
      load h.flash.flashMem 0 (min flashSize file.length) = file.take flashSize ∧
      (InRange h.touched ↔ file.length ≤ flashSize ∨ sched.Hits) := by
  have hstart : Loading sched file ⟨0, 0, block, file, []⟩ :=
    ⟨rfl, .inl rfl, Nat.zero_le _, flashSize_pos, rfl, fun b hb => absurd hb List.not_mem_nil⟩
  obtain ⟨v, ⟨fuel, hends⟩, hloaded⟩ := hstart.ends
  refine ⟨fuel, ⟨⟨v.mem, true⟩, v.file, v.touched⟩, ?_, rfl, hloaded.file_eq, hloaded.loaded,
    hloaded.touched⟩
  simp [flashInit, hends]

theorem write_ends :
    ∃ fuel v, Loop.iterate (writeTurn sched) fuel ⟨0, 0, mem, file, []⟩ = some v ∧
      v.file.take flashSize = load mem 0 flashSize ∧ (InRange v.touched ↔ sched.Hits) := by
  have hstart : Saving sched mem ⟨0, 0, mem, file, []⟩ :=
    ⟨rfl, rfl, flashSize_pos, rfl, fun b hb => absurd hb List.not_mem_nil⟩
  obtain ⟨v, ⟨fuel, hends⟩, hsaved⟩ := hstart.ends
  exact ⟨fuel, v, hends, hsaved.saved, hsaved.touched⟩

theorem flashFlush_ends :
    ∃ fuel h, flashFlush fuel sched ⟨⟨mem, true⟩, file, []⟩ = some (0, h) ∧
      (InRange h.touched ↔ sched.Hits) := by
  obtain ⟨fuel, v, hends, -, htouched⟩ := write_ends sched mem file
  exact ⟨fuel, ⟨⟨v.mem, true⟩, v.file, v.touched⟩, by simp [flashFlush, hends], htouched⟩

theorem flashExit_ends :
    ∃ fuel h, flashExit fuel sched ⟨⟨mem, true⟩, file, []⟩ = some (0, h) ∧
      h.flash.flag = false ∧ h.file.take flashSize = load mem 0 flashSize ∧
      (InRange h.touched ↔ sched.Hits) := by
  obtain ⟨fuel, v, hends, hsaved, htouched⟩ := write_ends sched mem file
  exact ⟨fuel, ⟨⟨v.mem, false⟩, v.file, v.touched⟩, by simp [flashExit, hends], rfl,
    hsaved, htouched⟩

end Image

/-- `flash_init` stays inside the memory exactly if the file is not longer than the flash or the
transfers reach the end of the flash exactly, `flash_flush` and `flash_exit` exactly in the second
case.  An exit followed by an init restores the flash in any case. -/
theorem image_iff (sched sched' : Schedule) (mem block : Memory UInt8) (file : List UInt8) :
    (∃ fuel h, flashInit fuel sched block ⟨⟨mem, false⟩, file, []⟩ = some (0, h) ∧
      (InRange h.touched ↔ file.length ≤ flashSize ∨ sched.Hits)) ∧
    (∃ fuel h, flashFlush fuel sched ⟨⟨mem, true⟩, file, []⟩ = some (0, h) ∧
      (InRange h.touched ↔ sched.Hits)) ∧
    ∃ fuel h fuel' h', flashExit fuel sched ⟨⟨mem, true⟩, file, []⟩ = some (0, h) ∧
      (InRange h.touched ↔ sched.Hits) ∧
      flashInit fuel' sched' block { h with touched := [] } = some (0, h') ∧
      ∀ a : Nat, a < flashSize → h'.flash.flashMem a = mem a := by
  refine ⟨?_, flashFlush_ends sched mem file, ?_⟩
  · obtain ⟨fuel, h, hinit, -, -, -, htouched⟩ := flashInit_ends sched mem block file
    exact ⟨fuel, h, hinit, htouched⟩
  · obtain ⟨fuel, ⟨⟨mem', flag⟩, file', touched⟩, hexit, hflag, hsaved, htouched⟩ :=
      flashExit_ends sched mem file
    dsimp only at hflag hsaved htouched
    subst hflag
    obtain ⟨fuel', h', hinit, -, -, hloaded, -⟩ := flashInit_ends sched' mem' block file'
    refine ⟨fuel, _, fuel', h', hexit, htouched, hinit, fun a ha => ?_⟩
    have hlength := congrArg List.length hsaved
    rw [List.length_take, load_length] at hlength
    rw [hlength, hsaved] at hloaded
    have hbyte := congrArg (·[a]?) hloaded
    simpa [load, ha] using hbyte

def shortFirst : Schedule where
  count k := if k = 0 then 1 else 4096
  pos k := by split <;> decide
  le k := by split <;> decide

theorem shortFirst_moved (k : Nat) : shortFirst.moved (k + 1) = 1 + 4096 * k := by
  induction k with
  | zero => rfl
  | succ k ih =>
    rw [Schedule.moved_succ, ih, shortFirst]
    dsimp only
    rw [if_neg (Nat.succ_ne_zero k)]
    omega

theorem shortFirst_overruns :
    ∃ fuel h, flashExit fuel shortFirst ⟨⟨fun _ => 0xff, true⟩, [], []⟩ = some (0, h) ∧
      ¬ InRange h.touched := by
  obtain ⟨fuel, h, hexit, -, -, htouched⟩ := flashExit_ends shortFirst (fun _ => 0xff) []
  refine ⟨fuel, h, hexit, ?_⟩
  rw [htouched]
  rintro ⟨k, hk⟩
  cases k with
  | zero => exact absurd hk (by decide)
  | succ k =>
    rw [shortFirst_moved, flashSize] at hk
    omega

end Mangoxx.Spiffs
