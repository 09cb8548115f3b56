import Mangoxx.Lib.CInt
import Mangoxx.Lib.History
import Mangoxx.Lib.Memory

/-! The frame buffer of `fb_io.h`: a ring buffer whose end can be moved for one block so that a DMA
transfer stays contiguous.  `head = tail` stands for both empty and full. -/

namespace Mangoxx.Jpge

open Mangoxx.Lib Mangoxx.Lib.CInt Mangoxx.Lib.Memory

/-- `struct fb_io`; the memory at `buf` is kept beside it.  All fields are `int`: those that no
function changes are in the range of the type, and the others hold what `int32` makes of a sum. -/
structure FbIo where
  size : Int
  realSize : Int
  extraSize : Int
  head : Int
  tail : Int
  len : Int
  size_inRange : InRange size
  extraSize_inRange : InRange extraSize
  deriving DecidableEq

def fbIoClear (io : FbIo) : FbIo := { io with len := 0, tail := 0, head := 0, realSize := io.size }

def fbIoSpaceLen (io : FbIo) : Int := int32 (io.realSize - io.len)

def fbIoSpaceTailLen (io : FbIo) : Int :=
  if io.head > io.tail then int32 (io.realSize - io.head) else int32 (io.realSize - io.len)

def fbIoDataLen (io : FbIo) : Int :=
  if io.head ≤ io.tail ∧ io.len > 0 then int32 (io.realSize - io.tail) else io.len

def fbIoIncTail (io : FbIo) (n : Int) : Int × FbIo :=
  if int32 (io.len - n) < 0 then (-1, io)
  else
    let io := { io with tail := int32 (io.tail + n) }
    let io := if io.tail ≥ io.realSize then { io with tail := 0, realSize := io.size } else io
    (n, { io with len := int32 (io.len - n) })

def fbIoIncHead (io : FbIo) (n : Int) : Int × FbIo :=
  if int32 (io.len + n) > io.realSize then (-1, io)
  else
    let io := { io with head := int32 (io.head + n) }
    let io := if io.head ≥ io.realSize then { io with head := 0 } else io
    (n, { io with len := int32 (io.len + n) })

def fbIoResize (io : FbIo) (n : Int) : FbIo :=
  if int32 (io.head + n) > io.size ∧ int32 (io.head + n) < int32 (io.size + io.extraSize) then
    { io with realSize := int32 (io.head + n) }
  else io

/-- A buffer between a producer and a consumer, with all bytes they have stored and read. -/
structure Ring where
  io : FbIo
  mem : Memory UInt8
  produced : List UInt8
  consumed : List UInt8

namespace Ring

def start (io : FbIo) (mem : Memory UInt8) : Ring := ⟨fbIoClear io, mem, [], []⟩

def small : Ring := start ⟨4, 4, 4, 0, 0, 0, by decide, by decide⟩ fun _ => 0

def produce (s : Ring) (data : List UInt8) : Ring where
  io := (fbIoIncHead s.io data.length).2
  mem := store s.mem s.io.head data
  produced := s.produced ++ data
  consumed := s.consumed

def consume (s : Ring) (n : Nat) : Ring where
  io := (fbIoIncTail s.io n).2
  mem := s.mem
  produced := s.produced
  consumed := s.consumed ++ load s.mem s.io.tail n

def resize (s : Ring) (n : Nat) : Ring := { s with io := fbIoResize s.io n }

inductive Op
  | put (data : List UInt8)
  | get (n : Nat)
  deriving DecidableEq

end Ring

section Layout

/-- Where the unread bytes `q` lie: in one piece, or in an older piece up to the end of the buffer
and a newer one from its start on.  In the last case the reader has just taken everything up to
the end while the writer still stands there. -/
inductive Layout (io : FbIo) (mem : Memory UInt8) : List UInt8 → Prop
  | straight (q : List UInt8) (htail : 0 ≤ io.tail) (hlt : io.tail < io.size)
      (hhead : io.head = io.tail + q.length) (hle : io.head ≤ io.size)
        (hreal : io.realSize = io.size)
      (hlen : io.len = q.length) (hload : load mem io.tail q.length = q) : Layout io mem q
  | wrapped (older newer : List UInt8) (hnewer : io.head = newer.length) (hle : io.head ≤ io.size)
      (horder : io.head ≤ io.tail) (hlt : io.tail < io.realSize)
      (holder : io.realSize = io.tail + older.length)
      (hlen : io.len = older.length + newer.length) (hload : load mem io.tail older.length = older)
      (hload' : load mem 0 newer.length = newer) : Layout io mem (older ++ newer)
  | apart (htail : io.tail = 0) (hhead : io.head = io.size) (hreal : io.realSize = io.size)
      (hlen : io.len = 0) : Layout io mem []

structure Inv (size extra : Int) (s : Ring) : Prop where
  size_eq : s.io.size = size
  extra_eq : s.io.extraSize = extra
  real : s.io.realSize = size ∨
    size < s.io.realSize ∧ s.io.realSize < size + extra ∧ size + extra < 2 ^ 31
  unread : ∃ q, Layout s.io s.mem q ∧ s.produced = s.consumed ++ q

theorem fbIoIncTail_accepts {io : FbIo} {n : Nat} (h : (n : Int) ≤ io.len) (htail : 0 ≤ io.tail)
    (hlen : io.len < 2 ^ 31) (hend : io.tail + n < 2 ^ 31) :
    fbIoIncTail io n = ((n : Int), if io.realSize ≤ io.tail + n then
      { io with tail := 0, realSize := io.size, len := io.len - n }
      else { io with tail := io.tail + n, len := io.len - n }) := by
  have hlen' : int32 (io.len - n) = io.len - n := int32_eq ⟨by omega, by omega⟩
  have htail' : int32 (io.tail + n) = io.tail + n := int32_eq ⟨by omega, by omega⟩
  rw [fbIoIncTail, hlen', htail', if_neg (by omega)]
  by_cases hend : io.realSize ≤ io.tail + n <;> simp [hend, hlen']

theorem fbIoIncHead_accepts {io : FbIo} {n : Nat} (h : io.len + n ≤ io.realSize) (hlen : 0 ≤ io.len)
    (hreal : io.realSize < 2 ^ 31) (hhead : 0 ≤ io.head) (hend : io.head + n < 2 ^ 31) :
    fbIoIncHead io n = ((n : Int), if io.realSize ≤ io.head + n then
      { io with head := 0, len := io.len + n }
      else { io with head := io.head + n, len := io.len + n }) := by
  have hlen' : int32 (io.len + n) = io.len + n := int32_eq ⟨by omega, by omega⟩
  have hhead' : int32 (io.head + n) = io.head + n := int32_eq ⟨by omega, by omega⟩
  rw [fbIoIncHead, hlen', hhead', if_neg (by omega)]
  by_cases hend : io.realSize ≤ io.head + n <;> simp [hend, hlen']

variable {io : FbIo} {mem : Memory UInt8} {q : List UInt8}

theorem Layout.ranges (h : Layout io mem q) (hsize : 0 < io.size) (hreal : io.realSize < 2 ^ 31) :
    0 ≤ io.tail ∧ io.tail < io.realSize ∧ 0 ≤ io.head ∧ io.head ≤ io.size ∧
      io.len = q.length ∧ io.len ≤ io.realSize := by
  cases h with
  | straight _ htail hlt hhead hle hreal hlen hload =>
    exact ⟨htail, by omega, by omega, hle, hlen, by omega⟩
  | wrapped older newer hnewer hle horder hlt holder hlen hload hload' =>
    rw [List.length_append]
    exact ⟨by omega, hlt, by omega, hle, by omega, by omega⟩
  | apart htail hhead hreal hlen =>
    exact ⟨by omega, by omega, by omega, by omega, hlen, by omega⟩

theorem Layout.dataLen (h : Layout io mem q) (hsize : 0 < io.size) (hreal : io.realSize < 2 ^ 31) :
    fbIoDataLen io = if io.head ≤ io.tail ∧ io.len > 0 then io.realSize - io.tail else io.len := by
  obtain ⟨htail, hlt, -⟩ := h.ranges hsize hreal
  have hrange : int32 (io.realSize - io.tail) = io.realSize - io.tail :=
    int32_eq ⟨by omega, by omega⟩
  rw [fbIoDataLen, hrange]

theorem Layout.spaceLen (h : Layout io mem q) (hsize : 0 < io.size) (hreal : io.realSize < 2 ^ 31) :
    fbIoSpaceLen io = io.realSize - io.len := by
  obtain ⟨-, -, -, -, hq, hlen⟩ := h.ranges hsize hreal
  exact int32_eq ⟨by omega, by omega⟩

/-- What `fb_io_data_len` promises is contiguous and unread. -/
theorem Layout.read (h : Layout io mem q) (hsize : 0 < io.size) (hrange : io.realSize < 2 ^ 31)
    {n : Nat} (hn : (n : Int) ≤ fbIoDataLen io) :
    load mem io.tail n = q.take n ∧ n ≤ q.length ∧ (n : Int) ≤ io.len ∧ 0 ≤ io.tail ∧
      io.tail + n ≤ io.realSize := by
  rw [h.dataLen hsize hrange] at hn
  cases h with
  | straight _ htail hlt hhead hle hreal hlen hload =>
    have hnq : n ≤ q.length := by
      split at hn <;> omega
    rw [load_take mem io.tail hnq, hload]
    exact ⟨rfl, hnq, by omega, htail, by omega⟩
  | wrapped older newer hnewer hle horder hlt holder hlen hload hload' =>
    rw [if_pos ⟨horder, by omega⟩] at hn
    have hnq : n ≤ older.length := by omega
    rw [load_take mem io.tail hnq, hload, List.take_append_of_le_length hnq, List.length_append]
    exact ⟨rfl, by omega, by omega, by omega, by omega⟩
  | apart htail hhead hreal hlen =>
    rw [if_neg (by omega)] at hn
    have hzero : n = 0 := by omega
    subst hzero
    exact ⟨rfl, Nat.le_refl 0, by omega, by omega, by omega⟩

theorem Layout.incTail_eq (h : Layout io mem q) (hsize : 0 < io.size)
    (hrange : io.realSize < 2 ^ 31) {n : Nat} (hn : (n : Int) ≤ fbIoDataLen io) :
    fbIoIncTail io n = ((n : Int), if io.realSize ≤ io.tail + n then
      { io with tail := 0, realSize := io.size, len := io.len - n }
      else { io with tail := io.tail + n, len := io.len - n }) := by
  obtain ⟨-, -, hnlen, htail, hend⟩ := h.read hsize hrange hn
  obtain ⟨-, -, -, -, -, hlen⟩ := h.ranges hsize hrange
  exact fbIoIncTail_accepts hnlen htail (by omega) (by omega)

theorem Layout.incTail (h : Layout io mem q) (hsize : 0 < io.size) (hrange : io.realSize < 2 ^ 31)
    {n : Nat} (hn : (n : Int) ≤ fbIoDataLen io) :
    Layout (fbIoIncTail io n).2 mem (q.drop n) := by
  obtain ⟨-, hnq, hnlen, -, hend⟩ := h.read hsize hrange hn
  rw [h.incTail_eq hsize hrange hn]
  cases h with
  | straight _ htail hlt hhead hle hreal hlen hload =>
    dsimp only
    split
    · rw [List.drop_eq_nil_of_le (by omega)]
      exact .apart rfl (by dsimp only; omega) rfl (by dsimp only; omega)
    · have hrest : (q.drop n).length = q.length - n := List.length_drop
      refine .straight _ (by dsimp only; omega) (by dsimp only; omega) (by dsimp only; omega) hle
        hreal (by dsimp only; omega) ?_
      rw [hrest, load_drop, hload]
  | wrapped older newer hnewer hle horder hlt holder hlen hload hload' =>
    have hno : n ≤ older.length := by omega
    rw [List.drop_append_of_le_length hno]
    dsimp only
    split
    · rw [List.drop_eq_nil_of_le (by omega), List.nil_append]
      exact .straight _ (Int.le_refl 0) hsize (by dsimp only; omega) hle rfl
        (by dsimp only; omega) hload'
    · have hrest : (older.drop n).length = older.length - n := List.length_drop
      refine .wrapped _ _ hnewer hle (by dsimp only; omega) (by dsimp only; omega)
        (by dsimp only; omega) (by dsimp only; omega) ?_ hload'
      rw [hrest, load_drop, hload]
  | apart htail hhead hreal hlen =>
    have hzero : n = 0 := by simpa using hnq
    subst hzero
    dsimp only
    rw [if_neg (by omega)]
    exact .apart (by dsimp only; omega) hhead hreal (by dsimp only; omega)

theorem Layout.put_straight {data : List UInt8} (htail : 0 ≤ io.tail) (hlt : io.tail < io.size)
    (hhead : io.head = io.tail + q.length) (hlen : io.len = q.length)
    (hload : load mem io.tail q.length = q) (hfit : io.head + data.length ≤ io.realSize)
    (hrange : io.realSize < 2 ^ 31)
    (hreal : io.realSize = io.size ∨ io.size < io.realSize ∧ io.realSize = io.head + data.length) :
    Layout (fbIoIncHead io data.length).2 (store mem io.head data) (q ++ data) := by
  have hboth : load (store mem io.head data) io.tail (q ++ data).length = q ++ data := by
    rw [List.length_append, load_add, ← hhead, load_store_self,
      load_store_of_disjoint mem (.inl (Int.le_of_eq hhead.symm)), hload]
  have hsum : (q ++ data).length = q.length + data.length := List.length_append
  rw [fbIoIncHead_accepts (by omega) (by omega) hrange (by omega) (by omega)]
  dsimp only
  split
  · rw [← List.append_nil (q ++ data)]
    exact .wrapped _ _ rfl (by dsimp only; omega) htail (by dsimp only; omega)
      (by dsimp only; omega) (by dsimp only [List.length_nil]; omega) hboth rfl
  · exact .straight _ htail hlt (by dsimp only; omega) (by dsimp only; omega)
      (by dsimp only; omega) (by dsimp only; omega) hboth

theorem Layout.put_wrapped {older newer data : List UInt8} (hnewer : io.head = newer.length)
    (hle : io.head + data.length ≤ io.size) (horder : io.head + data.length ≤ io.tail)
    (hlt : io.tail < io.realSize) (hrange : io.realSize < 2 ^ 31)
    (holder : io.realSize = io.tail + older.length)
    (hlen : io.len = older.length + newer.length) (hload : load mem io.tail older.length = older)
    (hload' : load mem 0 newer.length = newer) :
    Layout (fbIoIncHead io data.length).2 (store mem io.head data) (older ++ newer ++ data) := by
  have hboth : load (store mem io.head data) 0 (newer ++ data).length = newer ++ data := by
    have hstart : (0 : Int) + newer.length = io.head := by omega
    rw [List.length_append, load_add, hstart, load_store_self,
      load_store_of_disjoint mem (.inl (Int.le_of_eq hstart)), hload']
  have hsum : (newer ++ data).length = newer.length + data.length := List.length_append
  rw [fbIoIncHead_accepts (by omega) (by omega) hrange (by omega) (by omega), List.append_assoc]
  dsimp only
  rw [if_neg (by omega)]
  refine .wrapped _ _ (by dsimp only; omega) hle horder hlt holder (by dsimp only; omega) ?_ hboth
  rw [load_store_of_disjoint mem (.inr (by omega)), hload]

end Layout

@[simp] theorem fbIoIncTail_size (io : FbIo) (n : Int) : (fbIoIncTail io n).2.size = io.size := by
  unfold fbIoIncTail
  split
  · rfl
  · dsimp only
    split <;> rfl

@[simp] theorem fbIoIncTail_extraSize (io : FbIo) (n : Int) :
    (fbIoIncTail io n).2.extraSize = io.extraSize := by
  unfold fbIoIncTail
  split
  · rfl
  · dsimp only
    split <;> rfl

theorem fbIoIncTail_realSize (io : FbIo) (n : Int) :
    (fbIoIncTail io n).2.realSize = io.realSize ∨ (fbIoIncTail io n).2.realSize = io.size := by
  unfold fbIoIncTail
  split
  · exact .inl rfl
  · dsimp only
    split
    · exact .inr rfl
    · exact .inl rfl

theorem fbIoIncHead_keeps (io : FbIo) (n : Int) :
    (fbIoIncHead io n).2.size = io.size ∧ (fbIoIncHead io n).2.extraSize = io.extraSize ∧
      (fbIoIncHead io n).2.realSize = io.realSize := by
  unfold fbIoIncHead
  split
  · exact ⟨rfl, rfl, rfl⟩
  · dsimp only
    split <;> exact ⟨rfl, rfl, rfl⟩

namespace Inv

variable {size extra : Int} {s : Ring}

theorem start {io : FbIo} (hsize : 0 < io.size) (mem : Memory UInt8) :
    Inv io.size io.extraSize (Ring.start io mem) where
  size_eq := rfl
  extra_eq := rfl
  real := .inl rfl
  unread := ⟨[], .straight [] (Int.le_refl 0) hsize rfl (Int.le_of_lt hsize) rfl rfl rfl, rfl⟩

theorem range (h : Inv size extra s) : s.io.realSize < 2 ^ 31 := by
  have hsize := h.size_eq
  have hrange := s.io.size_inRange.2
  rcases h.real with hreal | ⟨-, hlt, hextra⟩ <;> omega

theorem consume (h : Inv size extra s) (hsize : 0 < size) {n : Nat}
    (hn : (n : Int) ≤ fbIoDataLen s.io) :
    Inv size extra (s.consume n) ∧ (s.consume n).consumed <+: (s.consume n).produced := by
  have hrange := h.range
  obtain ⟨rfl, rfl, hreal, q, hlayout, hproduced⟩ := h
  have hread := (hlayout.read hsize hrange hn).1
  have hrest : (s.consume n).produced = (s.consume n).consumed ++ q.drop n := by
    simp only [Ring.consume, hread, hproduced, List.append_assoc, List.take_append_drop]
  refine ⟨⟨by simp [Ring.consume], by simp [Ring.consume], ?_, _,
    hlayout.incTail hsize hrange hn, hrest⟩,
    ⟨_, hrest.symm⟩⟩
  rcases fbIoIncTail_realSize s.io n with heq | heq
  · simpa only [Ring.consume, heq] using hreal
  · exact .inl (by simp only [Ring.consume, heq])

theorem produce (h : Inv size extra s) {io : FbIo} (hsize : io.size = size)
    (hextra : io.extraSize = extra)
    (hreal : io.realSize = size ∨
      size < io.realSize ∧ io.realSize < size + extra ∧ size + extra < 2 ^ 31)
    {data : List UInt8}
    (hput : ∀ q, Layout s.io s.mem q →
      Layout (fbIoIncHead io data.length).2 (store s.mem io.head data) (q ++ data)) :
    Inv size extra (Ring.produce { s with io := io } data) := by
  obtain ⟨-, -, -, q, hlayout, hproduced⟩ := h
  obtain ⟨hsize', hextra', hreal'⟩ := fbIoIncHead_keeps io data.length
  refine ⟨hsize'.trans hsize, hextra'.trans hextra, ?_, _, hput q hlayout, ?_⟩
  · simpa only [Ring.produce, hreal'] using hreal
  · simp only [Ring.produce, hproduced, List.append_assoc]

theorem delivered (h : Inv size extra s) : s.consumed <+: s.produced := by
  obtain ⟨q, -, hproduced⟩ := h.unread
  exact ⟨q, hproduced.symm⟩

end Inv

end Mangoxx.Jpge
