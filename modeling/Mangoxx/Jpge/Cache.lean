import Mangoxx.Lib.CInt
import Mangoxx.Lib.History
import Mangoxx.Lib.Memory

/-! The data cache of `my_cache.c`: a header of eight bytes, with a magic number and the size, and
the data behind it.  `s_cache_cnt` decides nothing and is left out. -/

namespace Mangoxx.Jpge

open Mangoxx.Lib Mangoxx.Lib.Memory Mangoxx.Lib.CInt

def cacheMagic : UInt32 := 0xC0DE9798

def oprtOk : Int := 0
def oprtComError : Int := -1

def cacheWr : Int := 0
def cacheSeekSet : Int := 0
def cacheSeekCur : Int := 1
def cacheSeekEnd : Int := 2

structure CacheIo where
  magic : UInt32
  maxSize : Int
  size : Int
  wr : Int
  rd : Int
  refCnt : Int
  deriving DecidableEq

/-- A cache with its memory, by the offset from `addr`, and the blocks that have been read from it
or written to it. -/
structure Cache where
  io : CacheIo
  mem : Memory UInt8
  touched : List (Int × Nat)

def le32 (bytes : List UInt8) : UInt32 :=
  (bytes.getD 0 0).toUInt32 ||| (bytes.getD 1 0).toUInt32 <<< 8 |||
    (bytes.getD 2 0).toUInt32 <<< 16 ||| (bytes.getD 3 0).toUInt32 <<< 24

def magicBytes : List UInt8 := [0x98, 0x97, 0xDE, 0xC0]

namespace Cache

def touch (s : Cache) (a : Int) (n : Nat) : Cache := { s with touched := s.touched ++ [(a, n)] }

def fetch (s : Cache) (a : Int) (n : Nat) : List UInt8 × Cache := (load s.mem a n, s.touch a n)

def put (s : Cache) (a : Int) (data : List UInt8) : Cache :=
  { s.touch a data.length with mem := store s.mem a data }

def memset (s : Cache) (a c : Int) (n : Nat) : Cache := s.put a (List.replicate n (UInt8.ofInt c))

end Cache

/-- `cache_config` where `malloc` returns a block, with any content. -/
def cacheConfig (maxSize : Int) (block : Memory UInt8) (s : Cache) : Int × Cache :=
  if s.io.refCnt > 0 then (oprtComError, s)
  else (oprtOk, { io := { s.io with maxSize := maxSize }, mem := block, touched := [] })

/-- The second and the third argument of the source's `memset` are exchanged, so nothing is set. -/
def cacheClear (s : Cache) : Int × Cache :=
  if s.io.refCnt ≤ 0 then (oprtComError, s)
  else (oprtOk, (s.memset 0 s.io.size 0).put 0 magicBytes)

def cacheOpen (s : Cache) : Int × Cache :=
  if s.io.refCnt > 0 then (oprtOk, s)
  else
    let (magic, s) := s.fetch 0 4
    let (size, s) := s.fetch 4 4
    let s := { s with io := { s.io with
      magic := le32 magic
      size := int32 (le32 size).toNat
      refCnt := s.io.refCnt + 1 } }
    let s :=
      if s.io.magic ≠ cacheMagic ∨ s.io.size < 0 ∧ s.io.size > s.io.maxSize then
        (cacheClear { s with io := { s.io with size := 0 } }).2
      else s
    (oprtOk, { s with io := { s.io with rd := 0, wr := 0 } })

/-- The sum of an `int` and a `uint32_t` is unsigned, and so is the comparison. -/
def cacheWrite (data : List UInt8) (s : Cache) : Int × Cache :=
  if s.io.refCnt ≤ 0 then (oprtComError, s)
  else if data.length = 0 ∨ uint32 (s.io.size + data.length) > uint32 s.io.maxSize then (0, s)
  else
    let s := s.put (8 + s.io.wr) data
    let io := { s.io with
      wr := int32 (s.io.wr + data.length)
      size := int32 (s.io.size + data.length) }
    (int32 data.length, { s with io := io })

def cacheRead (n : UInt32) (s : Cache) : (Int × List UInt8) × Cache :=
  if s.io.refCnt ≤ 0 then ((oprtComError, []), s)
  else if n = 0 then ((0, []), s)
  else if s.io.rd ≥ s.io.size then ((0, []), s)
  else
    let len :=
      if uint32 (s.io.rd + n.toNat) ≥ uint32 s.io.size then uint32 (s.io.size - s.io.rd)
      else n.toNat
    let (data, s) := s.fetch (8 + s.io.rd) len
    ((int32 len, data), { s with io := { s.io with rd := int32 (s.io.rd + len) } })

/-- Moving the write position sets the size, except with `CACHE_SEEK_END`. -/
def cacheLseek (wrRd offset whence : Int) (s : Cache) : Int × Cache :=
  if s.io.refCnt ≤ 0 then (oprtComError, s)
  else if wrRd = cacheWr then
    if whence = cacheSeekSet then
      let offset := if offset ≥ s.io.maxSize then s.io.maxSize else offset
      (offset, { s with io := { s.io with wr := offset, size := offset } })
    else if whence = cacheSeekCur then
      let offset :=
        if int32 (s.io.wr + offset) ≥ s.io.maxSize then int32 (s.io.maxSize - s.io.wr) else offset
      let wr := int32 (s.io.wr + offset)
      (wr, { s with io := { s.io with wr := wr, size := wr } })
    else if whence = cacheSeekEnd then
      (s.io.size, { s with io := { s.io with wr := s.io.size } })
    else (oprtComError, s)
  else
    if whence = cacheSeekSet then (offset, { s with io := { s.io with rd := offset } })
    else if whence = cacheSeekCur then
      let rd := int32 (s.io.rd + offset)
      (rd, { s with io := { s.io with rd := rd } })
    else if whence = cacheSeekEnd then
      (s.io.size, { s with io := { s.io with rd := s.io.size } })
    else (oprtComError, s)

def cacheSize (s : Cache) : Int := if s.io.refCnt ≤ 0 then oprtComError else s.io.size

/-- Nothing is written back to the header. -/
def cacheClose (s : Cache) : Int × Cache :=
  if s.io.refCnt ≤ 0 then (oprtOk, s)
  else (oprtOk, { s with io := { s.io with refCnt := s.io.refCnt - 1 } })

namespace Cache

inductive Op
  | openCache
  | write (data : List UInt8)
  | read (n : UInt32)
  | lseek (wrRd offset whence : Int32)
  | clear
  | size
  | close
  deriving DecidableEq

def step (s : Cache) : Op → Cache
  | .openCache => (cacheOpen s).2
  | .write data => (cacheWrite data s).2
  | .read n => (cacheRead n s).2
  | .lseek wrRd offset whence => (cacheLseek wrRd.toInt offset.toInt whence.toInt s).2
  | .clear => (cacheClear s).2
  | .size => s
  | .close => (cacheClose s).2

abbrev run (s : Cache) (ops : List Op) : Cache := History.run step s ops

def unopened : Cache := ⟨⟨0, 0, 0, 0, 0, 0⟩, fun _ => 0, []⟩

def emptyBlock : Memory UInt8 := store (fun _ => 0) 0 magicBytes

/-- What every call keeps of a cache with `max`: the positions of an open one are values of an
`int`. -/
structure Wf (max : Int) (s : Cache) : Prop where
  maxSize : s.io.maxSize = max
  once : s.io.refCnt ≤ 1
  ints : s.io.refCnt > 0 → InRange s.io.size ∧ InRange s.io.wr ∧ InRange s.io.rd

@[simp] theorem put_io (s : Cache) (a : Int) (data : List UInt8) : (s.put a data).io = s.io := rfl

@[simp] theorem cacheClear_io (s : Cache) : (cacheClear s).2.io = s.io := by
  unfold cacheClear
  split <;> rfl

def headerMagic (s : Cache) : UInt32 := le32 (load s.mem 0 4)

def headerSize (s : Cache) : Int := int32 (le32 (load s.mem 4 4)).toNat

def Fresh (s : Cache) : Prop :=
  s.headerMagic ≠ cacheMagic ∨ s.headerSize < 0 ∧ s.headerSize > s.io.maxSize

instance (s : Cache) : Decidable s.Fresh := inferInstanceAs (Decidable (_ ∨ _))

theorem cacheOpen_io {s : Cache} (h : s.io.refCnt ≤ 0) :
    (cacheOpen s).2.io = { s.io with
      magic := s.headerMagic
      size := if s.Fresh then 0 else s.headerSize
      refCnt := s.io.refCnt + 1
      wr := 0
      rd := 0 } := by
  rw [cacheOpen, if_neg (by omega)]
  by_cases hfresh : s.Fresh
  · have hfresh' := hfresh
    simp only [Fresh, headerMagic, headerSize] at hfresh'
    simp [fetch, touch, hfresh, hfresh', headerMagic]
  · have hfresh' := hfresh
    simp only [Fresh, headerMagic, headerSize] at hfresh'
    simp [fetch, touch, hfresh, hfresh', headerMagic, headerSize]

theorem cacheOpen_mem {s : Cache} (h : s.io.refCnt = 0) :
    (cacheOpen s).2.mem = if s.Fresh then store s.mem 0 magicBytes else s.mem := by
  rw [cacheOpen, if_neg (by omega)]
  by_cases hfresh : s.Fresh
  · have hfresh' := hfresh
    simp only [Fresh, headerMagic, headerSize] at hfresh'
    simp [fetch, touch, hfresh, hfresh', cacheClear, h, put, memset]
  · have hfresh' := hfresh
    simp only [Fresh, headerMagic, headerSize] at hfresh'
    simp [fetch, touch, hfresh, hfresh']

namespace Wf

variable {max : Int} {s : Cache}

theorem zero_inRange : InRange 0 := by
  unfold InRange
  omega

theorem cacheOpen (h : Wf max s) : Wf max (cacheOpen s).2 := by
  by_cases hopen : s.io.refCnt > 0
  · rw [Jpge.cacheOpen, if_pos hopen]
    exact h
  · have hio := cacheOpen_io (Int.not_lt.mp hopen)
    refine ⟨by rw [hio]; exact h.maxSize, by rw [hio]; dsimp only; omega, fun _ => ?_⟩
    rw [hio]
    dsimp only
    refine ⟨?_, zero_inRange, zero_inRange⟩
    split
    · exact zero_inRange
    · exact int32_inRange _

theorem cacheWrite (h : Wf max s) (data : List UInt8) : Wf max (cacheWrite data s).2 := by
  unfold Jpge.cacheWrite
  split
  · exact h
  · rename_i hopen
    split
    · exact h
    · exact ⟨h.maxSize, h.once, fun _ =>
        ⟨int32_inRange _, int32_inRange _, (h.ints (Int.not_le.mp hopen)).2.2⟩⟩

theorem cacheRead (h : Wf max s) (n : UInt32) : Wf max (cacheRead n s).2 := by
  unfold Jpge.cacheRead
  split
  · exact h
  · rename_i hopen
    obtain ⟨hsize, hwr, -⟩ := h.ints (Int.not_le.mp hopen)
    split
    · exact h
    · split
      · exact h
      · exact ⟨h.maxSize, h.once, fun _ => ⟨hsize, hwr, int32_inRange _⟩⟩

theorem int32_value (x : Int32) : InRange x.toInt := ⟨x.le_toInt, x.toInt_lt⟩

theorem cacheLseek (h : Wf max s) (hmax : InRange max) (wrRd whence : Int) (offset : Int32) :
    Wf max (cacheLseek wrRd offset.toInt whence s).2 := by
  have hoffset := int32_value offset
  unfold Jpge.cacheLseek
  by_cases hclosed : s.io.refCnt ≤ 0
  · rw [if_pos hclosed]
    exact h
  · obtain ⟨hsize, hwr, hrd⟩ := h.ints (Int.not_le.mp hclosed)
    rw [if_neg hclosed]
    have hset : InRange (if offset.toInt ≥ s.io.maxSize then s.io.maxSize else offset.toInt) := by
      split
      · exact h.maxSize ▸ hmax
      · exact hoffset
    split
    · split
      · exact ⟨h.maxSize, h.once, fun _ => ⟨hset, hset, hrd⟩⟩
      · split
        · exact ⟨h.maxSize, h.once, fun _ => ⟨int32_inRange _, int32_inRange _, hrd⟩⟩
        · split
          · exact ⟨h.maxSize, h.once, fun _ => ⟨hsize, hsize, hrd⟩⟩
          · exact h
    · split
      · exact ⟨h.maxSize, h.once, fun _ => ⟨hsize, hwr, hoffset⟩⟩
      · split
        · exact ⟨h.maxSize, h.once, fun _ => ⟨hsize, hwr, int32_inRange _⟩⟩
        · split
          · exact ⟨h.maxSize, h.once, fun _ => ⟨hsize, hwr, hsize⟩⟩
          · exact h

theorem cacheClose (h : Wf max s) : Wf max (cacheClose s).2 := by
  unfold Jpge.cacheClose
  split
  · exact h
  · rename_i hopen
    have honce := h.once
    exact ⟨h.maxSize, by dsimp only; omega, fun _ => h.ints (Int.not_le.mp hopen)⟩

theorem step (h : Wf max s) (hmax : InRange max) (o : Op) : Wf max (s.step o) := by
  cases o with
  | openCache => exact h.cacheOpen
  | write data => exact h.cacheWrite data
  | read n => exact h.cacheRead n
  | lseek wrRd offset whence => exact h.cacheLseek hmax wrRd.toInt whence.toInt offset
  | clear => exact ⟨by simpa [Cache.step] using h.maxSize, by simpa [Cache.step] using h.once,
      by simpa [Cache.step] using h.ints⟩
  | size => exact h
  | close => exact h.cacheClose

theorem run (h : Wf max s) (hmax : InRange max) (ops : List Op) : Wf max (s.run ops) := by
  induction ops generalizing s with
  | nil => exact h
  | cons o ops ih => exact ih (h.step hmax o)

theorem configured (h : s.io.refCnt ≤ 0) (max : Int) (block : Memory UInt8) :
    Wf max (cacheConfig max block s).2 := by
  rw [cacheConfig, if_neg (by omega)]
  exact ⟨rfl, by dsimp only; omega, fun hopen => absurd hopen (by dsimp only; omega)⟩

end Wf

end Cache

end Mangoxx.Jpge
