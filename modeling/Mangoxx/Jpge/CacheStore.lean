import Mangoxx.Jpge.Cache

/-! The cache as a store: what is left after `cache_clear`, and what survives a close and an open.
The size is kept twice, in the structure and in the header, and only `cache_open` looks at the
header. -/

namespace Mangoxx.Jpge.Cache

open Mangoxx.Lib Mangoxx.Lib.History Mangoxx.Lib.Memory Mangoxx.Lib.CInt

def cacheRd : Int := 1

def IsEmpty (s : Cache) : Prop := cacheSize s = 0 ∧ ∀ n, (cacheRead n s).1.1 = 0

def fromStart (n : UInt32) (s : Cache) : List UInt8 :=
  (cacheRead n (cacheLseek cacheRd 0 cacheSeekSet s).2).1.2

def reopen (s : Cache) : Cache := (cacheOpen (cacheClose s).2).2

def Persists (s : Cache) : Prop :=
  cacheSize s.reopen = cacheSize s ∧ ∀ n, fromStart n s.reopen = fromStart n s

variable {max : Int} {s : Cache}

theorem cacheRead_zero_iff (h : Wf max s) (hopen : s.io.refCnt > 0) :
    (∀ n, (cacheRead n s).1.1 = 0) ↔ s.io.size ≤ s.io.rd := by
  constructor
  · intro hzero
    by_contra hlt
    obtain ⟨hsize, -, hrd⟩ := h.ints hopen
    unfold InRange at hsize hrd
    have hrest : (uint32 (s.io.size - s.io.rd) : Int) = s.io.size - s.io.rd :=
      uint32_of_range (by omega) (by omega)
    have hone := hzero 1
    rw [cacheRead, if_neg (by omega), if_neg (by decide), if_neg (by omega)] at hone
    dsimp only at hone
    refine int32_ne_zero ?_ ?_ hone
    · split
      · omega
      · decide
    · split
      · exact uint32_lt _
      · decide
  · intro hle n
    rw [cacheRead, if_neg (by omega)]
    split
    · rfl
    · rfl

theorem isEmpty_iff (h : Wf max s) (hopen : s.io.refCnt > 0) :
    IsEmpty s ↔ s.io.size = 0 ∧ 0 ≤ s.io.rd := by
  rw [IsEmpty, cacheRead_zero_iff h hopen, cacheSize, if_neg (by omega)]
  constructor
  · rintro ⟨hsize, hrd⟩
    exact ⟨hsize, hsize ▸ hrd⟩
  · rintro ⟨hsize, hrd⟩
    exact ⟨hsize, hsize ▸ hrd⟩

theorem fromStart_eq (n : UInt32) (hopen : s.io.refCnt > 0) :
    fromStart n s =
      if n = 0 ∨ s.io.size ≤ 0 then []
      else load s.mem 8
        (if uint32 n.toNat ≥ uint32 s.io.size then uint32 s.io.size else n.toNat) := by
  have hseek : (cacheLseek cacheRd 0 cacheSeekSet s).2 =
      { s with io := { s.io with rd := 0 } } := by
    rw [cacheLseek, if_neg (by omega), if_neg (by decide), if_pos rfl]
  rw [fromStart, hseek, cacheRead, if_neg (by dsimp only; omega)]
  by_cases hn : n = 0
  · simp [hn]
  · by_cases hsize : s.io.size ≤ 0
    · simp [hn, hsize]
    · simp [hn, hsize, fetch]

theorem cacheClose_last (h : s.io.refCnt = 1) :
    (cacheClose s).2 = { s with io := { s.io with refCnt := 0 } } := by
  rw [cacheClose, if_neg (by omega), h]
  rfl

theorem reopen_io (h : s.io.refCnt = 1) :
    s.reopen.io = { s.io with
      magic := s.headerMagic
      size := if s.Fresh then 0 else s.headerSize
      wr := 0
      rd := 0 } := by
  rw [reopen, cacheClose_last h, cacheOpen_io (by exact Int.le_refl 0)]
  simp only [Fresh, headerMagic, headerSize, h]
  rfl

theorem reopen_mem (h : s.io.refCnt = 1) :
    s.reopen.mem = if s.Fresh then store s.mem 0 magicBytes else s.mem := by
  rw [reopen, cacheClose_last h, cacheOpen_mem (by rfl)]
  rfl

theorem fresh_iff (hmax : 0 ≤ s.io.maxSize) : s.Fresh ↔ s.headerMagic ≠ cacheMagic := by
  rw [Fresh]
  constructor
  · rintro (hmagic | hsize)
    · exact hmagic
    · omega
  · exact .inl

theorem persists_iff (h : Wf max s) (hmax : 0 ≤ max) (hopen : s.io.refCnt > 0) :
    Persists s ↔ if s.headerMagic = cacheMagic then s.headerSize = s.io.size
      else s.io.size = 0 := by
  have hcnt : s.io.refCnt = 1 := Int.le_antisymm h.once hopen
  have hio := reopen_io hcnt
  have hsize : s.reopen.io.size = if s.Fresh then 0 else s.headerSize := by rw [hio]
  have hopen' : s.reopen.io.refCnt > 0 := by
    rw [hio]
    exact hopen
  have hdata : ∀ n, load s.reopen.mem 8 n = load s.mem 8 n := by
    intro n
    rw [reopen_mem hcnt]
    split
    · exact load_store_of_disjoint s.mem (.inr (by decide))
    · rfl
  have hsame : Persists s ↔ s.reopen.io.size = s.io.size := by
    rw [Persists, cacheSize, cacheSize, if_neg (by omega), if_neg (by omega)]
    refine ⟨And.left, fun heq => ⟨heq, fun n => ?_⟩⟩
    rw [fromStart_eq n hopen', fromStart_eq n hopen, heq, hdata]
  have hfresh := fresh_iff (s := s) (h.maxSize ▸ hmax)
  rw [hsame, hsize]
  by_cases hmagic : s.headerMagic = cacheMagic
  · rw [if_neg fun hf => hfresh.mp hf hmagic, if_pos hmagic]
  · rw [if_pos (hfresh.mpr hmagic), if_neg hmagic, eq_comm]

/-- After any calls and any writes to a cache that is then open: `cache_clear` empties it exactly if
it is empty and its read position is not negative, and a close and an open keep it exactly if its
header already has its size, or has no magic number and the size is 0. -/
theorem store_iff (s : Cache) (hclosed : s.io.refCnt ≤ 0) (max : Int32) (hmax : 8 ≤ max.toInt)
    (block : Memory UInt8) (ops : List Op) (writes : List (List UInt8)) :
    let c := run (cacheConfig max.toInt block s).2 (ops ++ writes.map .write)
    c.io.refCnt > 0 →
      (IsEmpty (cacheClear c).2 ↔ c.io.size = 0 ∧ 0 ≤ c.io.rd) ∧
        (Persists c ↔
          if c.headerMagic = cacheMagic then c.headerSize = c.io.size else c.io.size = 0) := by
  intro c hopen
  have hwf : Wf max.toInt c := (Wf.configured hclosed _ _).run (Wf.int32_value max) _
  refine ⟨?_, persists_iff hwf (by omega) hopen⟩
  have hclear : Wf max.toInt (cacheClear c).2 := hwf.step (Wf.int32_value max) .clear
  have hempty := isEmpty_iff hclear (by rwa [cacheClear_io])
  rwa [cacheClear_io] at hempty

def sizedBlock : Memory UInt8 := store (fun _ => 0) 0 (magicBytes ++ [3, 0, 0, 0, 7, 8, 9])

theorem rewritten_cache_kept :
    let c := run (cacheConfig 16 sizedBlock unopened).2
      ([.openCache, .lseek 0 0 0] ++ [[1, 2, 3]].map .write)
    let c' := run (cacheConfig 16 emptyBlock unopened).2
      ([.openCache] ++ [.replicate 17 1].map .write)
    Persists c ∧ IsEmpty (cacheClear c').2 := by
  have h := store_iff unopened (by decide) 16 (by decide) sizedBlock [.openCache, .lseek 0 0 0]
    [[1, 2, 3]] (by decide +kernel)
  have h' := store_iff unopened (by decide) 16 (by decide) emptyBlock [.openCache]
    [.replicate 17 1] (by decide +kernel)
  exact ⟨h.2.mpr (by decide +kernel), h'.1.mpr (by decide +kernel)⟩

/-- A byte that has been written is still there after `cache_clear` and gone after a close and an
open. -/
theorem written_byte_swapped :
    let c := run (cacheConfig 16 emptyBlock unopened).2 [.openCache, .write [7]]
    ¬ IsEmpty (cacheClear c).2 ∧ ¬ Persists c := by
  intro c
  constructor
  · intro h
    have hsize := h.1
    revert hsize
    decide +kernel
  · intro h
    have hsize := h.1
    revert hsize
    decide +kernel

end Mangoxx.Jpge.Cache
