import Mangoxx.Jpge.Cache

namespace Mangoxx.Jpge.Cache

open Mangoxx.Lib Mangoxx.Lib.History Mangoxx.Lib.Memory Mangoxx.Lib.CInt

/-- The bytes a write or a read is about lie behind the start of the header and, with the header,
inside `max_size`.  Only calls that pass the tests of the code count. -/
def Fits (s : Cache) : Op → Prop
  | .write data =>
    s.io.refCnt > 0 → data.length ≠ 0 →
      uint32 (s.io.size + data.length) ≤ uint32 s.io.maxSize →
        -8 ≤ s.io.wr ∧ s.io.wr + data.length ≤ s.io.maxSize - 8
  | .read n =>
    s.io.refCnt > 0 → n ≠ 0 → s.io.rd < s.io.size →
      -8 ≤ s.io.rd ∧
        if uint32 (s.io.rd + n.toNat) ≥ uint32 s.io.size then s.io.size ≤ s.io.maxSize - 8
        else s.io.rd + n.toNat ≤ s.io.maxSize - 8
  | _ => True

instance (s : Cache) (o : Op) : Decidable (s.Fits o) := by
  cases o <;> unfold Fits <;> infer_instance

def InBounds (max : Int) (blocks : List (Int × Nat)) : Prop :=
  ∀ b ∈ blocks, Within 0 max b.1 b.2

def Touches (max : Int) (s s' : Cache) (o : Op) : Prop :=
  ∃ blocks, s'.touched = s.touched ++ blocks ∧ (InBounds max blocks ↔ s.Fits o)

variable {max : Int} {s : Cache}

theorem inBounds_append (xs ys : List (Int × Nat)) :
    InBounds max (xs ++ ys) ↔ InBounds max xs ∧ InBounds max ys := by
  simp [InBounds, or_imp, forall_and]

theorem touches_nothing {s' : Cache} {o : Op} (h : s'.touched = s.touched) (hfits : s.Fits o) :
    Touches max s s' o :=
  ⟨[], by simpa using h, by simpa [InBounds] using hfits⟩

theorem within_header (hmax : 8 ≤ max) {a : Int} {n : Nat} (ha : 0 ≤ a) (hn : a + n ≤ 8) :
    Within 0 max a n := within_iff.mpr (.inr ⟨ha, by omega⟩)

theorem cacheClear_touches (hmax : 8 ≤ max) (s : Cache) :
    ∃ blocks, (cacheClear s).2.touched = s.touched ++ blocks ∧ InBounds max blocks := by
  unfold cacheClear
  split
  · exact ⟨[], by simp, by simp [InBounds]⟩
  · refine ⟨[(0, 0), (0, 4)], by simp [put, touch, memset, magicBytes], ?_⟩
    simp only [InBounds, List.mem_cons, List.not_mem_nil, or_false, forall_eq_or_imp, forall_eq]
    exact ⟨within_header hmax (Int.le_refl 0) (by decide),
      within_header hmax (Int.le_refl 0) (by decide)⟩

theorem cacheOpen_touches (hmax : 8 ≤ max) (s : Cache) :
    ∃ blocks, (cacheOpen s).2.touched = s.touched ++ blocks ∧ InBounds max blocks := by
  unfold cacheOpen
  split
  · exact ⟨[], by simp, by simp [InBounds]⟩
  · have hread : InBounds max [(0, 4), (4, 4)] := by
      simp only [InBounds, List.mem_cons, List.not_mem_nil, or_false, forall_eq_or_imp, forall_eq]
      exact ⟨within_header hmax (Int.le_refl 0) (by decide),
        within_header hmax (by decide) (by decide)⟩
    dsimp only
    split
    · obtain ⟨blocks, heq, hblocks⟩ := cacheClear_touches hmax { ((s.fetch 0 4).2.fetch 4 4).2 with
        io := { s.io with
          magic := le32 (load s.mem 0 4), size := 0, refCnt := s.io.refCnt + 1 } }
      exact ⟨[(0, 4), (4, 4)] ++ blocks, by simpa [fetch, touch] using heq,
        (inBounds_append _ _).mpr ⟨hread, hblocks⟩⟩
    · exact ⟨[(0, 4), (4, 4)], by simp [fetch, touch], hread⟩

theorem cacheWrite_touches (h : Wf max s) (data : List UInt8) :
    Touches max s (cacheWrite data s).2 (.write data) := by
  unfold cacheWrite
  split
  · exact touches_nothing rfl fun hopen => absurd hopen (by omega)
  · rename_i hopen
    split
    · rename_i hrefused
      refine touches_nothing rfl fun _ hn hle => ?_
      omega
    · rename_i haccepted
      refine ⟨[(8 + s.io.wr, data.length)], rfl, ?_⟩
      simp only [InBounds, List.mem_singleton, forall_eq, within_iff, Fits]
      have hmaxSize := h.maxSize
      omega

theorem cacheRead_touches (h : Wf max s) (n : UInt32) :
    Touches max s (cacheRead n s).2 (.read n) := by
  unfold cacheRead
  split
  · exact touches_nothing rfl fun hopen => absurd hopen (by omega)
  · rename_i hopen
    obtain ⟨hsize, -, hrd⟩ := h.ints (Int.not_le.mp hopen)
    have hmaxSize := h.maxSize
    split
    · exact touches_nothing rfl fun _ hn => absurd ‹n = 0› hn
    · rename_i hn
      split
      · exact touches_nothing rfl fun _ _ hlt => absurd hlt (by omega)
      · rename_i hlt
        have hpos : n.toNat ≠ 0 := fun hzero => hn (UInt32.toNat_inj.mp hzero)
        have hrest : (uint32 (s.io.size - s.io.rd) : Int) = s.io.size - s.io.rd := by
          unfold InRange at hsize hrd
          exact uint32_of_range (by omega) (by omega)
        refine ⟨[_], rfl, ?_⟩
        have hopen' : s.io.refCnt > 0 := Int.not_le.mp hopen
        have hlt' : s.io.rd < s.io.size := Int.not_le.mp hlt
        simp only [InBounds, List.mem_singleton, forall_eq, within_iff, Fits, hopen', hn,
          hlt', ne_eq, not_false_eq_true, true_imp_iff]
        split <;> omega

theorem step_touches (h : Wf max s) (hmax : 8 ≤ max) (o : Op) : Touches max s (s.step o) o := by
  cases o with
  | openCache =>
    obtain ⟨blocks, heq, hblocks⟩ := cacheOpen_touches hmax s
    exact ⟨blocks, heq, iff_of_true hblocks trivial⟩
  | write data => exact cacheWrite_touches h data
  | read n => exact cacheRead_touches h n
  | lseek wrRd offset whence =>
    refine touches_nothing ?_ trivial
    simp only [step, cacheLseek]
    repeat' split
    all_goals rfl
  | clear =>
    obtain ⟨blocks, heq, hblocks⟩ := cacheClear_touches hmax s
    exact ⟨blocks, heq, iff_of_true hblocks trivial⟩
  | size => exact touches_nothing rfl trivial
  | close =>
    refine touches_nothing ?_ trivial
    simp only [step, cacheClose]
    split <;> rfl

theorem run_touches (h : Wf max s) (hmax : 8 ≤ max) (hint : InRange max) (ops : List Op) :
    InBounds max (s.run ops).touched ↔ InBounds max s.touched ∧ Each step Fits s ops := by
  induction ops generalizing s with
  | nil => simp
  | cons o ops ih =>
    obtain ⟨blocks, heq, hfits⟩ := step_touches h hmax o
    have hrest := ih (h.step hint o)
    rw [heq, inBounds_append, hfits] at hrest
    rw [each_cons, ← and_assoc]
    exact hrest

/-- The calls of a run stay inside the memory exactly if every write that is accepted and every read
that finds data lies inside it, with the header in front. -/
theorem in_bounds_iff (s : Cache) (hclosed : s.io.refCnt ≤ 0) (max : Int32) (hmax : 8 ≤ max.toInt)
    (block : Memory UInt8) (ops : List Op) :
    InBounds max.toInt (run (cacheConfig max.toInt block s).2 ops).touched ↔
      Each step Fits (cacheConfig max.toInt block s).2 ops := by
  have hnone : (cacheConfig max.toInt block s).2.touched = [] := by
    rw [cacheConfig, if_neg (by omega)]
  rw [run_touches (.configured hclosed _ _) hmax (Wf.int32_value max), hnone]
  simp [InBounds]

theorem small_cache_in_bounds :
    InBounds 16 (run (cacheConfig 16 emptyBlock unopened).2
      [.openCache, .write [1, 2, 3], .read 2, .clear, .close]).touched := by
  refine (in_bounds_iff unopened (by decide) 16 (by decide) emptyBlock _).mpr ?_
  simp only [each_cons, each_nil]
  decide +kernel

/-- The size test lets one byte behind the header of a memory of eight bytes. -/
theorem first_byte_out_of_bounds :
    ¬ InBounds 8 (run (cacheConfig 8 emptyBlock unopened).2 [.openCache, .write [1]]).touched := by
  intro h
  have hbyte := h (8, 1) (by decide +kernel) 0 (by decide)
  revert hbyte
  decide

end Mangoxx.Jpge.Cache
