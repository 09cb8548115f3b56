import Mathlib.Data.List.Nodup
import Mathlib.Data.List.Perm.Basic
import Mathlib.Logic.Function.Basic

/-! Allocated blocks.  Every block has a name of its own, so that a pointer to a freed block never
becomes valid again. -/

namespace Mangoxx.Lib

abbrev Ptr := Option Nat

/-- The allocated blocks, the next free name, and whether a block has been freed that was not
allocated. -/
structure Heap where
  live : Nat → Bool
  next : Nat
  doubleFree : Bool

namespace Heap

def empty : Heap := ⟨fun _ => false, 0, false⟩

def malloc (ok : Bool) (h : Heap) : Ptr × Heap :=
  if ok then
    (some h.next, { h with live := Function.update h.live h.next true, next := h.next + 1 })
  else (none, h)

def free (p : Ptr) (h : Heap) : Heap :=
  match p with
  | none => h
  | some b =>
    if h.live b then { h with live := Function.update h.live b false }
    else { h with doubleFree := true }

/-- The pointers that are not null are to different allocated blocks, and nothing has been freed
twice. -/
structure Owns (h : Heap) (ps : List Ptr) : Prop where
  fresh : ∀ b, h.live b → b < h.next
  live : ∀ b, some b ∈ ps → h.live b
  distinct : (ps.filterMap id).Nodup
  clean : h.doubleFree = false

variable {h : Heap} {ps qs : List Ptr}

theorem Owns.perm (ho : h.Owns ps) (hp : ps.Perm qs) : h.Owns qs where
  fresh := ho.fresh
  live b hb := ho.live b (hp.mem_iff.mpr hb)
  distinct := (hp.filterMap id).nodup_iff.mp ho.distinct
  clean := ho.clean

theorem Owns.forget (ho : h.Owns (p :: ps)) : h.Owns ps where
  fresh := ho.fresh
  live b hb := ho.live b (List.mem_cons_of_mem p hb)
  distinct := by
    cases p with
    | none => exact ho.distinct
    | some b => exact (List.nodup_cons.mp ho.distinct).2
  clean := ho.clean

theorem Owns.null (ho : h.Owns ps) : h.Owns (none :: ps) where
  fresh := ho.fresh
  live b hb := ho.live b (by simpa using hb)
  distinct := ho.distinct
  clean := ho.clean

theorem Owns.free (ho : h.Owns (p :: ps)) : (h.free p).Owns ps := by
  cases p with
  | none => exact ho.forget
  | some b =>
    have hlive := ho.live b List.mem_cons_self
    have hother : ∀ c, some c ∈ ps → c ≠ b := by
      rintro c hc rfl
      exact (List.nodup_cons.mp ho.distinct).1 (List.mem_filterMap.mpr ⟨some c, hc, rfl⟩)
    rw [Heap.free, if_pos hlive]
    refine ⟨fun c hc => ?_, fun c hc => ?_, ho.forget.distinct, ho.clean⟩
    · by_cases hcb : c = b
      · simp [hcb] at hc
      · exact ho.fresh c (by simpa [hcb] using hc)
    · simpa [hother c hc] using ho.forget.live c hc

theorem Owns.malloc (ho : h.Owns ps) (ok : Bool) :
    (h.malloc ok).2.Owns ((h.malloc ok).1 :: ps) := by
  cases ok with
  | false => exact ho.null
  | true =>
    have hother : ∀ c, some c ∈ ps → c ≠ h.next := fun c hc =>
      Nat.ne_of_lt (ho.fresh c (ho.live c hc))
    refine ⟨fun c hc => ?_, fun c hc => ?_, ?_, ho.clean⟩
    · by_cases hcn : c = h.next
      · simp [Heap.malloc, hcn]
      · have hlt := ho.fresh c (by simpa [Heap.malloc, hcn] using hc)
        exact Nat.lt_succ_of_lt hlt
    · rcases List.mem_cons.mp hc with heq | hc
      · cases heq
        simp [Heap.malloc]
      · simpa [Heap.malloc, hother c hc] using ho.live c hc
    · refine List.nodup_cons.mpr ⟨fun hmem => ?_, ho.distinct⟩
      obtain ⟨p, hp, heq⟩ := List.mem_filterMap.mp hmem
      exact hother h.next (heq ▸ hp) rfl

theorem free_dead (h : Heap) (b : Nat) : (h.free (some b)).live b = false := by
  rw [Heap.free]
  split
  · simp
  · rename_i hdead
    simpa using hdead

theorem dead_free (hb : h.live b = false) (p : Ptr) : (h.free p).live b = false := by
  cases p with
  | none => exact hb
  | some c =>
    rw [Heap.free]
    split
    · by_cases hbc : b = c
      · simp [hbc]
      · simpa [hbc] using hb
    · exact hb

end Heap

end Mangoxx.Lib
