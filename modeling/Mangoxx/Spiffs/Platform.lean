import Mangoxx.Lib.Heap
import Mangoxx.Lib.History

namespace Mangoxx.Spiffs

open Mangoxx.Lib

/-- `fs_ctx` and the heap its buffers come from; of `fs`, what `SPIFFS_mounted` tells. -/
structure FsCtx where
  mounted : Bool
  workBuf : Ptr
  fdBuf : Ptr
  cacheBuf : Ptr
  heap : Heap

namespace FsCtx

def start : FsCtx := ⟨false, none, none, none, .empty⟩

def buffers (s : FsCtx) : List Ptr := [s.workBuf, s.fdBuf, s.cacheBuf]

end FsCtx

def renew (ok : Bool) (p : Ptr) (h : Heap) : Ptr × Heap :=
  (if p ≠ none then h.free p else h).malloc ok

def SPIFFS_mounted (s : FsCtx) : Bool := s.mounted

def SPIFFS_mount (ret : Int) (s : FsCtx) : FsCtx := { s with mounted := ret = 0 }

def SPIFFS_unmount (s : FsCtx) : FsCtx := { s with mounted := false }

def freeWork (s : FsCtx) : FsCtx := { s with heap := s.heap.free s.workBuf }

def freeFd (s : FsCtx) : FsCtx := { s with heap := s.heap.free s.fdBuf }

def freeCache (s : FsCtx) : FsCtx := { s with heap := s.heap.free s.cacheBuf }

def renewWork (ok : Bool) (s : FsCtx) : FsCtx :=
  let r := renew ok s.workBuf s.heap
  { s with workBuf := r.1, heap := r.2 }

def renewFd (ok : Bool) (s : FsCtx) : FsCtx :=
  let r := renew ok s.fdBuf s.heap
  { s with fdBuf := r.1, heap := r.2 }

def renewCache (ok : Bool) (s : FsCtx) : FsCtx :=
  let r := renew ok s.cacheBuf s.heap
  { s with cacheBuf := r.1, heap := r.2 }

/-- The flags tell which of the three calls of `malloc` succeed, `ret` is what `SPIFFS_mount`
returns. -/
def platformSpiffsInit (workOk fdOk cacheOk : Bool) (ret : Int) (s : FsCtx) : Int × FsCtx :=
  if SPIFFS_mounted s then (-1, s) else
  let s := renewWork workOk s
  if s.workBuf = none then (-1, s) else
  let s := renewFd fdOk s
  if s.fdBuf = none then (-1, freeWork s) else
  let s := renewCache cacheOk s
  if s.cacheBuf = none then (-1, freeFd (freeWork s)) else
  let s := SPIFFS_mount ret s
  if ret = -1 then (-1, freeCache (freeFd (freeWork s))) else (ret, s)

/-- `SPIFFS_format` refuses while mounted and leaves the buffers and the mount flag alone, so what
`format` asks for does not show here. -/
def platformSpiffsExit (s : FsCtx) : Int × FsCtx :=
  if SPIFFS_mounted s then (0, freeCache (freeFd (freeWork (SPIFFS_unmount s)))) else (0, s)

inductive PlatformOp
  | init (workOk fdOk cacheOk : Bool) (ret : Int)
  | exit (format : Int)

def platformStep (s : FsCtx) : PlatformOp → FsCtx
  | .init workOk fdOk cacheOk ret => (platformSpiffsInit workOk fdOk cacheOk ret s).2
  | .exit _ => (platformSpiffsExit s).2

def FsCtx.Sound (s : FsCtx) : Prop :=
  (∀ b, some b ∈ s.buffers → s.heap.live b) ∧ s.heap.doubleFree = false

def Harmless (s : FsCtx) : PlatformOp → Prop
  | .init workOk fdOk cacheOk ret =>
    s.mounted ∨ workOk = false ∨ (fdOk ∧ cacheOk ∧ ret ≠ -1)
  | .exit _ => s.mounted = false

structure FsCtx.Inv (s : FsCtx) : Prop where
  owns : s.heap.Owns s.buffers
  mounted : s.mounted → ∀ p ∈ s.buffers, p ≠ none

theorem FsCtx.Inv.start : FsCtx.start.Inv where
  owns := ⟨fun b hb => by simp [FsCtx.start, Heap.empty] at hb,
    fun b hb => by simp [FsCtx.start, FsCtx.buffers] at hb, by simp [FsCtx.start, FsCtx.buffers],
    rfl⟩
  mounted h := by simp [FsCtx.start] at h

theorem FsCtx.Inv.sound {s : FsCtx} (h : s.Inv) : s.Sound := ⟨h.owns.live, h.owns.clean⟩

section Renew

variable {s : FsCtx} {h : Heap} {ps : List Ptr}

theorem renew_owns (ho : h.Owns (p :: ps)) (ok : Bool) :
    (renew ok p h).2.Owns ((renew ok p h).1 :: ps) := by
  cases p with
  | none => exact ho.forget.malloc ok
  | some b => exact ho.free.malloc ok

@[simp] theorem renew_eq_none : (renew ok p h).1 = none ↔ ok = false := by
  cases ok <;> simp [renew, Heap.malloc]

theorem renewWork_owns (ho : s.heap.Owns s.buffers) :
    (renewWork ok s).heap.Owns (renewWork ok s).buffers :=
  renew_owns ho ok

theorem renewFd_owns (ho : s.heap.Owns s.buffers) :
    (renewFd ok s).heap.Owns (renewFd ok s).buffers := by
  have hswap : s.heap.Owns [s.fdBuf, s.workBuf, s.cacheBuf] := ho.perm (.swap _ _ _)
  exact (renew_owns hswap ok).perm (.swap _ _ _)

theorem renewCache_owns (ho : s.heap.Owns s.buffers) :
    (renewCache ok s).heap.Owns (renewCache ok s).buffers := by
  have hrot : s.heap.Owns [s.cacheBuf, s.workBuf, s.fdBuf] :=
    ho.perm (@List.perm_append_comm _ [s.workBuf, s.fdBuf] [s.cacheBuf])
  exact (renew_owns hrot ok).perm (@List.perm_append_comm _ [_] [s.workBuf, s.fdBuf])

end Renew

theorem not_sound_of_freed {s : FsCtx} (hb : s.workBuf = some b) (hdead : s.heap.live b = false) :
    ¬ s.Sound := by
  rintro ⟨hlive, -⟩
  have hb' := hlive b (by simp [FsCtx.buffers, hb])
  simp [hdead] at hb'

theorem freeWork_dead {s : FsCtx} (hb : s.workBuf = some b) :
    (freeWork s).heap.live b = false := by
  rw [freeWork, hb]
  exact s.heap.free_dead b

theorem freeFd_dead {s : FsCtx} (hb : s.heap.live b = false) :
    (freeFd s).heap.live b = false := Heap.dead_free hb _

theorem freeCache_dead {s : FsCtx} (hb : s.heap.live b = false) :
    (freeCache s).heap.live b = false := Heap.dead_free hb _

section Init

variable {s : FsCtx} {workOk fdOk cacheOk : Bool} {ret : Int}

theorem renewWork_workBuf : (renewWork true s).workBuf ≠ none := by
  simp [renewWork]

theorem init_mounted (hm : s.mounted) :
    platformSpiffsInit workOk fdOk cacheOk ret s = (-1, s) := by
  simp [platformSpiffsInit, SPIFFS_mounted, hm]

theorem init_noWork (hm : s.mounted = false) :
    platformSpiffsInit false fdOk cacheOk ret s = (-1, renewWork false s) := by
  simp [platformSpiffsInit, SPIFFS_mounted, hm, renewWork]

theorem init_noFd (hm : s.mounted = false) :
    platformSpiffsInit true false cacheOk ret s =
      (-1, freeWork (renewFd false (renewWork true s))) := by
  simp [platformSpiffsInit, SPIFFS_mounted, hm, renewWork, renewFd]

theorem init_noCache (hm : s.mounted = false) :
    platformSpiffsInit true true false ret s =
      (-1, freeFd (freeWork (renewCache false (renewFd true (renewWork true s))))) := by
  simp [platformSpiffsInit, SPIFFS_mounted, hm, renewWork, renewFd, renewCache]

theorem init_all (hm : s.mounted = false) :
    platformSpiffsInit true true true ret s =
      let t := SPIFFS_mount ret (renewCache true (renewFd true (renewWork true s)))
      if ret = -1 then (-1, freeCache (freeFd (freeWork t))) else (ret, t) := by
  simp [platformSpiffsInit, SPIFFS_mounted, hm, renewWork, renewFd, renewCache]

theorem FsCtx.Inv.init (h : s.Inv) (hharm : Harmless s (.init workOk fdOk cacheOk ret)) :
    (platformSpiffsInit workOk fdOk cacheOk ret s).2.Inv := by
  cases hm : s.mounted with
  | true => rwa [init_mounted hm]
  | false =>
    rcases hharm with hm' | rfl | ⟨rfl, rfl, hret⟩
    · simp [hm] at hm'
    · rw [init_noWork hm]
      exact ⟨renewWork_owns h.owns, fun hm' => by simp [renewWork, hm] at hm'⟩
    · cases workOk with
      | false =>
        rw [init_noWork hm]
        exact ⟨renewWork_owns h.owns, fun hm' => by simp [renewWork, hm] at hm'⟩
      | true =>
        rw [init_all hm]
        simp only [if_neg hret]
        refine ⟨renewCache_owns (renewFd_owns (renewWork_owns h.owns)), fun _ => ?_⟩
        simp [buffers, SPIFFS_mount, renewCache, renewFd, renewWork]

/-- An initialisation that fails after the first buffer leaves its pointer behind. -/
theorem init_not_sound (hharm : ¬ Harmless s (.init workOk fdOk cacheOk ret)) :
    ¬ (platformSpiffsInit workOk fdOk cacheOk ret s).2.Sound := by
  simp only [Harmless, not_or, Bool.not_eq_true, Bool.not_eq_false] at hharm
  obtain ⟨hm, rfl, hfail⟩ := hharm
  obtain ⟨b, hb⟩ := Option.ne_none_iff_exists'.mp (@renewWork_workBuf s)
  cases fdOk with
  | false =>
    rw [init_noFd hm]
    exact not_sound_of_freed (b := b) hb (freeWork_dead hb)
  | true =>
    cases cacheOk with
    | false =>
      rw [init_noCache hm]
      exact not_sound_of_freed (b := b) hb (freeFd_dead (freeWork_dead hb))
    | true =>
      have hret : ret = -1 := by simpa using hfail
      rw [init_all hm]
      simp only [if_pos hret]
      exact not_sound_of_freed (b := b) hb (freeCache_dead (freeFd_dead (freeWork_dead hb)))

end Init

theorem exit_not_sound {s : FsCtx} (h : s.Inv) (hm : s.mounted) :
    ¬ (platformSpiffsExit s).2.Sound := by
  have hwork : s.workBuf ≠ none := h.mounted hm s.workBuf (by simp [FsCtx.buffers])
  obtain ⟨b, hb⟩ := Option.ne_none_iff_exists'.mp hwork
  rw [platformSpiffsExit, if_pos (show SPIFFS_mounted s from hm)]
  have hb' : (SPIFFS_unmount s).workBuf = some b := hb
  exact not_sound_of_freed (b := b) hb' (freeCache_dead (freeFd_dead (freeWork_dead hb')))

theorem FsCtx.Inv.step {s : FsCtx} (h : s.Inv) {o : PlatformOp} (hharm : Harmless s o) :
    (platformStep s o).Inv := by
  cases o with
  | init workOk fdOk cacheOk ret => exact h.init hharm
  | exit format =>
    have hexit : platformSpiffsExit s = (0, s) := by
      rw [platformSpiffsExit, SPIFFS_mounted, show s.mounted = false from hharm]
      rfl
    rwa [platformStep, hexit]

theorem sound_step_iff {s : FsCtx} (h : s.Inv) (o : PlatformOp) :
    (platformStep s o).Sound ↔ Harmless s o := by
  refine ⟨fun hsound => ?_, fun hharm => (h.step hharm).sound⟩
  cases o with
  | init workOk fdOk cacheOk ret =>
    by_contra hharm
    exact init_not_sound hharm hsound
  | exit format =>
    apply Bool.eq_false_iff.mpr
    intro hm
    exact exit_not_sound h hm hsound

/-- Between calls the buffers of `fs_ctx` are valid exactly if no call so far has freed the first
one and left its pointer. -/
theorem buffers_valid_iff (ops : List PlatformOp) :
    Lib.History.Each platformStep (fun s o => (platformStep s o).Sound) FsCtx.start ops ↔
      Lib.History.Each platformStep Harmless FsCtx.start ops :=
  have hall : Lib.History.Each platformStep (fun _ _ => True) FsCtx.start ops :=
    fun _ _ _ _ => trivial
  Lib.History.each_iff (fun _ o h _ => sound_step_iff h o) (fun _ _ h _ hharm => h.step hharm)
    FsCtx.Inv.start hall

def remount : List PlatformOp := [.init true true true 0, .exit 0, .init true true true 0]

theorem remount_frees_twice :
    ¬ Lib.History.Each platformStep (fun s o => (platformStep s o).Sound) FsCtx.start remount ∧
      (Lib.History.run platformStep FsCtx.start remount).heap.doubleFree := by
  have hexit :
      (platformStep (platformStep FsCtx.start (.init true true true 0)) (.exit 0)).heap.live 0
        = false := by decide
  refine ⟨fun hsound => ?_, by decide⟩
  rw [remount, Lib.History.each_cons, Lib.History.each_cons] at hsound
  have hlive := hsound.2.1.1 0 (by decide)
  simp [hexit] at hlive

end Mangoxx.Spiffs
