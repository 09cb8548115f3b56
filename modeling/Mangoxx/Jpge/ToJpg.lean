import Mangoxx.Jpge.Output
import Mangoxx.Lib.Memory

namespace Mangoxx.Jpge

open Mangoxx.Lib

structure JpgBuf where
  buf : Memory UInt8
  size : Int
  cnt : Int

namespace JpgBuf

def start (buf : Memory UInt8) : JpgBuf := ⟨buf, 1024 * 1024, 0⟩

def putBuf (pBuf : PutBufCall) (b : JpgBuf) : Bool × JpgBuf :=
  match pBuf with
  | none => (true, b)
  | some data =>
    let len : Int := if (data.length : Int) > b.size - b.cnt then b.size - b.cnt else data.length
    if len ≠ 0 then
      (true, { b with buf := b.buf.store b.cnt (data.take len.toNat), cnt := b.cnt + len })
    else (true, b)

def putAll (calls : List PutBufCall) (b : JpgBuf) : Bool × JpgBuf :=
  calls.foldl (fun r call =>
    let r' := putBuf call r.2
    (r.1 && r'.1, r'.2)) (true, b)

def stored (b : JpgBuf) : List UInt8 := b.buf.load 0 b.cnt.toNat

def stream (calls : List PutBufCall) : List UInt8 := calls.flatMap fun call => call.getD []

/-- The buffer after the bytes `bytes`: what does not fit is missing. -/
def after (buf : Memory UInt8) (bytes : List UInt8) : JpgBuf :=
  ⟨buf.store 0 (bytes.take 1048576), 1048576, (min bytes.length 1048576 : Nat)⟩

theorem putBuf_after (buf : Memory UInt8) (bytes : List UInt8) (call : PutBufCall) :
    putBuf call (after buf bytes) = (true, after buf (bytes ++ call.getD [])) := by
  cases call with
  | none => simp [putBuf]
  | some data =>
    obtain ⟨len, hlen⟩ : ∃ len, len = min data.length (1048576 - bytes.length) := ⟨_, rfl⟩
    have hroom : (after buf bytes).size - (after buf bytes).cnt =
        1048576 - (min bytes.length 1048576 : Nat) := rfl
    have hfits : (if (data.length : Int) > (after buf bytes).size - (after buf bytes).cnt then
        (after buf bytes).size - (after buf bytes).cnt else data.length) = (len : Int) := by
      split
      · omega
      · omega
    have htake : (bytes ++ data).take 1048576 = bytes.take 1048576 ++ data.take len := by
      rw [List.take_append, List.append_cancel_left_eq, List.take_eq_take_iff]
      omega
    have hstore : (buf.store 0 (bytes.take 1048576)).store (min bytes.length 1048576 : Nat)
        (data.take len) = buf.store 0 ((bytes ++ data).take 1048576) := by
      rw [htake, Memory.store_append, List.length_take, Int.zero_add, Nat.min_comm]
    have hcnt : ((min bytes.length 1048576 : Nat) : Int) + (len : Int) =
        (min (bytes ++ data).length 1048576 : Nat) := by
      rw [List.length_append]
      omega
    simp only [putBuf, hfits, Int.toNat_natCast]
    by_cases hzero : (len : Int) = 0
    · have hlen0 : len = 0 := by omega
      rw [if_neg (not_not.mpr hzero), after, after, Option.getD_some, htake, hlen0, List.take_zero,
        List.append_nil, ← hcnt, hzero, Int.add_zero]
    · rw [if_pos hzero]
      simp only [after, Option.getD_some, hstore, hcnt]

theorem putAll_after (buf : Memory UInt8) (calls : List PutBufCall) (bytes : List UInt8) :
    putAll calls (after buf bytes) = (true, after buf (bytes ++ stream calls)) := by
  induction calls using List.reverseRecOn with
  | nil => simp [putAll, stream]
  | append_singleton calls call ih =>
    rw [putAll] at ih
    simp only [putAll, List.foldl_append, List.foldl_cons, List.foldl_nil, ih, putBuf_after]
    simp [stream]

theorem putAll_start (buf : Memory UInt8) (calls : List PutBufCall) :
    putAll calls (start buf) = (true, after buf (stream calls)) := by
  have hstart : start buf = after buf [] := by
    simp only [start, after, List.take_nil, Memory.store_nil]
    rfl
  rw [hstart, putAll_after, List.nil_append]

theorem putAll_answers (buf : Memory UInt8) (calls : List PutBufCall) :
    (putAll calls (start buf)).1 = true := by
  rw [putAll_start]

theorem stored_after (buf : Memory UInt8) (bytes : List UInt8) :
    (after buf bytes).stored = bytes.take 1048576 := by
  have hlength : (min bytes.length 1048576 : Nat) = (bytes.take 1048576).length := by
    rw [List.length_take, Nat.min_comm]
  simp only [stored, after, Int.toNat_natCast]
  rw [hlength, Memory.load_store_self]

/-- Every call returns true; what is stored is all that was handed over if and only if that fits. -/
theorem all_stored_iff (buf : Memory UInt8) (calls : List PutBufCall) :
    let r := putAll calls (start buf)
    (r.1 = true → r.2.stored = stream calls ∧ r.2.cnt ≤ r.2.size) ↔
      (stream calls).length ≤ 1024 * 1024 := by
  intro r
  have hr : r = (true, after buf (stream calls)) := putAll_start buf calls
  have hcnt : (after buf (stream calls)).cnt ≤ (after buf (stream calls)).size := by
    simp only [after]
    omega
  rw [hr, stored_after]
  constructor
  · intro h
    have hlength := congrArg List.length (h rfl).1
    rw [List.length_take] at hlength
    omega
  · intro h _
    exact ⟨List.take_of_length_le h, hcnt⟩

def blocks (n : Nat) (data : List UInt8) : List PutBufCall := List.replicate n (some data) ++ [none]

theorem blocks_length (n : Nat) (data : List UInt8) :
    (stream (blocks n data)).length = n * data.length := by
  simp [stream, blocks, List.length_flatMap]

/-- 2049 full blocks of the output buffer of the encoder do not fit. -/
theorem full_blocks_truncated :
    let r := putAll (blocks 2049 (List.replicate outBufSize 0x55)) (start fun _ => 0)
    r.1 = true ∧ r.2.stored ≠ stream (blocks 2049 (List.replicate outBufSize 0x55)) := by
  intro r
  have hlength := blocks_length 2049 (List.replicate outBufSize 0x55)
  rw [List.length_replicate] at hlength
  have hr : r = _ := putAll_start _ _
  rw [hr, stored_after]
  refine ⟨rfl, fun heq => ?_⟩
  have hsize : outBufSize = 512 := rfl
  have hshort := congrArg List.length heq
  rw [List.length_take] at hshort
  omega

end JpgBuf

end Mangoxx.Jpge
