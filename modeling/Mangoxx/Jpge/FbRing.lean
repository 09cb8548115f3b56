import Mangoxx.Jpge.FbIo

namespace Mangoxx.Jpge.Ring

open Mangoxx.Lib Mangoxx.Lib.CInt Mangoxx.Lib.History Mangoxx.Lib.Memory

def step (s : Ring) : Op → Ring
  | .put data => s.produce data
  | .get n => s.consume n

def Allowed (s : Ring) : Op → Prop
  | .put data => (data.length : Int) ≤ fbIoSpaceTailLen s.io
  | .get n => (n : Int) ≤ fbIoDataLen s.io

/-- The step stays inside the first `size` bytes, `fb_io_inc_head` or `fb_io_inc_tail` accepts it,
and what has been read is a beginning of what has been stored. -/
def Sound (size : Int) (s : Ring) (o : Op) : Prop :=
  (match o with
    | .put data => Within 0 size s.io.head data.length ∧ (fbIoIncHead s.io data.length).1 ≠ -1
    | .get n => Within 0 size s.io.tail n ∧ (fbIoIncTail s.io n).1 ≠ -1) ∧
  (s.step o).consumed <+: (s.step o).produced

def Fits (s : Ring) : Op → Prop
  | .put data => s.io.len = 0 → s.io.head + data.length ≤ s.io.size
  | .get _ => True

structure Plain (size extra : Int) (s : Ring) : Prop extends Inv size extra s where
  fixed : s.io.realSize = size

variable {size extra : Int} {s : Ring}

theorem spaceTailLen_eq {io : FbIo} {mem : Memory UInt8} {q : List UInt8} (h : Layout io mem q)
    (hsize : 0 < io.size) (hrange : io.realSize < 2 ^ 31) : fbIoSpaceTailLen io =
      if io.head > io.tail then io.realSize - io.head else io.realSize - io.len := by
  obtain ⟨htail, hlt, hhead, hle, hq, hlen⟩ := h.ranges hsize hrange
  have hsize' := io.size_inRange.2
  have hhead' : int32 (io.realSize - io.head) = io.realSize - io.head :=
    int32_eq ⟨by omega, by omega⟩
  have hlen' : int32 (io.realSize - io.len) = io.realSize - io.len := int32_eq ⟨by omega, by omega⟩
  rw [fbIoSpaceTailLen, hhead', hlen']

/-- On a buffer that is not empty `fb_io_space_tail_len` ends at the reader or at the end. -/
theorem put_layout (hsize : 0 < s.io.size) (hfixed : s.io.realSize = s.io.size)
    {data q : List UInt8} (hallowed : (data.length : Int) ≤ fbIoSpaceTailLen s.io)
    (hfits : s.Fits (.put data)) (h : Layout s.io s.mem q) :
    Layout (fbIoIncHead s.io data.length).2 (store s.mem s.io.head data) (q ++ data) ∧
      Within 0 s.io.size s.io.head data.length ∧ s.io.len + data.length ≤ s.io.realSize := by
  have hrange : s.io.realSize < 2 ^ 31 := hfixed ▸ s.io.size_inRange.2
  rw [spaceTailLen_eq h hsize hrange] at hallowed
  rw [within_iff]
  simp only [Fits] at hfits
  cases h with
  | straight _ htail hlt hhead hle hreal hlen hload =>
    have hfit : s.io.head + data.length ≤ s.io.size := by
      split at hallowed <;> omega
    exact ⟨.put_straight htail hlt hhead hlen hload (by omega) hrange
      (.inl hreal), by omega, by omega⟩
  | wrapped older newer hnewer hle horder hlt holder hlen hload hload' =>
    rw [if_neg (by omega)] at hallowed
    exact ⟨.put_wrapped hnewer (by omega) (by omega) hlt hrange holder hlen hload hload', by omega,
      by omega⟩
  | apart htail hhead hreal hlen =>
    rw [if_pos (by omega)] at hallowed
    have hnil : data = [] := List.eq_nil_of_length_eq_zero (by omega)
    subst hnil
    refine ⟨?_, .inl rfl, by dsimp only [List.length_nil]; omega⟩
    rw [fbIoIncHead_accepts (by dsimp only [List.length_nil]; omega) (by omega) hrange (by omega)
      (by dsimp only [List.length_nil]; omega)]
    dsimp only [List.length_nil]
    rw [if_pos (by omega)]
    exact .straight [] (by dsimp only; omega) (by dsimp only; omega)
      (by dsimp only [List.length_nil]; omega) (by dsimp only; omega)
      hreal (by dsimp only [List.length_nil]; omega) rfl

namespace Plain

theorem get_sound (h : Plain size extra s) (hsize : 0 < size) {n : Nat}
    (hallowed : (n : Int) ≤ fbIoDataLen s.io) : s.Sound size (.get n) := by
  obtain ⟨q, hlayout, -⟩ := h.unread
  have hfixed := h.fixed
  have hpos : 0 < s.io.size := h.size_eq ▸ hsize
  obtain ⟨-, -, -, htail, hend⟩ := hlayout.read hpos h.range hallowed
  refine ⟨⟨within_iff.mpr (.inr ⟨htail, by omega⟩), ?_⟩, (h.toInv.consume hsize hallowed).2⟩
  rw [hlayout.incTail_eq hpos h.range hallowed]
  exact (by omega : (n : Int) ≠ -1)

theorem put (h : Plain size extra s) (hsize : 0 < size)
    (hallowed : s.Allowed (.put data)) (hfits : s.Fits (.put data)) :
    Plain size extra (s.produce data) := by
  have hsize' := h.size_eq
  refine ⟨h.toInv.produce hsize' h.extra_eq (.inl h.fixed) fun q hlayout => ?_, ?_⟩
  · exact (put_layout (by omega) (by rw [h.fixed, hsize']) hallowed hfits hlayout).1
  · exact (fbIoIncHead_keeps s.io data.length).2.2.trans h.fixed

theorem put_sound (h : Plain size extra s) (hsize : 0 < size)
    (hallowed : s.Allowed (.put data)) (hfits : s.Fits (.put data)) :
    s.Sound size (.put data) := by
  have hsize' := h.size_eq
  obtain ⟨q, hlayout, -⟩ := h.unread
  obtain ⟨-, hwithin, hroom⟩ :=
    put_layout (by omega) (by rw [h.fixed, hsize']) hallowed hfits hlayout
  obtain ⟨-, -, hhead, hle, hq, -⟩ := hlayout.ranges (by omega) h.range
  have hrange := h.range
  have hfixed := h.fixed
  have hend : s.io.head + data.length < 2 ^ 31 := by
    rcases within_iff.mp hwithin with hzero | ⟨-, hend⟩ <;> omega
  refine ⟨⟨hsize' ▸ hwithin, ?_⟩, (h.put hsize hallowed hfits).delivered⟩
  rw [fbIoIncHead_accepts hroom (by omega) hrange hhead hend]
  exact (by omega : (data.length : Int) ≠ -1)

theorem sound_iff (hsize : 0 < size) (s : Ring) (o : Op) (h : Plain size extra s)
    (hallowed : s.Allowed o) : s.Sound size o ↔ s.Fits o := by
  cases o with
  | get n => exact iff_of_true (h.get_sound hsize hallowed) trivial
  | put data =>
    refine ⟨fun hsound hempty => ?_, h.put_sound hsize hallowed⟩
    have hhead : s.io.head ≤ s.io.size := by
      obtain ⟨q, hlayout, -⟩ := h.unread
      cases hlayout with
      | straight | wrapped => assumption
      | apart _ hhead => exact Int.le_of_eq hhead
    have hsize' := h.size_eq
    have hwithin := within_iff.mp hsound.1.1
    omega

theorem step (hsize : 0 < size) (s : Ring) (o : Op) (h : Plain size extra s)
    (hallowed : s.Allowed o) (hfits : s.Fits o) : Plain size extra (s.step o) := by
  cases o with
  | put data => exact h.put hsize hallowed hfits
  | get n =>
    refine ⟨(h.toInv.consume hsize hallowed).1, ?_⟩
    rcases fbIoIncTail_realSize s.io n with heq | heq
    · exact heq.trans h.fixed
    · exact heq.trans h.size_eq

end Plain

/-- A run is sound exactly if no block for an empty buffer goes past the end of the buffer. -/
theorem ring_sound_iff (io : FbIo) (mem : Memory UInt8) (ops : List Op) (hsize : 0 < io.size)
    (hallowed : Each Ring.step Allowed (start io mem) ops) :
    Each Ring.step (Sound io.size) (start io mem) ops ↔ Each Ring.step Fits (start io mem) ops :=
  each_iff (I := Plain io.size io.extraSize) (Plain.sound_iff hsize) (Plain.step hsize)
    ⟨Inv.start hsize mem, rfl⟩ hallowed

theorem small_wraps :
    Each step (Sound 4) small [.put [1, 2, 3], .get 2, .put [4], .put [5, 6]] := by
  refine (ring_sound_iff ⟨4, 4, 4, 0, 0, 0, by decide, by decide⟩ (fun _ => 0) _
    (by decide) ?_).mpr ?_
  · simp only [each_cons, each_nil, Allowed]
    decide
  · simp only [each_cons, each_nil, Fits]
    decide

theorem empty_small_overruns :
    Each step Allowed small [.put [1, 2], .get 2, .put [3, 4, 5]] ∧
      ¬ Each step (Sound 4) small [.put [1, 2], .get 2, .put [3, 4, 5]] := by
  constructor
  · simp only [each_cons, each_nil, Allowed]
    decide
  · intro h
    have hlast := (h [.put [1, 2], .get 2] (.put [3, 4, 5]) [] rfl).1.1 2 (by decide)
    revert hlast
    decide

end Mangoxx.Jpge.Ring
