import Mangoxx.Jpge.FbIo
import Mathlib.Algebra.GroupWithZero.Nat

namespace Mangoxx.Jpge.Dma

open Mangoxx.Lib Mangoxx.Lib.CInt Mangoxx.Lib.History Mangoxx.Lib.Memory Mangoxx.Jpge.Ring

def step (s : Ring) : Op → Ring
  | .put data => (s.resize data.length).produce data
  | .get n => s.consume n

def Allowed (s : Ring) : Op → Prop
  | .put data =>
    0 < data.length ∧ data.length < s.io.extraSize ∧ (data.length : Int) ≤ fbIoSpaceLen s.io
  | .get n => (n : Int) ≤ fbIoDataLen s.io

structure Consistent (size extra : Int) (s : Ring) : Prop where
  real : s.io.realSize = size ∨ size < s.io.realSize ∧ s.io.realSize < size + extra
  data : s.io.len > 0 → fbIoDataLen s.io > 0
  reads : ∀ ns : List Nat, Each step Allowed s (ns.map .get) →
    (run step s (ns.map .get)).consumed <+: s.produced

/-- The step stays inside the memory of the buffer, the block is accepted, and the buffer is
consistent afterwards. -/
def Sound (size extra : Int) (s : Ring) (o : Op) : Prop :=
  (match o with
    | .put data => Within 0 (size + extra) s.io.head data.length ∧
        (fbIoIncHead (fbIoResize s.io data.length) data.length).1 ≠ -1
    | .get n => Within 0 (size + extra) s.io.tail n) ∧
  Consistent size extra (step s o)

/-- The end of the buffer is not moved in front of the reader, an empty buffer has its writer and
its reader at one place, and the end is only moved if the sum of the sizes is an `int`. -/
def Fits (s : Ring) : Op → Prop
  | .put data =>
    (s.io.head < s.io.tail → s.io.head + data.length ≤ s.io.size) ∧
      (s.io.len = 0 → s.io.head = s.io.tail) ∧
      (s.io.head + data.length > s.io.size → s.io.size + s.io.extraSize < 2 ^ 31)
  | .get _ => True

/-- Without extra memory no block is allowed, and where the sum of the sizes overflows no end is
ever moved. -/
structure Blocks (size extra : Int) (s : Ring) : Prop extends Inv size extra s where
  possible : 0 < extra ∨ s.io.len = 0
  fixed : 2 ^ 31 ≤ size + extra → s.io.head < size

variable {size extra : Int} {s : Ring}

section Resize

variable {io : FbIo} {n : Nat}

theorem fbIoResize_fits (hhead : 0 ≤ io.head) (hfit : io.head + n ≤ io.size) :
    fbIoResize io n = io := by
  have hsize := io.size_inRange.2
  have hend : int32 (io.head + n) = io.head + n := int32_eq ⟨by omega, by omega⟩
  rw [fbIoResize, hend, if_neg (by omega)]

theorem fbIoResize_grows (hhead : 0 ≤ io.head) (hle : io.head ≤ io.size) (hn : n < io.extraSize)
    (hend : io.head + n > io.size) (hsum : io.size + io.extraSize < 2 ^ 31) :
    fbIoResize io n = { io with realSize := io.head + n } := by
  have hend' : int32 (io.head + n) = io.head + n := int32_eq ⟨by omega, by omega⟩
  have hsum' : int32 (io.size + io.extraSize) = io.size + io.extraSize :=
    int32_eq ⟨by omega, by omega⟩
  rw [fbIoResize, hend', hsum', if_pos ⟨hend, by omega⟩]

/-- The sum is negative, so nothing is below it that is above `size`. -/
theorem fbIoResize_overflow (hsize : 0 < io.size) (hsum : 2 ^ 31 ≤ io.size + io.extraSize) :
    fbIoResize io n = io := by
  have hsize' := io.size_inRange.2
  have hextra' := io.extraSize_inRange.2
  have hneg : int32 (io.size + io.extraSize) = io.size + io.extraSize - 2 ^ 32 := by
    unfold int32
    omega
  rw [fbIoResize, hneg, if_neg (by omega)]

theorem fbIoResize_keeps (io : FbIo) (n : Int) :
    (fbIoResize io n).size = io.size ∧ (fbIoResize io n).extraSize = io.extraSize ∧
      (fbIoResize io n).head = io.head := by
  unfold fbIoResize
  split <;> exact ⟨rfl, rfl, rfl⟩

end Resize

structure Appends (io io' : FbIo) (mem : Memory UInt8) (q data : List UInt8) : Prop where
  layout : Layout (fbIoIncHead io' data.length).2 (store mem io'.head data) (q ++ data)
  within : Within 0 (io.size + io.extraSize) io.head data.length
  accepted : (fbIoIncHead io' data.length).1 = data.length
  real : io'.realSize = io.realSize ∨
    io.size < io'.realSize ∧ io'.realSize < io.size + io.extraSize ∧
      io.size + io.extraSize < 2 ^ 31
  fixed : 2 ^ 31 ≤ io.size + io.extraSize → (fbIoIncHead io' data.length).2.head < io.size

theorem appends {data q : List UInt8} (hinv : Inv size extra s) (hallowed : Allowed s (.put data))
    (hfits : Fits s (.put data)) (h : Layout s.io s.mem q) (hsize : 0 < s.io.size) :
    Appends s.io (fbIoResize s.io data.length) s.mem q data := by
  have hrange := hinv.range
  have hsize' := s.io.size_inRange.2
  obtain ⟨hpos, hblock, hspace⟩ := hallowed
  obtain ⟨hbehind, hempty, hsum⟩ := hfits
  rw [h.spaceLen hsize hrange] at hspace
  cases h with
  | straight _ htail hlt hhead hle hreal hlen hload =>
    have hwithin : Within 0 (s.io.size + s.io.extraSize) s.io.head data.length :=
      within_iff.mpr (.inr ⟨by omega, by omega⟩)
    by_cases hend : s.io.head + data.length > s.io.size
    · have hsum := hsum hend
      rw [fbIoResize_grows (by omega) hle hblock hend hsum]
      refine ⟨.put_straight htail hlt hhead hlen hload (Int.le_refl _) (by dsimp only; omega)
        (.inr ⟨hend, rfl⟩), hwithin, ?_, .inr ⟨hend, by dsimp only; omega, hsum⟩, by omega⟩
      rw [fbIoIncHead_accepts (by dsimp only; omega) (by dsimp only; omega) (by dsimp only; omega)
        (by dsimp only; omega) (by dsimp only; omega)]
    · have haccepts := @fbIoIncHead_accepts s.io data.length (by omega) (by omega)
        hrange (by omega) (by omega)
      rw [fbIoResize_fits (by omega) (by omega)]
      refine ⟨.put_straight htail hlt hhead hlen hload (by omega) hrange (.inl hreal), hwithin,
        by rw [haccepts], .inl rfl, fun _ => ?_⟩
      rw [haccepts]
      dsimp only
      split <;> (dsimp only; omega)
  | wrapped older newer hnewer hle horder hlt holder hlen hload hload' =>
    have hfree : s.io.head + data.length ≤ s.io.tail := by omega
    have hend := hbehind (by omega)
    have haccepts := @fbIoIncHead_accepts s.io data.length (by omega) (by omega)
      hrange (by omega) (by omega)
    rw [fbIoResize_fits (by omega) hend]
    refine ⟨.put_wrapped hnewer hend hfree hlt hrange holder hlen hload hload',
      within_iff.mpr (.inr ⟨by omega, by omega⟩), by rw [haccepts], .inl rfl, fun hsum => ?_⟩
    have hreal := hinv.real
    have hsize'' := hinv.size_eq
    have hextra'' := hinv.extra_eq
    rw [haccepts]
    dsimp only
    split <;> (dsimp only; omega)
  | apart htail hhead hreal hlen =>
    have hmeet := hempty hlen
    omega

theorem put (h : Blocks size extra s) (hsize : 0 < size) {data : List UInt8}
    (hallowed : Allowed s (.put data)) (hfits : Fits s (.put data)) :
    Blocks size extra (step s (.put data)) := by
  obtain ⟨hsize', hextra', -⟩ := fbIoResize_keeps s.io data.length
  have hio := h.size_eq
  have hio' := h.extra_eq
  have hreal := h.real
  have happends : ∀ q, Layout s.io s.mem q →
      Appends s.io (fbIoResize s.io data.length) s.mem q data :=
    fun q hlayout => appends h.toInv hallowed hfits hlayout (by omega)
  obtain ⟨q, hlayout, -⟩ := h.unread
  refine ⟨h.toInv.produce (hsize'.trans hio) (hextra'.trans hio') ?_ fun q hlayout =>
    (happends q hlayout).layout, ?_, ?_⟩
  · rcases (happends q hlayout).real with heq | hbetween
    · rw [heq]
      exact hreal
    · rw [hio, hio'] at hbetween
      exact .inr hbetween
  · obtain ⟨hpos, hblock, -⟩ := hallowed
    left
    omega
  · intro hsum
    have hfixed := (happends q hlayout).fixed (by omega)
    exact hio ▸ hfixed

theorem get (h : Blocks size extra s) (hsize : 0 < size) {n : Nat} (hallowed : Allowed s (.get n)) :
    Blocks size extra (step s (.get n)) := by
  obtain ⟨q, hlayout, -⟩ := h.unread
  have hpos : 0 < s.io.size := h.size_eq ▸ hsize
  have haccepts := hlayout.incTail_eq hpos h.range hallowed
  have hhead : (step s (.get n)).io.head = s.io.head := by
    simp only [step, Ring.consume, haccepts]
    split <;> rfl
  refine ⟨(h.toInv.consume hsize hallowed).1, ?_, fun hsum => hhead ▸ h.fixed hsum⟩
  rcases h.possible with hextra | hlen
  · exact .inl hextra
  · right
    have hzero : n = 0 := by
      rw [Allowed, hlayout.dataLen hpos h.range, if_neg (by omega)] at hallowed
      omega
    simp only [step, Ring.consume, haccepts]
    split <;> (dsimp only; omega)

theorem keeps (hsize : 0 < size) (s : Ring) (o : Op) (h : Blocks size extra s)
    (hallowed : Allowed s o) (hfits : Fits s o) : Blocks size extra (step s o) := by
  cases o with
  | put data => exact put h hsize hallowed hfits
  | get n => exact get h hsize hallowed

theorem reads (h : Blocks size extra s) (hsize : 0 < size) (ns : List Nat)
    (hallowed : Each step Allowed s (ns.map .get)) :
    (run step s (ns.map .get)).consumed <+: s.produced := by
  induction ns generalizing s with
  | nil => exact h.toInv.delivered
  | cons n ns ih =>
    rw [List.map_cons, each_cons] at hallowed
    exact ih (get h hsize hallowed.1) hallowed.2

theorem consistent (h : Blocks size extra s) (hsize : 0 < size) : Consistent size extra s := by
  obtain ⟨q, hlayout, -⟩ := h.unread
  refine ⟨h.real.imp_right fun hreal => ⟨hreal.1, hreal.2.1⟩, fun hlen => ?_, reads h hsize⟩
  rw [hlayout.dataLen (h.size_eq ▸ hsize) h.range]
  cases hlayout with
  | straight _ htail hlt hhead hle hreal hlen' hload => split <;> omega
  | wrapped older newer hnewer hle horder hlt holder hlen' hload hload' => split <;> omega
  | apart htail hhead hreal hlen' => omega

theorem refused (h : Inv size extra s) (hsize : 0 < size) {data : List UInt8}
    (hallowed : Allowed s (.put data)) (hbehind : s.io.head < s.io.tail)
    (hend : s.io.size < s.io.head + data.length) :
    (fbIoIncHead (fbIoResize s.io data.length) data.length).1 = -1 := by
  have hrange := h.range
  have hsize' := h.size_eq
  have hextra' := h.extra_eq
  have hreal := h.real
  obtain ⟨q, hlayout, -⟩ := h.unread
  obtain ⟨-, hblock, hspace⟩ := hallowed
  rw [hlayout.spaceLen (hsize' ▸ hsize) hrange] at hspace
  cases hlayout with
  | straight _ htail hlt hhead hle hreal hlen hload => omega
  | wrapped older newer hnewer hle horder hlt holder hlen hload hload' =>
    have hsum : s.io.size + s.io.extraSize < 2 ^ 31 := by omega
    have hlen' : int32 (s.io.len + data.length) = s.io.len + data.length :=
      int32_eq ⟨by omega, by omega⟩
    rw [fbIoResize_grows (by omega) hle hblock hend hsum, fbIoIncHead]
    dsimp only
    rw [hlen', if_pos (by omega)]
  | apart htail hhead hreal hlen => omega

theorem consumed_length (s : Ring) (ns : List Nat) :
    (run step s (ns.map .get)).consumed.length = s.consumed.length + ns.sum := by
  induction ns generalizing s with
  | nil => rfl
  | cons n ns ih =>
    rw [List.map_cons, run, List.foldl_cons, ← run, ih, List.sum_cons]
    simp [step, Ring.consume, Nat.add_assoc]

theorem Consistent.next (h : Consistent size extra s) {n : Nat}
    (hn : (n : Int) ≤ fbIoDataLen s.io) : s.consumed.length + n ≤ s.produced.length := by
  have hread := (h.reads [n] (each_cons.mpr ⟨hn, each_nil _ _⟩)).length_le
  rwa [consumed_length, List.sum_singleton] at hread

theorem inconsistent (h : Blocks size extra s) (hsize : 0 < size) {data : List UInt8}
    (hallowed : Allowed s (.put data)) (hempty : s.io.len = 0) (happart : s.io.head ≠ s.io.tail) :
    ¬ Consistent size extra (step s (.put data)) := by
  intro hcons
  have hrange := h.range
  have hsize' := h.size_eq
  have hextra' := h.extra_eq
  have hfixed := h.fixed
  obtain ⟨q, hlayout, hproduced⟩ := h.unread
  obtain ⟨hpos, hblock, hspace⟩ := hallowed
  rw [hlayout.spaceLen (hsize' ▸ hsize) hrange] at hspace
  cases hlayout with
  | straight _ htail hlt hhead hle hreal hlen hload => omega
  | wrapped older newer hnewer hle horder hlt holder hlen hload hload' => omega
  | apart htail hhead hreal hlen =>
    have hsum : s.io.size + s.io.extraSize < 2 ^ 31 := by omega
    have hgrows : fbIoResize s.io data.length = { s.io with realSize := s.io.head + data.length } :=
      fbIoResize_grows (by omega) (by omega) hblock (by omega) hsum
    have hio : (step s (.put data)).io = { s.io with
        realSize := s.io.head + data.length, head := 0, len := s.io.len + data.length } := by
      rw [step, Ring.produce, Ring.resize, hgrows, fbIoIncHead_accepts (by dsimp only; omega)
        (by dsimp only; omega) (by dsimp only; omega) (by dsimp only; omega) (by dsimp only; omega)]
      dsimp only
      rw [if_pos (by omega)]
    have hdata : fbIoDataLen (step s (.put data)).io = size + data.length := by
      have hint : int32 (s.io.head + data.length - s.io.tail) = s.io.head + data.length -
          s.io.tail :=
        int32_eq ⟨by omega, by omega⟩
      rw [hio, fbIoDataLen]
      dsimp only
      rw [if_pos (by omega), hint]
      omega
    have hlength := hcons.next (n := (size + data.length).toNat) (by omega)
    have hnil : s.produced.length = s.consumed.length := by rw [hproduced, List.append_nil]
    simp only [step, Ring.produce, Ring.resize, List.length_append] at hlength
    omega

/-- With the writer at the start of the buffer or in front of it, the reader takes all bytes up to
the end of the buffer and then once more as many as it holds. -/
theorem reads_past (hhead : s.io.head ≤ 0) (htail : 0 ≤ s.io.tail) (hlt : s.io.tail < s.io.size)
    (hreal : s.io.realSize = s.io.size) (hlen : s.io.size - s.io.tail < s.io.len)
    (hle : s.io.len ≤ s.io.size) :
    Each step Allowed s ([(s.io.size - s.io.tail).toNat, s.io.size.toNat].map .get) := by
  have hrange := s.io.size_inRange.2
  have hrest : int32 (s.io.realSize - s.io.tail) = s.io.size - s.io.tail := by
    rw [hreal]
    exact int32_eq ⟨by omega, by omega⟩
  have hall : int32 (s.io.size - 0) = s.io.size := by
    rw [Int.sub_zero]
    exact int32_eq s.io.size_inRange
  refine each_cons.mpr ⟨?_, each_cons.mpr ⟨?_, each_nil _ _⟩⟩
  · rw [Allowed, fbIoDataLen, if_pos ⟨by omega, by omega⟩, hrest]
    omega
  · have hio := @fbIoIncTail_accepts s.io (s.io.size - s.io.tail).toNat (by omega)
      htail (by omega) (by omega)
    rw [if_pos (by omega)] at hio
    rw [Allowed, step, Ring.consume, hio, fbIoDataLen]
    dsimp only
    rw [if_pos ⟨hhead, by omega⟩, hall]
    omega

/-- A block across the end that is accepted puts the writer at the start, or, where its end is no
`int`, in front of it. -/
theorem fbIoIncHead_past {io : FbIo} {n : Nat} (h : io.len + n ≤ io.realSize) (hlen : 0 ≤ io.len)
    (hreal : io.realSize < 2 ^ 31) (hhead : io.head + n < 2 ^ 32)
    (hend : io.realSize ≤ io.head + n) :
    ∃ head, head ≤ 0 ∧ (fbIoIncHead io n).2 = { io with head := head, len := io.len + n } := by
  have hlen' : int32 (io.len + n) = io.len + n := int32_eq ⟨by omega, by omega⟩
  rw [fbIoIncHead, hlen', if_neg (by omega)]
  by_cases hhead' : int32 (io.head + n) ≥ io.realSize
  · exact ⟨0, Int.le_refl 0, by simp [hhead', hlen']⟩
  · refine ⟨int32 (io.head + n), ?_, by simp [hhead', hlen']⟩
    unfold int32 at hhead' ⊢
    omega

theorem lost (h : Blocks size extra s) (hsize : 0 < size) {data : List UInt8}
    (hallowed : Allowed s (.put data)) (hend : s.io.size < s.io.head + data.length)
    (hsum : 2 ^ 31 ≤ s.io.size + s.io.extraSize) :
    ¬ Consistent size extra (step s (.put data)) := by
  intro hcons
  have hrange := h.range
  have hsize' := h.size_eq
  have hextra' := h.extra_eq
  have hfixed := h.fixed
  have hreal := h.real
  obtain ⟨q, hlayout, hproduced⟩ := h.unread
  obtain ⟨hpos, hblock, hspace⟩ := hallowed
  rw [hlayout.spaceLen (hsize' ▸ hsize) hrange] at hspace
  have hmax := s.io.extraSize_inRange.2
  have hover : fbIoResize s.io data.length = s.io := fbIoResize_overflow (by omega) hsum
  cases hlayout with
  | wrapped older newer hnewer hle horder hlt holder hlen hload hload' => omega
  | apart htail hhead hreal hlen => omega
  | straight _ htail hlt hhead hle hreal hlen hload =>
    obtain ⟨head, hhead', hio⟩ := @fbIoIncHead_past s.io data.length (by omega)
      (by omega) hrange (by omega) (by omega)
    have hio : (step s (.put data)).io = _ := (congrArg (fun io => (fbIoIncHead io data.length).2)
      hover).trans hio
    have hreads := hcons.reads _ (reads_past (by rw [hio]; exact hhead') (by rw [hio]; exact htail)
      (by rw [hio]; exact hlt) (by rw [hio]; exact hreal) (by rw [hio]; dsimp only; omega)
      (by rw [hio]; dsimp only; omega))
    have hlength := hreads.length_le
    rw [consumed_length, hio] at hlength
    simp only [step, Ring.produce, Ring.resize, hproduced, List.length_append, List.sum_cons,
      List.sum_nil] at hlength
    omega

theorem sound_iff (hsize : 0 < size) (s : Ring) (o : Op) (h : Blocks size extra s)
    (hallowed : Allowed s o) : Sound size extra s o ↔ Fits s o := by
  have hsize' := h.size_eq
  have hextra' := h.extra_eq
  obtain ⟨q, hlayout, -⟩ := h.unread
  cases o with
  | get n =>
    refine iff_of_true ⟨?_, consistent (get h hsize hallowed) hsize⟩ trivial
    obtain ⟨-, -, -, htail, hend⟩ := hlayout.read (by omega) h.range hallowed
    have hreal := h.real
    apply within_iff.mpr
    rcases h.possible with hextra | hlen
    · exact .inr ⟨htail, by omega⟩
    · left
      rw [Allowed, hlayout.dataLen (by omega) h.range, if_neg (by omega)] at hallowed
      omega
  | put data =>
    constructor
    · rintro ⟨⟨-, haccepted⟩, hcons⟩
      refine ⟨fun hbehind => ?_, fun hempty => ?_, fun hend => ?_⟩
      · by_contra hend
        exact haccepted (refused h.toInv hsize hallowed hbehind (by omega))
      · by_contra happart
        exact inconsistent h hsize hallowed hempty happart hcons
      · by_contra hsum
        exact lost h hsize hallowed hend (Int.not_lt.mp hsum) hcons
    · intro hfits
      have happends := appends h.toInv hallowed hfits hlayout (by omega)
      refine ⟨⟨?_, ?_⟩, consistent (put h hsize hallowed hfits) hsize⟩
      · rw [← hsize', ← hextra']
        exact happends.within
      · rw [happends.accepted]
        omega

/-- In a run whose blocks all fit, every block is accepted and the bytes arrive as they were stored;
in any other run a block is refused or leaves the buffer inconsistent. -/
theorem dma_sound_iff (io : FbIo) (mem : Memory UInt8) (ops : List Op) (hsize : 0 < io.size)
    (hallowed : Each step Allowed (start io mem) ops) :
    Each step (Sound io.size io.extraSize) (start io mem) ops ↔
      Each step Fits (start io mem) ops :=
  each_iff (I := Blocks io.size io.extraSize) (sound_iff hsize) (keeps hsize)
    ⟨Inv.start hsize mem, .inr rfl, fun _ => hsize⟩ hallowed

theorem small_resizes :
    Each step (Sound 4 4) small [.put [1, 2, 3], .get 2, .put [4, 5, 6], .get 4] := by
  refine (dma_sound_iff ⟨4, 4, 4, 0, 0, 0, by decide, by decide⟩ (fun _ => 0) _
    (by decide) ?_).mpr ?_
  · simp only [each_cons, each_nil, Allowed]
    decide
  · simp only [each_cons, each_nil, Fits]
    decide

theorem wrapped_small_refuses :
    let ops := [.put [1, 2, 3], .get 2, .put [4, 5, 6], .put [7, 8], .get 3, .put [9, 10, 11]]
    Each step Allowed small ops ∧ ¬ Each step (Sound 4 4) small ops := by
  intro ops
  constructor
  · simp only [ops, each_cons, each_nil, Allowed]
    decide
  · intro h
    have hlast := (h [.put [1, 2, 3], .get 2, .put [4, 5, 6], .put [7, 8], .get 3]
      (.put [9, 10, 11]) [] rfl).1.2
    revert hlast
    decide

end Mangoxx.Jpge.Dma
