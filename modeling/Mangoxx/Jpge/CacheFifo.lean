import Mangoxx.Jpge.CacheBounds
import Mangoxx.Jpge.CacheStore

namespace Mangoxx.Jpge.Cache

open Mangoxx.Lib Mangoxx.Lib.History Mangoxx.Lib.Memory Mangoxx.Lib.CInt

/-- A cache with the bytes of the writes that have succeeded and the bytes that reads have
copied. -/
structure Fifo where
  cache : Cache
  written : List UInt8
  bytesRead : List UInt8

inductive Io
  | write (data : List UInt8)
  | read (n : UInt32)

namespace Fifo

def rewound (c : Cache) : Fifo :=
  ⟨(cacheLseek cacheRd 0 cacheSeekSet (cacheLseek cacheWr 0 cacheSeekSet c).2).2, [], []⟩

def step (s : Fifo) : Io → Fifo
  | .write data =>
    let (r, c) := cacheWrite data s.cache
    { s with cache := c, written := if r = data.length then s.written ++ data else s.written }
  | .read n =>
    let ((_, bytes), c) := cacheRead n s.cache
    { s with cache := c, bytesRead := s.bytesRead ++ bytes }

def Admitted (_ : Fifo) : Io → Prop
  | .write data => data.length < 2 ^ 32
  | .read _ => True

/-- A write is all or nothing, and a read gets what it asks for or what is left, in the order
written. -/
def Queues (s : Fifo) : Io → Prop
  | .write data =>
    if (s.written.length + data.length : Nat) ≤ s.cache.io.maxSize then
      (cacheWrite data s.cache).1 = data.length ∧
        load (cacheWrite data s.cache).2.mem 8 (s.written ++ data).length = s.written ++ data
    else cacheWrite data s.cache = (0, s.cache)
  | .read n =>
    (cacheRead n s.cache).1.1 = min n.toNat (s.written.length - s.bytesRead.length) ∧
      (s.step (.read n)).bytesRead <+: (s.step (.read n)).written

def NoWrap (s : Fifo) : Io → Prop
  | .write data => uint32 s.cache.io.size + data.length < 2 ^ 32
  | .read n => s.cache.io.rd < s.cache.io.size → s.cache.io.rd + n.toNat < 2 ^ 32

instance (s : Fifo) (io : Io) : Decidable (s.NoWrap io) := by
  cases io <;> unfold NoWrap <;> infer_instance

/-- The size and the write position count the bytes written, the read position those read, and what
is written stands behind the header.  With a negative `max_size` nothing is ever written. -/
structure Inv (max : Int) (s : Fifo) : Prop where
  opened : s.cache.io.refCnt > 0
  maxSize : s.cache.io.maxSize = max
  range : InRange max
  size : 0 ≤ max ∧ s.cache.io.size = s.written.length ∧ s.written.length ≤ max ∨
    max < 0 ∧ s.cache.io.size = max ∧ s.written.length = 0
  wr : s.cache.io.wr = s.cache.io.size
  rd : s.cache.io.rd = s.bytesRead.length
  stored : load s.cache.mem 8 s.written.length = s.written
  inOrder : s.bytesRead <+: s.written

variable {max : Int} {s : Fifo}

theorem Inv.read_length (h : Inv max s) : s.bytesRead.length ≤ s.written.length :=
  h.inOrder.length_le

theorem rewound_inv {c : Cache} (hopen : c.io.refCnt > 0) (hmax : InRange c.io.maxSize) :
    Inv c.io.maxSize (rewound c) := by
  obtain ⟨start, hstart⟩ : ∃ start, start = if (0 : Int) ≥ c.io.maxSize then c.io.maxSize else 0 :=
    ⟨_, rfl⟩
  have hboth : rewound c = ⟨{ c with io := { c.io with wr := start, size := start, rd := 0 } }, [],
      []⟩ := by
    have hseek : (cacheLseek cacheWr 0 cacheSeekSet c).2 =
        { c with io := { c.io with wr := start, size := start } } := by
      rw [cacheLseek, if_neg (by omega), if_pos rfl, if_pos rfl, hstart]
    rw [rewound, hseek, cacheLseek, if_neg (by dsimp only; omega), if_neg (by decide), if_pos rfl]
  rw [hboth]
  refine ⟨hopen, rfl, hmax, ?_, rfl, rfl, rfl, List.prefix_refl _⟩
  dsimp only [List.length_nil]
  split at hstart <;> omega

section Writes

variable {data : List UInt8}

theorem Inv.write_eq (h : Inv max s) (hwrap : s.NoWrap (.write data)) :
    cacheWrite data s.cache =
      if data.length = 0 ∨ ¬ (s.written.length + data.length : Nat) ≤ max then (0, s.cache)
      else ((data.length : Int),
        { s.cache.put (8 + s.written.length) data with io := { s.cache.io with
          wr := (s.written ++ data).length, size := (s.written ++ data).length } }) := by
  obtain ⟨hopen, hmaxSize, hrange, hsize, hwr, -, -, -⟩ := h
  simp only [NoWrap] at hwrap
  unfold InRange at hrange
  rw [cacheWrite, if_neg (by omega), hmaxSize]
  by_cases hzero : data.length = 0
  · rw [if_pos (.inl hzero), if_pos (.inl hzero)]
  · have htest : uint32 (s.cache.io.size + data.length) > uint32 max ↔
        ¬ (s.written.length + data.length : Nat) ≤ max := by
      unfold uint32 at hwrap ⊢
      omega
    by_cases hroom : (s.written.length + data.length : Nat) ≤ max
    · have hcount : s.cache.io.size = s.written.length := by omega
      rw [if_neg (by omega), if_neg (by omega)]
      have hint : ∀ n : Nat, n ≤ s.written.length + data.length → int32 (n : Int) = n := by
        intro n hn
        unfold int32
        omega
      have hsum : int32 (s.cache.io.size + data.length) = (s.written ++ data).length := by
        rw [hcount, ← Int.natCast_add, hint _ (Nat.le_refl _), List.length_append]
      simp only [put_io, hwr, hsum, hint data.length (Nat.le_add_left _ _)]
      rw [hcount]
    · rw [if_pos (.inr (htest.mpr hroom)), if_pos (.inr hroom)]

theorem Inv.write_stored (h : Inv max s) :
    load (store s.cache.mem (8 + s.written.length) data) 8 (s.written ++ data).length =
      s.written ++ data := by
  rw [List.length_append, load_add, load_store_self,
    load_store_of_disjoint _ (.inl (Int.le_refl _)), h.stored]

theorem Inv.write (h : Inv max s) (hwrap : s.NoWrap (.write data)) :
    s.Queues (.write data) ∧ Inv max (s.step (.write data)) := by
  have heq := h.write_eq hwrap
  simp only [Queues, step, h.maxSize]
  by_cases hroom : (s.written.length + data.length : Nat) ≤ max
  · rw [if_pos hroom]
    by_cases hzero : data.length = 0
    · rw [if_pos (Or.inl hzero)] at heq
      rw [heq, List.length_eq_zero_iff.mp hzero]
      simpa [h.stored] using h
    · rw [if_neg (by omega)] at heq
      rw [heq]
      refine ⟨⟨rfl, h.write_stored⟩, ?_⟩
      rw [if_pos rfl]
      refine ⟨h.opened, h.maxSize, h.range, .inl ⟨by omega, rfl, ?_⟩, rfl, h.rd,
        h.write_stored, h.inOrder.trans (List.prefix_append _ _)⟩
      rwa [List.length_append]
  · rw [if_pos (Or.inr hroom)] at heq
    rw [if_neg hroom, heq]
    refine ⟨rfl, ?_⟩
    dsimp only
    split
    · rename_i hnone
      rw [List.length_eq_zero_iff.mp (Int.ofNat_eq_zero.mp hnone.symm), List.append_nil]
      exact h
    · exact h

/-- A test that wraps around lets a write through that does not fit. -/
theorem Inv.write_wraps (h : Inv max s) (hlength : data.length < 2 ^ 32)
    (hwrap : ¬ s.NoWrap (.write data)) : ¬ s.Queues (.write data) := by
  obtain ⟨hopen, hmaxSize, hrange, hsize, -, -, -, -⟩ := h
  simp only [NoWrap] at hwrap
  unfold InRange at hrange
  have hsum : uint32 s.cache.io.size + data.length = uint32 (s.cache.io.size + data.length) +
      2 ^ 32 := by
    unfold uint32 at hwrap ⊢
    omega
  have htest : ¬ (data.length = 0 ∨ uint32 (s.cache.io.size + data.length) > uint32 max) := by
    unfold uint32 at hsum hwrap ⊢
    omega
  have hfull : ¬ (s.written.length + data.length : Nat) ≤ max := by
    unfold uint32 at hwrap
    omega
  simp only [Queues, hmaxSize, if_neg hfull]
  rw [cacheWrite, if_neg (by omega), hmaxSize, if_neg htest]
  intro heq
  have hresult := congrArg Prod.fst heq
  exact int32_ne_zero (by omega) hlength hresult

end Writes

section Reads

variable {n : UInt32}

theorem Inv.read_eq (h : Inv max s) (hwrap : s.NoWrap (.read n)) :
    ∃ blocks, InBounds (8 + max) blocks ∧ cacheRead n s.cache =
      let len := min n.toNat (s.written.length - s.bytesRead.length)
      (((len : Int), load s.cache.mem (8 + s.bytesRead.length) len), { s.cache with
        io := { s.cache.io with rd := (s.bytesRead.length + len : Nat) }
        touched := s.cache.touched ++ blocks }) := by
  have hle := h.read_length
  obtain ⟨hopen, hmaxSize, hrange, hsize, -, hrd, -, -⟩ := h
  simp only [NoWrap] at hwrap
  unfold InRange at hrange
  rw [cacheRead, if_neg (by omega)]
  by_cases hn : n = 0
  · refine ⟨[], by simp [InBounds], ?_⟩
    rw [if_pos hn, hn]
    simp [← hrd]
  · have hpos : 0 < n.toNat := Nat.pos_of_ne_zero fun h => hn (UInt32.toNat_inj.mp h)
    rw [if_neg hn]
    by_cases hleft : s.cache.io.rd ≥ s.cache.io.size
    · refine ⟨[], by simp [InBounds], ?_⟩
      rw [if_pos hleft, show s.written.length - s.bytesRead.length = 0 by omega, Nat.min_zero]
      simp [← hrd]
    · have hlen : (if uint32 (s.cache.io.rd + n.toNat) ≥ uint32 s.cache.io.size then
          uint32 (s.cache.io.size - s.cache.io.rd) else n.toNat) =
          min n.toNat (s.written.length - s.bytesRead.length) := by
        unfold uint32
        split <;> omega
      have hint : ∀ k : Nat, k ≤ s.written.length → int32 (k : Int) = k := by
        intro k hk
        unfold int32
        omega
      rw [if_neg hleft, hlen]
      refine ⟨[(8 + s.cache.io.rd, min n.toNat (s.written.length - s.bytesRead.length))], ?_, ?_⟩
      · simp only [InBounds, List.mem_singleton, forall_eq, within_iff]
        omega
      simp only [fetch, touch, hrd, ← Int.natCast_add]
      rw [hint _ (by omega), hint _ (by omega)]

theorem Inv.read (h : Inv max s) (hwrap : s.NoWrap (.read n)) :
    s.Queues (.read n) ∧ Inv max (s.step (.read n)) := by
  obtain ⟨blocks, -, heq⟩ := h.read_eq hwrap
  have hle := h.read_length
  obtain ⟨len, hlen⟩ : ∃ len, len = min n.toNat (s.written.length - s.bytesRead.length) := ⟨_, rfl⟩
  rw [← hlen] at heq
  have hnext : s.bytesRead ++ load s.cache.mem (8 + s.bytesRead.length) len <+: s.written := by
    obtain ⟨rest, hrest⟩ := h.inOrder
    have hdrop : load s.cache.mem (8 + s.bytesRead.length) (s.written.length - s.bytesRead.length) =
        rest := by
      rw [load_drop, h.stored, ← hrest, List.drop_left]
    have hpart := load_mono s.cache.mem (8 + s.bytesRead.length)
      (show len ≤ s.written.length - s.bytesRead.length by omega)
    rw [hdrop] at hpart
    rw [← hrest]
    exact (List.prefix_append_right_inj _).mpr hpart
  simp only [Queues, step, heq, ← hlen]
  refine ⟨⟨trivial, hnext⟩, ?_⟩
  exact ⟨h.opened, h.maxSize, h.range, h.size, h.wr,
    by simp only [List.length_append, load_length], h.stored, hnext⟩

/-- A test that wraps around lets a read through that is longer than what is left. -/
theorem Inv.read_wraps (h : Inv max s) (hwrap : ¬ s.NoWrap (.read n)) : ¬ s.Queues (.read n) := by
  have hle := h.read_length
  obtain ⟨hopen, -, hrange, hsize, -, hrd, -, -⟩ := h
  simp only [NoWrap, not_forall] at hwrap
  obtain ⟨hleft, hsum⟩ := hwrap
  have hn := n.toNat_lt
  unfold InRange at hrange
  have hlen : ¬ uint32 (s.cache.io.rd + n.toNat) ≥ uint32 s.cache.io.size := by
    unfold uint32
    omega
  rintro ⟨hresult, -⟩
  rw [cacheRead, if_neg (by omega), if_neg (by rintro rfl; simp at hsum; omega), if_neg (by omega)]
    at hresult
  simp only [if_neg hlen] at hresult
  unfold int32 at hresult
  omega

end Reads

theorem Inv.step (h : Inv max s) {io : Io} (hwrap : s.NoWrap io) :
    s.Queues io ∧ Inv max (s.step io) := by
  cases io with
  | write data => exact h.write hwrap
  | read n => exact h.read hwrap

theorem Inv.touches (h : Inv max s) {io : Io} (hwrap : s.NoWrap io) :
    ∃ blocks, (s.step io).cache.touched = s.cache.touched ++ blocks ∧
      InBounds (8 + max) blocks := by
  cases io with
  | write data =>
    simp only [Fifo.step, h.write_eq hwrap]
    split
    · exact ⟨[], by simp, by simp [InBounds]⟩
    · refine ⟨[(8 + s.written.length, data.length)], rfl, ?_⟩
      simp only [InBounds, List.mem_singleton, forall_eq, within_iff]
      omega
  | read n =>
    obtain ⟨blocks, hblocks, heq⟩ := h.read_eq hwrap
    exact ⟨blocks, by simp only [Fifo.step, heq], hblocks⟩

theorem Inv.run_touches (h : Inv max s) {ios : List Io} (hwrap : Each Fifo.step NoWrap s ios) :
    ∃ blocks, (History.run Fifo.step s ios).cache.touched = s.cache.touched ++ blocks ∧
      InBounds (8 + max) blocks := by
  induction ios generalizing s with
  | nil => exact ⟨[], by simp, by simp [InBounds]⟩
  | cons io ios ih =>
    obtain ⟨hio, hios⟩ := each_cons.mp hwrap
    obtain ⟨blocks, heq, hblocks⟩ := h.touches hio
    obtain ⟨blocks', heq', hblocks'⟩ := ih (h.step hio).2 hios
    refine ⟨blocks ++ blocks', ?_, (inBounds_append _ _).mpr ⟨hblocks, hblocks'⟩⟩
    rw [History.run, List.foldl_cons, heq', heq, List.append_assoc]

/-- The cache is a queue exactly as long as no test wraps around, and all bytes it then touches lie
in the memory behind the header. -/
theorem queue_iff (c : Cache) (hopen : c.io.refCnt > 0) (hmax : InRange c.io.maxSize)
    (ios : List Io) (hios : Each step Admitted (rewound c) ios) :
    (Each step Queues (rewound c) ios ↔ Each step NoWrap (rewound c) ios) ∧
      (Each step NoWrap (rewound c) ios → ∃ blocks,
        (History.run step (rewound c) ios).cache.touched = (rewound c).cache.touched ++ blocks ∧
          InBounds (8 + c.io.maxSize) blocks) := by
  have hinv := rewound_inv hopen hmax
  refine ⟨each_iff (I := Inv c.io.maxSize) (fun s io h hio => ⟨not_imp_not.mp ?_, fun hwrap =>
    (h.step hwrap).1⟩) (fun s io h _ hwrap => (h.step hwrap).2) hinv hios, hinv.run_touches⟩
  cases io with
  | write data => exact h.write_wraps hio
  | read n => exact h.read_wraps

def opened : Cache := Cache.run (cacheConfig 16 emptyBlock unopened).2 [.openCache]

theorem small_queue :
    Each step Queues (rewound opened) [.write [1, 2, 3], .read 2, .write [4], .read 5] :=
  (queue_iff opened (by decide +kernel) (Wf.int32_value 16) _ (by simp [Admitted])).1.mpr (by
    simp only [each_cons, each_nil, and_true]
    decide +kernel)

/-- One byte is left, and the test of a read of `2 ^ 32 - 1` bytes adds up to 0. -/
theorem long_read_wraps :
    ¬ Each step Queues (rewound opened) [.write [1, 2], .read 1, .read 0xFFFFFFFF] := by
  simp only [each_cons, each_nil, and_true, not_and]
  intro _ _ h
  have hresult := h.1
  revert hresult
  decide +kernel

end Fifo

end Mangoxx.Jpge.Cache
