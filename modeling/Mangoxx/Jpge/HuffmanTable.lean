import Mangoxx.Jpge.Output
import Mangoxx.Lib.Huffman
import Mangoxx.Lib.Loop

namespace Mangoxx.Jpge

open Mangoxx.Lib BitString

structure HuffTable where
  codes : Nat → Nat
  codeSizes : Nat → Nat

namespace HuffTable

def zero : HuffTable := ⟨fun _ => 0, fun _ => 0⟩

def assign (t : HuffTable) (symbol size code : Nat) : HuffTable :=
  ⟨Function.update t.codes symbol code, Function.update t.codeSizes symbol size⟩

end HuffTable

def codeBits (t : HuffTable) (symbol : Nat) : List Bool :=
  toBits (t.codeSizes symbol) (t.codes symbol)

def counts (bits : List UInt8) : List Nat := (List.range' 1 16).map fun l => (bits.getD l 0).toNat

def huffSizes (bits : List UInt8) : List Nat :=
  (List.range' 1 16).flatMap fun l => List.replicate (bits.getD l 0).toNat l

/-- `while (huff_size[p] == si) huff_code[p++] = code++` on the sizes from `p` on: the codes, the
next code and the sizes that are left. -/
def assignSize (si : Nat) : (code : Nat) → (sizes : List Nat) → List Nat × Nat × List Nat
  | code, size :: sizes =>
    if size = si then
      let r := assignSize si (code + 1) sizes
      (code :: r.1, r.2)
    else ([], code, size :: sizes)
  | code, [] => ([], code, [])

structure CodeLoop where
  si : Nat
  code : Nat
  sizes : List Nat
  huffCode : List Nat

/-- There are at most 16 times 255 codes, so `code` stays below 2^32. -/
def CodeLoop.turn (v : CodeLoop) : Turn CodeLoop (List Nat) :=
  if v.sizes = [] then .stop v.huffCode
  else
    let r := assignSize v.si v.code v.sizes
    .again ⟨v.si + 1, r.2.1 <<< 1, r.2.2, v.huffCode ++ r.1⟩

def computeHuffmanTable (fuel : Nat) (bits val : List UInt8) : Option HuffTable :=
  let sizes := huffSizes bits
  (Loop.iterate CodeLoop.turn fuel ⟨sizes.headD 0, 0, sizes, []⟩).map fun huffCode =>
    (val.zip (sizes.zip huffCode)).foldl (fun t p => t.assign p.1.toNat p.2.1 p.2.2) .zero

def emitDht (bits val : List UInt8) (index : Nat) (acFlag : Bool) (o : Output) : Output :=
  let o := o.emitMarker 0xC4
  let length := (counts bits).sum
  let o := o.emitWord (length + 2 + 1 + 16)
  let o := o.emitByte (.ofNat (index + acFlag.toNat <<< 4))
  let o := o.emitBytes ((List.range' 1 16).map fun i => bits.getD i 0)
  o.emitBytes ((List.range length).map fun i => val.getD i 0)

section Loops

variable {cs : List Nat} {len first : Nat}

def sizes (cs : List Nat) (len : Nat) : List Nat := (Huffman.codes cs len 0).map Prod.fst

theorem codes_sizes : (Huffman.codes cs len first).map Prod.fst = sizes cs len := by
  rw [sizes]
  generalize 0 = first'
  induction cs generalizing len first first' with
  | nil => rfl
  | cons c cs ih =>
    simp only [Huffman.codes, List.map_append, List.map_map]
    exact congrArg₂ _ rfl (ih _)

theorem sizes_cons : sizes (c :: cs) len = List.replicate c (len + 1) ++ sizes cs (len + 1) := by
  rw [sizes, Huffman.codes, List.map_append, codes_sizes, List.map_map]
  congr 1
  exact List.ext_getElem (by simp) (by simp)

theorem lt_of_mem_sizes (h : size ∈ sizes cs len) : len < size := by
  obtain ⟨⟨l, v⟩, hmem, rfl⟩ := List.mem_map.mp h
  exact (Huffman.codes_ge hmem).1

theorem huffSizes_eq (bits : List UInt8) : huffSizes bits = sizes (counts bits) 0 := by
  have hrange (n len : Nat) (f : Nat → Nat) :
      (List.range' (len + 1) n).flatMap (fun l => List.replicate (f l) l) =
        sizes ((List.range' (len + 1) n).map f) len := by
    induction n generalizing len with
    | zero => rfl
    | succ n ih => rw [List.range'_succ, List.flatMap_cons, List.map_cons, sizes_cons, ih]
  exact hrange 16 0 fun l => (bits.getD l 0).toNat

theorem assignSize_replicate {si : Nat} {rest : List Nat} (hrest : ∀ size ∈ rest, si < size)
    (c code : Nat) : assignSize si code (List.replicate c si ++ rest) =
      ((List.range c).map (code + ·), code + c, rest) := by
  induction c generalizing code with
  | zero =>
    cases rest with
    | nil => rfl
    | cons size rest => simp [assignSize, Nat.ne_of_gt (hrest size List.mem_cons_self)]
  | succ c ih =>
    rw [List.replicate_succ, List.cons_append, assignSize, if_pos rfl, ih, List.range_succ_eq_map]
    simp [Function.comp_def, Nat.add_assoc, Nat.add_comm 1]

theorem loop_ends (cs : List Nat) (len first : Nat) (done : List Nat) :
    Loop.Ends CodeLoop.turn ⟨len + 1, 2 * first, sizes cs len, done⟩
      (done ++ (Huffman.codes cs len first).map Prod.snd) := by
  induction cs generalizing len first done with
  | nil => exact Loop.ends_stop (by simp [CodeLoop.turn, sizes, Huffman.codes])
  | cons c cs ih =>
    by_cases hnil : sizes (c :: cs) len = []
    · apply Loop.ends_stop
      have hcodes : Huffman.codes (c :: cs) len first = [] := by
        apply List.map_eq_nil_iff.mp
        rw [codes_sizes, hnil]
      rw [CodeLoop.turn, if_pos hnil, hcodes]
      simp
    · have hrest : ∀ size ∈ sizes cs (len + 1), len + 1 < size := fun _ h => lt_of_mem_sizes h
      have hends := ih (len + 1) (2 * first + c) (done ++ (List.range c).map (2 * first + ·))
      have hcodes : (Huffman.codes (c :: cs) len first).map Prod.snd =
          (List.range c).map (2 * first + ·) ++
            (Huffman.codes cs (len + 1) (2 * first + c)).map Prod.snd := by
        simp [Huffman.codes, Function.comp_def]
      rw [hcodes, ← List.append_assoc]
      refine hends.again ?_
      rw [CodeLoop.turn, if_neg hnil]
      simp only [sizes_cons, assignSize_replicate hrest, Nat.shiftLeft_eq, pow_one, Nat.mul_comm]

theorem start_ends (cs : List Nat) (len : Nat) :
    Loop.Ends CodeLoop.turn ⟨(sizes cs len).headD 0, 0, sizes cs len, []⟩
      ((Huffman.codes cs len 0).map Prod.snd) := by
  induction cs generalizing len with
  | nil => exact Loop.ends_stop rfl
  | cons c cs ih =>
    cases c with
    | zero =>
      have hsizes : sizes (0 :: cs) len = sizes cs (len + 1) := by rw [sizes_cons]; rfl
      have hcodes : Huffman.codes (0 :: cs) len 0 = Huffman.codes cs (len + 1) 0 := rfl
      rw [hsizes, hcodes]
      exact ih (len + 1)
    | succ c =>
      have hhead : (sizes ((c + 1) :: cs) len).headD 0 = len + 1 := by
        rw [sizes_cons, List.replicate_succ]
        rfl
      rw [hhead]
      exact loop_ends ((c + 1) :: cs) len 0 []

end Loops

section Assign

variable {t : HuffTable} {entries : List (UInt8 × Nat × Nat)}

def HuffTable.assignAll (t : HuffTable) (entries : List (UInt8 × Nat × Nat)) : HuffTable :=
  entries.foldl (fun t p => t.assign p.1.toNat p.2.1 p.2.2) t

theorem assignAll_of_not_mem (h : ∀ p ∈ entries, p.1.toNat ≠ n) :
    (t.assignAll entries).codes n = t.codes n ∧
      (t.assignAll entries).codeSizes n = t.codeSizes n := by
  induction entries generalizing t with
  | nil => exact ⟨rfl, rfl⟩
  | cons p entries ih =>
    obtain ⟨hp, hentries⟩ := List.forall_mem_cons.mp h
    have hrest := ih (t := t.assign p.1.toNat p.2.1 p.2.2) hentries
    simp only [HuffTable.assign, Function.update_of_ne hp.symm] at hrest
    exact hrest

theorem assignAll_of_mem (hnodup : (entries.map Prod.fst).Nodup) (h : (s, size, code) ∈ entries) :
    (t.assignAll entries).codes s.toNat = code ∧
      (t.assignAll entries).codeSizes s.toNat = size := by
  induction entries generalizing t with
  | nil => simp at h
  | cons p entries ih =>
    obtain ⟨hp, hentries⟩ := List.nodup_cons.mp hnodup
    rcases List.mem_cons.mp h with rfl | h
    · have hother : ∀ p ∈ entries, p.1.toNat ≠ s.toNat := by
        intro p hmem heq
        have hkey : p.1 ∈ entries.map Prod.fst := List.mem_map_of_mem hmem
        rw [UInt8.toNat_inj.mp heq] at hkey
        exact hp hkey
      have hrest := assignAll_of_not_mem (t := t.assign s.toNat size code) hother
      simp only [HuffTable.assign, Function.update_self] at hrest
      exact hrest
    · exact ih hentries h

end Assign

def symbols (bits val : List UInt8) : List UInt8 := val.take (counts bits).sum

/-- The symbols have the canonical codes of the lengths in `bits`, everything else has none. -/
structure Canonical (t : HuffTable) (bits val : List UInt8) : Prop where
  listed : ∀ (i : Nat) (s : UInt8), (symbols bits val)[i]? = some s →
    (Huffman.codes (counts bits) 0 0)[i]? = some (t.codeSizes s.toNat, t.codes s.toNat)
  unlisted : ∀ n, (∀ s ∈ symbols bits val, s.toNat ≠ n) → t.codes n = 0 ∧ t.codeSizes n = 0

theorem computeHuffmanTable_ends {bits val : List UInt8} (hlen : (counts bits).sum ≤ val.length)
    (hnodup : (symbols bits val).Nodup) :
    ∃ fuel t, computeHuffmanTable fuel bits val = some t ∧ Canonical t bits val := by
  obtain ⟨cs, hcs⟩ : ∃ cs, cs = Huffman.codes (counts bits) 0 0 := ⟨_, rfl⟩
  have hlength : cs.length = (counts bits).sum := by rw [hcs, Huffman.codes_length]
  have hsizes : huffSizes bits = cs.map Prod.fst := by rw [huffSizes_eq, hcs, codes_sizes]
  have hfst : ((symbols bits val).zip cs).map Prod.fst = symbols bits val :=
    List.map_fst_zip (by rw [symbols, List.length_take, hlength]; omega)
  obtain ⟨fuel, hfuel⟩ := start_ends (counts bits) 0
  rw [← huffSizes_eq, ← hcs] at hfuel
  refine ⟨fuel, HuffTable.zero.assignAll ((symbols bits val).zip cs), ?_, ⟨fun i s hs => ?_,
    fun n hn => ?_⟩⟩
  · have hzip : val.zip cs = (symbols bits val).zip cs := by
      rw [List.zip_eq_zip_take_min, hlength, Nat.min_eq_right hlen, ← hlength, List.take_length,
        symbols, ← hlength]
    rw [computeHuffmanTable, hfuel, Option.map_some, hsizes, ← List.zip_of_prod rfl rfl, hzip]
    rfl
  · have hi : i < cs.length := by
      have := (List.getElem?_eq_some_iff.mp hs).1
      rw [symbols, List.length_take] at this
      omega
    obtain ⟨⟨l, v⟩, hlv⟩ : ∃ p, cs[i]? = some p := ⟨cs[i], List.getElem?_eq_getElem hi⟩
    have hmem : (s, l, v) ∈ (symbols bits val).zip cs :=
      List.mem_of_getElem? (List.getElem?_zip_eq_some.mpr ⟨hs, hlv⟩)
    obtain ⟨hcode, hsize⟩ := assignAll_of_mem (t := .zero) (hfst.symm ▸ hnodup) hmem
    rw [← hcs, hlv, hcode, hsize]
  · exact assignAll_of_not_mem fun p hp => hn p.1 (hfst ▸ List.mem_map_of_mem hp)

theorem Canonical.fits (h : Canonical t bits val) (hfits : Huffman.Fits (counts bits) 0 0)
    (n : Nat) :
    t.codes n < 2 ^ t.codeSizes n ∧ t.codeSizes n ≤ 16 := by
  by_cases hn : ∀ s ∈ symbols bits val, s.toNat ≠ n
  · obtain ⟨hcode, hsize⟩ := h.unlisted n hn
    simp [hcode, hsize]
  · push Not at hn
    obtain ⟨s, hs, rfl⟩ := hn
    obtain ⟨i, hi⟩ := List.getElem?_of_mem hs
    have hmem := List.mem_of_getElem? (h.listed i s hi)
    refine ⟨Huffman.codes_lt hfits hmem, ?_⟩
    have hle := Huffman.codes_le hmem
    simpa [counts] using hle

theorem Canonical.codeSizes (h : Canonical t bits val) {i : Nat} {s : UInt8}
    (hs : (symbols bits val)[i]? = some s) :
    (huffSizes bits)[i]? = some (t.codeSizes s.toNat) := by
  rw [huffSizes_eq, sizes, List.getElem?_map, h.listed i s hs, Option.map_some]

theorem Canonical.codeSizes_ne_zero (h : Canonical t bits val) (hs : s ∈ symbols bits val) :
    t.codeSizes s.toNat ≠ 0 := by
  obtain ⟨i, hi⟩ := List.getElem?_of_mem hs
  exact Nat.ne_zero_of_lt (Huffman.codes_ge (List.mem_of_getElem? (h.listed i s hi))).1

theorem Canonical.prefixFree (h : Canonical t bits val) (hfits : Huffman.Fits (counts bits) 0 0)
    (hs : s ∈ symbols bits val) (hs' : s' ∈ symbols bits val)
    (hpre : codeBits t s.toNat <+: codeBits t s'.toNat) : s = s' := by
  obtain ⟨i, hi⟩ := List.getElem?_of_mem hs
  obtain ⟨j, hj⟩ := List.getElem?_of_mem hs'
  obtain rfl := Huffman.codes_prefixFree hfits (h.listed i s hi) (h.listed j s' hj) hpre
  exact Option.some.inj (hi.symm.trans hj)

theorem kraft_counts (bits : List UInt8) : Huffman.kraft (counts bits) =
    ((List.range' 1 16).map fun l => (bits.getD l 0).toNat * 2 ^ (16 - l)).sum := by
  have hrange (n len : Nat) (f : Nat → Nat) (hlen : len + n = 17) :
      Huffman.kraft ((List.range' len n).map f) =
        ((List.range' len n).map fun l => f l * 2 ^ (16 - l)).sum := by
    induction n generalizing len with
    | zero => rfl
    | succ n ih =>
      have hn : 16 - len = n := by omega
      rw [List.range'_succ, List.map_cons, List.map_cons, Huffman.kraft, ih (len + 1) (by omega),
        List.sum_cons, List.length_map, List.length_range', hn]
  exact hrange 16 1 (fun l => (bits.getD l 0).toNat) rfl

theorem computeHuffmanTable_mono (h : computeHuffmanTable n bits val = some t) (hnm : n ≤ m) :
    computeHuffmanTable m bits val = some t := by
  obtain ⟨huffCode, hends, heq⟩ := Option.map_eq_some_iff.mp h
  rw [computeHuffmanTable, Loop.iterate_mono hends hnm, Option.map_some, heq]

end Mangoxx.Jpge
