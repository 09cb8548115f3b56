import Mathlib.Algebra.Group.Nat.Defs
import Mathlib.Data.List.Range

universe u

namespace Mangoxx.Lib.Dump

section Hexadecimal

def digit (d : Nat) : Char := if d < 10 then Char.ofNat (48 + d) else Char.ofNat (55 + d)

def hex : (w n : Nat) → List Char
  | 0, _ => []
  | w + 1, n => hex w (n / 16) ++ [digit (n % 16)]

def digitValue (c : Char) : Option Nat :=
  if '0' ≤ c ∧ c ≤ '9' then some (c.toNat - 48)
  else if 'A' ≤ c ∧ c ≤ 'F' then some (c.toNat - 55)
  else none

def readHex (acc : Nat) : List Char → Option Nat
  | [] => some acc
  | c :: cs => (digitValue c).bind fun d => readHex (16 * acc + d) cs

theorem digit_spec : ∀ d : Fin 16, digitValue (digit d) = some d ∧ digit d ≠ '\n' := by decide

theorem digitValue_digit (n : Nat) : digitValue (digit (n % 16)) = some (n % 16) :=
  (digit_spec ⟨n % 16, Nat.mod_lt _ (by decide)⟩).1

@[simp] theorem hex_length (w n : Nat) : (hex w n).length = w := by
  induction w generalizing n with
  | zero => rfl
  | succ w ih => rw [hex, List.length_append, ih, List.length_singleton]

theorem newline_not_mem_hex (w n : Nat) : '\n' ∉ hex w n := by
  induction w generalizing n with
  | zero => exact List.not_mem_nil
  | succ w ih =>
    rw [hex, List.mem_append, List.mem_singleton]
    rintro (h | h)
    · exact ih _ h
    · exact (digit_spec ⟨n % 16, Nat.mod_lt _ (by decide)⟩).2 h.symm

theorem readHex_append (acc : Nat) (cs ds : List Char) :
    readHex acc (cs ++ ds) = (readHex acc cs).bind fun acc => readHex acc ds := by
  induction cs generalizing acc with
  | nil => rfl
  | cons c cs ih =>
    rw [List.cons_append, readHex, readHex, Option.bind_assoc]
    congr 1
    funext d
    exact ih _

theorem readHex_hex {w n : Nat} (h : n < 16 ^ w) : readHex 0 (hex w n) = some n := by
  induction w generalizing n with
  | zero =>
    rw [Nat.pow_zero, Nat.lt_one_iff] at h
    rw [h]
    rfl
  | succ w ih =>
    have hhigh : n / 16 < 16 ^ w := by
      rw [Nat.div_lt_iff_lt_mul (by decide), ← Nat.pow_succ]
      exact h
    rw [hex, readHex_append, ih hhigh, Option.bind_some, readHex, digitValue_digit,
      Option.bind_some, readHex, Nat.div_add_mod]

end Hexadecimal

section Words

def littleEndian : List UInt8 → Nat
  | [] => 0
  | b :: bs => b.toNat + 256 * littleEndian bs

theorem littleEndian_lt (bs : List UInt8) : littleEndian bs < 256 ^ bs.length := by
  induction bs with
  | nil => exact Nat.one_pos
  | cons b bs ih =>
    have hb := b.toNat_lt
    rw [littleEndian, List.length_cons, Nat.pow_succ]
    omega

theorem littleEndian_inj {bs cs : List UInt8} (hlength : bs.length = cs.length)
    (h : littleEndian bs = littleEndian cs) : bs = cs := by
  induction bs generalizing cs with
  | nil => exact (List.length_eq_zero_iff.mp hlength.symm).symm
  | cons b bs ih =>
    cases cs with
    | nil => simp at hlength
    | cons c cs =>
      have hb := b.toNat_lt
      have hc := c.toNat_lt
      rw [littleEndian, littleEndian] at h
      rw [ih (Nat.succ.inj hlength) (by omega), UInt8.toNat_inj.mp (by omega : b.toNat = c.toNat)]

end Words

section Rows

variable {α : Type u}

/-- Going through `n` items row by row, with `k` items in a row and the rest in the last one. -/
theorem flatMap_rows (f : Nat → List α) {k rows n : Nat} (h : n ≤ k * rows) :
    (List.range rows).flatMap
        (fun r => (List.range (min k (n - k * r))).flatMap fun i => f (k * r + i)) =
      (List.range n).flatMap f := by
  induction rows generalizing n with
  | zero =>
    rw [Nat.le_zero.mp h]
    rfl
  | succ rows ih =>
    have hearlier : ∀ r ∈ List.range rows,
        (List.range (min k (n - k * r))).flatMap (fun i => f (k * r + i)) =
          (List.range (min k (min n (k * rows) - k * r))).flatMap fun i => f (k * r + i) := by
      intro r hr
      have hrow : k * r + k ≤ k * rows := Nat.mul_le_mul_left k (List.mem_range.mp hr)
      congr 2
      omega
    rw [List.range_succ, List.flatMap_append, List.flatMap_congr hearlier,
      ih (Nat.min_le_right _ _), List.flatMap_singleton]
    have hn : n = min n (k * rows) + min k (n - k * rows) := by
      rw [Nat.mul_succ] at h
      omega
    conv_rhs => rw [hn, List.range_add, List.flatMap_append, List.flatMap_map]
    congr 1
    by_cases hlast : n ≤ k * rows
    · rw [Nat.sub_eq_zero_of_le hlast, Nat.min_zero]
      rfl
    · rw [Nat.min_eq_right (Nat.le_of_not_le hlast)]

section Widths

variable {f : Nat → List α} {w n : Nat}

theorem rows_length (hf : ∀ r < n, (f r).length = w) :
    ((List.range n).flatMap f).length = w * n := by
  induction n with
  | zero => rfl
  | succ n ih =>
    rw [List.range_succ, List.flatMap_append, List.length_append, ih fun r hr => hf r (by omega),
      List.flatMap_singleton, hf n (Nat.lt_succ_self n), Nat.mul_succ]

theorem rows_getElem? (hf : ∀ r < n, (f r).length = w) {r c : Nat} (hr : r < n) (hc : c < w) :
    ((List.range n).flatMap f)[w * r + c]? = (f r)[c]? := by
  induction n with
  | zero => exact absurd hr (Nat.not_lt_zero r)
  | succ n ih =>
    have hlength := rows_length fun r (hr : r < n) => hf r (by omega)
    rw [List.range_succ, List.flatMap_append, List.flatMap_singleton]
    by_cases hlast : r < n
    · have hbound : w * r + w ≤ w * n := Nat.mul_le_mul_left w hlast
      rw [List.getElem?_append_left (by omega), ih (fun r hr => hf r (by omega)) hlast]
    · obtain rfl : r = n := by omega
      rw [List.getElem?_append_right (by omega), hlength, Nat.add_sub_cancel_left]

end Widths

theorem slice_eq (xs : List α) (d : α) {off n : Nat} (h : off + n ≤ xs.length) :
    (xs.drop off).take n = (List.range n).map fun k => xs.getD (off + k) d := by
  apply List.ext_getElem
  · rw [List.length_take, List.length_drop, List.length_map, List.length_range]
    omega
  · intro k hk hk'
    rw [List.length_map, List.length_range] at hk'
    rw [List.getElem_take, List.getElem_drop, List.getElem_map, List.getElem_range,
      List.getD_eq_getElem?_getD, List.getElem?_eq_getElem (by omega), Option.getD_some]

theorem splitOn_lines [BEq α] [LawfulBEq α] {sep : α} {first : List α} {lines : List (List α)}
    (hfirst : sep ∉ first) (hlines : ∀ line ∈ lines, sep ∉ line) :
    (first ++ (lines.flatMap (sep :: ·) ++ [sep])).splitOn sep = first :: (lines ++ [[]]) := by
  induction lines generalizing first with
  | nil => exact List.splitOn_append_cons_self_of_not_mem hfirst []
  | cons line lines ih =>
    obtain ⟨hline, hlines⟩ := List.forall_mem_cons.mp hlines
    rw [List.flatMap_cons, List.cons_append, List.cons_append,
      List.splitOn_append_cons_self_of_not_mem hfirst, List.append_assoc, ih hline hlines]
    rfl

theorem mapM_some {β : Type u} {f : α → Option β} {g : α → β} {l : List α}
    (h : ∀ a ∈ l, f a = some (g a)) : l.mapM f = some (l.map g) := by
  induction l with
  | nil => rfl
  | cons a l ih =>
    obtain ⟨ha, hl⟩ := List.forall_mem_cons.mp h
    rw [List.mapM_cons, ha, ih hl]
    rfl

end Rows

end Mangoxx.Lib.Dump
