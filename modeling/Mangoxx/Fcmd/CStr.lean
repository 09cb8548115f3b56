import Mathlib.Data.List.TakeWhile
import Mathlib.Data.Nat.Init

namespace Mangoxx.Fcmd

/-- The buffer of a C string from its first byte on.  The final NUL stands behind the list; a
program that shortens the string puts further ones into it. -/
abbrev Buf := List UInt8

def text (s : String) : List UInt8 := s.toList.map Char.toUInt8

def Buf.peek (m : Buf) (p : Nat) : UInt8 := m.getD p 0

def Buf.cstr (m : Buf) (p : Nat) : List UInt8 := (m.drop p).takeWhile (· ≠ 0)

def isspace (c : UInt8) : Bool := c = 32 ∨ (9 ≤ c ∧ c ≤ 13)

def strpbrk (m : Buf) (p : Nat) (key : List UInt8) : Option Nat :=
  ((m.cstr p).findIdx? key.contains).map (p + ·)

def digit (c : UInt8) : Option Nat :=
  if '0'.toUInt8 ≤ c ∧ c ≤ '9'.toUInt8 then some (c.toNat - 48)
  else if 'a'.toUInt8 ≤ c ∧ c ≤ 'z'.toUInt8 then some (c.toNat - 87)
  else if 'A'.toUInt8 ≤ c ∧ c ≤ 'Z'.toUInt8 then some (c.toNat - 55)
  else none

def digits (base : Nat) (acc : Nat) : List UInt8 → Nat
  | [] => acc
  | c :: cs =>
    match digit c with
    | some d => if d < base then digits base (acc * base + d) cs else acc
    | none => acc

/-- The text has a prefix `0x` that a hexadecimal digit follows. -/
def hexNumber : List UInt8 → Bool
  | z :: x :: c :: _ =>
    z = '0'.toUInt8 ∧ (x = 'x'.toUInt8 ∨ x = 'X'.toUInt8) ∧ ∃ d ∈ digit c, d < 16
  | _ => false

def magnitude (s : List UInt8) : Nat :=
  if hexNumber s then digits 16 0 (s.drop 2)
  else if s.head? = some '0'.toUInt8 then digits 8 0 s
  else digits 10 0 s

def longMin : Int := -2147483648
def longMax : Int := 2147483647

/-- `strtol(s, NULL, 0)`.  An argument of a command holds an address in an `int`, so `int`, `long`
and pointers have 32 bits. -/
def strtol (s : List UInt8) : Int :=
  match s.dropWhile isspace with
  | [] => 0
  | c :: cs =>
    let v : Int :=
      if c = '-'.toUInt8 then -(magnitude cs)
      else if c = '+'.toUInt8 then magnitude cs
      else magnitude (c :: cs)
    max longMin (min longMax v)

def decimal (v : Int) : List UInt8 :=
  ((if v < 0 then ['-'] else []) ++ Nat.toDigits 10 v.natAbs).map Char.toUInt8

def decimalNat (n : Nat) : List UInt8 := (Nat.toDigits 10 n).map Char.toUInt8

theorem decimalNat_lt (h : n < 10) : decimalNat n = [(Nat.digitChar n).toUInt8] := by
  rw [decimalNat, Nat.toDigits_of_lt_base h, List.map_singleton]

theorem decimalNat_ge (h : 10 ≤ n) :
    decimalNat n = decimalNat (n / 10) ++ [(Nat.digitChar (n % 10)).toUInt8] := by
  rw [decimalNat, Nat.toDigits_of_base_le (by decide) h, List.map_append, List.map_singleton,
    decimalNat]

theorem digit_digitChar (h : n < 10) : digit (Nat.digitChar n).toUInt8 = some n := by
  revert n
  decide

theorem digits_decimalNat (n : Nat) (rest : List UInt8) :
    digits 10 0 (decimalNat n ++ rest) = digits 10 n rest := by
  induction n using Nat.strong_induction_on generalizing rest with
  | h n ih =>
    rcases Nat.lt_or_ge n 10 with hlt | hge
    · simp [decimalNat_lt hlt, digits, digit_digitChar hlt, hlt]
    · have hmod : n % 10 < 10 := Nat.mod_lt n (by decide)
      rw [decimalNat_ge hge, List.append_assoc, ih (n / 10) (by omega), List.singleton_append,
        digits, digit_digitChar hmod]
      simp only [hmod, if_true]
      rw [Nat.div_add_mod']

theorem decimalNat_head (n : Nat) : ∃ d cs, decimalNat n = (Nat.digitChar d).toUInt8 :: cs ∧
    d < 10 ∧ (d = 0 → n = 0 ∧ cs = []) := by
  induction n using Nat.strong_induction_on with
  | h n ih =>
    rcases Nat.lt_or_ge n 10 with hlt | hge
    · exact ⟨n, [], decimalNat_lt hlt, hlt, fun h => ⟨h, rfl⟩⟩
    · obtain ⟨d, cs, heq, hd, hzero⟩ := ih (n / 10) (by omega)
      rw [decimalNat_ge hge, heq]
      refine ⟨d, _, List.cons_append, hd, fun h => ?_⟩
      have := (hzero h).1
      omega

theorem digitChar_eq_zero (h : d < 10) : (Nat.digitChar d).toUInt8 = '0'.toUInt8 ↔ d = 0 := by
  revert d
  decide

theorem digits_stop (hrest : ∀ c ∈ rest.head?, digit c = none) : digits base acc rest = acc := by
  cases rest with
  | nil => rfl
  | cons c cs => rw [digits, hrest c rfl]

theorem hexNumber_cons (h : z ≠ '0'.toUInt8) : hexNumber (z :: s) = false := by
  rcases s with _ | ⟨x, _ | ⟨c, t⟩⟩ <;> simp [hexNumber, h]

theorem magnitude_decimalNat (n : Nat) {rest : List UInt8}
    (hrest : ∀ c ∈ rest.head?, digit c = none) : magnitude (decimalNat n ++ rest) = n := by
  obtain ⟨d, cs, heq, hd, hzero⟩ := decimalNat_head n
  by_cases h : d = 0
  · obtain ⟨rfl, rfl⟩ := hzero h
    have hhex : hexNumber (decimalNat 0 ++ rest) = false := by
      cases rest with
      | nil => rfl
      | cons c cs =>
        have hc : digit c = none := hrest c rfl
        have hx : ¬ (c = 'x'.toUInt8 ∨ c = 'X'.toUInt8) := by
          rintro (rfl | rfl) <;> cases hc
        cases cs <;> simp [decimalNat, hexNumber, hx]
    have hhead : (decimalNat 0 ++ rest).head? = some '0'.toUInt8 := rfl
    rw [magnitude, hhex, if_neg (by decide), if_pos hhead]
    change digits 8 0 rest = 0
    exact digits_stop hrest
  · have hne : (Nat.digitChar d).toUInt8 ≠ '0'.toUInt8 := mt (digitChar_eq_zero hd).mp h
    have hhex : hexNumber (decimalNat n ++ rest) = false := by
      rw [heq, List.cons_append]
      exact hexNumber_cons hne
    have hhead : (decimalNat n ++ rest).head? ≠ some '0'.toUInt8 := by
      rw [heq]
      simpa using hne
    rw [magnitude, hhex, if_neg (by decide), if_neg hhead, digits_decimalNat, digits_stop hrest]

theorem decimal_of_nonneg {v : Int} (h : 0 ≤ v) : decimal v = decimalNat v.natAbs := by
  rw [decimal, if_neg (by omega), List.nil_append, decimalNat]

theorem decimal_of_neg {v : Int} (h : v < 0) : decimal v = '-'.toUInt8 :: decimalNat v.natAbs := by
  rw [decimal, if_pos h, List.map_append, decimalNat]
  rfl

def blanks (n : Nat) : List UInt8 := .replicate n ' '.toUInt8

theorem dropWhile_blanks (n : Nat) {s : List UInt8} (h : ∀ c ∈ s.head?, isspace c = false) :
    (blanks n ++ s).dropWhile isspace = s := by
  induction n with
  | zero =>
    cases s with
    | nil => rfl
    | cons c cs => exact List.dropWhile_cons_of_neg (by simp [h c rfl])
  | succ n ih => exact ih

/-- `strtol` reads what `printf` wrote, up to a character that is no digit. -/
theorem strtol_decimal {v : Int} (hv : longMin ≤ v ∧ v ≤ longMax) (n : Nat) {rest : List UInt8}
    (hrest : ∀ c ∈ rest.head?, digit c = none) :
    strtol (blanks n ++ (decimal v ++ rest)) = v := by
  have hclamp : max longMin (min longMax v) = v := by
    omega
  rcases Int.lt_or_le v 0 with hneg | hnonneg
  · have hmag := magnitude_decimalNat v.natAbs hrest
    have hdrop : (blanks n ++ (decimal v ++ rest)).dropWhile isspace =
        '-'.toUInt8 :: (decimalNat v.natAbs ++ rest) := by
      rw [decimal_of_neg hneg]
      exact dropWhile_blanks n (by rintro c ⟨⟩; decide)
    have hv' : -(v.natAbs : Int) = v := by omega
    simp only [strtol, hdrop, if_true, hmag, hv', hclamp]
  · obtain ⟨d, cs, heq, hd, -⟩ := decimalNat_head v.natAbs
    have hmag := magnitude_decimalNat v.natAbs hrest
    rw [heq, List.cons_append] at hmag
    have hchar : ∀ d < 10, isspace (Nat.digitChar d).toUInt8 = false ∧
        (Nat.digitChar d).toUInt8 ≠ '-'.toUInt8 ∧ (Nat.digitChar d).toUInt8 ≠ '+'.toUInt8 := by
      decide
    obtain ⟨hspace, hminus, hplus⟩ := hchar d hd
    have hdrop : (blanks n ++ (decimal v ++ rest)).dropWhile isspace =
        (Nat.digitChar d).toUInt8 :: (cs ++ rest) := by
      rw [decimal_of_nonneg hnonneg, heq]
      exact dropWhile_blanks n (by rintro c ⟨⟩; exact hspace)
    have hv' : (v.natAbs : Int) = v := by omega
    simp only [strtol, hdrop, if_neg hminus, if_neg hplus, hmag, hv', hclamp]

end Mangoxx.Fcmd
