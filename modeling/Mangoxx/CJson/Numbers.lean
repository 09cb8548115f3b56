import Mangoxx.CJson.Parse
import Mangoxx.Lib.Json

namespace Mangoxx.CJson

open Lib.Json

variable {D : Type} [Double D]

section Digits

theorem digitChar_spec (d : Fin 10) : isDigit (digitChar d) ∧ (digitChar d).toNat - 48 = d ∧
    ('1'.toUInt8 ≤ digitChar d ∧ digitChar d ≤ '9'.toUInt8 ↔ d ≠ 0) ∧
    (digitChar d = '0'.toUInt8 ↔ d = 0) := by
  revert d
  decide

theorem isDigit_digitChar (d : Fin 10) : isDigit (digitChar d) := (digitChar_spec d).1

theorem digitStep_digitChar (n : D) (d : Fin 10) : digitStep n (digitChar d) =
    Double.add (Double.mul n (Double.ofInt 10)) (Double.ofInt d.val) := by
  rw [digitStep, (digitChar_spec d).2.1.symm]
  have hge : 48 ≤ (digitChar d).toNat := by
    revert d
    decide
  congr 2
  omega

def readDigits (n : D) (ds : List (Fin 10)) : D :=
  ds.foldl (fun n d => Double.add (Double.mul n (Double.ofInt 10)) (Double.ofInt d.val)) n

theorem digitLoop_text (ds : List (Fin 10)) (n : D) (hrest : ¬ isDigit (star rest)) :
    digitLoop n (digitText ds ++ rest) = (readDigits n ds, rest) := by
  induction ds generalizing n with
  | nil =>
    cases rest with
    | nil => rfl
    | cons c rest => exact if_neg hrest
  | cons d ds ih =>
    have htext : digitText (d :: ds) ++ rest = digitChar d :: (digitText ds ++ rest) := rfl
    rw [htext, digitLoop, if_pos (isDigit_digitChar d), ih, digitStep_digitChar]
    rfl

theorem fractionLoop_text (ds : List (Fin 10)) (n : D) (scale : Int)
    (hrest : ¬ isDigit (star rest)) :
    fractionLoop n scale (digitText ds ++ rest) = (readDigits n ds, scale - ds.length, rest) := by
  induction ds generalizing n scale with
  | nil =>
    have hscale : scale - (0 : Nat) = scale := by omega
    cases rest with
    | nil => simp [fractionLoop, digitText, readDigits]
    | cons c rest =>
      have hloop : fractionLoop n scale (c :: rest) = (n, scale, c :: rest) := if_neg hrest
      simpa [digitText, readDigits] using hloop
  | cons d ds ih =>
    have htext : digitText (d :: ds) ++ rest = digitChar d :: (digitText ds ++ rest) := rfl
    have hscale : scale - 1 - (ds.length : Int) = scale - ((d :: ds).length : Int) := by
      rw [List.length_cons]
      omega
    rw [htext, fractionLoop, if_pos (isDigit_digitChar d), ih, digitStep_digitChar, hscale]
    rfl

def digitsValue (n : Nat) (ds : List (Fin 10)) : Nat := ds.foldl (fun n d => n * 10 + d.val) n

theorem le_digitsValue (n : Nat) (ds : List (Fin 10)) : n ≤ digitsValue n ds := by
  induction ds generalizing n with
  | nil => exact Nat.le_refl n
  | cons d ds ih => exact Nat.le_trans (by omega) (ih (n * 10 + d.val))

theorem exponentLoop_text (ds : List (Fin 10)) (n : Nat) (hrest : ¬ isDigit (star rest))
    (hmax : digitsValue n ds ≤ intMax) :
    exponentLoop n (digitText ds ++ rest) = .ok (digitsValue n ds, rest) := by
  induction ds generalizing n with
  | nil =>
    cases rest with
    | nil => rfl
    | cons c rest => exact if_neg hrest
  | cons d ds ih =>
    have htext : digitText (d :: ds) ++ rest = digitChar d :: (digitText ds ++ rest) := rfl
    have hstep : ¬ intMax < n * 10 + d.val :=
      Nat.not_lt.mpr ((le_digitsValue _ ds).trans hmax)
    rw [htext, exponentLoop, if_pos (isDigit_digitChar d), (digitChar_spec d).2.1, if_neg hstep]
    exact ih _ hmax

end Digits

section Value

def integerDigits (n : Number) : List (Fin 10) := if n.lead = 0 then [] else n.lead :: n.int

theorem eq_nil_of_lead {lead : Fin 10} {ds : List (Fin 10)} (h : lead ≠ 0) : lead = 0 → ds = [] :=
  fun h0 => absurd h0 h

def integer (negative : Bool) (lead : Fin 10) (ds : List (Fin 10)) (h : lead ≠ 0) : Number :=
  ⟨negative, lead, ds, eq_nil_of_lead h, [], none⟩

def exponentValue : Option Exponent → Int
  | none => 0
  | some e => (digitsValue 0 e.digits : Int) * if e.sign = some true then -1 else 1

def numberValue (n : Number) : D :=
  Double.mul
    (Double.mul (Double.ofInt (if n.negative then -1 else 1))
      (readDigits (readDigits (Double.ofInt 0) (integerDigits n)) n.frac))
    (Double.pow10 (-n.frac.length + exponentValue n.exp))

def SmallExponent (n : Number) : Prop := ∀ e ∈ n.exp, digitsValue 0 e.digits ≤ intMax

def NumberEnds (rest : Text) : Prop :=
  ¬ isDigit (star rest) ∧ star rest ≠ '.'.toUInt8 ∧ star rest ≠ 'e'.toUInt8 ∧
    star rest ≠ 'E'.toUInt8

theorem numberSign_text (n : Number) (rest : Text) :
    numberSign (n.text ++ rest) = (if n.negative then -1 else 1,
      digitText (n.lead :: n.int) ++ (fractionText n.frac ++ exponentText n.exp) ++ rest) := by
  cases hneg : n.negative with
  | true => simp [Number.text, numberSign, star, hneg]
  | false =>
    have hne : digitChar n.lead ≠ '-'.toUInt8 := by
      generalize n.lead = d
      revert d
      decide
    simp [Number.text, numberSign, star, hneg, digitText, hne]

theorem integerPart_text (n : Number) (hrest : ¬ isDigit (star rest)) :
    integerPart (digitText (n.lead :: n.int) ++ rest) =
      (readDigits (Double.ofInt 0 : D) (integerDigits n), rest) := by
  have hlead := digitChar_spec n.lead
  by_cases h : n.lead = 0
  · have htext : digitText (n.lead :: n.int) ++ rest = '0'.toUInt8 :: rest := by
      rw [n.int_eq_nil h, h]
      rfl
    have hnone : ¬ ('1'.toUInt8 ≤ star rest ∧ star rest ≤ '9'.toUInt8) := by
      rintro ⟨hge, hle⟩
      have hzero : '0'.toUInt8 ≤ '1'.toUInt8 := by decide
      exact hrest (decide_eq_true ⟨UInt8.le_trans hzero hge, hle⟩)
    rw [htext, integerDigits, if_pos h]
    simp only [integerPart, star, List.headD_cons, if_true, List.tail_cons]
    exact if_neg hnone
  · have htext : digitText (n.lead :: n.int) ++ rest =
        digitChar n.lead :: (digitText n.int ++ rest) := rfl
    have hzero : digitChar n.lead ≠ '0'.toUInt8 := mt hlead.2.2.2.mp h
    have hskip : (if star (digitChar n.lead :: (digitText n.int ++ rest)) = '0'.toUInt8 then
        (digitChar n.lead :: (digitText n.int ++ rest)).tail
        else digitChar n.lead :: (digitText n.int ++ rest)) =
        digitChar n.lead :: (digitText n.int ++ rest) := if_neg hzero
    rw [← digitLoop_text _ _ hrest, integerDigits, if_neg h, htext]
    simp only [integerPart, hskip]
    exact if_pos (hlead.2.2.1.mpr h)

theorem fractionPart_text (ds : List (Fin 10)) (n : D) (hrest : ¬ isDigit (star rest))
    (hpoint : star rest ≠ '.'.toUInt8) :
    fractionPart n (fractionText ds ++ rest) = (readDigits n ds, -(ds.length : Int), rest) := by
  cases ds with
  | nil => simp [fractionPart, fractionText, hpoint, readDigits]
  | cons d ds =>
    have htext : fractionText (d :: ds) ++ rest = '.'.toUInt8 :: (digitText (d :: ds) ++ rest) :=
      rfl
    have hdigit : star ('.'.toUInt8 :: (digitText (d :: ds) ++ rest)) = '.'.toUInt8 ∧
        isDigit (star ('.'.toUInt8 :: (digitText (d :: ds) ++ rest)).tail) :=
          ⟨rfl, isDigit_digitChar d⟩
    rw [htext, fractionPart, if_pos hdigit, List.tail_cons, fractionLoop_text _ _ _ hrest,
      Int.zero_sub]

theorem exponentSign_text (e : Exponent) (rest : Text) :
    exponentSign (signText e.sign ++ (digitText e.digits ++ rest)) =
      (if e.sign = some true then -1 else 1, digitText e.digits ++ rest) := by
  have hhead : star (digitText e.digits ++ rest) ≠ '+'.toUInt8 ∧
      star (digitText e.digits ++ rest) ≠ '-'.toUInt8 := by
    have hdigit : ∀ d, digitChar d ≠ '+'.toUInt8 ∧ digitChar d ≠ '-'.toUInt8 := by decide
    cases hds : e.digits with
    | nil => exact absurd hds e.digits_ne_nil
    | cons d ds => exact hdigit d
  match e.sign with
  | none => rw [signText, List.nil_append, exponentSign, if_neg hhead.1, if_neg hhead.2]; rfl
  | some true => rfl
  | some false => rfl

theorem exponentPart_text (e : Option Exponent) (hsmall : ∀ x ∈ e, digitsValue 0 x.digits ≤ intMax)
    (hrest : NumberEnds rest) :
    exponentPart (exponentText e ++ rest) = .ok (exponentValue e, rest) := by
  obtain ⟨hdigit, -, he, hE⟩ := hrest
  cases e with
  | none =>
    rw [exponentText, List.nil_append, exponentPart, if_neg (not_or.mpr ⟨he, hE⟩)]
    rfl
  | some e =>
    have hloop := exponentLoop_text e.digits 0 hdigit (hsmall e rfl)
    have hmark : star (exponentText (some e) ++ rest) = 'e'.toUInt8 ∨
        star (exponentText (some e) ++ rest) = 'E'.toUInt8 := by
      cases hupper : e.upper <;> simp [exponentText, star, hupper]
    have htail : (exponentText (some e) ++ rest).tail =
        signText e.sign ++ (digitText e.digits ++ rest) := by
      simp [exponentText]
    rw [exponentPart, if_pos hmark, htail, exponentValue]
    simp only [exponentSign_text, hloop, bind, Except.bind]
    rfl

theorem exponentText_ends (e : Option Exponent) (hrest : NumberEnds rest) :
    ¬ isDigit (star (exponentText e ++ rest)) ∧ star (exponentText e ++ rest) ≠ '.'.toUInt8 := by
  cases e with
  | none => exact ⟨hrest.1, hrest.2.1⟩
  | some e =>
    cases hupper : e.upper <;> simp [exponentText, star, hupper, isDigit] <;> decide

theorem fractionText_ends (ds : List (Fin 10)) (hrest : ¬ isDigit (star rest)) :
    ¬ isDigit (star (fractionText ds ++ rest)) := by
  cases ds with
  | nil => exact hrest
  | cons d ds =>
    have hpoint : ¬ isDigit '.'.toUInt8 := by decide
    exact hpoint

/-- A number of JSON is read to its end. -/
theorem parseNumber_text (item : Item D) (n : Number) (hsmall : SmallExponent n)
    (hrest : NumberEnds rest) :
    parseNumber item (n.text ++ rest) = .ok (item.setNumber (numberValue n), rest) := by
  have hexp := exponentText_ends n.exp hrest
  have hint := integerPart_text (D := D) n (fractionText_ends n.frac hexp.1)
  have hfrac :=
    fractionPart_text n.frac (readDigits (Double.ofInt 0 : D) (integerDigits n)) hexp.1 hexp.2
  rw [parseNumber, numberSign_text]
  simp only [List.append_assoc, hint, hfrac, exponentPart_text n.exp hsmall hrest, bind,
    Except.bind]
  rfl

end Value

end Mangoxx.CJson
