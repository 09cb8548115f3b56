import Mangoxx.CJson.RoundTrip
import Mathlib.Algebra.Group.Int.Defs
import Mathlib.Algebra.Group.Nat.Defs

namespace Mangoxx.CJson

open Lib.Json
open Fcmd (text decimal decimalNat)

/-- `double` is exact on integers of at most 53 bits, where no sign is given to a zero. -/
class ExactDouble (D : Type) [Double D] : Prop where
  digit {a d : Int} : 0 ≤ a → 0 ≤ d → a * 10 + d ≤ 2 ^ 53 →
    Double.add (Double.mul (Double.ofInt a : D) (Double.ofInt 10)) (Double.ofInt d) =
      Double.ofInt (a * 10 + d)
  one_mul {a : Int} : 0 ≤ a → a ≤ 2 ^ 53 →
    Double.mul (Double.ofInt 1 : D) (Double.ofInt a) = Double.ofInt a
  neg_one_mul {a : Int} : 0 < a → a ≤ 2 ^ 53 →
    Double.mul (Double.ofInt (-1) : D) (Double.ofInt a) = Double.ofInt (-a)
  mul_pow10_zero (x : D) : Double.mul x (Double.pow10 0) = x
  toInt_ofInt {a : Int} : intMin ≤ a → a ≤ intMax → Double.toInt (Double.ofInt a : D) = a
  eq_ofInt {a b : Int} : a.natAbs ≤ 2 ^ 53 → b.natAbs ≤ 2 ^ 53 →
    (Double.eq (Double.ofInt a : D) (Double.ofInt b) ↔ a = b)
  le_ofInt {a b : Int} : a.natAbs ≤ 2 ^ 53 → b.natAbs ≤ 2 ^ 53 →
    (Double.le (Double.ofInt a : D) (Double.ofInt b) ↔ a ≤ b)
  sub_self {a : Int} : a.natAbs ≤ 2 ^ 53 →
    Double.le (Double.fabs (Double.sub (Double.ofInt a : D) (Double.ofInt a))) Double.dblEpsilon

variable {D : Type} [Double D]

def WholeNumber (valueint : Int) (d : D) : Prop :=
  intMin ≤ valueint ∧ valueint ≤ intMax ∧ d = Double.ofInt valueint

section Decimal

theorem digitChar_toUInt8 : ∀ d : Fin 10, digitChar d = (Nat.digitChar d.val).toUInt8 := by decide

theorem readDigits_append (n : D) (ds ds' : List (Fin 10)) :
    readDigits n (ds ++ ds') = readDigits (readDigits n ds) ds' := List.foldl_append

variable [ExactDouble D]

theorem decimal_digits {n : Nat} (hpos : 0 < n) (hmax : n ≤ 2 ^ 53) :
    ∃ (lead : Fin 10) (ds : List (Fin 10)), lead ≠ 0 ∧ digitText (lead :: ds) = decimalNat n ∧
      readDigits (Double.ofInt 0 : D) (lead :: ds) = Double.ofInt n := by
  induction n using Nat.strong_induction_on with
  | h n ih =>
    rcases Nat.lt_or_ge n 10 with hlt | hge
    · refine ⟨⟨n, hlt⟩, [], ?_, ?_, ?_⟩
      · rw [Ne, Fin.ext_iff]
        exact Nat.ne_of_gt hpos
      · rw [Fcmd.decimalNat_lt hlt]
        exact congrArg (fun c => [c]) (digitChar_toUInt8 ⟨n, hlt⟩)
      · have hdigit := ExactDouble.digit (D := D) (a := 0) (d := n) (by omega) (by omega) (by omega)
        rw [Int.zero_mul, Int.zero_add] at hdigit
        exact hdigit
    · obtain ⟨lead, ds, hlead, htext, hread⟩ := ih (n / 10) (by omega) (by omega) (by omega)
      have hmod : n % 10 < 10 := Nat.mod_lt n (by decide)
      refine ⟨lead, ds ++ [⟨n % 10, hmod⟩], hlead, ?_, ?_⟩
      · have happend : digitText (lead :: (ds ++ [⟨n % 10, hmod⟩])) =
            digitText (lead :: ds) ++ [digitChar ⟨n % 10, hmod⟩] := by simp [digitText]
        rw [happend, htext, Fcmd.decimalNat_ge hge, digitChar_toUInt8]
      · have hdigit :=
          ExactDouble.digit (D := D) (a := (n / 10 : Nat)) (d := (n % 10 : Nat)) (by omega)
            (by omega) (by omega)
        have hvalue : ((n / 10 : Nat) : Int) * 10 + ((n % 10 : Nat) : Int) = (n : Int) := by omega
        rw [hvalue] at hdigit
        rw [← List.cons_append, readDigits_append, hread]
        exact hdigit

theorem decimalNat_length_le (h : n < 10 ^ (k + 1)) : (decimalNat n).length ≤ k + 1 := by
  induction k generalizing n with
  | zero => rw [Fcmd.decimalNat_lt (by simpa using h)]; exact Nat.le_refl 1
  | succ k ih =>
    rcases Nat.lt_or_ge n 10 with hlt | hge
    · rw [Fcmd.decimalNat_lt hlt]
      exact Nat.succ_le_succ (Nat.zero_le _)
    · have hdiv : n / 10 < 10 ^ (k + 1) :=
        Nat.div_lt_of_lt_mul (by rwa [Nat.pow_succ, Nat.mul_comm] at h)
      rw [Fcmd.decimalNat_ge hge, List.length_append]
      exact Nat.succ_le_succ (ih hdiv)

theorem decimal_length_le {v : Int} (h : intMin ≤ v) (h' : v ≤ intMax) :
    (decimal v).length ≤ 11 := by
  have hmax : v.natAbs < 10 ^ (9 + 1) := by
    unfold intMin at h
    unfold intMax at h'
    omega
  have hlength := decimalNat_length_le hmax
  rcases Int.lt_or_le v 0 with hneg | hnonneg
  · rw [Fcmd.decimal_of_neg hneg]
    exact Nat.succ_le_succ hlength
  · rw [Fcmd.decimal_of_nonneg hnonneg]
    exact hlength.trans (by decide)

end Decimal

section Number

variable [ExactDouble D]

theorem numberText_zero : numberText 0 (Double.ofInt 0 : D) = (2, text "0") := by
  have heq : Double.eq (Double.ofInt 0 : D) (Double.ofInt 0) :=
    (ExactDouble.eq_ofInt (by decide) (by decide)).mpr rfl
  rw [numberText, if_pos heq]

theorem numberText_whole {v : Int} (h : intMin ≤ v) (h' : v ≤ intMax) (hne : v ≠ 0) :
    numberText v (Double.ofInt v : D) = (21, decimal v) := by
  have hv : v.natAbs ≤ 2 ^ 53 := by
    unfold intMin at h
    unfold intMax at h'
    omega
  have heq : ¬ Double.eq (Double.ofInt v : D) (Double.ofInt 0) := fun h0 =>
    hne ((ExactDouble.eq_ofInt hv (by decide)).mp h0)
  have hle : Double.le (Double.ofInt v : D) (Double.ofInt intMax) :=
    (ExactDouble.le_ofInt hv (by decide)).mpr h'
  have hge : Double.le (Double.ofInt intMin : D) (Double.ofInt v) :=
    (ExactDouble.le_ofInt (by decide) hv).mpr h
  rw [numberText, if_neg heq, if_pos ⟨ExactDouble.sub_self hv, hle, hge⟩]

theorem numberValue_integer {negative : Bool} {lead : Fin 10} {ds : List (Fin 10)}
    (hlead : lead ≠ 0) {n : Nat}
    (hpos : 0 < n) (hmax : n ≤ 2 ^ 53)
    (h : readDigits (Double.ofInt 0 : D) (lead :: ds) = Double.ofInt n) :
    (numberValue (integer negative lead ds hlead) : D) =
      Double.ofInt (if negative then -n else n) := by
  have hdigits : integerDigits (integer negative lead ds hlead) = lead :: ds := if_neg hlead
  have hvalue : (numberValue (integer negative lead ds hlead) : D) =
      Double.mul (Double.mul (Double.ofInt (if negative then -1 else 1)) (Double.ofInt n))
        (Double.pow10 0) := by
    rw [numberValue, hdigits, h]
    rfl
  rw [hvalue, ExactDouble.mul_pow10_zero]
  cases negative with
  | false => exact ExactDouble.one_mul (by omega) (by omega)
  | true => exact ExactDouble.neg_one_mul (by omega) (by omega)

theorem wholeNumber_written {valueint : Int} {d : D} (h : WholeNumber valueint d) :
    ∃ n : Number, (numberText valueint d).2 = n.text ∧ n.text.length < (numberText valueint d).1 ∧
      SmallExponent n ∧ readNumber n = (valueint, d) := by
  obtain ⟨hmin, hmax, rfl⟩ := h
  rcases eq_or_ne valueint 0 with rfl | hne
  · have htoInt : Double.toInt (Double.ofInt 0 : D) = 0 := ExactDouble.toInt_ofInt hmin hmax
    have hvalue : (numberValue ⟨false, 0, [], fun _ => rfl, [], none⟩ : D) = Double.ofInt 0 := by
      have hmul : (numberValue ⟨false, 0, [], fun _ => rfl, [], none⟩ : D) =
          Double.mul (Double.mul (Double.ofInt 1) (Double.ofInt 0)) (Double.pow10 0) := rfl
      rw [hmul, ExactDouble.mul_pow10_zero, ExactDouble.one_mul (by decide) (by decide)]
    refine ⟨⟨false, 0, [], fun _ => rfl, [], none⟩, ?_, ?_, fun _ he => absurd he (by simp), ?_⟩
    · rw [numberText_zero]
      rfl
    · rw [numberText_zero]
      exact Nat.lt_succ_self 1
    · rw [readNumber, hvalue, htoInt]
  · have htoInt : Double.toInt (Double.ofInt valueint : D) = valueint :=
      ExactDouble.toInt_ofInt hmin hmax
    have hlength := decimal_length_le hmin hmax
    have habs : valueint.natAbs ≤ 2 ^ 53 := by
      unfold intMin at hmin
      unfold intMax at hmax
      omega
    obtain ⟨lead, ds, hlead, htext, hread⟩ :=
      decimal_digits (D := D) (n := valueint.natAbs) (by omega) habs
    have hwritten : decimal valueint = (integer (valueint < 0) lead ds hlead).text := by
      rcases Int.lt_or_le valueint 0 with hneg | hnonneg
      · rw [Fcmd.decimal_of_neg hneg, ← htext]
        simp [integer, Number.text, hneg, fractionText, exponentText]
      · rw [Fcmd.decimal_of_nonneg hnonneg, ← htext]
        simp [integer, Number.text, hnonneg, fractionText, exponentText]
    have hvalue : (numberValue (integer (valueint < 0) lead ds hlead) : D) =
        Double.ofInt valueint := by
      rw [numberValue_integer hlead (by omega) habs hread]
      congr 1
      rcases Int.lt_or_le valueint 0 with hneg | hnonneg
      · simp only [hneg, decide_true, if_true]
        omega
      · simp only [Int.not_lt.mpr hnonneg, decide_false, Bool.false_eq_true, if_false]
        omega
    refine ⟨integer (valueint < 0) lead ds hlead, ?_, ?_, fun _ he =>
      absurd he (by simp [integer]), ?_⟩
    · rw [numberText_whole hmin hmax hne, hwritten]
    · rw [numberText_whole hmin hmax hne, ← hwritten]
      omega
    · rw [readNumber, hvalue, htoInt]

end Number

section Items

section Unchanged

def Unchanged (P : Int → D → Prop) : Prop :=
  ∀ valueint d, P valueint d → reread (valueint, d) = (valueint, d)

variable {P : Int → D → Prop}

mutual

theorem view_map_reread (hP : Unchanged P) (item : Item D) (h : WellFormed P item) :
    (view item).map reread id = view item := by
  obtain ⟨child, type, valuestring, valueint, valuedouble, string⟩ := item
  cases type with
  | null | false | true => rfl
  | number => exact congrArg Value.num (hP _ _ h)
  | string => rfl
  | array => rw [view, Value.map, viewElements_map_reread hP child h]
  | object => rw [view, Value.map, viewMembers_map_reread hP child h]

theorem viewElements_map_reread (hP : Unchanged P) (child : List (Item D))
    (h : WellFormedElements P child) :
    mapElements reread id (viewElements child) = viewElements child := by
  match child with
  | [] => rfl
  | c :: child =>
    rw [viewElements, mapElements, view_map_reread hP c h.1, viewElements_map_reread hP child h.2]

theorem viewMembers_map_reread (hP : Unchanged P) (child : List (Item D))
    (h : WellFormedMembers P child) :
    mapMembers reread id (viewMembers child) = viewMembers child := by
  match child with
  | [] => rfl
  | c :: child =>
    rw [viewMembers, mapMembers, view_map_reread hP c h.2.1,
      viewMembers_map_reread hP child h.2.2, id]

end

end Unchanged

variable [ExactDouble D]

/-- An item whose numbers are integers is parsed again from what is printed of it. -/
theorem parse_print_whole (item : Item D) (fmt : Bool) (h : WellFormed WholeNumber item)
    (hsize : 2 * (printed item 0 fmt).length + 8 ≤ intMax) :
    ∃ (t : Text) (item' : Item D), printValue item 0 fmt = .ok t ∧ parse t = .ok item' ∧
      view item' = view item := by
  have hprintable : Printable item := WellFormed.mono (fun valueint d hd => by
    obtain ⟨n, heq, hlen, hsmall, -⟩ := wholeNumber_written hd
    exact ⟨n, heq, hlen, hsmall⟩) item h
  obtain ⟨t, item', hprint, hparse, hview⟩ := parse_print item fmt hprintable hsize
  refine ⟨t, item', hprint, hparse, hview.trans (view_map_reread (fun valueint d hd => ?_) item h)⟩
  obtain ⟨n, heq, -, hsmall, hread⟩ := wholeNumber_written hd
  rw [reread_eq heq hsmall, hread]

instance : ExactDouble Int where
  digit _ _ _ := rfl
  one_mul _ _ := Int.one_mul _
  neg_one_mul _ _ := Int.neg_one_mul _
  mul_pow10_zero := Int.mul_one
  toInt_ofInt _ _ := rfl
  eq_ofInt _ _ := decide_eq_true_iff
  le_ofInt _ _ := decide_eq_true_iff
  sub_self {a} _ := by
    have hzero : (a - a).natAbs = 0 := by rw [Int.sub_self, Int.natAbs_zero]
    exact decide_eq_true (Int.le_of_eq (congrArg Nat.cast hzero))

theorem parse_print_whole_sample :
    ∃ (t : Text) (item' : Item Int), printValue sample 0 true = .ok t ∧
      parse t = .ok item' ∧ view item' = view sample :=
  parse_print_whole sample true (sample_wellFormed ⟨by decide, by decide, rfl⟩) (by decide)

end Items

end Mangoxx.CJson
