import Mangoxx.CJson.Strings
import Mangoxx.CJson.Printed
import Mathlib.Algebra.Group.Nat.Defs

namespace Mangoxx.CJson

open Lib.Json
open Fcmd (text)

variable {D : Type} [Double D]

section Safe

def textValue (n : Nat) (digits : Text) : Nat :=
  digits.foldl (fun n c => n * 10 + (c.toNat - 48)) n

def Oversized (t : Text) : Prop :=
  intMax ≤ t.length ∨ ∃ (e : UInt8) (sign digits : Text), e :: (sign ++ digits) <:+: t ∧
    (e = 'e'.toUInt8 ∨ e = 'E'.toUInt8) ∧ sign ∈ [[], ['+'.toUInt8], ['-'.toUInt8]] ∧
    (∀ c ∈ digits, isDigit c) ∧ intMax < textValue 0 digits

theorem Oversized.mono (h : Oversized s) (hs : s <:+ t) : Oversized t := by
  rcases h with hlong | ⟨e, sign, digits, hin, hexponent⟩
  · exact .inl (Nat.le_trans hlong hs.length_le)
  · exact .inr ⟨e, sign, digits, hin.trans hs.isInfix, hexponent⟩

/-- The result for the text is in `Q`, or the failure is one that can happen. -/
def Safe (t : Text) (Q : α → Prop) : Result α → Prop
  | .ok a => Q a
  | .error (.malformed ep) => ep <:+ t
  | .error .fault => '\\'.toUInt8 ∈ t
  | .error .overflow => Oversized t
  | .error .spin => False

variable {Q : β → Prop} {R : α → Prop}

theorem Safe.bind {r : Result α} {f : α → Result β} (hr : Safe t R r)
    (hf : ∀ a, R a → Safe t Q (f a)) :
    Safe t Q (r >>= f) := by
  cases r with
  | ok a => exact hf a hr
  | error e => cases e <;> exact hr

theorem Safe.mono {R' : α → Prop} {r : Result α} (hr : Safe s R r) (hs : s <:+ t)
    (hR : ∀ a, R a → R' a) :
    Safe t R' r := by
  match r with
  | .ok a => exact hR a hr
  | .error (.malformed ep) => exact List.IsSuffix.trans hr hs
  | .error .fault => exact hs.subset hr
  | .error .overflow => exact Oversized.mono hr hs

end Safe

section Suffixes

theorem skip_suffix (t : Text) : skip t <:+ t := List.dropWhile_suffix _

theorem zero_not_mem_suffix (h : 0 ∉ t) (hs : s <:+ t) : (0 : UInt8) ∉ s :=
  fun h0 => h (hs.subset h0)

theorem star_eq_zero (h : 0 ∉ t) (hstar : star t = 0) : t = [] := by
  cases t with
  | nil => rfl
  | cons c t => exact absurd (hstar ▸ List.mem_cons_self : (0 : UInt8) ∈ c :: t) h

theorem tail_length_lt (h : star t ≠ 0) : t.tail.length < t.length := by
  cases t with
  | nil => exact absurd rfl h
  | cons c t => exact Nat.lt_succ_self _

end Suffixes

section Numbers

theorem digitLoop_suffix (n : D) (num : Text) : (digitLoop n num).2 <:+ num := by
  induction num generalizing n with
  | nil => exact List.suffix_refl _
  | cons c num ih =>
    rw [digitLoop]
    split
    · exact (ih _).trans (List.suffix_cons c num)
    · exact List.suffix_refl _

theorem fractionLoop_suffix (n : D) (scale : Int) (num : Text) :
    (fractionLoop n scale num).2.2 <:+ num := by
  induction num generalizing n scale with
  | nil => exact List.suffix_refl _
  | cons c num ih =>
    rw [fractionLoop]
    split
    · exact (ih _ _).trans (List.suffix_cons c num)
    · exact List.suffix_refl _

theorem exponentLoop_safe (subscale : Nat) (num : Text) :
    (∃ r, exponentLoop subscale num = .ok r ∧ r.2 <:+ num) ∨
      exponentLoop subscale num = .error .overflow ∧ ∃ digits, digits <+: num ∧
        (∀ c ∈ digits, isDigit c) ∧ intMax < textValue subscale digits := by
  induction num generalizing subscale with
  | nil => exact .inl ⟨_, rfl, List.suffix_refl _⟩
  | cons c num ih =>
    rw [exponentLoop]
    split
    · rename_i hdigit
      split
      · rename_i hover
        refine .inr ⟨rfl, [c], List.prefix_append [c] num, fun c' hc' => ?_, hover⟩
        rw [List.mem_singleton.mp hc']
        exact hdigit
      · rcases ih (subscale * 10 + (c.toNat - 48))
          with ⟨r, hr, hrest⟩ | ⟨hr, digits, hin, hdigits, hover⟩
        · exact .inl ⟨r, hr, hrest.trans (List.suffix_cons c num)⟩
        · refine .inr ⟨hr, c :: digits, List.cons_prefix_cons.mpr ⟨rfl, hin⟩, ?_, hover⟩
          exact List.forall_mem_cons.mpr ⟨hdigit, hdigits⟩
    · exact .inl ⟨_, rfl, List.suffix_refl _⟩

theorem integerPart_suffix (num : Text) : (integerPart num : D × Text).2 <:+ num := by
  unfold integerPart
  have hzero : (if star num = '0'.toUInt8 then num.tail else num) <:+ num := by
    split
    · exact List.tail_suffix num
    · exact List.suffix_refl _
  simp only
  generalize (if star num = '0'.toUInt8 then num.tail else num) = num' at hzero ⊢
  split
  · exact (digitLoop_suffix _ _).trans hzero
  · exact hzero

theorem fractionPart_suffix (n : D) (num : Text) : (fractionPart n num).2.2 <:+ num := by
  unfold fractionPart
  split
  · exact (fractionLoop_suffix _ _ _).trans (List.tail_suffix num)
  · exact List.suffix_refl _

theorem cons_star_tail (h : star t ≠ 0) : star t :: t.tail = t := by
  cases t with
  | nil => exact absurd rfl h
  | cons c t => rfl

theorem exponentSign_eq (num : Text) :
    ∃ sign ∈ [[], ['+'.toUInt8], ['-'.toUInt8]], num = sign ++ (exponentSign num).2 := by
  unfold exponentSign
  split
  · rename_i hplus
    refine ⟨['+'.toUInt8], by simp, ?_⟩
    rw [← hplus]
    exact (cons_star_tail (by rw [hplus]; decide)).symm
  split
  · rename_i hminus
    refine ⟨['-'.toUInt8], by simp, ?_⟩
    rw [← hminus]
    exact (cons_star_tail (by rw [hminus]; decide)).symm
  · exact ⟨[], by simp, rfl⟩

theorem exponentPart_safe (num : Text) : Safe num (fun r => r.2 <:+ num) (exponentPart num) := by
  unfold exponentPart
  split
  · rename_i he
    obtain ⟨sign, hsign, htail⟩ := exponentSign_eq num.tail
    have hnum : star num :: (sign ++ (exponentSign num.tail).2) = num := by
      rw [← htail]
      refine cons_star_tail ?_
      rcases he with he | he <;> rw [he] <;> decide
    generalize (exponentSign num.tail) = signed at hnum
    obtain ⟨signsubscale, rest⟩ := signed
    dsimp only at hnum ⊢
    rcases exponentLoop_safe 0 rest with ⟨r, hr, hrest⟩ | ⟨hr, digits, hin, hdigits, hover⟩
    · rw [hr]
      refine hrest.trans ⟨star num :: sign, ?_⟩
      exact hnum
    · rw [hr]
      refine .inr ⟨star num, sign, digits, ?_, he, hsign, hdigits, hover⟩
      obtain ⟨behind, hbehind⟩ := hin
      exact ⟨[], behind, by rw [← hbehind] at hnum; simpa using hnum⟩
  · exact List.suffix_refl _

theorem parseNumber_safe (item : Item D) (num : Text) :
    Safe num (fun r => (∃ n, r.1 = item.setNumber n) ∧ r.2 <:+ num) (parseNumber item num) := by
  have hsign : (numberSign num).2 <:+ num := by
    unfold numberSign
    split
    · exact List.tail_suffix num
    · exact List.suffix_refl _
  have hint := (integerPart_suffix (D := D) (numberSign num).2).trans hsign
  have hfrac := (fractionPart_suffix (integerPart (numberSign num).2 : D × Text).1
    (integerPart (numberSign num).2 : D × Text).2).trans hint
  exact ((exponentPart_safe _).mono hfrac fun r hr => hr.trans hfrac).bind fun r hr =>
    ⟨⟨_, rfl⟩, hr⟩

end Numbers

section Escapes

theorem zero_not_mem_utf8_nat {uc : Nat} (hpos : uc ≠ 0) (h : uc.isValidChar) : 0 ∉ utf8 uc := by
  have heq := utf8_eq (Char.ofNatAux uc h)
  rw [ofNatAux_toNat] at heq
  rw [heq]
  exact zero_not_mem_utf8 hpos

theorem hexDigit_lt : ∀ c, ∀ d ∈ hexDigit c, d < 16 := by
  apply Lib.Bits.forall_byte
  decide +kernel

theorem parseHex4_lt (str : Text) : parseHex4 str < 65536 := by
  unfold parseHex4
  split
  · rename_i a b c d ha hb hc hd
    have := hexDigit_lt _ a ha
    have := hexDigit_lt _ b hb
    have := hexDigit_lt _ c hc
    have := hexDigit_lt _ d hd
    simp only [shiftLeft_four_add]
    omega
  · decide

theorem surrogate_valid (uc uc2 : Nat) :
    0x10000 + (((uc &&& 0x3FF) <<< 10) ||| (uc2 &&& 0x3FF)) ≠ 0 ∧
      (0x10000 + (((uc &&& 0x3FF) <<< 10) ||| (uc2 &&& 0x3FF))).isValidChar := by
  have hmask (x : Nat) : x &&& 0x3FF = x % 2 ^ 10 := Nat.and_two_pow_sub_one_eq_mod x 10
  rw [hmask, hmask, ← Nat.shiftLeft_add_eq_or_of_lt (Nat.mod_lt _ (by decide)), Nat.shiftLeft_eq]
  unfold Nat.isValidChar
  omega

variable {t : Text} (hslash : '\\'.toUInt8 ∈ t)
include hslash

theorem advance_safe (n : Nat) (ptr : Text) :
    Safe t (fun r => r <:+ ptr ∧ r.length + n = ptr.length) (advance n ptr) := by
  unfold advance
  split
  · refine ⟨List.drop_suffix n ptr, ?_⟩
    rw [List.length_drop]
    omega
  · exact hslash

theorem peek_safe (i : Nat) (ptr : Text) : Safe t (fun _ => True) (peek i ptr) := by
  unfold peek
  split
  · exact trivial
  · exact hslash

theorem secondHalf_safe (uc : Nat) (ptr : Text) :
    Safe t (fun r => 0 ∉ r.1 ∧ r.2 <:+ ptr) (secondHalf uc ptr) := by
  refine (peek_safe hslash 1 ptr).bind fun c _ => ?_
  split
  · exact ⟨List.not_mem_nil, List.suffix_refl ptr⟩
  refine (peek_safe hslash 2 ptr).bind fun c' _ => ?_
  split
  · exact ⟨List.not_mem_nil, List.suffix_refl ptr⟩
  refine (advance_safe hslash 6 ptr).bind fun ptr' hptr' => ?_
  split
  · exact ⟨List.not_mem_nil, hptr'.1⟩
  · have hvalid := surrogate_valid uc (parseHex4 (ptr.drop 3))
    exact ⟨zero_not_mem_utf8_nat hvalid.1 hvalid.2, hptr'.1⟩

theorem transcode_safe (ptr : Text) : Safe t (fun r => 0 ∉ r.1 ∧ r.2 <:+ ptr) (transcode ptr) := by
  refine (advance_safe hslash 4 ptr).bind fun ptr' hptr' => ?_
  have hlt := parseHex4_lt (ptr.drop 1)
  split
  · exact ⟨List.not_mem_nil, hptr'.1⟩
  rename_i hinvalid
  split
  · exact (secondHalf_safe hslash _ ptr').mono (List.suffix_refl t) fun r hr =>
      ⟨hr.1, hr.2.trans hptr'.1⟩
  · refine ⟨zero_not_mem_utf8_nat (by omega) ?_, hptr'.1⟩
    unfold Nat.isValidChar
    omega

theorem unescape_safe (ptr : Text) (h0 : 0 ∉ ptr) :
    Safe t (fun r => (ptr = [] ∨ 0 ∉ r.1) ∧ r.2 <:+ ptr) (unescape ptr) := by
  have hone (c : UInt8) (hc : c ≠ 0) : (ptr = [] ∨ 0 ∉ [c]) ∧ ptr <:+ ptr :=
    ⟨.inr fun h => hc (List.mem_singleton.mp h).symm, List.suffix_refl ptr⟩
  unfold unescape
  simp only
  split
  · exact hone 8 (by decide)
  split
  · exact hone 12 (by decide)
  split
  · exact hone 10 (by decide)
  split
  · exact hone 13 (by decide)
  split
  · exact hone 9 (by decide)
  split
  · exact (transcode_safe hslash ptr).mono (List.suffix_refl t) fun r hr => ⟨.inr hr.1, hr.2⟩
  · by_cases hstar : star ptr = 0
    · exact ⟨.inl (star_eq_zero h0 hstar), List.suffix_refl ptr⟩
    · exact hone _ hstar

end Escapes

section Strings

def count (ptr : Text) : Nat := (ptr.takeWhile fun c => c ≠ '"'.toUInt8 ∧ c ≠ 0).length

theorem count_cons {c : UInt8} (h : c ≠ '"'.toUInt8 ∧ c ≠ 0) (ptr : Text) :
    count (c :: ptr) = count ptr + 1 := by
  simp [count, h]

theorem copyTurn_safe (hne : star ptr ≠ 0) (h0 : 0 ∉ ptr) (hptr : ptr <:+ t) :
    Safe t (fun r => 0 ∉ r.1 ∧ r.2 <:+ ptr ∧ r.2.length < ptr.length ∧
      ('\\'.toUInt8 ∈ t ∨ r.1.length = 1 ∧ r.2 = ptr.tail)) (copyTurn ptr) := by
  have htail := tail_length_lt hne
  unfold copyTurn
  split
  · exact ⟨fun h => hne (List.mem_singleton.mp h).symm, List.tail_suffix ptr, htail,
      .inr ⟨rfl, rfl⟩⟩
  · rename_i hstar
    have hslash : '\\'.toUInt8 ∈ t := by
      cases ptr with
      | nil => exact absurd rfl hne
      | cons c ptr =>
        obtain rfl : c = '\\'.toUInt8 := Classical.not_not.mp hstar
        exact hptr.subset List.mem_cons_self
    refine (unescape_safe hslash ptr.tail (zero_not_mem_suffix h0 (List.tail_suffix ptr))).bind ?_
    rintro ⟨bytes, last⟩ ⟨hbytes, hlast⟩
    refine (advance_safe hslash 1 last).bind fun next hnext => ?_
    have hle : last.length ≤ ptr.tail.length := hlast.length_le
    have hlt : next.length < ptr.length := by omega
    refine ⟨?_, hnext.1.trans (hlast.trans (List.tail_suffix ptr)), hlt, .inl hslash⟩
    rcases hbytes with hnil | hzero
    · rw [hnil, List.length_nil] at hle
      omega
    · exact hzero

theorem copyLoop_safe (room fuel : Nat) (hfuel : ptr.length < fuel) (h0 : 0 ∉ ptr) (hout : 0 ∉ out)
    (hptr : ptr <:+ t) (hroom : '\\'.toUInt8 ∈ t ∨ out.length + count ptr ≤ room) :
    Safe t (fun r => 0 ∉ r.1 ∧ r.2 <:+ ptr ∧
      ('\\'.toUInt8 ∈ t ∨ r.1.length = out.length + count ptr))
      (copyLoop room fuel ptr out) := by
  induction fuel generalizing ptr out with
  | zero => exact absurd hfuel (Nat.not_lt_zero _)
  | succ fuel ih =>
    rw [copyLoop]
    split
    · rename_i hend
      refine ⟨hout, List.suffix_refl ptr, .inr ?_⟩
      have hcount : count ptr = 0 := by
        cases ptr with
        | nil => rfl
        | cons c ptr =>
          have hstop : ¬ (c ≠ '"'.toUInt8 ∧ c ≠ 0) := by
            rintro ⟨hquote, hzero⟩
            exact hend.elim hquote hzero
          rw [count, List.takeWhile_cons_of_neg (by simpa using hstop)]
          rfl
      rw [hcount, Nat.add_zero]
    · rename_i hgo
      obtain ⟨hquote, hne⟩ := not_or.mp hgo
      have hcount : count ptr = count ptr.tail + 1 := by
        cases ptr with
        | nil => exact absurd rfl hne
        | cons c ptr => exact count_cons ⟨hquote, hne⟩ ptr
      refine (copyTurn_safe hne h0 hptr).bind ?_
      rintro ⟨bytes, next⟩ ⟨hbytes, hsuffix, hlength, hone⟩
      dsimp only at hbytes hsuffix hlength hone ⊢
      have hout' : 0 ∉ out ++ bytes := fun h => (List.mem_append.mp h).elim hout hbytes
      have hroom' : '\\'.toUInt8 ∈ t ∨ (out ++ bytes).length + count next =
          out.length + count ptr := by
        rcases hone with hslash | ⟨hone, htail⟩
        · exact .inl hslash
        · rw [List.length_append, htail]
          exact .inr (by omega)
      split
      · rename_i hoverrun
        rcases hroom with hslash | hroom
        · exact hslash
        rcases hone with hslash | ⟨hone, -⟩
        · exact hslash
        · omega
      · refine (ih (by omega) (zero_not_mem_suffix h0 hsuffix) hout' (hsuffix.trans hptr) ?_).mono
          (List.suffix_refl t) fun r hr => ⟨hr.1, hr.2.1.trans hsuffix, ?_⟩
        · rcases hroom with hslash | hroom
          · exact .inl hslash
          · exact hroom'.imp_right fun heq => heq.trans_le hroom
        · rcases hr.2.2 with hslash | hlen
          · exact .inl hslash
          · exact hroom'.imp_right fun heq => hlen.trans heq

theorem lengthLoop_safe (ptr : Text) (len : Nat) (hptr : ptr <:+ t)
    (hlen : len + ptr.length ≤ t.length) :
    Safe t (fun r => '\\'.toUInt8 ∈ t ∨ r = len + count ptr) (lengthLoop ptr len) := by
  induction ptr, len using lengthLoop.induct with
  | case1 len =>
    rw [lengthLoop.eq_def]
    exact .inr rfl
  | case2 c ptr len hstop =>
    have hcount : count (c :: ptr) = 0 := by
      rw [count, List.takeWhile_cons_of_neg (by simpa using fun h => hstop.resolve_left h)]
      rfl
    rw [lengthLoop.eq_def]
    simp only
    rw [if_pos hstop]
    exact .inr (by rw [hcount, Nat.add_zero])
  | case3 c ptr len hgo hmax =>
    rw [lengthLoop.eq_def]
    simp only
    rw [if_neg hgo, if_pos hmax]
    rw [List.length_cons] at hlen
    exact .inl (by omega)
  | case4 c ptr len hgo hmax hplain ih =>
    rw [lengthLoop.eq_def]
    simp only
    rw [if_neg hgo, if_neg hmax, if_pos hplain]
    rw [List.length_cons] at hlen
    refine (ih ((List.suffix_cons c ptr).trans hptr) (by omega)).mono (List.suffix_refl t)
      fun r hr => hr.imp_right fun heq => ?_
    rw [heq, count_cons (not_or.mp hgo)]
    omega
  | case5 c len hgo hmax hslash =>
    rw [lengthLoop.eq_def]
    simp only
    rw [if_neg hgo, if_neg hmax, if_neg hslash]
    obtain rfl : c = '\\'.toUInt8 := Classical.not_not.mp hslash
    exact hptr.subset List.mem_cons_self
  | case6 c len hgo hmax hslash head ptr ih =>
    obtain rfl : c = '\\'.toUInt8 := Classical.not_not.mp hslash
    rw [lengthLoop.eq_def]
    simp only
    rw [if_neg hgo, if_neg hmax, if_neg hslash]
    have hsuffix := (List.suffix_cons head ptr).trans (List.suffix_cons '\\'.toUInt8 (head :: ptr))
    simp only [List.length_cons] at hlen
    exact (ih (hsuffix.trans hptr) (by omega)).mono (List.suffix_refl t) fun r _ =>
      .inl (hptr.subset List.mem_cons_self)

omit [Double D] in
theorem parseString_safe (item : Item D) (h0 : 0 ∉ str) :
    Safe str (fun r => (∃ s, r.1 = { item with valuestring := some s, type := .string } ∧ 0 ∉ s) ∧
      r.2 <:+ str ∧ r.2.length < str.length) (parseString item str) := by
  unfold parseString
  split
  · exact List.suffix_refl str
  · rename_i hquote
    have htail : str.tail.length < str.length := tail_length_lt (by
      rw [Classical.not_not.mp hquote]
      decide)
    have hsuffix := List.tail_suffix str
    refine (lengthLoop_safe str.tail 0 hsuffix (by omega)).bind fun len hlen => ?_
    have hroom : '\\'.toUInt8 ∈ str ∨ 0 + count str.tail ≤ len + 1 :=
      hlen.imp_right fun heq => by omega
    refine (copyLoop_safe (len + 1) (str.length + 1) (by omega) (zero_not_mem_suffix h0 hsuffix)
      List.not_mem_nil hsuffix hroom).bind ?_
    rintro ⟨out, ptr⟩ ⟨hout, hptr, hlength⟩
    dsimp only at hout hptr hlength ⊢
    split
    · rename_i hoverrun
      rcases hlen with hslash | hlen
      · exact hslash
      · refine hlength.resolve_right fun hlength => ?_
        rw [List.length_nil] at hlength
        omega
    · have hend : (if star ptr = '"'.toUInt8 then ptr.tail else ptr) <:+ str.tail := by
        split
        · exact (List.tail_suffix ptr).trans hptr
        · exact hptr
      have hle := hend.length_le
      exact ⟨⟨out, rfl, hout⟩, hend.trans hsuffix, by dsimp only; omega⟩

end Strings

section Values

def Converted (valueint : Int) (d : D) : Prop := valueint = Double.toInt d

def Accepted (t : Text) (name : Option Text) (r : Item D × Text) : Prop :=
  WellFormed Converted r.1 ∧ r.1.string = name ∧ r.2 <:+ t

def SafeBelow (parse : Item D → Text → Result (Item D × Text)) (n : Nat) : Prop :=
  ∀ (item : Item D) (t : Text), item.child = [] → 0 ∉ t → t.length < n →
    Safe t (Accepted t item.string) (parse item t)

variable {parse : Item D → Text → Result (Item D × Text)}

theorem SafeBelow.mono (h : SafeBelow parse n) (hmn : m ≤ n) : SafeBelow parse m :=
  fun item t hitem h0 hlen => h item t hitem h0 (Nat.lt_of_lt_of_le hlen hmn)

omit [Double D] in
theorem WellFormedElements.concat {P : Int → D → Prop} {children : List (Item D)} {c : Item D}
    (h : WellFormedElements P children) (hc : WellFormed P c) :
    WellFormedElements P (children ++ [c]) := by
  induction children with
  | nil => exact ⟨hc, trivial⟩
  | cons c' children ih => exact ⟨h.1, ih h.2⟩

omit [Double D] in
theorem WellFormedMembers.concat {P : Int → D → Prop} {children : List (Item D)} {c : Item D}
    (h : WellFormedMembers P children) (hname : PrintableString c.string) (hc : WellFormed P c) :
    WellFormedMembers P (children ++ [c]) := by
  induction children with
  | nil => exact ⟨hname, hc, trivial⟩
  | cons c' children ih => exact ⟨h.1, h.2.1, ih h.2.2⟩

theorem skip_tail_suffix (t : Text) : skip t.tail <:+ t :=
  (skip_suffix _).trans (List.tail_suffix t)

theorem skip_tail_length (h : star t ≠ 0) : (skip t.tail).length < t.length :=
  Nat.lt_of_le_of_lt (skip_suffix t.tail).length_le (tail_length_lt h)

theorem elementLoop_safe (fuel : Nat) (hfuel : t.length < fuel) (hparse : SafeBelow parse t.length)
    (h0 : 0 ∉ t) {children : List (Item D)} (hchildren : WellFormedElements Converted children) :
    Safe t (fun r => WellFormedElements Converted r.1 ∧ r.2 <:+ t)
      (elementLoop parse fuel children t) := by
  induction fuel generalizing t children with
  | zero => exact absurd hfuel (Nat.not_lt_zero _)
  | succ fuel ih =>
    rw [elementLoop]
    split
    · rename_i hcomma
      have hstar : star t ≠ 0 := by
        rw [hcomma]
        decide
      have hsuffix := skip_tail_suffix t
      have hlen := skip_tail_length hstar
      have hnew := hparse newItem _ rfl (zero_not_mem_suffix h0 hsuffix) hlen
      refine (hnew.mono hsuffix fun r hr => hr).bind ?_
      rintro ⟨child, value⟩ ⟨hchild, -, hvalue⟩
      dsimp only at hchild hvalue ⊢
      have hrest := (skip_suffix value).trans hvalue
      have hle := hrest.length_le
      exact (ih (by omega) (hparse.mono (by omega)) (zero_not_mem_suffix h0 (hrest.trans hsuffix))
        (hchildren.concat hchild)).mono (hrest.trans hsuffix) fun r hr =>
          ⟨hr.1, hr.2.trans (hrest.trans hsuffix)⟩
    · exact ⟨hchildren, List.suffix_refl t⟩

theorem parseArray_safe (item : Item D) (hitem : item.child = [])
    (hparse : SafeBelow parse t.length) (h0 : 0 ∉ t) :
    Safe t (Accepted t item.string) (parseArray parse item t) := by
  unfold parseArray
  split
  · exact List.suffix_refl t
  · rename_i hopen
    have hstar : star t ≠ 0 := by
      rw [Classical.not_not.mp hopen]
      decide
    have hsuffix := skip_tail_suffix t
    have hlen := skip_tail_length hstar
    dsimp only
    split
    · refine ⟨?_, rfl, (List.tail_suffix _).trans hsuffix⟩
      show WellFormedElements Converted item.child
      rw [hitem]
      exact trivial
    · have hskip := (skip_suffix (skip t.tail)).trans hsuffix
      have hskip' := (skip_suffix (skip t.tail)).length_le
      have hnew := hparse newItem _ rfl (zero_not_mem_suffix h0 hskip) (by omega)
      refine (hnew.mono hskip fun r hr => hr).bind ?_
      rintro ⟨child, value⟩ ⟨hchild, -, hvalue⟩
      dsimp only at hchild hvalue ⊢
      have hrest := (skip_suffix value).trans (hvalue.trans hskip)
      have hrest' := (skip_suffix value).length_le
      have hle := (hvalue.trans (skip_suffix (skip t.tail))).length_le
      have hfirst : WellFormedElements Converted [child] := ⟨hchild, trivial⟩
      refine ((elementLoop_safe (value.length + 1) (by omega) (hparse.mono (by omega))
        (zero_not_mem_suffix h0 hrest) hfirst).mono hrest fun r hr => hr).bind ?_
      rintro ⟨children, value'⟩ ⟨hchildren, hvalue'⟩
      dsimp only at hchildren hvalue' ⊢
      split
      · exact ⟨hchildren, rfl, (List.tail_suffix _).trans (hvalue'.trans hrest)⟩
      · exact hvalue'.trans hrest

theorem parseMember_safe (hparse : SafeBelow parse t.length) (h0 : 0 ∉ t) :
    Safe t (fun r => PrintableString r.1.string ∧ WellFormed Converted r.1 ∧ r.2 <:+ t)
      (parseMember parse t) := by
  have hskip := skip_suffix t
  have hkey := parseString_safe (newItem : Item D) (zero_not_mem_suffix h0 hskip)
  refine (hkey.mono hskip fun r hr => hr).bind ?_
  rintro ⟨child, value⟩ ⟨⟨name, rfl, hname⟩, hvalue, hlen⟩
  dsimp only at hvalue hlen ⊢
  have hrest := (skip_suffix value).trans (hvalue.trans hskip)
  split
  · exact hrest
  · rename_i hcolon
    have hsuffix := skip_tail_suffix (skip value)
    have hle := hsuffix.length_le
    have hle' := (skip_suffix value).length_le
    have hle'' := hskip.length_le
    refine ((hparse _ _ rfl (zero_not_mem_suffix h0 (hsuffix.trans hrest)) (by omega)).mono
      (hsuffix.trans hrest) fun r hr => hr).bind ?_
    rintro ⟨child', value'⟩ ⟨hchild, hstring, hvalue'⟩
    dsimp only at hchild hstring hvalue'
    refine ⟨⟨name, hstring, hname⟩, hchild, ?_⟩
    exact (skip_suffix value').trans (hvalue'.trans (hsuffix.trans hrest))

theorem memberLoop_safe (fuel : Nat) (hfuel : t.length < fuel) (hparse : SafeBelow parse t.length)
    (h0 : 0 ∉ t) {children : List (Item D)} (hchildren : WellFormedMembers Converted children) :
    Safe t (fun r => WellFormedMembers Converted r.1 ∧ r.2 <:+ t)
      (memberLoop parse fuel children t) := by
  induction fuel generalizing t children with
  | zero => exact absurd hfuel (Nat.not_lt_zero _)
  | succ fuel ih =>
    rw [memberLoop]
    split
    · rename_i hcomma
      have hstar : star t ≠ 0 := by
        rw [hcomma]
        decide
      have hsuffix := List.tail_suffix t
      have hlen := tail_length_lt hstar
      have hmember := parseMember_safe (hparse.mono (by omega)) (zero_not_mem_suffix h0 hsuffix)
      refine (hmember.mono hsuffix fun r hr => hr).bind ?_
      rintro ⟨child, value⟩ ⟨hname, hchild, hvalue⟩
      dsimp only at hname hchild hvalue ⊢
      have hle := hvalue.length_le
      have hrest := hvalue.trans hsuffix
      exact (ih (by omega) (hparse.mono (by omega)) (zero_not_mem_suffix h0 hrest)
        (hchildren.concat hname hchild)).mono hrest fun r hr => ⟨hr.1, hr.2.trans hrest⟩
    · exact ⟨hchildren, List.suffix_refl t⟩

theorem parseObject_safe (item : Item D) (hitem : item.child = [])
    (hparse : SafeBelow parse t.length) (h0 : 0 ∉ t) :
    Safe t (Accepted t item.string) (parseObject parse item t) := by
  unfold parseObject
  split
  · exact List.suffix_refl t
  · rename_i hopen
    have hstar : star t ≠ 0 := by
      rw [Classical.not_not.mp hopen]
      decide
    have hsuffix := skip_tail_suffix t
    have hlen := skip_tail_length hstar
    dsimp only
    split
    · refine ⟨?_, rfl, (List.tail_suffix _).trans hsuffix⟩
      show WellFormedMembers Converted item.child
      rw [hitem]
      exact trivial
    · have hmember := parseMember_safe (hparse.mono (by omega)) (zero_not_mem_suffix h0 hsuffix)
      refine (hmember.mono hsuffix fun r hr => hr).bind ?_
      rintro ⟨child, value⟩ ⟨hname, hchild, hvalue⟩
      dsimp only at hname hchild hvalue ⊢
      have hle := hvalue.length_le
      have hrest := hvalue.trans hsuffix
      have hfirst : WellFormedMembers Converted [child] := ⟨hname, hchild, trivial⟩
      refine ((memberLoop_safe (value.length + 1) (by omega) (hparse.mono (by omega))
        (zero_not_mem_suffix h0 hrest) hfirst).mono hrest fun r hr => hr).bind ?_
      rintro ⟨children, value'⟩ ⟨hchildren, hvalue'⟩
      dsimp only at hchildren hvalue' ⊢
      split
      · exact ⟨hchildren, rfl, (List.tail_suffix _).trans (hvalue'.trans hrest)⟩
      · exact hvalue'.trans hrest

theorem parseValue_safe (fuel : Nat) : SafeBelow (parseValue fuel : Item D → _) fuel := by
  induction fuel with
  | zero => exact fun _ _ _ _ hlen => absurd hlen (Nat.not_lt_zero _)
  | succ fuel ih =>
    intro item t hitem h0 hlen
    have hbelow : SafeBelow (parseValue fuel : Item D → _) t.length :=
      ih.mono (Nat.le_of_lt_succ hlen)
    rw [parseValue]
    split
    · exact ⟨trivial, rfl, List.drop_suffix 4 t⟩
    split
    · exact ⟨trivial, rfl, List.drop_suffix 5 t⟩
    split
    · exact ⟨trivial, rfl, List.drop_suffix 4 t⟩
    split
    · refine (parseString_safe item h0).mono (List.suffix_refl t) ?_
      rintro ⟨item', rest⟩ ⟨⟨s, rfl, hs⟩, hrest, -⟩
      exact ⟨⟨s, rfl, hs⟩, rfl, hrest⟩
    split
    · refine (parseNumber_safe item t).mono (List.suffix_refl t) ?_
      rintro ⟨item', rest⟩ ⟨⟨n, rfl⟩, hrest⟩
      exact ⟨rfl, rfl, hrest⟩
    split
    · exact parseArray_safe item hitem hbelow h0
    split
    · exact parseObject_safe item hitem hbelow h0
    · exact List.suffix_refl t

/-- Parsing any C string comes to an end.  An item that is returned has all its strings and names,
without a NUL, and what is left is an end of the text, just as where the parser gives up; outside of
the text or of a block something is read or written only if the text has a backslash. -/
theorem parseWithOpts_safe (t : Text) (h0 : 0 ∉ t) (nul : Bool) :
    Safe t (fun r : Item D × Text => WellFormed Converted r.1 ∧ r.1.string = none ∧ r.2 <:+ t ∧
      (nul = true → r.2 = [])) (parseWithOpts t nul) := by
  have hskip := skip_suffix t
  refine ((parseValue_safe (t.length + 1) newItem (skip t) rfl (zero_not_mem_suffix h0 hskip)
    (Nat.lt_succ_of_le hskip.length_le)).mono hskip fun r hr => hr).bind ?_
  rintro ⟨item, ptr⟩ ⟨hitem, hname, hptr⟩
  dsimp only at hitem hname hptr ⊢
  have hend := (skip_suffix ptr).trans (hptr.trans hskip)
  split
  · split
    · exact hend
    · rename_i hstar
      exact ⟨hitem, hname, hend,
        fun _ => star_eq_zero (zero_not_mem_suffix h0 hend) (Classical.not_not.mp hstar)⟩
  · rename_i hnul
    exact ⟨hitem, hname, hptr.trans hskip, fun h => absurd h hnul⟩

theorem parseWithOpts_safe_unterminated : Safe (text "[\"a")
    (fun r : Item Int × Text => WellFormed Converted r.1 ∧ r.1.string = none ∧ r.2 <:+ text "[\"a" ∧
      (true = true → r.2 = [])) (parseWithOpts (text "[\"a") true) :=
  parseWithOpts_safe (text "[\"a") (by decide) true

end Values

end Mangoxx.CJson
