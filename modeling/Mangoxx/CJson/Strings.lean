import Mangoxx.CJson.Parse
import Mangoxx.Lib.Json
import Mathlib.Algebra.GroupWithZero.Nat

namespace Mangoxx.CJson

open Lib.Json

variable {D : Type}

section Utf8

theorem continuation_byte (v : Nat) :
    ((v ||| 0x80) &&& 0xBF).toUInt8 = UInt8.ofNat (v % 0x40 + 0x80) := by
  have hbyte : ∀ w : Fin 256, (w.val ||| 0x80) &&& 0xBF = w.val % 0x40 + 0x80 := by decide +kernel
  have hand (x : Nat) : x &&& 0xBF = (x % 2 ^ 8) &&& 0xBF := by
    have hlt : x &&& 0xBF < 2 ^ 8 := Nat.lt_of_le_of_lt Nat.and_le_right (by decide)
    rw [← Nat.mod_eq_of_lt hlt, Nat.and_mod_two_pow]
  have hmod : (v ||| 0x80) &&& 0xBF = v % 0x40 + 0x80 := by
    rw [hand, Nat.or_mod_two_pow]
    exact (hbyte ⟨v % 2 ^ 8, Nat.mod_lt v (by decide)⟩).trans
      (by rw [Nat.mod_mod_of_dvd v (by decide)])
  rw [hmod]

theorem lead_two {v : Nat} (h : v < 0x20) : v ||| 0xC0 = v % 0x20 + 0xC0 := by
  revert v
  decide

theorem lead_three {v : Nat} (h : v < 0x10) : v ||| 0xE0 = v % 0x10 + 0xE0 := by
  revert v
  decide

theorem lead_four {v : Nat} (h : v < 0x08) : v ||| 0xF0 = v % 0x08 + 0xF0 := by
  revert v
  decide

theorem utf8_eq (c : Char) : utf8 c.val.toNat = String.utf8EncodeChar c := by
  have hlt : c.val.toNat < 0x110000 := by
    have := c.valid
    unfold UInt32.isValidChar Nat.isValidChar at this
    omega
  generalize hv : c.val.toNat = v at hlt
  simp only [utf8, utf8Length, String.utf8EncodeChar, hv]
  by_cases h1 : v < 0x80
  · rw [if_pos h1, if_pos (Nat.le_of_lt_succ h1)]
    simp [utf8Bytes, firstByteMark, Nat.toUInt8]
  by_cases h2 : v < 0x800
  · rw [if_neg h1, if_pos h2, if_neg (by omega), if_pos (by omega)]
    simp only [utf8Bytes, firstByteMark, List.getD_cons_succ, List.getD_cons_zero,
      continuation_byte, Nat.shiftRight_eq_div_pow, Nat.reducePow]
    rw [lead_two (by omega)]
    rfl
  by_cases h3 : v < 0x10000
  · rw [if_neg h1, if_neg h2, if_pos h3, if_neg (by omega), if_neg (by omega), if_pos (by omega)]
    simp only [utf8Bytes, firstByteMark, List.getD_cons_succ, List.getD_cons_zero,
      continuation_byte, Nat.shiftRight_eq_div_pow, Nat.reducePow, Nat.div_div_eq_div_mul,
      Nat.reduceMul]
    rw [lead_three (by omega)]
    rfl
  · rw [if_neg h1, if_neg h2, if_neg h3, if_neg (by omega), if_neg (by omega), if_neg (by omega)]
    simp only [utf8Bytes, firstByteMark, List.getD_cons_succ, List.getD_cons_zero,
      continuation_byte, Nat.shiftRight_eq_div_pow, Nat.reducePow, Nat.div_div_eq_div_mul,
      Nat.reduceMul]
    rw [lead_four (by omega)]
    rfl

@[simp] theorem ofNatAux_toNat {n : Nat} (h : n.isValidChar) :
    (Char.ofNatAux n h).val.toNat = n := rfl

theorem zero_not_mem_utf8 {c : Char} (h : c.val.toNat ≠ 0) : 0 ∉ String.utf8EncodeChar c := by
  have hlt : c.val.toNat < 0x110000 := by
    have := c.valid
    unfold UInt32.isValidChar Nat.isValidChar at this
    omega
  have hne {n : Nat} (hpos : 0 < n) (hlt : n < 256) : 0 ≠ UInt8.ofNat n := by
    intro heq
    have := congrArg UInt8.toNat heq
    rw [UInt8.toNat_ofNat', Nat.mod_eq_of_lt hlt] at this
    exact absurd this.symm (Nat.ne_of_gt hpos)
  generalize hv : c.val.toNat = v at h hlt
  simp only [String.utf8EncodeChar, hv]
  split
  · simp only [List.mem_singleton]
    exact hne (by omega) (by omega)
  split
  · simp only [List.mem_cons, List.not_mem_nil, or_false, not_or]
    exact ⟨hne (by omega) (by omega), hne (by omega) (by omega)⟩
  split
  · simp only [List.mem_cons, List.not_mem_nil, or_false, not_or]
    exact ⟨hne (by omega) (by omega), hne (by omega) (by omega), hne (by omega) (by omega)⟩
  · simp only [List.mem_cons, List.not_mem_nil, or_false, not_or]
    exact ⟨hne (by omega) (by omega), hne (by omega) (by omega), hne (by omega) (by omega),
      hne (by omega) (by omega)⟩

end Utf8

section Hex

theorem hexDigit_char (d : HexDigit) : hexDigit d.char = some d.val.val := by
  obtain ⟨v, upper⟩ := d
  revert v upper
  decide

theorem hexChar_plain (d : HexDigit) :
    d.char ≠ '"'.toUInt8 ∧ d.char ≠ 0 ∧ d.char ≠ '\\'.toUInt8 := by
  obtain ⟨v, upper⟩ := d
  revert v upper
  decide

theorem shiftLeft_four_add (a b : Nat) : (a <<< 4) + b = a * 16 + b := by
  rw [Nat.shiftLeft_eq]

theorem parseHex4_text (u : CodeUnit) (rest : Text) : parseHex4 (u.text ++ rest) = u.val := by
  simp [parseHex4, CodeUnit.text, star, hexDigit_char, CodeUnit.val, shiftLeft_four_add]

end Hex

section Pieces

/-- A C string has no NUL, so that one is lost. -/
def cBytes (p : Piece) : List UInt8 := p.bytes.filter (· ≠ 0)

theorem cBytes_of_ne_zero {p : Piece} (h : 0 ∉ p.bytes) : cBytes p = p.bytes :=
  List.filter_eq_self.mpr fun _ hc => decide_eq_true fun h0 => h (h0 ▸ hc)

theorem pairValue_eq {u v : CodeUnit} (h : u.High ∧ v.Low) :
    0x10000 + (((u.val &&& 0x3FF) <<< 10) ||| (v.val &&& 0x3FF)) = Piece.pairValue u v := by
  unfold CodeUnit.High CodeUnit.Low at h
  unfold Piece.pairValue
  have hmask (x : Nat) : x &&& 0x3FF = x % 2 ^ 10 := Nat.and_two_pow_sub_one_eq_mod x 10
  rw [hmask, hmask, ← Nat.shiftLeft_add_eq_or_of_lt (Nat.mod_lt _ (by decide)), Nat.shiftLeft_eq]
  omega

theorem advance_append (s rest : Text) : advance s.length (s ++ rest) = .ok rest := by
  rw [advance, if_pos (by simp), List.drop_left]

theorem transcode_unit {u : CodeUnit} (h : ¬ u.High ∧ ¬ u.Low) (rest : Text) :
    ∃ c, transcode ('u'.toUInt8 :: (u.text ++ rest)) = .ok (cBytes (.unit u h), c :: rest) := by
  have hhex : parseHex4 (u.text ++ rest) = u.val := parseHex4_text u rest
  have hadvance : advance 4 ('u'.toUInt8 :: (u.text ++ rest)) = .ok (u.d.char :: rest) :=
    advance_append ['u'.toUInt8, u.a.char, u.b.char, u.c.char] (u.d.char :: rest)
  have hrange := h
  unfold CodeUnit.High CodeUnit.Low at hrange
  refine ⟨u.d.char, ?_⟩
  by_cases h0 : u.val = 0
  · have hbytes : (Piece.unit u h).bytes = [0] := by
      rw [Piece.bytes_unit, ← utf8_eq, ofNatAux_toNat, h0]
      rfl
    simp [transcode, hhex, hadvance, h0, cBytes, hbytes, bind, Except.bind, pure, Except.pure]
  · have hbytes : cBytes (.unit u h) = utf8 u.val := by
      have hne : 0 ∉ (Piece.unit u h).bytes := by
        rw [Piece.bytes_unit]
        exact zero_not_mem_utf8 h0
      rw [cBytes_of_ne_zero hne, Piece.bytes_unit, ← utf8_eq]
      rfl
    have h1 : ¬ (0xDC00 ≤ u.val ∧ u.val ≤ 0xDFFF ∨ u.val = 0) := by omega
    have h2 : ¬ (0xD800 ≤ u.val ∧ u.val ≤ 0xDBFF) := by omega
    rw [transcode]
    simp only [List.drop_succ_cons, List.drop_zero, hhex, hadvance, bind, Except.bind, if_neg h1,
      if_neg h2, hbytes]
    rfl

theorem transcode_pair {u v : CodeUnit} (h : u.High ∧ v.Low) (rest : Text) :
    ∃ c, transcode ('u'.toUInt8 :: (u.text ++ (ascii "\\u" ++ (v.text ++ rest)))) =
      .ok (cBytes (.pair u v h), c :: rest) := by
  have hhex := parseHex4_text u (ascii "\\u" ++ (v.text ++ rest))
  have hhex' : parseHex4 (List.drop 2 (ascii "\\u" ++ (v.text ++ rest))) = v.val :=
    parseHex4_text v rest
  have hadvance : advance 4 ('u'.toUInt8 :: (u.text ++ (ascii "\\u" ++ (v.text ++ rest)))) =
      .ok (u.d.char :: (ascii "\\u" ++ (v.text ++ rest))) :=
    advance_append ['u'.toUInt8, u.a.char, u.b.char, u.c.char] _
  have hadvance' : advance 6 (u.d.char :: (ascii "\\u" ++ (v.text ++ rest))) =
      .ok (v.d.char :: rest) :=
    advance_append [u.d.char, '\\'.toUInt8, 'u'.toUInt8, v.a.char, v.b.char, v.c.char]
      (v.d.char :: rest)
  have hbytes : cBytes (.pair u v h) = utf8 (Piece.pairValue u v) := by
    have hpos : Piece.pairValue u v ≠ 0 := by
      unfold Piece.pairValue
      omega
    have hne : 0 ∉ (Piece.pair u v h).bytes := by
      rw [Piece.bytes_pair]
      exact zero_not_mem_utf8 hpos
    rw [cBytes_of_ne_zero hne, Piece.bytes_pair, ← utf8_eq]
    rfl
  have hvalue := pairValue_eq h
  obtain ⟨hhi, hlo⟩ := h
  unfold CodeUnit.High at hhi
  unfold CodeUnit.Low at hlo
  have h1 : ¬ (0xDC00 ≤ u.val ∧ u.val ≤ 0xDFFF ∨ u.val = 0) := by omega
  have h2 : 0xD800 ≤ u.val ∧ u.val ≤ 0xDBFF := by omega
  have h3 : ¬ (v.val < 0xDC00 ∨ 0xDFFF < v.val) := by omega
  have hpeek : peek 1 (u.d.char :: (ascii "\\u" ++ (v.text ++ rest))) = .ok '\\'.toUInt8 := rfl
  have hpeek' : peek 2 (u.d.char :: (ascii "\\u" ++ (v.text ++ rest))) = .ok 'u'.toUInt8 := rfl
  refine ⟨v.d.char, ?_⟩
  rw [transcode]
  simp only [List.drop_succ_cons, List.drop_zero, hhex, hadvance, bind, Except.bind, if_neg h1,
    if_pos h2, secondHalf, hpeek, hpeek', ne_eq, not_true, if_false, hadvance', hhex', if_neg h3,
    hvalue, hbytes]
  rfl

theorem copyTurn_text (p : Piece) (rest : Text) :
    copyTurn (p.text ++ rest) = .ok (cBytes p, rest) := by
  cases p with
  | plain c =>
    obtain ⟨c, hlow, hquote, hslash⟩ := c
    have hne : c ≠ 0 := by
      rintro rfl
      exact absurd hlow (by decide)
    simp [copyTurn, Piece.text, star, hslash, cBytes, Piece.bytes, hne]
  | escape e => cases e <;> rfl
  | unit u h =>
    obtain ⟨c, hcode⟩ := transcode_unit h rest
    have hunescape : unescape ('u'.toUInt8 :: (u.text ++ rest)) =
        .ok (cBytes (.unit u h), c :: rest) := hcode
    have htext : (Piece.unit u h).text ++ rest = '\\'.toUInt8 :: 'u'.toUInt8 :: (u.text ++ rest) :=
      rfl
    rw [htext, copyTurn, if_neg (by simp [star]), List.tail_cons, hunescape]
    rfl
  | pair u v h =>
    obtain ⟨c, hcode⟩ := transcode_pair h rest
    have hunescape : unescape ('u'.toUInt8 :: (u.text ++ (ascii "\\u" ++ (v.text ++ rest)))) =
        .ok (cBytes (.pair u v h), c :: rest) := hcode
    have htext : (Piece.pair u v h).text ++ rest =
        '\\'.toUInt8 :: 'u'.toUInt8 :: (u.text ++ (ascii "\\u" ++ (v.text ++ rest))) := rfl
    rw [htext, copyTurn, if_neg (by simp [star]), List.tail_cons, hunescape]
    rfl

theorem star_text (p : Piece) (rest : Text) :
    star (p.text ++ rest) ≠ '"'.toUInt8 ∧ star (p.text ++ rest) ≠ 0 := by
  have hslash : '\\'.toUInt8 ≠ '"'.toUInt8 ∧ '\\'.toUInt8 ≠ 0 := by decide
  cases p with
  | plain c =>
    obtain ⟨c, hlow, hquote, -⟩ := c
    refine ⟨hquote, ?_⟩
    rintro (rfl : c = 0)
    exact absurd hlow (by decide)
  | escape e => exact hslash
  | unit u h => exact hslash
  | pair u v h => exact hslash

def turns : Piece → Nat
  | .plain _ => 1
  | .escape _ => 1
  | .unit _ _ => 5
  | .pair _ _ _ => 10

theorem cBytes_length_le (p : Piece) : (cBytes p).length ≤ turns p := by
  refine (List.length_filter_le _ _).trans ?_
  cases p with
  | plain c => exact Nat.le_refl 1
  | escape e => exact Nat.le_refl 1
  | unit u h =>
    rw [Piece.bytes_unit, String.length_utf8EncodeChar]
    exact (Char.utf8Size_le_four _).trans (by simp [turns])
  | pair u v h =>
    rw [Piece.bytes_pair, String.length_utf8EncodeChar]
    exact (Char.utf8Size_le_four _).trans (by simp [turns])

theorem turns_le (p : Piece) : 1 ≤ turns p ∧ turns p ≤ p.text.length := by
  cases p <;> simp [turns, Piece.text, CodeUnit.text, ascii]

theorem lengthLoop_cons {c : UInt8} (hquote : c ≠ '"'.toUInt8) (hne : c ≠ 0)
    (hslash : c ≠ '\\'.toUInt8)
    (hlen : len + 1 < intMax) (ptr : Text) :
    lengthLoop (c :: ptr) len = lengthLoop ptr (len + 1) := by
  rw [lengthLoop.eq_def]
  simp only
  rw [if_neg (by simp [hquote, hne]), if_neg (Nat.not_le.mpr hlen), if_pos hslash]

theorem lengthLoop_escape (hlen : len + 1 < intMax) (c : UInt8) (ptr : Text) :
    lengthLoop ('\\'.toUInt8 :: c :: ptr) len = lengthLoop ptr (len + 1) := by
  rw [lengthLoop.eq_def]
  simp only
  rw [if_neg (by decide), if_neg (Nat.not_le.mpr hlen), if_neg (by simp)]

theorem lengthLoop_hex (u : CodeUnit) (hlen : len + 4 < intMax) (ptr : Text) :
    lengthLoop (u.text ++ ptr) len = lengthLoop ptr (len + 4) := by
  have hplain (d : HexDigit) {n : Nat} (hn : n + 1 < intMax) (ptr : Text) :
      lengthLoop (d.char :: ptr) n = lengthLoop ptr (n + 1) :=
    lengthLoop_cons (hexChar_plain d).1 (hexChar_plain d).2.1 (hexChar_plain d).2.2 hn ptr
  simp only [CodeUnit.text, List.cons_append, List.nil_append]
  rw [hplain u.a (by omega), hplain u.b (by omega), hplain u.c (by omega), hplain u.d (by omega)]

theorem lengthLoop_text (p : Piece) (hlen : len + turns p < intMax) (rest : Text) :
    lengthLoop (p.text ++ rest) len = lengthLoop rest (len + turns p) := by
  cases p with
  | plain c =>
    obtain ⟨c, hlow, hquote, hslash⟩ := c
    refine lengthLoop_cons hquote ?_ hslash hlen rest
    rintro rfl
    exact absurd hlow (by decide)
  | escape e => exact lengthLoop_escape hlen _ rest
  | unit u h =>
    simp only [turns] at hlen
    have htext : (Piece.unit u h).text ++ rest = '\\'.toUInt8 :: 'u'.toUInt8 :: (u.text ++ rest) :=
      rfl
    rw [htext, lengthLoop_escape (by omega), lengthLoop_hex u (by omega)]
    rfl
  | pair u v h =>
    simp only [turns] at hlen
    have htext : (Piece.pair u v h).text ++ rest =
        '\\'.toUInt8 :: 'u'.toUInt8 ::
          (u.text ++ ('\\'.toUInt8 :: 'u'.toUInt8 :: (v.text ++ rest))) := rfl
    rw [htext, lengthLoop_escape (by omega), lengthLoop_hex u (by omega),
      lengthLoop_escape (by omega), lengthLoop_hex v (by omega)]
    rfl

end Pieces

section Quoted

def cString (ps : List Piece) : Text := ps.flatMap cBytes

theorem lengthLoop_quoted (ps : List Piece) (hlen : len + (ps.map turns).sum < intMax)
    (rest : Text) :
    lengthLoop (ps.flatMap Piece.text ++ '"'.toUInt8 :: rest) len =
      .ok (len + (ps.map turns).sum) := by
  induction ps generalizing len with
  | nil => simp [lengthLoop.eq_def]
  | cons p ps ih =>
    rw [List.map_cons, List.sum_cons] at hlen ⊢
    rw [List.flatMap_cons, List.append_assoc, lengthLoop_text p (by omega), ih (by omega)]
    congr 1
    omega

theorem copyLoop_quoted (ps : List Piece) (hfuel : ps.length < fuel)
    (hroom : out.length + (cString ps).length ≤ room) (rest : Text) :
    copyLoop room fuel (ps.flatMap Piece.text ++ '"'.toUInt8 :: rest) out =
      .ok (out ++ cString ps, '"'.toUInt8 :: rest) := by
  induction ps generalizing fuel out with
  | nil =>
    obtain ⟨fuel, rfl⟩ : ∃ n, fuel = n + 1 := ⟨fuel - 1, by omega⟩
    simp [copyLoop, cString, star]
  | cons p ps ih =>
    obtain ⟨fuel, rfl⟩ : ∃ n, fuel = n + 1 := ⟨fuel - 1, by omega⟩
    have hcons : cString (p :: ps) = cBytes p ++ cString ps := rfl
    rw [hcons, List.length_append] at hroom
    have hstar := star_text p (ps.flatMap Piece.text ++ '"'.toUInt8 :: rest)
    rw [List.flatMap_cons, List.append_assoc, copyLoop, if_neg (by simp [hstar]), copyTurn_text]
    simp only [bind, Except.bind]
    rw [if_neg (by omega), ih (by simpa using hfuel) (by rw [List.length_append]; omega), hcons,
      List.append_assoc]

theorem cString_length_le (ps : List Piece) : (cString ps).length ≤ (ps.map turns).sum := by
  induction ps with
  | nil => exact Nat.le_refl 0
  | cons p ps ih =>
    have hcons : cString (p :: ps) = cBytes p ++ cString ps := rfl
    have hp := cBytes_length_le p
    rw [hcons, List.length_append, List.map_cons, List.sum_cons]
    omega

theorem turns_sum_le (ps : List Piece) :
    ps.length ≤ (ps.map turns).sum ∧ (ps.map turns).sum ≤ (ps.flatMap Piece.text).length := by
  induction ps with
  | nil => exact ⟨Nat.le_refl 0, Nat.le_refl 0⟩
  | cons p ps ih =>
    have hp := turns_le p
    rw [List.flatMap_cons, List.length_append, List.map_cons, List.sum_cons, List.length_cons]
    omega

/-- A string of JSON is read to its end, and the block that has been counted out for it is
enough. -/
theorem parseString_quoted (item : Item D) (ps : List Piece) (hlen : (quoted ps).length ≤ intMax)
    (rest : Text) : parseString item (quoted ps ++ rest) =
      .ok ({ item with valuestring := some (cString ps), type := .string }, rest) := by
  have hturns := turns_sum_le ps
  have hroom := cString_length_le ps
  have hquoted : quoted ps ++ rest =
      '"'.toUInt8 :: (ps.flatMap Piece.text ++ '"'.toUInt8 :: rest) := by
    simp [quoted]
  have hlength : (quoted ps).length = (ps.flatMap Piece.text).length + 2 := by simp [quoted]
  rw [hquoted, parseString, if_neg (by simp [star]), List.tail_cons,
    lengthLoop_quoted ps (by omega)]
  simp only [bind, Except.bind, Nat.zero_add]
  rw [copyLoop_quoted ps (by rw [List.length_cons, List.length_append]; omega)
    (by rw [List.length_nil]; omega)]
  simp only [List.nil_append]
  rw [if_neg (by omega)]
  rfl

end Quoted

end Mangoxx.CJson
