import Mangoxx.CJson.RoundTrip

/-! `cJSON_Minify`: it takes out blanks and comments and nothing else.  The text is rewritten in
place, where what is written never passes what is read. -/

namespace Mangoxx.CJson

open Lib.Json
open Fcmd (text)

section Minify

def blockEnd : Text → Text
  | [] => []
  | c :: json =>
    if c = 0 ∨ (c = '*'.toUInt8 ∧ star json = '/'.toUInt8) then c :: json else blockEnd json

/-- A string behind its first quote, with its last one, and what stands behind it.  The NUL of a
string that does not end is copied too. -/
def copyLiteral : Text → Result (Text × Text)
  | [] => .error .fault
  | c :: json =>
    if c = 0 ∨ c = '"'.toUInt8 then .ok ([c], json)
    else if c = '\\'.toUInt8 then
      match json with
      | [] => .error .fault
      | c' :: json => do
        let (into, json) ← copyLiteral json
        return (c :: c' :: into, json)
    else do
      let (into, json) ← copyLiteral json
      return (c :: into, json)

def minifyTurn (json : Text) : Result (Text × Text) :=
  let c := star json
  if c = ' '.toUInt8 then .ok ([], json.tail)
  else if c = '\t'.toUInt8 then .ok ([], json.tail)
  else if c = '\r'.toUInt8 then .ok ([], json.tail)
  else if c = '\n'.toUInt8 then .ok ([], json.tail)
  else if c = '/'.toUInt8 ∧ star json.tail = '/'.toUInt8 then
    .ok ([], json.dropWhile fun c => c ≠ 0 ∧ c ≠ '\n'.toUInt8)
  else if c = '/'.toUInt8 ∧ star json.tail = '*'.toUInt8 then do
    return ([], ← advance 2 (blockEnd json))
  else if c = '"'.toUInt8 then do
    let (into, json) ← copyLiteral json.tail
    return (c :: into, json)
  else .ok ([c], json.tail)

def minifyLoop : (fuel : Nat) → (json into : Text) → Result Text
  | 0, _, _ => .error .spin
  | fuel + 1, json, into =>
    if star json = 0 then .ok into
    else do
      let (out, json) ← minifyTurn json
      minifyLoop fuel json (into ++ out)

def minify (json : Text) : Result Text := minifyLoop (json.length + 1) json []

end Minify

section Blanks

/-- A blank character, a comment up to the end of its line, or one of several lines, whose first end
is its last characters. -/
inductive Gap : List UInt8 → Prop
  | blank {c : UInt8} : c ∈ ascii " \t\r\n" → Gap [c]
  | line {b : List UInt8} : 0 ∉ b → '\n'.toUInt8 ∉ b → Gap (ascii "//" ++ b ++ ['\n'.toUInt8])
  | block {b : List UInt8} : 0 ∉ b → ¬ ascii "*/" <:+: '*'.toUInt8 :: b ++ ['*'.toUInt8] →
    Gap (ascii "/*" ++ b ++ ascii "*/")

inductive Gaps : List UInt8 → Prop
  | nil : Gaps []
  | cons {b b' : List UInt8} : Gap b → Gaps b' → Gaps (b ++ b')

end Blanks

section Passes

def Passes (s out : Text) : Prop :=
  ∀ (t : Text) (fuel : Nat) (into : Text), (s ++ t).length < fuel →
    ∃ fuel', t.length < fuel' ∧ minifyLoop fuel (s ++ t) into = minifyLoop fuel' t (into ++ out)

theorem Passes.nil : Passes [] [] := fun t fuel into hfuel =>
  ⟨fuel, hfuel, by rw [List.nil_append, List.append_nil]⟩

theorem Passes.append (h : Passes s out) (h' : Passes s' out') :
    Passes (s ++ s') (out ++ out') := by
  intro t fuel into hfuel
  rw [List.append_assoc] at hfuel ⊢
  obtain ⟨fuel₁, hfuel₁, heq₁⟩ := h (s' ++ t) fuel into hfuel
  obtain ⟨fuel₂, hfuel₂, heq₂⟩ := h' t fuel₁ (into ++ out) hfuel₁
  exact ⟨fuel₂, hfuel₂, by rw [heq₁, heq₂, List.append_assoc]⟩

theorem minifyLoop_turn (hstar : star json ≠ 0) (hturn : minifyTurn json = .ok (out, t))
    (fuel : Nat) (into : Text) :
    minifyLoop (fuel + 1) json into = minifyLoop fuel t (into ++ out) := by
  rw [minifyLoop, if_neg hstar, hturn]
  rfl

theorem Passes.turn {c : UInt8} (hc : c ≠ 0) (h : ∀ t, minifyTurn (c :: s ++ t) = .ok (out, t)) :
    Passes (c :: s) out := by
  intro t fuel into hfuel
  obtain ⟨fuel, rfl⟩ : ∃ n, fuel = n + 1 := ⟨fuel - 1, by omega⟩
  have hstar : star (c :: s ++ t) ≠ 0 := hc
  refine ⟨fuel, ?_, minifyLoop_turn hstar (h t) fuel into⟩
  rw [List.length_append, List.length_cons] at hfuel
  omega

def Ordinary (c : UInt8) : Prop := c ≠ 0 ∧ c ∉ ascii " \t\r\n/\""

instance (c : UInt8) : Decidable (Ordinary c) := inferInstanceAs (Decidable (_ ∧ _))

theorem passes_ordinary (h : Ordinary c) : Passes [c] [c] := by
  have hne : c ≠ ' '.toUInt8 ∧ c ≠ '\t'.toUInt8 ∧ c ≠ '\r'.toUInt8 ∧ c ≠ '\n'.toUInt8 ∧
      c ≠ '/'.toUInt8 ∧ c ≠ '"'.toUInt8 := by simpa [ascii, Ordinary] using h.2
  obtain ⟨h1, h2, h3, h4, h5, h6⟩ := hne
  refine .turn h.1 fun t => ?_
  simp [minifyTurn, star, h1, h2, h3, h4, h5, h6]

theorem passes_of_ordinary (h : ∀ c ∈ s, Ordinary c) : Passes s s := by
  induction s with
  | nil => exact .nil
  | cons c s ih =>
    exact (passes_ordinary (h c List.mem_cons_self)).append
      (ih fun c' hc' => h c' (List.mem_cons_of_mem c hc'))

end Passes

section Tokens

theorem copyLiteral_plain {c : UInt8} (hzero : c ≠ 0) (hquote : c ≠ '"'.toUInt8)
    (hslash : c ≠ '\\'.toUInt8) (h : copyLiteral json = .ok (out, t)) :
    copyLiteral (c :: json) = .ok (c :: out, t) := by
  rw [copyLiteral.eq_def]
  simp only
  rw [if_neg (not_or.mpr ⟨hzero, hquote⟩), if_neg hslash, h]
  rfl

theorem copyLiteral_escape (c : UInt8) (h : copyLiteral json = .ok (out, t)) :
    copyLiteral ('\\'.toUInt8 :: c :: json) = .ok ('\\'.toUInt8 :: c :: out, t) := by
  rw [copyLiteral.eq_def]
  simp only
  rw [if_neg (by decide), if_pos trivial, h]
  rfl

theorem copyLiteral_hex (u : CodeUnit) (h : copyLiteral json = .ok (out, t)) :
    copyLiteral (u.text ++ json) = .ok (u.text ++ out, t) := by
  have hplain (d : HexDigit) {json out : Text} (h : copyLiteral json = .ok (out, t)) :
      copyLiteral (d.char :: json) = .ok (d.char :: out, t) :=
    copyLiteral_plain (hexChar_plain d).2.1 (hexChar_plain d).1 (hexChar_plain d).2.2 h
  exact hplain u.a (hplain u.b (hplain u.c (hplain u.d h)))

theorem copyLiteral_text (p : Piece) (h : copyLiteral json = .ok (out, t)) :
    copyLiteral (p.text ++ json) = .ok (p.text ++ out, t) := by
  cases p with
  | plain c =>
    obtain ⟨c, hlow, hquote, hslash⟩ := c
    refine copyLiteral_plain ?_ hquote hslash h
    rintro rfl
    exact absurd hlow (by decide)
  | escape e => exact copyLiteral_escape e.letter h
  | unit u _ => exact copyLiteral_escape 'u'.toUInt8 (copyLiteral_hex u h)
  | pair u v _ =>
    have hpair := copyLiteral_escape 'u'.toUInt8 (copyLiteral_hex u
      (copyLiteral_escape 'u'.toUInt8 (copyLiteral_hex v h)))
    simpa [Piece.text, ascii] using hpair

theorem copyLiteral_quoted (ps : List Piece) (t : Text) :
    copyLiteral (ps.flatMap Piece.text ++ '"'.toUInt8 :: t) =
      .ok (ps.flatMap Piece.text ++ ['"'.toUInt8], t) := by
  induction ps with
  | nil =>
    rw [List.flatMap_nil, List.nil_append, List.nil_append, copyLiteral.eq_def]
    rfl
  | cons p ps ih =>
    rw [List.flatMap_cons, List.append_assoc, List.append_assoc]
    exact copyLiteral_text p ih

theorem passes_quoted (ps : List Piece) : Passes (quoted ps) (quoted ps) := by
  refine Passes.turn (s := ps.flatMap Piece.text ++ ['"'.toUInt8]) (by decide) fun t => ?_
  have hcopy := copyLiteral_quoted ps t
  have htail : ('"'.toUInt8 :: (ps.flatMap Piece.text ++ ['"'.toUInt8]) ++ t).tail =
      ps.flatMap Piece.text ++ '"'.toUInt8 :: t := by simp
  have hturn : minifyTurn ('"'.toUInt8 :: (ps.flatMap Piece.text ++ ['"'.toUInt8]) ++ t) =
      (copyLiteral ('"'.toUInt8 :: (ps.flatMap Piece.text ++ ['"'.toUInt8]) ++ t).tail >>= fun r =>
        .ok ('"'.toUInt8 :: r.1, r.2)) := rfl
  rw [hturn, htail, hcopy]
  rfl

theorem digitText_ordinary (ds : List (Fin 10)) : ∀ c ∈ digitText ds, Ordinary c := by
  have hdigit : ∀ d, Ordinary (digitChar d) := by decide
  intro c hc
  obtain ⟨d, -, rfl⟩ := List.mem_map.mp hc
  exact hdigit d

theorem ordinary_append {s s' : Text} (h : ∀ c ∈ s, Ordinary c) (h' : ∀ c ∈ s', Ordinary c) :
    ∀ c ∈ s ++ s', Ordinary c := by
  intro c hc
  rcases List.mem_append.mp hc with hc | hc
  · exact h c hc
  · exact h' c hc

theorem number_ordinary (n : Number) : ∀ c ∈ n.text, Ordinary c := by
  have hfrac : ∀ c ∈ fractionText n.frac, Ordinary c := by
    unfold fractionText
    split
    · exact fun c hc => absurd hc List.not_mem_nil
    · exact ordinary_append (s := ['.'.toUInt8]) (forall_mem_of_all (by decide))
        (digitText_ordinary n.frac)
  have hexp : ∀ c ∈ exponentText n.exp, Ordinary c := by
    cases n.exp with
    | none => exact fun c hc => absurd hc List.not_mem_nil
    | some e =>
      have hsign : ∀ c ∈ signText e.sign, Ordinary c := by
        match e.sign with
        | none | some true | some false => exact forall_mem_of_all (by decide)
      have hmark : ∀ c ∈ [if e.upper then 'E'.toUInt8 else 'e'.toUInt8], Ordinary c := by
        cases e.upper <;> exact forall_mem_of_all (by decide)
      exact ordinary_append hmark (ordinary_append hsign (digitText_ordinary e.digits))
  have hneg : ∀ c ∈ (if n.negative then ['-'.toUInt8] else []), Ordinary c := by
    cases n.negative <;> exact forall_mem_of_all (by decide)
  exact ordinary_append hneg (ordinary_append (digitText_ordinary _) (ordinary_append hfrac hexp))

theorem passes_token (k : Token) : Passes k.text k.text := by
  match k with
  | .openArr | .closeArr | .openObj | .closeObj | .comma | .colon | .null | .bool true
  | .bool false =>
    exact passes_of_ordinary (forall_mem_of_all (by decide))
  | .num n => exact passes_of_ordinary (number_ordinary n)
  | .str s => exact passes_quoted s

end Tokens

section Gaps

theorem dropWhile_line (h0 : 0 ∉ b) (hb : '\n'.toUInt8 ∉ b) (t : Text) :
    (b ++ '\n'.toUInt8 :: t).dropWhile (fun c => c ≠ 0 ∧ c ≠ '\n'.toUInt8) = '\n'.toUInt8 :: t := by
  induction b with
  | nil => simp
  | cons c b ih =>
    rw [List.mem_cons, not_or] at h0 hb
    rw [List.cons_append, List.dropWhile_cons_of_pos (by simp [Ne.symm h0.1, Ne.symm hb.1])]
    exact ih h0.2 hb.2

theorem passes_blank (h : c ∈ ascii " \t\r\n") : Passes [c] [] := by
  have hcases : c = ' '.toUInt8 ∨ c = '\t'.toUInt8 ∨ c = '\r'.toUInt8 ∨ c = '\n'.toUInt8 := by
    simpa [ascii] using h
  rcases hcases with rfl | rfl | rfl | rfl <;> exact .turn (by decide) fun _ => rfl

theorem passes_line (h0 : 0 ∉ b) (hb : '\n'.toUInt8 ∉ b) :
    Passes (ascii "//" ++ b ++ ['\n'.toUInt8]) [] := by
  intro t fuel into hfuel
  obtain ⟨fuel, rfl⟩ : ∃ n, fuel = n + 1 := ⟨fuel - 1, by omega⟩
  have htext : ascii "//" ++ b ++ ['\n'.toUInt8] ++ t = ascii "//" ++ (b ++ '\n'.toUInt8 :: t) := by
    simp
  have hturn : minifyTurn (ascii "//" ++ (b ++ '\n'.toUInt8 :: t)) =
      .ok ([], '\n'.toUInt8 :: t) := by
    have hslash : 0 ∉ ascii "//" ++ b ∧ '\n'.toUInt8 ∉ ascii "//" ++ b := by
      simp only [List.mem_append, not_or]
      exact ⟨⟨by decide, h0⟩, by decide, hb⟩
    have hdrop := dropWhile_line hslash.1 hslash.2 t
    rw [List.append_assoc] at hdrop
    exact congrArg (fun rest => Except.ok ([], rest)) hdrop
  have hstar : star (ascii "//" ++ (b ++ '\n'.toUInt8 :: t)) ≠ 0 := (by decide : '/'.toUInt8 ≠ 0)
  rw [htext] at hfuel ⊢
  rw [minifyLoop_turn hstar hturn, List.append_nil]
  have hlen : ('\n'.toUInt8 :: t).length < fuel := by
    simp only [ascii, List.length_append, List.length_cons, List.length_map] at hfuel ⊢
    simp at hfuel
    omega
  obtain ⟨fuel', hfuel', heq⟩ := passes_blank (c := '\n'.toUInt8) (by decide) t fuel into hlen
  rw [List.append_nil] at heq
  exact ⟨fuel', hfuel', heq⟩

theorem blockEnd_append (h0 : 0 ∉ b) (hb : ¬ ascii "*/" <:+: b ++ ['*'.toUInt8]) (t : Text) :
    blockEnd (b ++ (ascii "*/" ++ t)) = ascii "*/" ++ t := by
  induction b with
  | nil => rfl
  | cons c b ih =>
    rw [List.mem_cons, not_or] at h0
    have hgo : ¬ (c = 0 ∨ (c = '*'.toUInt8 ∧ star (b ++ (ascii "*/" ++ t)) = '/'.toUInt8)) := by
      rintro (rfl | ⟨rfl, hstar⟩)
      · exact h0.1 rfl
      · cases b with
        | nil => exact absurd hstar (by decide : '*'.toUInt8 ≠ '/'.toUInt8)
        | cons d b =>
          obtain rfl : d = '/'.toUInt8 := hstar
          exact hb ⟨[], b ++ ['*'.toUInt8], rfl⟩
    rw [List.cons_append, blockEnd, if_neg hgo]
    refine ih h0.2 fun hinfix => hb ?_
    exact hinfix.trans (List.suffix_cons c _).isInfix

theorem passes_block (h0 : 0 ∉ b) (hb : ¬ ascii "*/" <:+: '*'.toUInt8 :: b ++ ['*'.toUInt8]) :
    Passes (ascii "/*" ++ b ++ ascii "*/") [] := by
  have htext : ascii "/*" ++ b ++ ascii "*/" = '/'.toUInt8 :: ('*'.toUInt8 :: b ++ ascii "*/") :=
    rfl
  rw [htext]
  refine .turn (by decide) fun t => ?_
  have hend : blockEnd ('*'.toUInt8 :: b ++ (ascii "*/" ++ t)) = ascii "*/" ++ t :=
    blockEnd_append (List.not_mem_cons_of_ne_of_not_mem (by decide) h0) hb t
  have hstart : blockEnd ('/'.toUInt8 :: ('*'.toUInt8 :: b ++ ascii "*/") ++ t) =
      ascii "*/" ++ t := by
    have hgo : ¬ ('/'.toUInt8 = 0 ∨
        ('/'.toUInt8 = '*'.toUInt8 ∧ star ('*'.toUInt8 :: b ++ (ascii "*/" ++ t)) =
          '/'.toUInt8)) := by
      rintro (h | ⟨h, -⟩) <;> exact absurd h (by decide)
    rw [← hend, List.cons_append, List.append_assoc, blockEnd, if_neg hgo]
  have hturn : minifyTurn ('/'.toUInt8 :: ('*'.toUInt8 :: b ++ ascii "*/") ++ t) =
      (advance 2 (blockEnd ('/'.toUInt8 :: ('*'.toUInt8 :: b ++ ascii "*/") ++ t)) >>= fun r =>
        .ok ([], r)) := rfl
  rw [hturn, hstart, show advance 2 (ascii "*/" ++ t) = .ok t from advance_append (ascii "*/") t]
  rfl

theorem Gap.passes (h : Gap b) : Passes b [] := by
  cases h with
  | blank hc => exact passes_blank hc
  | line h0 hb => exact passes_line h0 hb
  | block h0 hb => exact passes_block h0 hb

theorem Gaps.passes (h : Gaps b) : Passes b [] := by
  induction h with
  | nil => exact .nil
  | cons hb _ ih => exact hb.passes.append ih

end Gaps

section Spelled

theorem Spells.passes (h : Spells Gaps ks t) : Passes t (compact ks) := by
  induction h with
  | nil hb => exact hb.passes
  | cons k hb _ ih => exact hb.passes.append ((passes_token k).append ih)

/-- Blanks and comments are taken out of a text, and the tokens stay as they are. -/
theorem minify_spells (h : Spells Gaps ks t) : minify t = .ok (compact ks) := by
  obtain ⟨fuel, hfuel, heq⟩ := Spells.passes h [] (t.length + 1) [] (by simp)
  rw [List.append_nil, List.nil_append] at heq
  rw [minify, heq]
  obtain ⟨fuel, rfl⟩ : ∃ n, fuel = n + 1 := ⟨fuel - 1, by simp at hfuel; omega⟩
  rfl

variable {D : Type} [Double D]

theorem parse_minify (v : Syntax) (h : Spells Gaps v.tokens t) (hsmall : SmallExponents v.tokens)
    (hmax : t.length ≤ intMax) :
    ∃ (t' : Text) (item : Item D), minify t = .ok t' ∧ parse t' = .ok item ∧
      view item = v.map readNumber readString := by
  have hcompact : Spells Skipped v.tokens (compact v.tokens) :=
    spells_compact (fun _ hc => absurd hc List.not_mem_nil) v.tokens
  obtain ⟨item, rest, hparse, hview, -⟩ := parseWithOpts_spells (D := D) v hcompact hsmall
    (h.compact_length_le.trans hmax) false
  refine ⟨compact v.tokens, item, minify_spells h, ?_, hview⟩
  rw [parse, hparse]
  rfl

theorem parse_minify_comments : ∃ (t' : Text) (item : Item Int),
    minify (text "[/**/ true//x\n]") = .ok t' ∧ parse t' = .ok item ∧
      view item = .arr [.bool true] := by
  have hblock : Gaps (text "/**/ ") :=
    .cons (.block (b := []) (by decide) (by decide)) (.cons (.blank (by decide)) .nil)
  have hline : Gaps (text "//x\n") := .cons (.line (b := text "x") (by decide) (by decide)) .nil
  have hspell : Spells Gaps (Value.tokens (.arr [.bool true])) (text "[/**/ true//x\n]") :=
    .cons (b := []) .openArr .nil (.cons (.bool true) hblock (.cons .closeArr hline (.nil .nil)))
  exact parse_minify (.arr [.bool true]) hspell
    (by simp [SmallExponents, Value.tokens, elements, moreElements]) (by decide)

theorem Layout.gaps (h : Layout true b) : Gaps b := by
  induction b with
  | nil => exact .nil
  | cons c b ih =>
    refine .cons (b := [c]) (.blank ?_) (ih fun c' hc' => h c' (List.mem_cons_of_mem c hc'))
    rcases h c List.mem_cons_self with rfl | rfl | rfl <;> decide

theorem eq_compact (h : Spells (Layout false) ks t) : t = compact ks := by
  induction h with
  | nil hb => exact hb
  | cons k hb _ ih =>
    obtain rfl : _ = [] := hb
    rw [ih]
    rfl

/-- Taking out the blanks of what is printed with format leaves what is printed without. -/
theorem minify_print (item : Item D) (h : Printable item)
    (hsize : 2 * (printed item 0 true).length + 8 ≤ intMax) :
    ∃ t t', print item = .ok t ∧ printUnformatted item = .ok t' ∧ minify t = .ok t' := by
  obtain ⟨v, hspell, -⟩ := printed_spells item h
  have hcompact := eq_compact (hspell 0 false)
  have hle := (hspell 0 true).compact_length_le
  refine ⟨_, _, printValue_eq item 0 true h hsize,
    printValue_eq item 0 false h (by rw [hcompact]; omega), ?_⟩
  rw [hcompact]
  exact minify_spells ((hspell 0 true).mono fun _ => Layout.gaps)

theorem minify_print_sample : ∃ t t', print sample = .ok t ∧ printUnformatted sample = .ok t' ∧
    minify t = .ok t' :=
  minify_print sample sample_printable (by decide)

end Spelled

end Mangoxx.CJson
