import Mangoxx.CJson.Strings
import Mangoxx.CJson.Numbers
import Mangoxx.CJson.View
import Mathlib.Data.List.DropRight

namespace Mangoxx.CJson

open Lib.Json
open Fcmd (text)

variable {D : Type} [Double D]

section Built

def namedItem (name : Text) : Item D := { newItem with type := .string, string := some name }

mutual

def fill (item : Item D) : Syntax → Item D
  | .null => { item with type := .null }
  | .bool false => { item with type := .false }
  | .bool true => { item with type := .true, valueint := 1 }
  | .num n => item.setNumber (numberValue n)
  | .str s => { item with valuestring := some (cString s), type := .string }
  | .arr vs => { item with type := .array, child := fillElements vs }
  | .obj ms => { item with type := .object, child := fillMembers ms }

def fillElements : List Syntax → List (Item D)
  | [] => []
  | v :: vs => fill newItem v :: fillElements vs

def fillMembers : List (List Piece × Syntax) → List (Item D)
  | [] => []
  | (k, v) :: ms => fill (namedItem (cString k)) v :: fillMembers ms

end

end Built

section Blanks

def Skipped (b : List UInt8) : Prop := ∀ c ∈ b, c ≠ 0 ∧ c ≤ 32

theorem skip_append {b : List UInt8} (hb : Skipped b) (t : Text) : skip (b ++ t) = skip t :=
  List.dropWhile_append_of_pos fun c hc => decide_eq_true (hb c hc)

theorem skip_of_star (h : ¬ (star t ≠ 0 ∧ star t ≤ 32)) : skip t = t := by
  cases t with
  | nil => rfl
  | cons c t => exact List.dropWhile_cons_of_neg (by simpa [star] using h)

theorem skip_eq_nil {b : List UInt8} (hb : Skipped b) : skip b = [] := by
  have := skip_append hb []
  rwa [List.append_nil] at this

theorem skip_skip (t : Text) : skip (skip t) = skip t := List.dropWhile_idempotent _ _

theorem skip_length_le (t : Text) : (skip t).length ≤ t.length :=
  (List.dropWhile_sublist _).length_le

end Blanks

section Tokens

theorem star_token (k : Token) (t : Text) : star (k.text ++ t) = k.first := by
  obtain ⟨s, hs⟩ := k.text_eq_cons
  rw [hs]
  rfl

theorem first_num (n : Number) :
    Token.first (.num n) = '-'.toUInt8 ∨ isDigit (Token.first (.num n)) := by
  cases hneg : n.negative with
  | true => exact .inl (if_pos hneg)
  | false =>
    have hfirst : Token.first (.num n) = digitChar n.lead := if_neg (Bool.eq_false_iff.mp hneg)
    rw [hfirst]
    exact .inr (isDigit_digitChar n.lead)

theorem isDigit_gt (h : isDigit c) : 32 < c := by
  have hzero : 32 < '0'.toUInt8 := by decide
  exact UInt8.lt_of_lt_of_le hzero (of_decide_eq_true h).1

theorem first_visible (k : Token) : ¬ (k.first ≠ 0 ∧ k.first ≤ 32) := by
  suffices h : 32 < k.first from fun hk => UInt8.not_le.mpr h hk.2
  match k with
  | .openArr | .closeArr | .openObj | .closeObj | .comma | .colon | .null | .bool true | .bool false
  | .str s => simp only [Token.first]; decide
  | .num n =>
    rcases first_num n with h | h
    · rw [h]
      decide
    · exact isDigit_gt h

theorem skip_spells {k : Token} {ks : List Token} (h : Spells Skipped (k :: ks) t) :
    ∃ t', skip t = k.text ++ t' ∧ Spells Skipped ks t' ∧ k.text.length + t'.length ≤ t.length := by
  cases h with
  | @cons b t' _ _ hb h =>
    refine ⟨t', ?_, h, ?_⟩
    · rw [skip_append hb, skip_of_star (star_token k t' ▸ first_visible k)]
    · rw [List.length_append, List.length_append]
      omega

def Follows (ks : List Token) : Prop := ∀ k ∈ ks.head?, k.Closes

theorem numberEnds_of_spells (h : Spells Skipped ks t) (hks : Follows ks) : NumberEnds t := by
  have hlow (c : UInt8) (hc : c ≤ 32) :
      ¬ isDigit c ∧ c ≠ '.'.toUInt8 ∧ c ≠ 'e'.toUInt8 ∧ c ≠ 'E'.toUInt8 := by
    have hge (d : UInt8) (hd : 32 < d) : c ≠ d := fun heq => absurd (heq ▸ hc) (UInt8.not_le.mpr hd)
    refine ⟨?_, hge _ (by decide), hge _ (by decide), hge _ (by decide)⟩
    exact fun hdigit => UInt8.not_le.mpr (isDigit_gt hdigit) hc
  have hcloser : ∀ c ∈ ascii ",]\x7d", ¬ isDigit c ∧ c ≠ '.'.toUInt8 ∧ c ≠ 'e'.toUInt8 ∧
      c ≠ 'E'.toUInt8 :=
    forall_mem_of_all (by decide)
  cases h with
  | @nil b hb =>
    cases t with
    | nil => exact hlow 0 (by decide)
    | cons c b => exact hlow c (hb c List.mem_cons_self).2
  | @cons b t' ks' k hb h =>
    cases b with
    | cons c b => exact hlow c (hb c List.mem_cons_self).2
    | nil =>
      have hk : k.Closes := hks k rfl
      cases k with
      | comma => exact hcloser ','.toUInt8 (by decide)
      | closeArr => exact hcloser ']'.toUInt8 (by decide)
      | closeObj => exact hcloser '}'.toUInt8 (by decide)
      | _ => exact hk.elim

end Tokens

section Dispatch

variable (fuel : Nat) (item : Item D) (t : Text)

theorem isPrefixOf_of_star {c : UInt8} {s value : Text} (h : star value ≠ c) :
    (c :: s).isPrefixOf value = false := by
  cases value with
  | nil => rfl
  | cons d value =>
    have hne : (c == d) = false := beq_eq_false_iff_ne.mpr fun heq => h heq.symm
    simp [List.isPrefixOf, hne]

theorem parseValue_null : parseValue (fuel + 1) item (ascii "null" ++ t) =
    .ok ({ item with type := .null }, t) := rfl

theorem parseValue_false : parseValue (fuel + 1) item (ascii "false" ++ t) =
    .ok ({ item with type := .false }, t) := rfl

theorem parseValue_true : parseValue (fuel + 1) item (ascii "true" ++ t) =
    .ok ({ item with type := .true, valueint := 1 }, t) := rfl

theorem parseValue_string :
    parseValue (fuel + 1) item ('"'.toUInt8 :: t) = parseString item ('"'.toUInt8 :: t) := rfl

theorem parseValue_array :
    parseValue (fuel + 1) item ('['.toUInt8 :: t) =
      parseArray (parseValue fuel) item ('['.toUInt8 :: t) :=
  rfl

theorem parseValue_object :
    parseValue (fuel + 1) item ('{'.toUInt8 :: t) =
      parseObject (parseValue fuel) item ('{'.toUInt8 :: t) :=
  rfl

theorem parseValue_number (h : star t = '-'.toUInt8 ∨ isDigit (star t)) :
    parseValue (fuel + 1) item t = parseNumber item t := by
  have hne : ∀ c ∈ ascii "nft\"", star t ≠ c := by
    have hdigit : ∀ c ∈ ascii "nft\"", c ≠ '-'.toUInt8 ∧ ¬ isDigit c :=
      forall_mem_of_all (by decide)
    rintro c hc rfl
    rcases h with h | h
    · exact (hdigit _ hc).1 h
    · exact (hdigit _ hc).2 h
  rw [parseValue, if_neg, if_neg, if_neg, if_neg (hne _ (by decide)), if_pos h]
  · exact Bool.eq_false_iff.mp (isPrefixOf_of_star (hne 't'.toUInt8 (by decide)))
  · exact Bool.eq_false_iff.mp (isPrefixOf_of_star (hne 'f'.toUInt8 (by decide)))
  · exact Bool.eq_false_iff.mp (isPrefixOf_of_star (hne 'n'.toUInt8 (by decide)))

end Dispatch

section Steps

def Gets (r : Result (α × Text)) (a : α) (ks : List Token) (n : Nat) : Prop :=
  ∃ rest, r = .ok (a, rest) ∧ Spells Skipped ks rest ∧ rest.length < n

/-- Every exponent among the tokens fits into an `int`. -/
def SmallExponents (ks : List Token) : Prop := ∀ n, .num n ∈ ks → SmallExponent n

theorem star_skip_value (v : Syntax) (h : Spells Skipped (v.tokens ++ ks) t) :
    star (skip t) ≠ ']'.toUInt8 ∧ star (skip t) ≠ '}'.toUInt8 := by
  obtain ⟨ks', hks⟩ := v.tokens_eq_cons
  rw [hks] at h
  obtain ⟨t', ht, -⟩ := skip_spells h
  rw [ht, star_token]
  match v with
  | .null | .bool true | .bool false | .str s | .arr vs | .obj ms =>
    simp only [Value.firstToken, Token.first]
    decide
  | .num n =>
    rcases first_num n with h | h
    · rw [Value.firstToken, h]
      decide
    · have hbracket : ¬ isDigit ']'.toUInt8 ∧ ¬ isDigit '}'.toUInt8 := by decide
      exact ⟨fun heq => hbracket.1 (heq ▸ h), fun heq => hbracket.2 (heq ▸ h)⟩

variable {parse : Item D → Text → Result (Item D × Text)}

theorem elementLoop_close (h : Spells Skipped (.closeArr :: ks) t) (children : List (Item D))
    (fuel : Nat) :
    ∃ rest, elementLoop parse (fuel + 1) children (skip t) = .ok (children, ']'.toUInt8 :: rest) ∧
      Spells Skipped ks rest ∧ rest.length < t.length := by
  obtain ⟨t', ht, h', hlen⟩ := skip_spells h
  refine ⟨t', ?_, h', by simp [Token.text] at hlen; omega⟩
  have hne : ']'.toUInt8 ≠ ','.toUInt8 := by decide
  rw [ht, elementLoop, if_neg (by simp [Token.text, star, hne])]
  rfl

theorem elementLoop_comma (h : Spells Skipped (.comma :: ks) t) (children : List (Item D))
    (fuel : Nat) (hparse : ∀ t', Spells Skipped ks t' → t'.length < t.length →
      Gets (parse newItem (skip t')) child ks' t'.length) :
    ∃ rest, elementLoop parse (fuel + 1) children (skip t) =
      elementLoop parse fuel (children ++ [child]) (skip rest) ∧
      Spells Skipped ks' rest ∧ rest.length + 1 < t.length := by
  obtain ⟨t', ht, h', hlen⟩ := skip_spells h
  have hcomma : Token.comma.text.length = 1 := rfl
  obtain ⟨rest, hrest, hspell, hshort⟩ := hparse t' h' (by omega)
  refine ⟨rest, ?_, hspell, by omega⟩
  rw [ht, elementLoop, if_pos (by simp [Token.text, star])]
  simp [Token.text, hrest, bind, Except.bind]

theorem parseArray_empty (h : Spells Skipped (.openArr :: .closeArr :: ks) t) (item : Item D) :
    Gets (parseArray parse item (skip t)) { item with type := .array } ks t.length := by
  obtain ⟨t₁, ht, h₁, hlen⟩ := skip_spells h
  obtain ⟨t₂, ht', h₂, hlen'⟩ := skip_spells h₁
  have hone : Token.openArr.text.length = 1 ∧ Token.closeArr.text.length = 1 := ⟨rfl, rfl⟩
  refine ⟨t₂, ?_, h₂, by omega⟩
  rw [ht, parseArray, if_neg (by simp [Token.text, star])]
  have htail : (Token.openArr.text ++ t₁).tail = t₁ := rfl
  rw [htail, ht']
  rfl

theorem parseArray_cons (v : Syntax) (h : Spells Skipped (.openArr :: (v.tokens ++ ks')) t)
    (item : Item D) (hparse : ∀ t', Spells Skipped (v.tokens ++ ks') t' → t'.length < t.length →
      Gets (parse newItem (skip t')) child ks' t'.length)
    (hloop : ∀ t', Spells Skipped ks' t' → t'.length < t.length →
      ∃ rest, elementLoop parse (t'.length + 1) [child] (skip t') =
        .ok (children, ']'.toUInt8 :: rest) ∧
        Spells Skipped ks rest ∧ rest.length < t'.length) :
    Gets (parseArray parse item (skip t)) { item with type := .array, child := children } ks
      t.length := by
  obtain ⟨t₁, ht, h₁, hlen⟩ := skip_spells h
  have hone : Token.openArr.text.length = 1 := rfl
  obtain ⟨t₂, hfirst, h₂, hlen₂⟩ := hparse t₁ h₁ (by omega)
  obtain ⟨rest, hrest, hspell, hlen₃⟩ := hloop t₂ h₂ (by omega)
  refine ⟨rest, ?_, hspell, by omega⟩
  have htail : (Token.openArr.text ++ t₁).tail = t₁ := rfl
  rw [ht, parseArray, if_neg (by simp [Token.text, star])]
  simp only [htail]
  rw [if_neg (star_skip_value v h₁).1, skip_skip]
  simp only [hfirst, hrest, bind, Except.bind]
  rfl

theorem parseMember_spells (v : Syntax)
    (h : Spells Skipped (.str k :: .colon :: (v.tokens ++ ks)) t) (hmax : t.length ≤ intMax)
    (hparse : ∀ t', Spells Skipped (v.tokens ++ ks) t' → t'.length < t.length →
      Gets (parse (namedItem (cString k)) (skip t')) child ks t'.length) :
    ∃ rest, parseMember parse t = .ok (child, skip rest) ∧ Spells Skipped ks rest ∧
      rest.length < t.length := by
  obtain ⟨t₁, ht, h₁, hlen⟩ := skip_spells h
  obtain ⟨t₂, ht', h₂, hlen₂⟩ := skip_spells h₁
  have hone : Token.colon.text.length = 1 := rfl
  obtain ⟨rest, hrest, hspell, hlen₃⟩ := hparse t₂ h₂ (by omega)
  refine ⟨rest, ?_, hspell, by omega⟩
  have hname :=
    parseString_quoted (newItem : Item D) k (by simp only [Token.text] at hlen; omega) t₁
  have htail : (Token.colon.text ++ t₂).tail = t₂ := rfl
  rw [parseMember, ht, Token.text, hname]
  simp only [bind, Except.bind, ht']
  rw [if_neg (by simp [Token.text, star]), htail]
  have hbind : (parse (namedItem (cString k)) (skip t₂) >>= fun r => pure (r.1, skip r.2)) =
      .ok (child, skip rest) := by
    rw [hrest]
    rfl
  exact hbind

theorem parseMember_skip (t : Text) : parseMember parse (skip t) = parseMember parse t := by
  rw [parseMember, parseMember, skip_skip]

theorem memberLoop_close (h : Spells Skipped (.closeObj :: ks) t) (children : List (Item D))
    (fuel : Nat) :
    ∃ rest, memberLoop parse (fuel + 1) children (skip t) = .ok (children, '}'.toUInt8 :: rest) ∧
      Spells Skipped ks rest ∧ rest.length < t.length := by
  obtain ⟨t', ht, h', hlen⟩ := skip_spells h
  refine ⟨t', ?_, h', by simp [Token.text] at hlen; omega⟩
  have hne : '}'.toUInt8 ≠ ','.toUInt8 := by decide
  rw [ht, memberLoop, if_neg (by simp [Token.text, star, hne])]
  rfl

theorem memberLoop_comma (v : Syntax)
    (h : Spells Skipped (.comma :: .str k :: .colon :: (v.tokens ++ ks)) t)
    (hmax : t.length ≤ intMax) (children : List (Item D)) (fuel : Nat)
    (hparse : ∀ t', Spells Skipped (v.tokens ++ ks) t' → t'.length < t.length →
      Gets (parse (namedItem (cString k)) (skip t')) child ks t'.length) :
    ∃ rest, memberLoop parse (fuel + 1) children (skip t) =
      memberLoop parse fuel (children ++ [child]) (skip rest) ∧
      Spells Skipped ks rest ∧ rest.length + 1 < (skip t).length := by
  obtain ⟨t', ht, h', hlen⟩ := skip_spells h
  have hone : Token.comma.text.length = 1 := rfl
  have hskip : (skip t).length = 1 + t'.length := by rw [ht, List.length_append, hone]
  obtain ⟨rest, hrest, hspell, hshort⟩ := parseMember_spells v h' (by omega)
    fun t₂ h₂ hlen₂ => hparse t₂ h₂ (by omega)
  refine ⟨rest, ?_, hspell, by omega⟩
  have htail : (Token.comma.text ++ t').tail = t' := rfl
  rw [ht, memberLoop, if_pos (by simp [Token.text, star]), htail, hrest]
  rfl

theorem parseObject_empty (h : Spells Skipped (.openObj :: .closeObj :: ks) t) (item : Item D) :
    Gets (parseObject parse item (skip t)) { item with type := .object } ks t.length := by
  obtain ⟨t₁, ht, h₁, hlen⟩ := skip_spells h
  obtain ⟨t₂, ht', h₂, hlen'⟩ := skip_spells h₁
  have hone : Token.openObj.text.length = 1 ∧ Token.closeObj.text.length = 1 := ⟨rfl, rfl⟩
  refine ⟨t₂, ?_, h₂, by omega⟩
  rw [ht, parseObject, if_neg (by simp [Token.text, star])]
  have htail : (Token.openObj.text ++ t₁).tail = t₁ := rfl
  rw [htail, ht']
  rfl

theorem parseObject_cons (v : Syntax)
    (h : Spells Skipped (.openObj :: .str k :: .colon :: (v.tokens ++ ks')) t)
    (hmax : t.length ≤ intMax) (item : Item D)
    (hparse : ∀ t', Spells Skipped (v.tokens ++ ks') t' → t'.length < t.length →
      Gets (parse (namedItem (cString k)) (skip t')) child ks' t'.length)
    (hloop : ∀ t', Spells Skipped ks' t' → t'.length < t.length →
      ∃ rest, memberLoop parse ((skip t').length + 1) [child] (skip t') =
        .ok (children, '}'.toUInt8 :: rest) ∧ Spells Skipped ks rest ∧ rest.length < t'.length) :
    Gets (parseObject parse item (skip t)) { item with type := .object, child := children } ks
      t.length := by
  obtain ⟨t₁, ht, h₁, hlen⟩ := skip_spells h
  have hone : Token.openObj.text.length = 1 := rfl
  obtain ⟨t₂, hfirst, h₂, hlen₂⟩ := parseMember_spells v h₁ (by omega)
    fun t₂ h₂ hlen₂ => hparse t₂ h₂ (by omega)
  obtain ⟨rest, hrest, hspell, hlen₃⟩ := hloop t₂ h₂ (by omega)
  refine ⟨rest, ?_, hspell, by omega⟩
  obtain ⟨t₃, hquote, -⟩ := skip_spells h₁
  have hstar : star (skip t₁) ≠ '}'.toUInt8 := by
    rw [hquote, star_token]
    simp only [Token.first]
    decide
  have htail : (Token.openObj.text ++ t₁).tail = t₁ := rfl
  rw [ht, parseObject, if_neg (by simp [Token.text, star])]
  simp only [htail]
  rw [if_neg hstar, parseMember_skip, hfirst]
  simp only [bind, Except.bind, hrest]
  rfl

end Steps

section Values

theorem SmallExponents.left (h : SmallExponents (ks ++ ks')) : SmallExponents ks := fun n hn =>
  h n (List.mem_append_left _ hn)

theorem SmallExponents.right (h : SmallExponents (ks ++ ks')) : SmallExponents ks' := fun n hn =>
  h n (List.mem_append_right _ hn)

theorem SmallExponents.tail (h : SmallExponents (k :: ks)) : SmallExponents ks := fun n hn =>
  h n (List.mem_cons_of_mem _ hn)

theorem follows_moreElements (vs : List Syntax) : Follows (moreElements vs ++ .closeArr :: ks) := by
  cases vs <;> rintro _ ⟨⟩ <;> trivial

theorem follows_moreMembers (ms : List (List Piece × Syntax)) :
    Follows (moreMembers ms ++ .closeObj :: ks) := by
  rcases ms with _ | ⟨⟨k, v⟩, ms⟩ <;> rintro _ ⟨⟩ <;> trivial

omit [Double D] in
theorem gets_token {k : Token} {parse : Text → Result (Item D × Text)}
    (h : Spells Skipped (k :: ks) t)
    (hparse : ∀ rest, Spells Skipped ks rest → k.text.length + rest.length ≤ t.length →
      parse (k.text ++ rest) = .ok (child, rest)) : Gets (parse (skip t)) child ks t.length := by
  obtain ⟨rest, ht, hspell, hlen⟩ := skip_spells h
  obtain ⟨s, hs⟩ := k.text_eq_cons
  have hpos : 0 < k.text.length := by
    rw [hs]
    exact Nat.succ_pos _
  exact ⟨rest, by rw [ht, hparse rest hspell hlen], hspell, by omega⟩

theorem parseValue_openArr (h : Spells Skipped (.openArr :: ks) t) (fuel : Nat) (item : Item D) :
    parseValue (fuel + 1) item (skip t) = parseArray (parseValue fuel) item (skip t) := by
  obtain ⟨t', ht, -⟩ := skip_spells h
  rw [ht]
  exact parseValue_array fuel item t'

theorem parseValue_openObj (h : Spells Skipped (.openObj :: ks) t) (fuel : Nat) (item : Item D) :
    parseValue (fuel + 1) item (skip t) = parseObject (parseValue fuel) item (skip t) := by
  obtain ⟨t', ht, -⟩ := skip_spells h
  rw [ht]
  exact parseValue_object fuel item t'

mutual

theorem parseValue_spells (v : Syntax) (fuel : Nat) {item : Item D} {t : Text} {ks : List Token}
    (hitem : item.child = []) (h : Spells Skipped (v.tokens ++ ks) t) (hks : Follows ks)
    (hsmall : SmallExponents v.tokens) (hmax : t.length ≤ intMax) (hfuel : t.length < fuel) :
    Gets (parseValue fuel item (skip t)) (fill item v) ks t.length := by
  obtain ⟨fuel, rfl⟩ : ∃ n, fuel = n + 1 := ⟨fuel - 1, by omega⟩
  match v with
  | .null => exact gets_token h fun rest _ _ => parseValue_null fuel item rest
  | .bool true => exact gets_token h fun rest _ _ => parseValue_true fuel item rest
  | .bool false => exact gets_token h fun rest _ _ => parseValue_false fuel item rest
  | .num n =>
    refine gets_token h fun rest hspell _ => ?_
    have hfirst : star (n.text ++ rest) = _ := star_token (.num n) rest
    have hstar := first_num n
    rw [← hfirst] at hstar
    exact (parseValue_number fuel item _ hstar).trans
      (parseNumber_text item n (hsmall n List.mem_cons_self) (numberEnds_of_spells hspell hks))
  | .str s =>
    refine gets_token h fun rest _ hlen => ?_
    have hquoted : (quoted s).length ≤ intMax := by
      have : (quoted s).length + rest.length ≤ t.length := hlen
      omega
    exact (parseValue_string fuel item _).trans (parseString_quoted item s hquoted rest)
  | .arr [] =>
    rw [fill, fillElements, ← hitem, parseValue_openArr h]
    exact parseArray_empty h item
  | .arr (v :: vs) =>
    rw [Value.tokens, elements] at h hsmall
    simp only [List.cons_append, List.append_assoc, List.nil_append] at h
    rw [fill, parseValue_openArr h]
    refine parseArray_cons v h item
      (fun t' h' hlen => parseValue_spells v fuel rfl h' (follows_moreElements vs)
        hsmall.tail.left.left (by omega) (by omega)) fun t' h' hlen => ?_
    exact elementLoop_spells vs fuel _ _ h' hsmall.tail.left.right (by omega) (by omega) (by omega)
  | .obj [] =>
    rw [fill, fillMembers, ← hitem, parseValue_openObj h]
    exact parseObject_empty h item
  | .obj ((k, v) :: ms) =>
    rw [Value.tokens, members] at h hsmall
    simp only [List.cons_append, List.append_assoc, List.nil_append] at h
    rw [fill, parseValue_openObj h]
    have hsmall' : SmallExponents (v.tokens ++ moreMembers ms) := hsmall.tail.left.tail.tail
    refine parseObject_cons v h hmax item
      (fun t' h' hlen => parseValue_spells v fuel rfl h' (follows_moreMembers ms) hsmall'.left
        (by omega) (by omega)) fun t' h' hlen => ?_
    exact memberLoop_spells ms fuel _ _ h' hsmall'.right (by omega) (by omega) (by omega)

theorem elementLoop_spells (vs : List Syntax) (fuel loopFuel : Nat) (children : List (Item D))
    {t : Text} {ks : List Token} (h : Spells Skipped (moreElements vs ++ .closeArr :: ks) t)
    (hsmall : SmallExponents (moreElements vs)) (hmax : t.length ≤ intMax) (hfuel : t.length < fuel)
    (hloop : t.length < loopFuel) :
    ∃ rest, elementLoop (parseValue fuel) loopFuel children (skip t) =
      .ok (children ++ fillElements vs, ']'.toUInt8 :: rest) ∧ Spells Skipped ks rest ∧
        rest.length < t.length := by
  obtain ⟨loopFuel, rfl⟩ : ∃ n, loopFuel = n + 1 := ⟨loopFuel - 1, by omega⟩
  match vs with
  | [] =>
    rw [fillElements, List.append_nil]
    exact elementLoop_close h children loopFuel
  | v :: vs =>
    rw [moreElements] at h hsmall
    rw [List.cons_append, List.append_assoc] at h
    obtain ⟨rest, hrest, hspell, hlen⟩ := elementLoop_comma h children loopFuel fun t' h' hlen' =>
      parseValue_spells v fuel rfl h' (follows_moreElements vs) hsmall.tail.left (by omega)
        (by omega)
    obtain ⟨rest', hrest', hspell', hlen'⟩ :=
      elementLoop_spells vs fuel loopFuel _ hspell hsmall.tail.right (by omega)
        (by omega) (by omega)
    refine ⟨rest', ?_, hspell', by omega⟩
    rw [hrest, hrest', fillElements, List.append_assoc]
    rfl

theorem memberLoop_spells (ms : List (List Piece × Syntax)) (fuel loopFuel : Nat)
    (children : List (Item D)) {t : Text} {ks : List Token}
    (h : Spells Skipped (moreMembers ms ++ .closeObj :: ks) t)
    (hsmall : SmallExponents (moreMembers ms)) (hmax : t.length ≤ intMax) (hfuel : t.length < fuel)
    (hloop : (skip t).length < loopFuel) :
    ∃ rest, memberLoop (parseValue fuel) loopFuel children (skip t) =
      .ok (children ++ fillMembers ms, '}'.toUInt8 :: rest) ∧ Spells Skipped ks rest ∧
        rest.length < t.length := by
  obtain ⟨loopFuel, rfl⟩ : ∃ n, loopFuel = n + 1 := ⟨loopFuel - 1, by omega⟩
  match ms with
  | [] =>
    rw [fillMembers, List.append_nil]
    exact memberLoop_close h children loopFuel
  | (k, v) :: ms =>
    rw [moreMembers] at h hsmall
    simp only [List.cons_append, List.append_assoc] at h
    obtain ⟨rest, hrest, hspell, hlen⟩ := memberLoop_comma v h hmax children loopFuel
      fun t' h' hlen' =>
      parseValue_spells v fuel rfl h' (follows_moreMembers ms) hsmall.tail.tail.tail.left (by omega)
        (by omega)
    have hskip := skip_length_le t
    have hskip' := skip_length_le rest
    obtain ⟨rest', hrest', hspell', hlen'⟩ :=
      memberLoop_spells ms fuel loopFuel _ hspell hsmall.tail.tail.tail.right
        (by omega) (by omega) (by omega)
    refine ⟨rest', ?_, hspell', by omega⟩
    rw [hrest, hrest', fillMembers, List.append_assoc]
    rfl

end

end Values

section Views

def readNumber (n : Number) : Int × D := (Double.toInt (numberValue n : D), numberValue n)

def readString (s : List Piece) : Option Text := some (cString s)

theorem fill_string (item : Item D) (v : Syntax) : (fill item v).string = item.string := by
  match v with
  | .null | .bool true | .bool false | .num n | .str s | .arr vs | .obj ms =>
    simp [fill, Item.setNumber]

mutual

theorem view_fill (item : Item D) (v : Syntax) :
    view (fill item v) = v.map readNumber readString := by
  match v with
  | .null | .bool true | .bool false | .num n | .str s =>
    simp [fill, view, Value.map, Item.setNumber, readNumber, readString]
  | .arr vs => rw [fill, view, viewElements_fill, Value.map]
  | .obj ms => rw [fill, view, viewMembers_fill, Value.map]

theorem viewElements_fill (vs : List Syntax) :
    viewElements (fillElements vs : List (Item D)) = mapElements readNumber readString vs := by
  match vs with
  | [] => rfl
  | v :: vs => rw [fillElements, viewElements, view_fill, viewElements_fill, mapElements]

theorem viewMembers_fill (ms : List (List Piece × Syntax)) :
    viewMembers (fillMembers ms : List (Item D)) = mapMembers readNumber readString ms := by
  match ms with
  | [] => rfl
  | (k, v) :: ms =>
    rw [fillMembers, viewMembers, view_fill, viewMembers_fill, mapMembers, fill_string]
    rfl

end

/-- A text of JSON is parsed to its end.  Bytes of strings come out as UTF-8. -/
theorem parseWithOpts_spells (v : Syntax) (h : Spells Skipped v.tokens t)
    (hsmall : SmallExponents v.tokens) (hmax : t.length ≤ intMax) (nul : Bool) :
    ∃ (item : Item D) (rest : Text), parseWithOpts t nul = .ok (item, rest) ∧
      view item = v.map readNumber readString ∧ item.string = none ∧ Skipped rest ∧
      (nul = true → rest = []) := by
  have hspell : Spells Skipped (v.tokens ++ []) t := by rwa [List.append_nil]
  have hks : Follows [] := by rintro k ⟨⟩
  obtain ⟨rest, hrest, hend, -⟩ := parseValue_spells v (t.length + 1)
    (show (newItem : Item D).child = [] from rfl) hspell hks hsmall hmax (Nat.lt_succ_self _)
  cases hend with
  | nil hblank =>
    have hview := view_fill (newItem : Item D) v
    have hname := fill_string (newItem : Item D) v
    cases nul with
    | false =>
      refine ⟨fill newItem v, rest, ?_, hview, hname, hblank, by simp⟩
      rw [parseWithOpts, hrest]
      rfl
    | true =>
      refine ⟨fill newItem v, [], ?_, hview, hname, by simp [Skipped], fun _ => rfl⟩
      rw [parseWithOpts, hrest]
      simp [bind, Except.bind, skip_eq_nil hblank, star, pure, Except.pure]

theorem parseWithOpts_spells_object : ∃ (item : Item Int) (rest : Text),
    parseWithOpts (text " \x7b\"a\":[-12,true]\x7d") true = .ok (item, rest) ∧
      view item = .obj [(some (text "a"), .arr [.num (-12, -12), .bool true])] ∧
        item.string = none ∧
      Skipped rest ∧ (true = true → rest = []) :=
  have hblank : Skipped [32] := by simp [Skipped]
  have hspell :=
    (spells_compact (show Skipped [] from fun _ hc => absurd hc List.not_mem_nil) _).blank_append
      (fun _ _ hb hb' c hc => (List.mem_append.mp hc).elim (hb c) (hb' c)) hblank
  parseWithOpts_spells (.obj [([.plain ⟨'a'.toUInt8, by decide⟩],
    .arr [.num ⟨true, 1, [2], by decide, [], none⟩, .bool true])]) hspell
    (by simp [SmallExponents, Value.tokens, members, elements, moreElements, moreMembers,
      SmallExponent])
    (by decide) true

end Views

end Mangoxx.CJson
