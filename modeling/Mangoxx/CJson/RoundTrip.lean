import Mangoxx.CJson.Complete
import Mangoxx.CJson.Printed

namespace Mangoxx.CJson

open Lib.Json
open Fcmd (text)

variable {D : Type} [Double D]

section Strings

def pieceOf (c : UInt8) : Piece :=
  if h : 32 ≤ c ∧ c ≠ '"'.toUInt8 ∧ c ≠ '\\'.toUInt8 then .plain ⟨c, h⟩
  else if c = '\\'.toUInt8 then .escape .backslash
  else if c = '"'.toUInt8 then .escape .quote
  else if c = 8 then .escape .b
  else if c = 12 then .escape .f
  else if c = 10 then .escape .n
  else if c = 13 then .escape .r
  else if c = 9 then .escape .t
  else .unit ⟨.zero, .zero, ⟨⟨c.toNat / 16, by have := c.toNat_lt; omega⟩, false⟩,
    ⟨⟨c.toNat % 16, by omega⟩, false⟩⟩ (by
      have := c.toNat_lt
      simp only [CodeUnit.High, CodeUnit.Low, CodeUnit.val, HexDigit.zero]
      omega)

theorem pieceOf_text : ∀ c, c ≠ 0 → (pieceOf c).text = escape c := by
  apply Lib.Bits.forall_byte
  decide +kernel

theorem cBytes_pieceOf : ∀ c, c ≠ 0 → cBytes (pieceOf c) = [c] := by
  apply Lib.Bits.forall_byte
  decide +kernel

theorem escape_of_not_flagged : ∀ c, c ≠ 0 → flagged c = false → escape c = [c] := by
  apply Lib.Bits.forall_byte
  decide +kernel

theorem stringText_quoted (h : 0 ∉ str) : (stringText str).2 = quoted (str.map pieceOf) := by
  have hpieces : (str.map pieceOf).flatMap Piece.text = str.flatMap escape := by
    rw [List.flatMap_map]
    refine List.flatMap_congr fun c hc => pieceOf_text c ?_
    rintro rfl
    exact h hc
  unfold stringText quoted
  rw [hpieces]
  split
  · rfl
  · rename_i hflag
    have hplain : str.flatMap escape = str.flatMap fun c => [c] := List.flatMap_congr fun c hc => by
      refine escape_of_not_flagged c ?_ ?_
      · rintro rfl
        exact h hc
      · simpa using (List.any_eq_false.mp (Bool.eq_false_iff.mpr hflag)) c hc
    rw [hplain, List.flatMap_singleton']

theorem cString_pieceOf (h : 0 ∉ str) : cString (str.map pieceOf) = str := by
  have hbytes : cString (str.map pieceOf) = str.flatMap fun c => [c] := by
    rw [cString, List.flatMap_map]
    refine List.flatMap_congr fun c hc => cBytes_pieceOf c ?_
    rintro rfl
    exact h hc
  rw [hbytes, List.flatMap_singleton']

end Strings

section Layout

def Layout (fmt : Bool) (b : List UInt8) : Prop :=
  if fmt then ∀ c ∈ b, c = ' '.toUInt8 ∨ c = '\n'.toUInt8 ∨ c = '\t'.toUInt8 else b = []

theorem layout_nil (fmt : Bool) : Layout fmt [] := by
  cases fmt <;> simp [Layout]

theorem layout_append (fmt : Bool) (b b' : List UInt8) (hb : Layout fmt b) (hb' : Layout fmt b') :
    Layout fmt (b ++ b') := by
  cases fmt with
  | false => exact List.append_eq_nil_iff.mpr ⟨hb, hb'⟩
  | true =>
    intro c hc
    rcases List.mem_append.mp hc with hc | hc
    · exact hb c hc
    · exact hb' c hc

theorem Layout.skipped (h : Layout fmt b) : Skipped b := by
  cases fmt with
  | false =>
    obtain rfl : b = [] := h
    simp [Skipped]
  | true =>
    intro c hc
    rcases h c hc with rfl | rfl | rfl <;> decide

theorem layout_tabs (n : Nat) : Layout true (tabs n) := by
  intro c hc
  exact .inr (.inr (List.eq_of_mem_replicate hc))

end Layout

section Spelled

variable {fmt : Bool}

theorem spells_token (k : Token) : Spells (Layout fmt) [k] k.text := by
  have h := Spells.cons k (layout_nil fmt) (.nil (layout_nil fmt))
  simpa using h

theorem Layout.spells {b : List UInt8} (hb : Layout fmt b) (h : Spells (Layout fmt) ks t) :
    Spells (Layout fmt) ks (b ++ t) := h.blank_append (layout_append fmt) hb

theorem spells_append (h : Spells (Layout fmt) ks t) (h' : Spells (Layout fmt) ks' t') :
    Spells (Layout fmt) (ks ++ ks') (t ++ t') := h.append (layout_append fmt) h'

theorem spells_cons (k : Token) (h : Spells (Layout fmt) ks t) :
    Spells (Layout fmt) (k :: ks) (k.text ++ t) :=
  spells_append (spells_token k) h

theorem spells_comma (h : Spells (Layout fmt) ks t) :
    Spells (Layout fmt) (.comma :: ks) (comma fmt ++ t) := by
  cases fmt with
  | false => exact spells_cons .comma h
  | true =>
    have hspace : Layout true [' '.toUInt8] := by simp [Layout]
    exact spells_cons .comma (hspace.spells h)

theorem layout_newline : Layout true ['\n'.toUInt8] := by simp [Layout]

theorem spells_memberComma (h : Spells (Layout fmt) ks t) :
    Spells (Layout fmt) (.comma :: ks) (memberComma fmt ++ t) := by
  cases fmt with
  | false => exact spells_cons .comma h
  | true => exact spells_cons .comma (layout_newline.spells h)

theorem spells_memberText (depth : Nat) {str : Text} (hstr : 0 ∉ str)
    (h : Spells (Layout fmt) ks t) :
    Spells (Layout fmt) (.str (str.map pieceOf) :: .colon :: ks)
      (memberText depth fmt ((stringText str).2, t)) := by
  rw [stringText_quoted hstr]
  cases fmt with
  | false =>
    have hspell := spells_cons (.str (str.map pieceOf)) (spells_cons .colon h)
    simpa [memberText, Token.text, text] using hspell
  | true =>
    have htab : Layout true ['\t'.toUInt8] := by simp [Layout]
    have hspell := (layout_tabs depth).spells
      (spells_cons (.str (str.map pieceOf)) (spells_cons .colon (htab.spells h)))
    simpa [memberText, Token.text, text] using hspell

theorem spells_object {ms : List Token} {t : Text} (depth : Nat) (h : Spells (Layout fmt) ms t) :
    Spells (Layout fmt) (.openObj :: (ms ++ [.closeObj]))
      ((if fmt then text "\x7b\n" else text "\x7b") ++ t ++ (if fmt then tabs depth else []) ++
        text "\x7d") := by
  cases fmt with
  | false =>
    have hspell := spells_cons .openObj (spells_append h (spells_token .closeObj))
    simpa [Token.text, text] using hspell
  | true =>
    have hspell := spells_cons .openObj (layout_newline.spells
      (spells_append h ((layout_tabs depth).spells (spells_token .closeObj))))
    simpa [Token.text, text] using hspell

def reread (x : Int × D) : Int × D :=
  match parseNumber newItem (numberText x.1 x.2).2 with
  | .ok (item, _) => (item.valueint, item.valuedouble)
  | .error _ => x

theorem numberEnds_nil : NumberEnds [] := by
  unfold NumberEnds
  decide

theorem reread_eq {valueint : Int} {d : D} {n : Number} (h : (numberText valueint d).2 = n.text)
    (hsmall : SmallExponent n) : reread (valueint, d) = readNumber n := by
  have hparse := parseNumber_text (newItem : Item D) n hsmall numberEnds_nil
  rw [List.append_nil] at hparse
  unfold reread
  rw [h, hparse]
  rfl

end Spelled

section Printed

theorem smallExponents_append (h : SmallExponents ks) (h' : SmallExponents ks') :
    SmallExponents (ks ++ ks') := by
  intro n hn
  rcases List.mem_append.mp hn with hn | hn
  · exact h n hn
  · exact h' n hn

theorem smallExponents_cons {k : Token} (hk : ∀ n, k ≠ .num n) (h : SmallExponents ks) :
    SmallExponents (k :: ks) := by
  intro n hn
  rcases List.mem_cons.mp hn with hn | hn
  · exact absurd hn.symm (hk n)
  · exact h n hn

theorem smallExponents_nil : SmallExponents [] := fun _ hn => absurd hn List.not_mem_nil

mutual

theorem printed_spells (item : Item D) (h : Printable item) :
    ∃ v : Syntax, (∀ depth fmt, Spells (Layout fmt) v.tokens (printed item depth fmt)) ∧
      v.map readNumber readString = (view item).map reread id ∧ SmallExponents v.tokens := by
  obtain ⟨child, type, valuestring, valueint, valuedouble, string⟩ := item
  cases type with
  | null =>
    exact ⟨.null, fun _ _ => spells_token .null, rfl, by simp [SmallExponents, Value.tokens]⟩
  | false =>
    exact ⟨.bool false, fun _ _ => spells_token _, rfl, by simp [SmallExponents, Value.tokens]⟩
  | true =>
    exact ⟨.bool true, fun _ _ => spells_token _, rfl, by simp [SmallExponents, Value.tokens]⟩
  | number =>
    obtain ⟨n, heq, -, hsmall⟩ := h
    refine ⟨.num n, fun _ _ => ?_, ?_, by simpa [SmallExponents, Value.tokens]⟩
    · rw [printed, heq]
      exact spells_token (.num n)
    · simp only [view, Value.map, reread_eq heq hsmall]
  | string =>
    obtain ⟨str, rfl, h0⟩ := h
    refine ⟨.str (str.map pieceOf), fun _ _ => ?_, ?_, by simp [SmallExponents, Value.tokens]⟩
    · rw [printed, Option.getD_some, stringText_quoted h0]
      exact spells_token (.str _)
    · simp only [view, Value.map, readString, cString_pieceOf h0, id_eq]
  | array =>
    obtain ⟨vs, hspells, hview, hsmall⟩ := printedElements_spells child h
    refine ⟨.arr vs, fun depth fmt => ?_, ?_, ?_⟩
    · rw [printed, Value.tokens]
      exact spells_cons .openArr (spells_append (hspells (depth + 1) fmt) (spells_token .closeArr))
    · simp only [view, Value.map, hview]
    · rw [Value.tokens]
      exact smallExponents_cons (by simp) (smallExponents_append hsmall
        (smallExponents_cons (by simp) smallExponents_nil))
  | object =>
    obtain ⟨ms, hspells, hview, hsmall⟩ := printedObject_spells child h
    refine ⟨.obj ms, fun depth fmt => ?_, ?_, ?_⟩
    · rw [Value.tokens, printed]
      split
      · rename_i hempty
        rw [List.isEmpty_iff] at hempty
        subst hempty
        have hspell := hspells depth fmt
        rw [printedMembers, joinMembers] at hspell
        have hobject := spells_object (depth - 1) hspell
        rw [List.append_nil] at hobject
        rw [emptyObject]
        cases fmt <;> simpa [text] using hobject
      · exact spells_object depth (hspells (depth + 1) fmt)
    · simp only [view, Value.map, hview]
    · rw [Value.tokens]
      exact smallExponents_cons (by simp) (smallExponents_append hsmall
        (smallExponents_cons (by simp) smallExponents_nil))

theorem printedElements_spells (child : List (Item D))
    (h : WellFormedElements PrintableNumber child) :
    ∃ vs : List Syntax, (∀ depth fmt, Spells (Layout fmt) (elements vs)
        (joinEntries fmt (printedEntries child depth fmt))) ∧
      mapElements readNumber readString vs = mapElements reread id (viewElements child) ∧
      SmallExponents (elements vs) := by
  match child with
  | [] => exact ⟨[], fun _ fmt => .nil (layout_nil fmt), rfl, smallExponents_nil⟩
  | c :: child =>
    obtain ⟨v, hspell, hview, hsmall⟩ := printed_spells c h.1
    obtain ⟨vs, hspells, hviews, hsmalls⟩ := printedEntries_spells child h.2
    refine ⟨v :: vs, fun depth fmt => ?_, ?_, ?_⟩
    · rw [printedEntries, joinEntries_cons, elements]
      exact spells_append (hspell depth fmt) (hspells depth fmt)
    · rw [mapElements, hview, hviews, viewElements, mapElements]
    · exact smallExponents_append hsmall hsmalls

theorem printedEntries_spells (child : List (Item D))
    (h : WellFormedElements PrintableNumber child) :
    ∃ vs : List Syntax, (∀ depth fmt, Spells (Layout fmt) (moreElements vs)
        ((printedEntries child depth fmt).flatMap fun e => comma fmt ++ e)) ∧
      mapElements readNumber readString vs = mapElements reread id (viewElements child) ∧
      SmallExponents (moreElements vs) := by
  match child with
  | [] => exact ⟨[], fun _ fmt => .nil (layout_nil fmt), rfl, smallExponents_nil⟩
  | c :: child =>
    obtain ⟨v, hspell, hview, hsmall⟩ := printed_spells c h.1
    obtain ⟨vs, hspells, hviews, hsmalls⟩ := printedEntries_spells child h.2
    refine ⟨v :: vs, fun depth fmt => ?_, ?_, ?_⟩
    · rw [printedEntries, List.flatMap_cons, moreElements, List.append_assoc]
      exact spells_comma (spells_append (hspell depth fmt) (hspells depth fmt))
    · rw [mapElements, hview, hviews, viewElements, mapElements]
    · exact smallExponents_cons (by simp) (smallExponents_append hsmall hsmalls)

theorem printedObject_spells (child : List (Item D)) (h : WellFormedMembers PrintableNumber child) :
    ∃ ms : List (List Piece × Syntax), (∀ depth fmt, Spells (Layout fmt) (members ms)
        (joinMembers depth fmt (printedMembers child depth fmt))) ∧
      mapMembers readNumber readString ms = mapMembers reread id (viewMembers child) ∧
      SmallExponents (members ms) := by
  match child with
  | [] => exact ⟨[], fun _ fmt => .nil (layout_nil fmt), rfl, smallExponents_nil⟩
  | c :: child =>
    obtain ⟨str, hstr, h0⟩ := h.1
    obtain ⟨v, hspell, hview, hsmall⟩ := printed_spells c h.2.1
    obtain ⟨ms, hspells, hviews, hsmalls⟩ := printedMembers_spells child h.2.2
    refine ⟨(str.map pieceOf, v) :: ms, fun depth fmt => ?_, ?_, ?_⟩
    · rw [printedMembers, joinMembers_cons, members, hstr, Option.getD_some]
      have hnewline : Spells (Layout fmt) [] (if fmt then text "\n" else []) := by
        cases fmt with
        | false => exact .nil (layout_nil false)
        | true => exact .nil layout_newline
      have hrest := spells_append (spells_memberText depth h0 (hspell depth fmt))
        (spells_append (hspells depth fmt) hnewline)
      simpa using hrest
    · rw [mapMembers, hview, hviews, viewMembers, mapMembers, hstr]
      simp [readString, cString_pieceOf h0]
    · exact smallExponents_cons (by simp)
        (smallExponents_cons (by simp) (smallExponents_append hsmall hsmalls))

theorem printedMembers_spells (child : List (Item D))
    (h : WellFormedMembers PrintableNumber child) :
    ∃ ms : List (List Piece × Syntax), (∀ depth fmt, Spells (Layout fmt) (moreMembers ms)
        ((printedMembers child depth fmt).flatMap fun m => memberComma fmt ++
          memberText depth fmt m)) ∧
      mapMembers readNumber readString ms = mapMembers reread id (viewMembers child) ∧
      SmallExponents (moreMembers ms) := by
  match child with
  | [] => exact ⟨[], fun _ fmt => .nil (layout_nil fmt), rfl, smallExponents_nil⟩
  | c :: child =>
    obtain ⟨str, hstr, h0⟩ := h.1
    obtain ⟨v, hspell, hview, hsmall⟩ := printed_spells c h.2.1
    obtain ⟨ms, hspells, hviews, hsmalls⟩ := printedMembers_spells child h.2.2
    refine ⟨(str.map pieceOf, v) :: ms, fun depth fmt => ?_, ?_, ?_⟩
    · rw [printedMembers, List.flatMap_cons, moreMembers, hstr, Option.getD_some]
      exact spells_append (spells_memberComma (spells_memberText depth h0 (hspell depth fmt)))
        (hspells depth fmt)
    · rw [mapMembers, hview, hviews, viewMembers, mapMembers, hstr]
      simp [readString, cString_pieceOf h0]
    · exact smallExponents_cons (by simp)
        (smallExponents_cons (by simp) (smallExponents_cons (by simp)
          (smallExponents_append hsmall hsmalls)))

end

/-- What is printed is parsed into the same value, where every number is what `parse_number` makes
of the number that has been printed. -/
theorem parse_print (item : Item D) (fmt : Bool) (h : Printable item)
    (hsize : 2 * (printed item 0 fmt).length + 8 ≤ intMax) :
    ∃ (t : Text) (item' : Item D), printValue item 0 fmt = .ok t ∧ parse t = .ok item' ∧
      view item' = (view item).map reread id := by
  obtain ⟨v, hspell, hview, hsmall⟩ := printed_spells item h
  obtain ⟨item', rest, hparse, hview', -⟩ := parseWithOpts_spells (D := D) v
    ((hspell 0 fmt).mono fun _ => Layout.skipped) hsmall (by omega) false
  refine ⟨printed item 0 fmt, item', printValue_eq item 0 fmt h hsize, ?_, hview'.trans hview⟩
  rw [parse, hparse]
  rfl

theorem parse_print_sample : ∃ (t : Text) (item' : Item Int), printValue sample 0 true = .ok t ∧
    parse t = .ok item' ∧ view item' = (view sample).map reread id :=
  parse_print sample true sample_printable (by decide)

end Printed

end Mangoxx.CJson
