import Mangoxx.Fcmd.Seps

namespace Mangoxx.Fcmd

open Mangoxx.Lib

/-- The place of an argument; a string has a closing quote, or the line ends before it does. -/
inductive Item
  | int (p : Nat)
  | str (p : Nat) (close : Option Nat)

def Item.arg (line : Buf) : Item → Arg
  | .int p => .int (strtol (line.cstr p))
  | .str p _ => .str p

def Item.closing : Item → Option Nat
  | .int _ => none
  | .str _ close => close

def Item.close (m : Buf) (item : Item) : Buf :=
  match item.closing with
  | some q => m.set q 0
  | none => m

/-- The closing quote of a string and the separators behind it.  A quote closes the string if only
blanks stand between it and a comma, or if at most one separator is left.  After a quote and a comma
that do not close the string the search goes on at the next quote (`inside` is `false` up to it);
a separator behind a quote that is no comma is passed over. -/
def stringEnd (line : Buf) : (inside : Bool) → List Sep → Option (Nat × List Sep)
  | _, [] => none
  | false, s :: r => stringEnd line (s.mark = .quote) r
  | true, s :: r =>
    if s.mark ≠ .quote then stringEnd line true r
    else if r.length ≤ 1 then some (s.pos, r)
    else
      match r with
      | [] => none
      | c :: r' =>
        if c.mark = .comma then
          if spanIsspace line (s.pos + 1) c.pos then some (s.pos, r) else stringEnd line false r'
        else stringEnd line true r'

def IsInt (first : Bool) (a b : Sep) : Prop :=
  if first then b.mark = .comma else a.mark = .comma ∧ (b.mark = .comma ∨ b.mark = .rpar)

def IsStr (first : Bool) (a b : Sep) : Prop := (first ∨ a.mark = .comma) ∧ b.mark = .quote

inductive Outcome
  | closed | stuck | overrun
  deriving DecidableEq

/-- Reading the separators gives the arguments, up to the end of the line, to a separator that is
out of place, or to a string that is not closed. -/
inductive Reading (line : Buf) : (first : Bool) → List Sep → List Item → Outcome → Prop
  | closed : r.length ≤ 1 → Reading line first r [] .closed
  | stuck : ¬ IsInt first a b → ¬ IsStr first a b → Reading line first (a :: b :: r) [] .stuck
  | overrun : IsStr first a b → stringEnd line true r = none →
      Reading line first (a :: b :: r) [.str (b.pos + 1) none] .overrun
  | int : IsInt first a b → Reading line false (b :: r) items e →
      Reading line first (a :: b :: r) (.int (a.pos + 1) :: items) e
  | str : IsStr first a b → stringEnd line true r = some (q, r') →
      Reading line false r' items e →
      Reading line first (a :: b :: r) (.str (b.pos + 1) (some q) :: items) e

theorem stringEnd_split {line : Buf} {inside : Bool} {r r' : List Sep} {q : Nat}
    (h : stringEnd line inside r = some (q, r')) : ∃ pre, r = pre ++ ⟨q, .quote⟩ :: r' := by
  have hcons : ∀ (s : Sep) {r : List Sep}, (∃ pre, r = pre ++ ⟨q, .quote⟩ :: r') →
      ∃ pre, s :: r = pre ++ ⟨q, .quote⟩ :: r' := by
    rintro s r ⟨pre, rfl⟩
    exact ⟨s :: pre, rfl⟩
  have hquote : ∀ (s : Sep), ¬ s.mark ≠ .quote → s = ⟨s.pos, .quote⟩ := by
    intro s hs
    rw [← not_not.mp hs]
  fun_induction stringEnd line inside r with
  | case1 => cases h
  | case2 s r ih => exact hcons s (ih h)
  | case3 s r hne ih => exact hcons s (ih h)
  | case4 s r hne hlen =>
    cases h
    exact ⟨[], congrArg (· :: _) (hquote s hne)⟩
  | case5 => cases h
  | case6 s hne c r' hlen hc hspan =>
    cases h
    exact ⟨[], congrArg (· :: _) (hquote s hne)⟩
  | case7 s hne c r hlen hc hspan ih => exact hcons s (hcons c (ih h))
  | case8 s hne c r hlen hc ih => exact hcons s (hcons c (ih h))

theorem stringEnd_length {line : Buf} {r r' : List Sep} {q : Nat}
    (h : stringEnd line true r = some (q, r')) : r'.length < r.length := by
  obtain ⟨pre, rfl⟩ := stringEnd_split h
  simp only [List.length_append, List.length_cons]
  omega

theorem Reading.total (line : Buf) (first : Bool) (r : List Sep) :
    ∃ items e, Reading line first r items e := by
  induction hn : r.length using Nat.strong_induction_on generalizing first r with
  | h n ih =>
    match r, hn with
    | [], _ => exact ⟨[], .closed, .closed (Nat.zero_le _)⟩
    | [_], _ => exact ⟨[], .closed, .closed (Nat.le_refl _)⟩
    | a :: b :: r, hn =>
      simp only [List.length_cons] at hn
      by_cases hint : IsInt first a b
      · obtain ⟨items, e, h⟩ := ih (r.length + 1) (by omega) false (b :: r) rfl
        exact ⟨_, e, .int hint h⟩
      · by_cases hstr : IsStr first a b
        · cases hend : stringEnd line true r with
          | none => exact ⟨_, _, .overrun hstr hend⟩
          | some qr =>
            obtain ⟨q, r'⟩ := qr
            have hlen := stringEnd_length hend
            obtain ⟨items, e, h⟩ := ih r'.length (by omega) false r' rfl
            exact ⟨_, e, .str hstr hend h⟩
        · exact ⟨[], .stuck, .stuck hint hstr⟩

theorem IsInt.not_isStr (h : IsInt first a b) : ¬ IsStr first a b := by
  rintro ⟨-, hb⟩
  cases first with
  | true => simp [IsInt, hb] at h
  | false => simp [IsInt, hb] at h

theorem Reading.unique {line : Buf} (h : Reading line first r items e)
    (h' : Reading line first r items' e') : items = items' ∧ e = e' := by
  induction h generalizing items' e' with
  | closed hr =>
    cases h' with
    | closed => exact ⟨rfl, rfl⟩
    | stuck | overrun | int | str => simp at hr
  | stuck hint hstr =>
    cases h' with
    | closed hr => simp at hr
    | stuck => exact ⟨rfl, rfl⟩
    | overrun hstr' => exact absurd hstr' hstr
    | int hint' => exact absurd hint' hint
    | str hstr' => exact absurd hstr' hstr
  | overrun hstr hend =>
    cases h' with
    | closed hr => simp at hr
    | stuck _ hstr' => exact absurd hstr hstr'
    | overrun => exact ⟨rfl, rfl⟩
    | int hint' => exact absurd hstr hint'.not_isStr
    | str _ hend' =>
      rw [hend] at hend'
      cases hend'
  | int hint _ ih =>
    cases h' with
    | closed hr => simp at hr
    | stuck hint' => exact absurd hint hint'
    | overrun hstr' => exact absurd hstr' hint.not_isStr
    | int _ hrest =>
      obtain ⟨rfl, rfl⟩ := ih hrest
      exact ⟨rfl, rfl⟩
    | str hstr' => exact absurd hstr' hint.not_isStr
  | str hstr hend _ ih =>
    cases h' with
    | closed hr => simp at hr
    | stuck _ hstr' => exact absurd hstr hstr'
    | overrun _ hend' =>
      rw [hend] at hend'
      cases hend'
    | int hint' => exact absurd hstr hint'.not_isStr
    | str _ hend' hrest =>
      rw [hend] at hend'
      cases hend'
      obtain ⟨rfl, rfl⟩ := ih hrest
      exact ⟨rfl, rfl⟩

end Mangoxx.Fcmd
