import Mangoxx.Fcmd.Dispatch
import Mangoxx.Lib.Bits

namespace Mangoxx.Fcmd

open Mangoxx.Lib

abbrev Space := { s : List UInt8 // ∀ c ∈ s, isspace c = true }

structure Decl where
  chars : List UInt8
  plain : ∀ c ∈ chars, mark? c = none ∧ c ≠ 0
  noDots : ¬ text ".." <:+: chars
  notBlank : ∃ c ∈ chars, isspace c = false
  notVoid : ∀ before after : Space, chars ≠ before.val ++ text "void" ++ after.val

inductive ParamList where
  | blank (ws : Space)
  | void (before after : Space)
  | fixed (first : Decl) (rest : List Decl)
  | variadic (decls : List Decl) (before after : Space)

namespace ParamList

def items : ParamList → List (List UInt8)
  | blank ws => [ws.val]
  | void before after => [before.val ++ text "void" ++ after.val]
  | fixed first rest => (first :: rest).map Decl.chars
  | variadic decls before after => decls.map Decl.chars ++ [before.val ++ text "..." ++ after.val]

def chars (l : ParamList) : List UInt8 := [','.toUInt8].intercalate l.items

/-- The number of parameters, -2 for a variadic function. -/
def argsNum : ParamList → Int
  | blank _ => 0
  | void _ _ => 0
  | fixed _ rest => rest.length + 1
  | variadic _ _ _ => -2

def Takes (k : Nat) : ParamList → Prop
  | blank _ => k = 0
  | void _ _ => k = 0
  | fixed _ rest => k = rest.length + 1
  | variadic decls _ _ => decls.length ≤ k

def Variadic : ParamList → Prop
  | variadic _ _ _ => True
  | _ => False

/-- No white space but spaces in an empty list, no `void` without a `*` in a single declaration, and
one declaration in front of `...`. -/
def Counted : ParamList → Prop
  | blank ws => ∀ c ∈ ws.val, c = ' '.toUInt8
  | void _ _ => True
  | fixed first rest => rest = [] → text "void" <:+: first.chars → '*'.toUInt8 ∈ first.chars
  | variadic decls _ _ => decls.length = 1

end ParamList

structure Prototype extends Proto where
  list : ParamList
  params_eq : params = list.chars
  plain : ∀ c ∈ ret ++ name, mark? c = none
  few : list.items.length ≤ 18

section Infix

variable {a b p : List UInt8} {c : UInt8}

theorem infix_append_cons (h : c ∉ p) : p <:+: a ++ c :: b ↔ p <:+: a ∨ p <:+: b := by
  have hhead : ∀ t, t ⊆ p → t <+: c :: b → t = [] := by
    intro t ht hprefix
    cases t with
    | nil => rfl
    | cons d t =>
      obtain ⟨rfl, -⟩ := List.cons_prefix_cons.mp hprefix
      exact absurd (ht List.mem_cons_self) h
  rw [List.infix_append_iff, List.infix_cons_iff]
  constructor
  · rintro (hp | hp | ⟨s, t, rfl, hs, ht⟩)
    · exact .inl hp
    · refine .inr (hp.elim (fun hp => ?_) id)
      rw [hhead p (List.Subset.refl p) hp]
      exact List.nil_infix
    · rw [hhead t (List.subset_append_right s t) ht, List.append_nil]
      exact .inl hs.isInfix
  · rintro (hp | hp)
    · exact .inl hp
    · exact .inr (.inl (.inr hp))

theorem infix_append_singleton (h : c ∉ p) : p <:+: a ++ [c] ↔ p <:+: a := by
  rw [infix_append_cons h, List.infix_nil, or_iff_left_iff_imp]
  rintro rfl
  exact List.nil_infix

end Infix

section Separators

variable {m : Buf} {s keys : List UInt8} {items : List (List UInt8)}

theorem findIdx?_absent (h : c ∉ s) :
    s.findIdx? (keys ++ [c]).contains = s.findIdx? keys.contains := by
  induction s with
  | nil => rfl
  | cons d s ih =>
    obtain ⟨hd, hs⟩ := not_or.mp (mt List.mem_cons.mpr h)
    have hcontains : (keys ++ [c]).contains d = keys.contains d := by
      simp [Ne.symm hd]
    rw [List.findIdx?_cons, List.findIdx?_cons, hcontains, ih hs]

theorem strpbrk_noQuote (h : '"'.toUInt8 ∉ m) (p : Nat) :
    strpbrk m p key = strpbrk m p (text "(,)") := by
  have hkey : key = text "(,)" ++ ['"'.toUInt8] := rfl
  have hcstr : '"'.toUInt8 ∉ m.cstr p := fun hmem =>
    h (List.mem_of_mem_drop ((List.takeWhile_prefix _).subset hmem))
  rw [strpbrk, strpbrk, hkey, findIdx?_absent hcstr]

theorem findBrk_noQuote (h : '"'.toUInt8 ∉ m) (n : Nat) (pch : Option Nat) :
    findBrk m key n pch = findBrk m (text "(,)") n pch := by
  induction n generalizing pch with
  | zero => rfl
  | succ n ih =>
    cases pch with
    | none => rfl
    | some pch => rw [findBrk, findBrk, strpbrk_noQuote h, ih]

theorem mem_intercalate (h : c ∈ [d].intercalate items) : c = d ∨ ∃ item ∈ items, c ∈ item := by
  induction items with
  | nil => cases h
  | cons item items ih =>
    cases items with
    | nil =>
      rw [List.intercalate_singleton] at h
      exact .inr ⟨item, List.mem_cons_self, h⟩
    | cons next items =>
      rw [List.intercalate_cons_cons, List.mem_append, List.mem_append, List.mem_singleton] at h
      rcases h with (h | h) | h
      · exact .inr ⟨item, List.mem_cons_self, h⟩
      · exact .inl h
      · exact (ih h).imp_right fun ⟨i, hi, hc⟩ => ⟨i, List.mem_cons_of_mem _ hi, hc⟩

theorem seps_intercalate (h : ∀ item ∈ items, ∀ c ∈ item, mark? c = none) (hne : items ≠ []) :
    (seps p ([','.toUInt8].intercalate items)).length + 1 = items.length := by
  induction items generalizing p with
  | nil => exact absurd rfl hne
  | cons item items ih =>
    have hitem := seps_eq_nil (p := p) (h item List.mem_cons_self)
    cases items with
    | nil => simp [hitem]
    | cons next items =>
      have hcomma : mark? ','.toUInt8 = some .comma := rfl
      have hrest := ih (p := p + item.length + 1) (fun i hi => h i (List.mem_cons_of_mem _ hi))
        (List.cons_ne_nil _ _)
      rw [List.intercalate_cons_cons, List.append_assoc, seps_append, hitem, List.nil_append,
        List.singleton_append]
      simp only [seps, hcomma]
      rw [List.length_cons, hrest]
      rfl

end Separators

theorem isspace_unmarked (h : isspace c = true) :
    mark? c = none ∧ c ≠ 'v'.toUInt8 ∧ c ≠ '*'.toUInt8 := by
  revert h
  exact Bits.forall_byte (P := fun c => isspace c = true → mark? c = none ∧ c ≠ 'v'.toUInt8 ∧
    c ≠ '*'.toUInt8) (by decide +kernel) c

theorem Space.around_unmarked (before after : Space) {word : List UInt8}
    (h : ∀ c ∈ word, mark? c = none) : ∀ c ∈ before.val ++ word ++ after.val, mark? c = none := by
  intro c hc
  rw [List.mem_append, List.mem_append] at hc
  rcases hc with (hc | hc) | hc
  · exact (isspace_unmarked (before.property c hc)).1
  · exact h c hc
  · exact (isspace_unmarked (after.property c hc)).1

namespace ParamList

theorem items_ne_nil (l : ParamList) : l.items ≠ [] := by
  cases l <;> simp [items]

theorem items_unmarked (l : ParamList) : ∀ item ∈ l.items, ∀ c ∈ item, mark? c = none := by
  have hdecls : ∀ decls : List Decl, ∀ item ∈ decls.map Decl.chars, ∀ c ∈ item, mark? c = none := by
    intro decls item hitem c hc
    obtain ⟨d, -, rfl⟩ := List.mem_map.mp hitem
    exact (d.plain c hc).1
  intro item hitem
  cases l with
  | blank ws =>
    obtain rfl := List.mem_singleton.mp hitem
    exact fun c hc => (isspace_unmarked (ws.property c hc)).1
  | void before after =>
    obtain rfl := List.mem_singleton.mp hitem
    exact before.around_unmarked after (by decide +kernel)
  | fixed first rest => exact hdecls (first :: rest) item hitem
  | variadic decls before after =>
    rcases List.mem_append.mp hitem with hitem | hitem
    · exact hdecls decls item hitem
    · obtain rfl := List.mem_singleton.mp hitem
      exact before.around_unmarked after (by decide +kernel)

def found (l : ParamList) : Int :=
  if l.items.length = 1 then
    if text "void" <:+: l.chars then if '*'.toUInt8 ∈ l.chars then 1 else 0
    else if l.chars.all (· = ' '.toUInt8) then 0
    else 1
  else if l.items.length = 2 ∧ text ".." <:+: l.chars then -2
  else l.items.length

theorem found_one {l : ParamList} (h : l.items = [item]) :
    l.found = if text "void" <:+: item then if '*'.toUInt8 ∈ item then 1 else 0
      else if item.all (· = ' '.toUInt8) then 0 else 1 := by
  have hlen : l.items.length = 1 := congrArg List.length h
  rw [found, if_pos hlen, chars, h, List.intercalate_singleton]

theorem found_two {l : ParamList} (h : l.items = [item, last]) :
    l.found = if text ".." <:+: item ∨ text ".." <:+: last then -2 else 2 := by
  have hdots : text ".." <:+: l.chars ↔ text ".." <:+: item ∨ text ".." <:+: last := by
    rw [chars, h, List.intercalate_cons_cons, List.intercalate_singleton, List.append_assoc,
      List.singleton_append, infix_append_cons (by decide)]
  have hlen : l.items.length = 2 := congrArg List.length h
  rw [found, if_neg (by omega)]
  simp only [hdots, hlen, true_and]
  rfl

theorem found_many {l : ParamList} (h : 2 < l.items.length) : l.found = l.items.length := by
  rw [found, if_neg (by omega), if_neg (by omega)]

theorem found_blank {ws : Space} : (blank ws).found = 0 ↔ ∀ c ∈ ws.val, c = ' '.toUInt8 := by
  have hvoid : ¬ text "void" <:+: ws.val := fun h =>
    (isspace_unmarked (ws.property _ (h.subset (List.mem_cons_self ..)))).2.1 rfl
  have hall : ws.val.all (· = ' '.toUInt8) = true ↔ ∀ c ∈ ws.val, c = ' '.toUInt8 := by
    simp only [List.all_eq_true, decide_eq_true_eq]
  rw [found_one (l := blank ws) rfl, if_neg hvoid, ← hall, ite_eq_left_iff]
  simp

theorem found_void {before after : Space} : (void before after).found = 0 := by
  have hstar : '*'.toUInt8 ∉ before.val ++ text "void" ++ after.val := by
    rw [List.mem_append, List.mem_append]
    rintro ((h | h) | h)
    · exact (isspace_unmarked (before.property _ h)).2.2 rfl
    · revert h
      decide
    · exact (isspace_unmarked (after.property _ h)).2.2 rfl
  rw [found_one (l := void before after) rfl, if_pos (List.infix_append ..), if_neg hstar]

theorem found_fixed {first : Decl} {rest : List Decl} :
    (fixed first rest).found = rest.length + 1 ↔ (fixed first rest).Counted := by
  rcases rest with _ | ⟨next, _ | ⟨third, rest⟩⟩
  · obtain ⟨c, hc, hspace⟩ := first.notBlank
    have hblank : ¬ first.chars.all (· = ' '.toUInt8) = true := by
      rw [List.all_eq_true]
      intro h
      rw [of_decide_eq_true (h c hc)] at hspace
      cases hspace
    rw [found_one (l := fixed first []) rfl, if_neg hblank]
    by_cases hvoid : text "void" <:+: first.chars
    · by_cases hstar : '*'.toUInt8 ∈ first.chars <;> simp [Counted, hvoid, hstar]
    · simp [Counted, hvoid]
  · have hdots : ¬ (text ".." <:+: first.chars ∨ text ".." <:+: next.chars) :=
      not_or.mpr ⟨first.noDots, next.noDots⟩
    rw [found_two (l := fixed first [next]) rfl, if_neg hdots]
    simp [Counted]
  · have hlen : (fixed first (next :: third :: rest)).items.length = rest.length + 3 :=
      List.length_map ..
    rw [found_many (by omega), hlen]
    simp only [Counted, reduceCtorEq, false_implies, iff_true, List.length_cons]
    omega

theorem found_variadic {decls : List Decl} {before after : Space} :
    (variadic decls before after).found = -2 ↔ decls.length = 1 := by
  have hdots : text ".." <:+: before.val ++ text "..." ++ after.val := by
    refine List.IsInfix.trans ?_ (List.infix_append ..)
    decide
  rcases decls with _ | ⟨d, _ | ⟨d', decls⟩⟩
  · rw [found_one (l := variadic [] before after) rfl]
    split_ifs <;> simp
  · rw [found_two (l := variadic [d] before after) rfl, if_pos (.inr hdots)]
    simp
  · have hlen : (variadic (d :: d' :: decls) before after).items.length = decls.length + 3 := by
      simp [items]
    rw [found_many (by omega), hlen]
    simp
    omega

theorem found_iff (l : ParamList) : l.found = l.argsNum ↔ l.Counted := by
  cases l with
  | blank ws => exact found_blank
  | void before after => exact iff_of_true found_void trivial
  | fixed first rest => exact found_fixed
  | variadic decls before after => exact found_variadic

theorem argsNum_nonneg {l : ParamList} (h : ¬ l.Variadic) : 0 ≤ l.argsNum := by
  cases l with
  | blank => exact Int.le_refl 0
  | void => exact Int.le_refl 0
  | fixed first rest =>
    rw [argsNum]
    omega
  | variadic => exact absurd trivial h

theorem takes_iff {l : ParamList} (h : ¬ l.Variadic) : l.Takes k ↔ l.argsNum = k := by
  cases l with
  | variadic => exact absurd trivial h
  | _ =>
    simp only [Takes, argsNum]
    omega

end ParamList

namespace Prototype

variable (p : Prototype)

def paren : Nat := p.ret.length + 1 + p.name.length

theorem text_eq : p.text.val =
    (p.ret ++ p.gap :: p.name) ++ '('.toUInt8 :: (p.list.chars ++ [')'.toUInt8]) := by
  rw [List.append_assoc, List.cons_append, ← p.params_eq]
  rfl

theorem paren_eq : p.paren = (p.ret ++ p.gap :: p.name).length := by
  rw [paren, List.length_append, List.length_cons]
  omega

theorem head_unmarked : ∀ c ∈ p.ret ++ p.gap :: p.name, mark? c = none := by
  have hgap : mark? p.gap = none := by
    have h := p.gap_isGap
    rw [isGap, decide_eq_true_eq] at h
    rcases h with h | h | h <;> rw [h] <;> rfl
  intro c hc
  rw [List.mem_append, List.mem_cons] at hc
  rcases hc with hc | rfl | hc
  · exact p.plain c (List.mem_append_left _ hc)
  · exact hgap
  · exact p.plain c (List.mem_append_right _ hc)

theorem seps_text : ∃ S, seps 0 p.text.val =
      ⟨p.paren, .lpar⟩ :: (S ++ [⟨p.paren + 1 + p.list.chars.length, .rpar⟩]) ∧
    S.length + 1 = p.list.items.length := by
  have hlpar : mark? '('.toUInt8 = some .lpar := rfl
  have hrpar : mark? ')'.toUInt8 = some .rpar := rfl
  refine ⟨seps (p.paren + 1) p.list.chars, ?_,
    seps_intercalate p.list.items_unmarked p.list.items_ne_nil⟩
  rw [text_eq, seps_append, seps_eq_nil p.head_unmarked, List.nil_append, Nat.zero_add, ← paren_eq]
  simp only [seps, hlpar]
  rw [seps_append]
  simp only [seps, hrpar]

theorem noQuote : '"'.toUInt8 ∉ p.text.val := by
  have hquote : mark? '"'.toUInt8 ≠ none := by decide
  intro hmem
  rw [text_eq, List.mem_append, List.mem_cons, List.mem_append (s := p.list.chars),
    List.mem_singleton] at hmem
  rcases hmem with hhead | hopen | hchars | hclose
  · exact hquote (p.head_unmarked _ hhead)
  · cases hopen
  · rcases mem_intercalate hchars with hcomma | ⟨item, hitem, hc⟩
    · cases hcomma
    · exact hquote (p.list.items_unmarked item hitem _ hc)
  · cases hclose

theorem seps_room : (seps 0 p.text.val).length = p.list.items.length + 1 ∧
    p.list.items.length + 1 ≤ paramsNum * 2 := by
  obtain ⟨S, hseps, hlen⟩ := p.seps_text
  refine ⟨?_, Nat.succ_le_of_lt (Nat.lt_succ_of_le (p.few.trans (by decide)))⟩
  rw [hseps, List.length_cons, List.length_append, List.length_singleton, hlen]

theorem findBrk_text : findBrk p.text.val (text "(,)") (paramsNum * 2 + 1)
    (strpbrk p.text.val 0 (text "(,)")) = (seps 0 p.text.val).map (·.pos) := by
  obtain ⟨hcount, hroom⟩ := p.seps_room
  rw [← strpbrk_noQuote p.noQuote, ← findBrk_noQuote p.noQuote, findBrk_eq p.text.property,
    List.drop_zero, List.take_of_length_le]
  rw [hcount]
  exact hroom.trans (Nat.le_succ _)

theorem drop_paren : p.text.val.drop p.paren = '('.toUInt8 :: (p.list.chars ++ [')'.toUInt8]) ∧
    p.text.val.drop (p.paren + 1) = p.list.chars ++ [')'.toUInt8] := by
  have hopen : p.text.val.drop p.paren = '('.toUInt8 :: (p.list.chars ++ [')'.toUInt8]) := by
    rw [text_eq, paren_eq, List.drop_left]
  refine ⟨hopen, ?_⟩
  rw [← List.drop_drop, hopen]
  rfl

theorem getArgsNum_eq : getArgsNum p.text.val (text "(,)") = .ok p.list.found := by
  obtain ⟨S, hseps, hlen⟩ := p.seps_text
  obtain ⟨hcount, hroom⟩ := p.seps_room
  rw [← List.length_map (·.pos)] at hcount
  have hfirst : ((seps 0 p.text.val).map (·.pos)).getD 0 0 = p.paren := by
    rw [hseps]
    rfl
  obtain ⟨hopen, hbehind⟩ := p.drop_paren
  rw [getArgsNum]
  simp only [findBrk_text, hcount, hfirst, Buf.cstr_of_line p.text.property, hopen, hbehind, strstr]
  rw [if_neg (Nat.not_lt.mpr hroom), ParamList.found]
  by_cases hone : p.list.items.length = 1
  · have hlast : ((seps 0 p.text.val).map (·.pos)).getD 1 0 =
        p.paren + 1 + p.list.chars.length := by
      obtain rfl : S = [] := List.eq_nil_of_length_eq_zero (by omega)
      rw [hseps]
      rfl
    have hvoid : text "void" <:+: p.list.chars ++ [')'.toUInt8] ↔ text "void" <:+: p.list.chars :=
      infix_append_singleton (by decide)
    have hstar : '*'.toUInt8 ∈ p.list.chars ++ [')'.toUInt8] ↔ '*'.toUInt8 ∈ p.list.chars := by
      rw [List.mem_append, or_iff_left (by decide)]
    simp only [hlast, Nat.add_sub_cancel_left, List.take_left, decide_eq_true_eq, hvoid, hstar]
    rw [if_pos (by rw [hone]), if_pos hone]
    split_ifs <;> rfl
  · have hdots : text ".." <:+: '('.toUInt8 :: (p.list.chars ++ [')'.toUInt8]) ↔
        text ".." <:+: p.list.chars := by
      rw [← List.nil_append ('('.toUInt8 :: _), infix_append_cons (by decide),
        infix_append_singleton (by decide), List.infix_nil, or_iff_right (by decide)]
    have htwo : p.list.items.length + 1 = 3 ↔ p.list.items.length = 2 := by omega
    have hcast : ((p.list.items.length + 1 : Nat) : Int) - 1 = p.list.items.length := by omega
    simp only [decide_eq_true_eq, hdots, htwo, hcast]
    rw [if_neg (by omega), if_neg hone]
    split_ifs <;> rfl

theorem accepts_iff : Accepts p.toProto k ↔ p.list.found = -2 ∨ p.list.found = k := by
  rw [Accepts, getArgsNum_eq]
  simp

/-- The prototypes whose parameters are counted right, and those whose calls are checked right. -/
theorem args_num_iff :
    (getArgsNum p.text.val (text "(,)") = .ok p.list.argsNum ↔ p.list.Counted) ∧
    ((getArgsNum p.text.val (text "(,)") = .ok p.list.argsNum ∧
      ∀ k, Accepts p.toProto k ↔ p.list.Takes k) ↔ p.list.Counted ∧ ¬ p.list.Variadic) := by
  have hcount : getArgsNum p.text.val (text "(,)") = .ok p.list.argsNum ↔ p.list.Counted := by
    rw [getArgsNum_eq, Except.ok.injEq, ParamList.found_iff]
  refine ⟨hcount, ?_⟩
  rw [hcount]
  refine and_congr_right fun hcounted => ?_
  have hfound := (ParamList.found_iff p.list).mpr hcounted
  constructor
  · intro haccept hvariadic
    -- without arguments the call of a variadic function is accepted as well
    cases hl : p.list with
    | variadic decls before after =>
      rw [hl] at hfound hcounted haccept
      have htakes := (haccept 0).mp (p.accepts_iff.mpr (.inl (hl ▸ hfound)))
      have hone : decls.length = 1 := hcounted
      have hnone : decls.length ≤ 0 := htakes
      omega
    | _ =>
      rw [hl] at hvariadic
      exact hvariadic
  · intro hfixed k
    have hnonneg := ParamList.argsNum_nonneg hfixed
    rw [accepts_iff, hfound, ParamList.takes_iff hfixed, or_iff_right (by omega)]

end Prototype

def Decl.ofText (s : String) (hplain : ∀ c ∈ text s, mark? c = none ∧ c ≠ 0)
    (hdots : ¬ text ".." <:+: text s)
    (hletter : ∃ c ∈ text s, isspace c = false ∧ c ∉ text "void") : Decl where
  chars := text s
  plain := hplain
  noDots := hdots
  notBlank := hletter.imp fun _ h => ⟨h.1, h.2.1⟩
  notVoid := by
    intro before after heq
    obtain ⟨c, hc, hspace, hvoid⟩ := hletter
    rw [heq, List.mem_append, List.mem_append] at hc
    rcases hc with (hc | hc) | hc
    · exact Bool.false_ne_true (hspace.symm.trans (before.property c hc))
    · exact hvoid hc
    · exact Bool.false_ne_true (hspace.symm.trans (after.property c hc))

def intFunction (list : ParamList) (noNul : 0 ∉ text "int" ++ text "f" ++ list.chars)
    (few : list.items.length ≤ 18) : Prototype where
  ret := text "int"
  gap := ' '.toUInt8
  name := text "f"
  params := list.chars
  gap_isGap := by decide
  name_ne_nil := by decide
  name_word := by decide +kernel
  noOpen := by decide
  noNul := noNul
  list := list
  params_eq := rfl
  plain := by decide +kernel
  few := few

def avoidProto : Prototype :=
  intFunction (.fixed (.ofText "int avoid" (by decide +kernel) (by decide) (by decide)) [])
    (by decide +kernel) (by decide)

def twoDotsProto : Prototype :=
  intFunction (.variadic [.ofText "int a" (by decide +kernel) (by decide) (by decide),
      .ofText " int b" (by decide +kernel) (by decide) (by decide)]
    ⟨text " ", by decide +kernel⟩ ⟨[], by decide +kernel⟩)
    (by decide +kernel) (by decide)

/-- The `void` in a name is taken for an empty list, and the dots are only looked for behind one
parameter. -/
theorem avoid_not_counted :
    getArgsNum avoidProto.text.val (text "(,)") = .ok 0 ∧ avoidProto.list.argsNum = 1 ∧
      getArgsNum twoDotsProto.text.val (text "(,)") = .ok 3 ∧ twoDotsProto.list.argsNum = -2 ∧
      ¬ ∀ p : Prototype, getArgsNum p.text.val (text "(,)") = .ok p.list.argsNum := by
  have havoid : getArgsNum avoidProto.text.val (text "(,)") = .ok 0 := by decide +kernel
  refine ⟨havoid, rfl, by decide +kernel, rfl, fun h => ?_⟩
  have hone := havoid.symm.trans (h avoidProto)
  cases hone

end Mangoxx.Fcmd
