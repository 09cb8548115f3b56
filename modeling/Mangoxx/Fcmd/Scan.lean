import Mangoxx.Fcmd.Reading

namespace Mangoxx.Fcmd

open Mangoxx.Lib

namespace Buf

variable {m m' : Buf}

theorem drop_eq_of_le (h : m.drop p = m'.drop p) (hpq : p ≤ q) : m.drop q = m'.drop q := by
  have hq : q = p + (q - p) := by omega
  rw [hq, ← List.drop_drop, h, List.drop_drop]

theorem peek_of_drop (h : m.drop p = m'.drop p) (hpq : p ≤ q) : m.peek q = m'.peek q := by
  have hdrop := drop_eq_of_le h hpq
  have hget : ∀ m : Buf, m.peek q = (m.drop q).getD 0 0 := by
    intro m
    simp [peek, List.getD_eq_getElem?_getD]
  rw [hget, hget, hdrop]

end Buf

def Kept (line m : Buf) (r : List Sep) : Prop :=
  ∀ s ∈ r, m.peek s.pos = s.mark.byte ∧ m.drop (s.pos + 1) = line.drop (s.pos + 1)

theorem Kept.later {S : List Sep} {line m : Buf} (h : Kept line m (S.drop i)) (hij : i ≤ j) :
    Kept line m (S.drop j) := by
  have hj : j = i + (j - i) := by omega
  rw [hj, ← List.drop_drop]
  exact fun s hs => h s (List.mem_of_mem_drop hs)

section SeekQuote

variable {S r : List Sep} {line m : Buf}

theorem seekQuote_spec (hr : S.drop i = r) (hm : Kept line m r) :
    (∃ j s, seekQuote m (r.map (·.pos)) i = .ok j ∧ i ≤ j ∧ S.drop j = s :: S.drop (j + 1) ∧
        s.mark = .quote ∧ r.dropWhile (·.mark ≠ .quote) = s :: S.drop (j + 1)) ∨
      ((∃ j, seekQuote m (r.map (·.pos)) i = .error (.pbrk j)) ∧
        r.dropWhile (·.mark ≠ .quote) = []) := by
  induction r generalizing i with
  | nil => exact .inr ⟨⟨i, rfl⟩, rfl⟩
  | cons s r ih =>
    have hs : m.peek s.pos = s.mark.byte := (hm s (by simp)).1
    have hnext : S.drop (i + 1) = r := by rw [← List.drop_drop, hr]; rfl
    by_cases hq : s.mark = .quote
    · refine .inl ⟨i, s, ?_, Nat.le_refl i, hnext ▸ hr, hq, ?_⟩
      · rw [List.map_cons, seekQuote, hs, if_pos (Mark.byte_eq_quote.mpr hq)]
      · rw [List.dropWhile_cons_of_neg (by simpa using hq), hnext]
    · rw [List.map_cons, seekQuote, hs, if_neg (mt Mark.byte_eq_quote.mp hq),
        List.dropWhile_cons_of_pos (by simpa using hq)]
      rcases ih hnext fun s' hs' => hm s' (by simp [hs']) with ⟨j, s', hok, hle, hrest⟩ | herr
      · exact .inl ⟨j, s', hok, by omega, hrest⟩
      · exact .inr herr

end SeekQuote

section StringEnd

variable {line : Buf}

def afterQuote (line : Buf) (s : Sep) (r : List Sep) : Option (Nat × List Sep) :=
  if r.length ≤ 1 then some (s.pos, r)
  else
    match r with
    | [] => none
    | c :: r' =>
      if c.mark = .comma then
        if spanIsspace line (s.pos + 1) c.pos then some (s.pos, r) else stringEnd line false r'
      else stringEnd line true r'

theorem stringEnd_true (r : List Sep) :
    stringEnd line true r =
      match r.dropWhile (·.mark ≠ .quote) with
      | [] => none
      | s :: r' => afterQuote line s r' := by
  induction r with
  | nil => rfl
  | cons s r ih =>
    by_cases hq : s.mark = .quote
    · have hclose : ¬ s.mark ≠ .quote := not_not.mpr hq
      rw [List.dropWhile_cons_of_neg (by simpa using hq), stringEnd.eq_def]
      cases r with
      | nil => exact if_neg hclose
      | cons c r => exact if_neg hclose
    · rw [List.dropWhile_cons_of_pos (by simpa using hq), stringEnd.eq_def]
      simp only [hq, ne_eq, not_false_eq_true, if_true, ih]

theorem stringEnd_false (r : List Sep) :
    stringEnd line false r =
      match r.dropWhile (·.mark ≠ .quote) with
      | [] => none
      | _ :: r' => stringEnd line true r' := by
  induction r with
  | nil => rfl
  | cons s r ih =>
    by_cases hq : s.mark = .quote
    · rw [List.dropWhile_cons_of_neg (by simpa using hq), stringEnd.eq_def]
      simp only [hq, decide_true]
    · rw [List.dropWhile_cons_of_pos (by simpa using hq), stringEnd.eq_def]
      simp only [hq, decide_false, ih]

end StringEnd

def StringResult (S : List Sep) (m : Buf) (res : Except Fault (Nat × Buf)) :
    Option (Nat × List Sep) → Prop
  | none => ∃ j, res = .error (.pbrk j)
  | some (q, r) => ∃ i, res = .ok (i, m.set q 0) ∧ S.drop i = r

theorem drop_eq_cons {S : List Sep} (h : S.drop i = s :: r) :
    i < S.length ∧ S.drop (i + 1) = r ∧ S[i]? = some s := by
  have hlt : i < S.length := by
    by_contra hge
    rw [List.drop_eq_nil_of_le (by omega)] at h
    cases h
  rw [List.drop_eq_getElem_cons hlt] at h
  obtain ⟨rfl, hr⟩ := List.cons.inj h
  exact ⟨hlt, hr, List.getElem?_eq_getElem hlt⟩

theorem stringLoop_spec {S : List Sep} {line m : Buf} {turns i : Nat} (hi : i < S.length)
    (hturns : S.length ≤ turns + i) (hm : Kept line m (S.drop (i + 1))) :
    StringResult S m (stringLoop (S.map (·.pos)) m turns i)
      (stringEnd line true (S.drop (i + 1))) := by
  induction turns generalizing i with
  | zero => omega
  | succ turns ih =>
    rw [stringEnd_true, stringLoop, ← List.map_drop]
    rcases seekQuote_spec rfl hm with ⟨j, s, hok, hle, hj, hq, hdrop⟩ | ⟨⟨j, herr⟩, hdrop⟩
    · obtain ⟨hjlt, -, hsj⟩ := drop_eq_cons hj
      have hpos : (S.map (·.pos)).getD (j + 1 - 1) 0 = s.pos := pos_getD hsj
      rw [hok, hdrop]
      simp only [bind, Except.bind, hpos, afterQuote, List.length_map, List.length_drop]
      by_cases hend : S.length - (j + 1) ≤ 1
      · rw [if_pos hend, if_pos (by omega)]
        exact ⟨j + 1, rfl, rfl⟩
      · rw [if_neg hend, if_neg (by omega)]
        cases hc : S.drop (j + 1) with
        | nil => simp at hc; omega
        | cons c r' =>
          obtain ⟨hclt, hr', hcj⟩ := drop_eq_cons hc
          have hkept : Kept line m (S.drop (j + 1 + 1)) := hm.later (by omega)
          have hnext : Kept line m (S.drop (j + 1)) := hm.later (by omega)
          have hcm : m.peek c.pos = c.mark.byte := (hnext c (by simp [hc])).1
          have hspan : spanIsspace m (s.pos + 1) c.pos = spanIsspace line (s.pos + 1) c.pos := by
            rw [spanIsspace, spanIsspace, (hm.later hle s (by simp [hj])).2]
          simp only [pos_deref hcj, pos_getD hcj, hcm, hspan]
          by_cases hcomma : c.mark = .comma
          · rw [if_pos (Mark.byte_eq_comma.mpr hcomma), if_pos hcomma]
            by_cases hblank : spanIsspace line (s.pos + 1) c.pos = true
            · rw [if_pos hblank, if_pos hblank]
              exact ⟨j + 1, rfl, hc⟩
            · rw [if_neg hblank, if_neg hblank, stringEnd_false, ← List.map_drop]
              rcases seekQuote_spec hr' (hr' ▸ hkept) with
                ⟨k, s', hok', hle', hk, hq', hdrop'⟩ | ⟨⟨k, herr'⟩, hdrop'⟩
              · rw [hr', hok', hdrop']
                exact ih (drop_eq_cons hk).1 (by omega) (hkept.later (by omega))
              · rw [hr', herr', hdrop']
                exact ⟨k, rfl⟩
          · rw [if_neg (mt Mark.byte_eq_comma.mp hcomma), if_neg hcomma, ← hr']
            exact ih hclt (by omega) hkept
    · rw [herr, hdrop]
      exact ⟨j, rfl⟩

structure At (line : Line) (first : Bool) (r : List Sep) (s : Scan) : Prop where
  rest : line.brk.drop s.i = r
  first : first = decide (s.i = 0)
  state : s.state = .detect
  finding : s.finding = false
  str : ∀ a ∈ r.head?, s.str.drop a.pos = line.val.drop a.pos

namespace At

variable {line : Line} {first : Bool} {a b : Sep} {r : List Sep} {s : Scan}

theorem pos_le (h : At line first (a :: r) s) (hx : x ∈ a :: r) : a.pos ≤ x.pos := by
  have hsorted : (a :: r).Pairwise (·.pos < ·.pos) := h.rest ▸ line.brk_sorted.drop
  rcases List.mem_cons.mp hx with rfl | hx
  · exact Nat.le_refl _
  · exact Nat.le_of_lt (List.rel_of_pairwise_cons hsorted hx)

theorem kept (h : At line first (a :: r) s) : Kept line.val s.str (a :: r) := by
  intro x hx
  have hmem : x ∈ line.brk := List.mem_of_mem_drop (h.rest ▸ hx)
  have hle := h.pos_le hx
  refine ⟨?_, Buf.drop_eq_of_le (h.str a rfl) (Nat.le_succ_of_le hle)⟩
  rw [Buf.peek_of_drop (h.str a rfl) hle, Line.brk_peek hmem]

theorem here (h : At line first (a :: r) s) :
    line.places.getD s.i 0 = a.pos ∧ deref line.places s.str s.i = .ok a.mark.byte := by
  have hget := (drop_eq_cons h.rest).2.2
  have hpeek : s.str.peek a.pos = a.mark.byte := (h.kept a (by simp)).1
  exact ⟨pos_getD hget, by rw [Line.places, pos_deref hget, hpeek]⟩

theorem next (h : At line first (a :: b :: r) s) :
    line.places.getD (s.i + 1) 0 = b.pos ∧
      deref line.places s.str (s.i + 1) = .ok b.mark.byte := by
  have hget := (drop_eq_cons (drop_eq_cons h.rest).2.1).2.2
  have hpeek : s.str.peek b.pos = b.mark.byte := (h.kept b (by simp)).1
  exact ⟨pos_getD hget, by rw [Line.places, pos_deref hget, hpeek]⟩

theorem more (h : At line first (a :: b :: r) s) : s.i < line.places.length - 1 := by
  have hlt := (drop_eq_cons (drop_eq_cons h.rest).2.1).1
  rw [Line.places_length]
  omega

theorem goes_finding (h : At line first (a :: b :: r) s) :
    scanTurn line.places s = .again { s with finding := true } := by
  rw [scanTurn, h.finding, if_neg (by decide), if_pos h.more]

theorem detect_int (h : At line first (a :: b :: r) s) (hint : IsInt first a b) :
    detect line.places { s with finding := true } =
      .ok { s with finding := true, state := .int } := by
  simp only [detect, bind, Except.bind, h.here.2, h.next.2]
  cases first with
  | true =>
    have hi : s.i = 0 := of_decide_eq_true h.first.symm
    have hb : b.mark = .comma := hint
    rw [if_pos hi, hb]
    rfl
  | false =>
    have hi : s.i ≠ 0 := of_decide_eq_false h.first.symm
    have hab : a.mark = .comma ∧ (b.mark = .comma ∨ b.mark = .rpar) := hint
    rw [if_neg hi, if_pos (Mark.byte_eq_comma.mpr hab.1), if_pos]
    · rfl
    · simpa only [Mark.byte_eq_comma, Mark.byte_eq_rpar] using hab.2

theorem detect_string (h : At line first (a :: b :: r) s) (hstr : IsStr first a b) :
    detect line.places { s with finding := true } =
      .ok { s with finding := true, i := s.i + 1, state := .string } := by
  obtain ⟨ha, hb⟩ := hstr
  simp only [detect, bind, Except.bind, h.here.2, h.next.2]
  cases first with
  | true =>
    have hi : s.i = 0 := of_decide_eq_true h.first.symm
    rw [if_pos hi, hb]
    rfl
  | false =>
    have hi : s.i ≠ 0 := of_decide_eq_false h.first.symm
    have ha : a.mark = .comma := by simpa using ha
    rw [if_neg hi, if_pos (Mark.byte_eq_comma.mpr ha), hb]
    rfl

theorem detect_none (h : At line first (a :: b :: r) s) (hint : ¬ IsInt first a b)
    (hstr : ¬ IsStr first a b) :
    detect line.places { s with finding := true } = .ok { s with finding := true } := by
  simp only [detect, bind, Except.bind, h.here.2, h.next.2, Mark.byte_eq_comma,
    Mark.byte_eq_rpar, Mark.byte_eq_quote]
  cases first with
  | true =>
    have hi : s.i = 0 := of_decide_eq_true h.first.symm
    simp only [IsInt, IsStr, if_true, true_or, true_and] at hint hstr
    rw [if_pos hi, if_neg hstr, if_neg hint]
    rfl
  | false =>
    have hi : s.i ≠ 0 := of_decide_eq_false h.first.symm
    simp only [IsInt, IsStr, Bool.false_eq_true, if_false, false_or] at hint hstr
    rw [if_neg hi]
    by_cases ha : a.mark = .comma
    · rw [if_pos ha, if_neg fun hb => hint ⟨ha, hb⟩, if_neg fun hb => hstr ⟨ha, hb⟩]
      rfl
    · rw [if_neg ha]
      rfl

theorem turn_detect (h : At line first r s) :
    scanTurn line.places { s with finding := true } =
      goOn (detect line.places { s with finding := true }) := by
  simp only [scanTurn, if_true]
  rw [h.state]

theorem goes_int (h : At line first (a :: b :: r) s) (hint : IsInt first a b) :
    Loop.Goes (scanTurn line.places) s { s with finding := true, state := .int } := by
  refine .head h.goes_finding (.single ?_)
  rw [h.turn_detect, h.detect_int hint, goOn]

theorem goes_string (h : At line first (a :: b :: r) s) (hstr : IsStr first a b) :
    Loop.Goes (scanTurn line.places) s
      { s with finding := true, i := s.i + 1, state := .string } := by
  refine .head h.goes_finding (.single ?_)
  rw [h.turn_detect, h.detect_string hstr, goOn]

theorem forever (h : At line first (a :: b :: r) s) (hint : ¬ IsInt first a b)
    (hstr : ¬ IsStr first a b) : Loop.Forever (scanTurn line.places) s := by
  refine Loop.Forever.again h.goes_finding (Loop.forever_of_same ?_)
  rw [h.turn_detect, h.detect_none hint hstr, goOn]

theorem ends (h : At line first r s) (hr : r.length ≤ 1) :
    Loop.Ends (scanTurn line.places) s (.ok s) := by
  refine Loop.ends_stop ?_
  have hlen : line.brk.length - s.i ≤ 1 := by rw [← List.length_drop, h.rest]; exact hr
  rw [scanTurn, h.finding, if_neg (by decide), if_neg (by rw [Line.places_length]; omega)]

end At

def Scan.read (s : Scan) (line : Line) (i : Nat) (item : Item) (h : s.argsCnt < paramsNum + 1) :
    Scan where
  i := i
  argsCnt := s.argsCnt + 1
  state := .detect
  finding := false
  str := item.close s.str
  args := s.args.set s.argsCnt (item.arg line.val)

namespace At

variable {line : Line} {first : Bool} {a b : Sep} {r : List Sep} {s : Scan}

theorem cstr (h : At line first (a :: b :: r) s) :
    s.str.cstr (a.pos + 1) = Buf.cstr line.val (a.pos + 1) := by
  rw [Buf.cstr, Buf.cstr, Buf.drop_eq_of_le (h.str a rfl) (Nat.le_succ _)]

theorem int (h : At line first (a :: b :: r) s) (hint : IsInt first a b)
    (hc : s.argsCnt < paramsNum + 1) :
    let s' := s.read line (s.i + 1) (.int (a.pos + 1)) hc
    Loop.Goes (scanTurn line.places) s s' ∧ At line false (b :: r) s' := by
  refine ⟨(h.goes_int hint).tail ?_, ?_⟩
  · simp only [scanTurn, if_true, intArg, bind, Except.bind, Args.store_lt hc, h.here.1, h.cstr]
    rfl
  · refine ⟨(drop_eq_cons h.rest).2.1, rfl, rfl, rfl, ?_⟩
    rintro x ⟨⟩
    exact Buf.drop_eq_of_le (h.str a rfl) (h.pos_le (by simp))

theorem int_full (h : At line first (a :: b :: r) s) (hint : IsInt first a b)
    (hc : ¬ s.argsCnt < paramsNum + 1) :
    Loop.Ends (scanTurn line.places) s (.error (.args s.argsCnt)) := by
  refine (h.goes_int hint).ends (Loop.ends_stop ?_)
  simp only [scanTurn, if_true, intArg, bind, Except.bind, Args.store_ge hc]
  rfl

theorem stringLoop_result (h : At line first (a :: b :: r) s) :
    StringResult line.brk s.str (stringLoop line.places s.str line.places.length (s.i + 1))
      (stringEnd line.val true r) := by
  obtain ⟨hlt, hr, -⟩ := drop_eq_cons (drop_eq_cons h.rest).2.1
  have hkept : Kept line.val s.str (line.brk.drop (s.i + 1 + 1)) := by
    intro x hx
    rw [hr] at hx
    exact h.kept x (by simp [hx])
  have hturns : line.brk.length ≤ line.places.length + (s.i + 1) := by
    rw [Line.places_length]
    exact Nat.le_add_right _ _
  have hspec := stringLoop_spec hlt hturns hkept
  rw [hr] at hspec
  exact hspec

theorem string (h : At line first (a :: b :: r) s) (hstr : IsStr first a b)
    (hend : stringEnd line.val true r = some (q, r')) (hc : s.argsCnt < paramsNum + 1) :
    ∃ i, let s' := s.read line i (.str (b.pos + 1) (some q)) hc
      Loop.Goes (scanTurn line.places) s s' ∧ At line false r' s' := by
  have hresult := h.stringLoop_result
  rw [hend] at hresult
  obtain ⟨i, hok, hi⟩ := hresult
  refine ⟨i, (h.goes_string hstr).tail ?_, hi, ?_, rfl, rfl, ?_⟩
  · simp only [scanTurn, if_true, stringArg, bind, Except.bind, Args.store_lt hc, h.next.1, hok]
    rfl
  · have hlen := congrArg List.length hi
    have hrest := congrArg List.length h.rest
    have hshort := stringEnd_length hend
    simp only [List.length_drop, List.length_cons] at hlen hrest
    have hne : i ≠ 0 := by omega
    exact (decide_eq_false hne).symm
  · intro x hx
    obtain ⟨pre, rfl⟩ := stringEnd_split hend
    obtain ⟨t, rfl⟩ : ∃ t, r' = x :: t := List.head?_eq_some_iff.mp hx
    have hsorted : (a :: b :: (pre ++ ⟨q, .quote⟩ :: x :: t)).Pairwise (·.pos < ·.pos) :=
      h.rest ▸ line.brk_sorted.drop
    have hqx : q < x.pos := by
      have htail := (List.pairwise_append.mp hsorted.tail.tail).2.1
      exact List.rel_of_pairwise_cons htail (List.mem_cons_self ..)
    have hax : a.pos ≤ x.pos := h.pos_le (by simp)
    have hset : ((s.str.set q 0 : Buf)).drop x.pos = s.str.drop x.pos := List.drop_set_of_lt hqx
    exact hset.trans (Buf.drop_eq_of_le (h.str a rfl) hax)

theorem string_overrun (h : At line first (a :: b :: r) s) (hstr : IsStr first a b)
    (hend : stringEnd line.val true r = none) (hc : s.argsCnt < paramsNum + 1) :
    ∃ j, Loop.Ends (scanTurn line.places) s (.error (.pbrk j)) := by
  have hresult := h.stringLoop_result
  rw [hend] at hresult
  obtain ⟨j, herr⟩ := hresult
  refine ⟨j, (h.goes_string hstr).ends (Loop.ends_stop ?_)⟩
  simp only [scanTurn, if_true, stringArg, bind, Except.bind, Args.store_lt hc, herr]
  rfl

theorem string_full (h : At line first (a :: b :: r) s) (hstr : IsStr first a b)
    (hc : ¬ s.argsCnt < paramsNum + 1) :
    Loop.Ends (scanTurn line.places) s (.error (.args s.argsCnt)) := by
  refine (h.goes_string hstr).ends (Loop.ends_stop ?_)
  simp only [scanTurn, if_true, stringArg, bind, Except.bind, Args.store_ge hc]
  rfl

end At

structure Filled (line : Line) (items : List Item) (s s' : Scan) : Prop where
  argsCnt : s'.argsCnt = s.argsCnt + items.length
  str : s'.str = items.foldl Item.close s.str
  stored : ∀ j < items.length, s'.args[s.argsCnt + j]? = items[j]?.map (Item.arg line.val)

theorem Filled.cons {line : Line} {items : List Item} {it : Item} {i : Nat} {s s' : Scan}
    {hc : s.argsCnt < paramsNum + 1} (h : Filled line items (s.read line i it hc) s')
    (hkeep : ∀ j < s.argsCnt + 1, s'.args[j]? = (s.read line i it hc).args[j]?) :
    Filled line (it :: items) s s' where
  argsCnt := by rw [h.argsCnt, List.length_cons, Scan.read, Nat.add_assoc, Nat.add_comm 1]
  str := h.str
  stored j hj := by
    cases j with
    | zero =>
      have hfirst := hkeep s.argsCnt (Nat.lt_succ_self _)
      simpa [Scan.read] using hfirst
    | succ j =>
      have hj : j < items.length := Nat.lt_of_succ_lt_succ hj
      have hindex : s.argsCnt + (j + 1) = s.argsCnt + 1 + j := by omega
      rw [hindex, List.getElem?_cons_succ, ← h.stored j hj]
      rfl

def Result (line : Line) (items : List Item) (s : Scan) : Outcome → Prop
  | .closed => ∃ s', Loop.Ends (scanTurn line.places) s (.ok s') ∧ Filled line items s s' ∧
      ∀ j < s.argsCnt, s'.args[j]? = s.args[j]?
  | .stuck => Loop.Forever (scanTurn line.places) s
  | .overrun => ∃ j, Loop.Ends (scanTurn line.places) s (.error (.pbrk j))

theorem Result.cons {line : Line} {items : List Item} {it : Item} {i : Nat} {s : Scan}
    {hc : s.argsCnt < paramsNum + 1} (h : Result line items (s.read line i it hc) e)
    (hgoes : Loop.Goes (scanTurn line.places) s (s.read line i it hc)) :
    Result line (it :: items) s e := by
  cases e with
  | closed =>
    obtain ⟨s', hends, hfilled, hkeep⟩ := h
    refine ⟨s', hgoes.ends hends, hfilled.cons hkeep, fun j hj => ?_⟩
    rw [hkeep j (Nat.lt_succ_of_lt hj)]
    exact Vector.getElem?_set_ne hc (Nat.ne_of_gt hj)
  | stuck => exact hgoes.forever h
  | overrun =>
    obtain ⟨j, hends⟩ := h
    exact ⟨j, hgoes.ends hends⟩

theorem Reading.result {line : Line} (h : Reading line.val first r items e)
    (hs : At line first r s) (hroom : s.argsCnt + items.length ≤ paramsNum + 1) :
    Result line items s e := by
  induction h generalizing s with
  | closed hr => exact ⟨s, hs.ends hr, ⟨rfl, rfl, nofun⟩, fun _ _ => rfl⟩
  | stuck hint hstr => exact hs.forever hint hstr
  | overrun hstr hend => exact hs.string_overrun hstr hend hroom
  | int hint _ ih =>
    rw [List.length_cons] at hroom
    have hc : s.argsCnt < paramsNum + 1 := by omega
    obtain ⟨hgoes, hat⟩ := hs.int hint hc
    exact (ih hat (by simp only [Scan.read]; omega)).cons hgoes
  | str hstr hend _ ih =>
    rw [List.length_cons] at hroom
    have hc : s.argsCnt < paramsNum + 1 := by omega
    obtain ⟨i, hgoes, hat⟩ := hs.string hstr hend hc
    exact (ih hat (by simp only [Scan.read]; omega)).cons hgoes

/-- One argument too many is stored behind the end of the array, whatever comes after it. -/
theorem Reading.overflow {line : Line} (h : Reading line.val first r items e)
    (hs : At line first r s) (hle : s.argsCnt ≤ paramsNum + 1)
    (hfull : paramsNum + 1 < s.argsCnt + items.length) :
    Loop.Ends (scanTurn line.places) s (.error (.args (paramsNum + 1))) := by
  induction h generalizing s with
  | closed hr => exact absurd hfull (by simpa using hle)
  | stuck hint hstr => exact absurd hfull (by simpa using hle)
  | overrun hstr hend =>
    have hc : s.argsCnt = paramsNum + 1 := Nat.le_antisymm hle (Nat.le_of_lt_succ hfull)
    rw [← hc]
    exact hs.string_full hstr (by omega)
  | int hint _ ih =>
    rw [List.length_cons] at hfull
    by_cases hc : s.argsCnt < paramsNum + 1
    · obtain ⟨hgoes, hat⟩ := hs.int hint hc
      exact hgoes.ends (ih hat hc (by simp only [Scan.read]; omega))
    · rw [← Nat.le_antisymm hle (Nat.le_of_not_lt hc)]
      exact hs.int_full hint hc
  | str hstr hend _ ih =>
    rw [List.length_cons] at hfull
    by_cases hc : s.argsCnt < paramsNum + 1
    · obtain ⟨i, hgoes, hat⟩ := hs.string hstr hend hc
      exact hgoes.ends (ih hat hc (by simp only [Scan.read]; omega))
    · rw [← Nat.le_antisymm hle (Nat.le_of_not_lt hc)]
      exact hs.string_full hstr hc

end Mangoxx.Fcmd
