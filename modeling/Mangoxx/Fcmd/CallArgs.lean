import Mangoxx.Fcmd.CallLine

namespace Mangoxx.Fcmd

open Mangoxx.Lib

section Zeroed

theorem zeroBrk_get (m : Buf) (Z : List Nat) (j : Nat) :
    (zeroBrk m Z)[j]? = if j ∈ Z then m[j]?.map fun _ => 0 else m[j]? := by
  induction Z generalizing m with
  | nil => rfl
  | cons z Z ih =>
    have hstep : zeroBrk m (z :: Z) = zeroBrk (m.set z 0) Z := rfl
    rw [hstep, ih, List.getElem?_set]
    by_cases hz : z = j
    · subst hz
      by_cases hlt : z < m.length <;> simp [hlt]
    · simp [hz, Ne.symm hz]

theorem zeroBrk_append (m : Buf) (Y Z : List Nat) :
    zeroBrk m (Y ++ Z) = zeroBrk (zeroBrk m Y) Z := List.foldl_append

theorem foldl_close (m : Buf) (items : List Item) :
    items.foldl Item.close m = zeroBrk m (items.filterMap Item.closing) := by
  induction items generalizing m with
  | nil => rfl
  | cons item items ih =>
    rw [List.foldl_cons, ih]
    cases h : item.closing with
    | none => simp [Item.close, h]
    | some q => simp [Item.close, h, zeroBrk]

theorem Filled.overwritten {line : Line} {items : List Item} {args : Args} {s : Scan}
    (h : Filled line items (scanStart line.val args) s) (f : Nat) :
    s.str.set f 0 = zeroBrk line.val (items.filterMap Item.closing ++ [f]) := by
  rw [h.str, foldl_close, zeroBrk_append]
  rfl

theorem takeWhile_text {D X : Buf} (hX : 0 ∉ X) (hget : ∀ j < X.length, D[j]? = X[j]?)
    (hend : D[X.length]? = some 0) : D.takeWhile (· ≠ 0) = X := by
  induction X generalizing D with
  | nil =>
    cases D with
    | nil => rfl
    | cons d D =>
      obtain rfl : d = 0 := by simpa using hend
      rfl
  | cons x X ih =>
    have hx : x ≠ 0 := fun h => hX (by simp [h])
    have hfirst := hget 0 (by simp)
    cases D with
    | nil => simp at hfirst
    | cons d D =>
      obtain rfl : d = x := by simpa using hfirst
      rw [List.takeWhile_cons_of_pos (by simpa using hx)]
      apply congrArg (d :: ·)
      apply ih
      · exact fun h => hX (by simp [h])
      · intro j hj
        simpa using hget (j + 1) (by simpa using hj)
      · simpa using hend

theorem cstr_zeroBrk {m X rest : Buf} {Z : List Nat} (hdrop : m.drop p = X ++ c :: rest)
    (hX : 0 ∉ X) (hkeep : ∀ j < X.length, p + j ∉ Z) (hend : p + X.length ∈ Z) :
    (zeroBrk m Z).cstr p = X := by
  have hget : ∀ j, m[p + j]? = (X ++ c :: rest)[j]? := by
    intro j
    rw [← hdrop, List.getElem?_drop]
  apply takeWhile_text hX
  · intro j hj
    rw [List.getElem?_drop, zeroBrk_get, if_neg (hkeep j hj), hget, List.getElem?_append_left hj]
  · rw [List.getElem?_drop, zeroBrk_get, if_pos hend, hget]
    simp

end Zeroed

/-- The argument stands for the value in the line that `get_args` left behind. -/
def Passed (str : Buf) : Val → Arg → Prop
  | .int v _, .int v' => v' = v
  | .str s _ _, .str p => str.cstr p = s
  | _, _ => False

structure Split (w : Name) (ps : List Param) (str : Buf) (args : Args) : Prop where
  count : args.first = .int ps.length
  name : str.cstr 0 = w.text
  passed : ∀ i p, ps[i]? = some p → ∃ a, args[i + 1]? = some a ∧ Passed str p.val a

section Cases

variable {w : Name} {pad : Nat} {ps : List Param}

theorem name_zeroBrk {Z : List Nat} (hZ : ∀ z ∈ Z, w.text.length ≤ z)
    (hmem : w.text.length ∈ Z) : (zeroBrk (callText w pad ps) Z).cstr 0 = w.text := by
  apply cstr_zeroBrk rfl w.noNul
  · intro j hj hmem
    have := hZ _ hmem
    omega
  · rwa [Nat.zero_add]

theorem getArgs_two {line : Line} {f z : Nat} (args : Args)
    (hbrk : line.brk = [⟨f, .lpar⟩, ⟨z, .rpar⟩]) :
    getArgs 0 line.val args =
      if ((line.val.drop (f + 1)).take (z - (f + 1))).all (· = ' '.toUInt8) then
        some (.ok (zeroBrk line.val [f], args.setFirst (.int 0)))
      else
        some (.ok (zeroBrk line.val [f],
          (args.setFirst (.int 1)).setSecond (.int (strtol (Buf.cstr line.val (f + 1)))))) := by
  have hplaces : line.places = [f, z] := by rw [Line.places, hbrk]; rfl
  have hf : Buf.peek line.val f = '('.toUInt8 := Line.brk_peek (s := ⟨f, .lpar⟩) (by simp [hbrk])
  have hz : Buf.peek line.val z = ')'.toUInt8 := Line.brk_peek (s := ⟨z, .rpar⟩) (by simp [hbrk])
  have hlist : line.places.getD 0 0 = f ∧ line.places.getD (line.places.length - 1) 0 = z := by
    rw [hplaces]
    exact ⟨rfl, rfl⟩
  simp only [getArgs, Line.pbrk_eq, hlist]
  rw [if_neg (by simp [hplaces]), if_neg (by simp [hplaces]), if_pos ⟨hf, hz⟩,
    if_pos (by simp [hplaces])]
  rfl

theorem split_nil (args : Args) (hbrk : (callLine w pad []).brk = seps 0 (callText w pad [])) :
    ∃ str args', getArgs 0 (callText w pad []) args = some (.ok (str, args')) ∧
      Split w [] str args' := by
  have htwo : (callLine w pad []).brk =
      [⟨w.text.length, .lpar⟩, ⟨w.text.length + 1 + pad, .rpar⟩] := by
    rw [hbrk, seps_callText, argList, seps_blanks]
    exact congrArg _ (seps_argTail_nil _)
  have hblank : (((callText w pad []).drop (w.text.length + 1)).take
      (w.text.length + 1 + pad - (w.text.length + 1))).all (· = ' '.toUInt8) = true := by
    have hdrop : (callText w pad []).drop (w.text.length + 1) = blanks pad ++ [')'.toUInt8] := by
      rw [callText, ← List.drop_drop, List.drop_left]
      rfl
    rw [hdrop, Nat.add_sub_cancel_left, List.take_left' (blanks_length pad)]
    simp [blanks]
  have hcall := getArgs_two args htwo
  rw [callLine_val, if_pos hblank] at hcall
  refine ⟨_, _, hcall, ?_, name_zeroBrk ?_ ?_, ?_⟩
  · simp
  · simp
  · simp
  · simp

theorem split_int {v : Int} {hv : longMin ≤ v ∧ v ≤ longMax} {k : Nat} (args : Args)
    (hbrk : (callLine w pad [⟨k, .int v hv⟩]).brk = seps 0 (callText w pad [⟨k, .int v hv⟩])) :
    ∃ str args', getArgs 0 (callText w pad [⟨k, .int v hv⟩]) args = some (.ok (str, args')) ∧
      Split w [⟨k, .int v hv⟩] str args' := by
  have hdrop : (callText w pad [⟨k, .int v hv⟩]).drop (w.text.length + 1) =
      blanks (pad + k) ++ (decimal v ++ [')'.toUInt8]) := by
    rw [callText, ← List.drop_drop, List.drop_left, ← blanks_append, List.append_assoc]
    simp [argList, Param.text, Val.text, argTail]
  have htwo : (callLine w pad [⟨k, .int v hv⟩]).brk =
      [⟨w.text.length, .lpar⟩, ⟨w.text.length + 1 + (pad + k) + (decimal v).length, .rpar⟩] := by
    rw [hbrk, seps_callText, argList, Param.text, List.append_assoc, ← List.append_assoc,
      blanks_append, seps_blanks, Val.text, seps_decimal]
    exact congrArg _ (seps_argTail_nil _)
  have hspan : w.text.length + 1 + (pad + k) + (decimal v).length - (w.text.length + 1) =
      (blanks (pad + k) ++ decimal v).length := by
    rw [List.length_append, blanks_length]
    omega
  have hblank : ¬ (((callText w pad [⟨k, .int v hv⟩]).drop (w.text.length + 1)).take
      (w.text.length + 1 + (pad + k) + (decimal v).length - (w.text.length + 1))).all
        (· = ' '.toUInt8) = true := by
    obtain ⟨c, hc⟩ := List.exists_mem_of_ne_nil _ (decimal_ne_nil v)
    rw [hdrop, hspan, ← List.append_assoc, List.take_left, List.all_eq_true]
    intro hall
    have hspace := hall c (List.mem_append_right _ hc)
    exact (decimal_mem hc).2.2 (by simpa using hspace)
  have hvalue : strtol (Buf.cstr (callText w pad [⟨k, .int v hv⟩]) (w.text.length + 1)) = v := by
    rw [Buf.cstr_of_line (callText_nul_notMem w pad _), hdrop]
    exact strtol_decimal hv _ (by rintro c ⟨⟩; rfl)
  have hcall := getArgs_two args htwo
  rw [callLine_val, if_neg hblank, hvalue] at hcall
  refine ⟨_, _, hcall, ?_, name_zeroBrk ?_ ?_, ?_⟩
  · simp
  · simp
  · simp
  · intro i p hp
    cases i with
    | zero =>
      obtain rfl : ⟨k, .int v hv⟩ = p := by simpa using hp
      exact ⟨.int v, by simp, rfl⟩
    | succ i => simp at hp

theorem Reading.places {line : Buf} (h : Reading line first S items e)
    (hint : ∀ item ∈ items, ∃ p, item = .int p) :
    ∀ j < items.length, items[j]? = S[j]?.map fun s => .int (s.pos + 1) := by
  induction h with
  | closed | stuck => nofun
  | overrun => cases (hint _ (List.mem_cons_self ..)).choose_spec
  | int _ _ ih =>
    intro j hj
    cases j with
    | zero => rfl
    | succ j => exact ih (fun item h => hint item (by simp [h])) j (Nat.lt_of_succ_lt_succ hj)
  | str => cases (hint _ (List.mem_cons_self ..)).choose_spec

theorem passed_int {line : Buf} {v : Int} {hv : longMin ≤ v ∧ v ≤ longMax} (hnul : 0 ∉ line)
    (h : Shows line lo (.int v hv) (.int p)) : strtol (line.cstr p) = v := by
  obtain ⟨-, k, rest, hdrop, m, hm⟩ := h
  rw [Buf.cstr_of_line hnul, hdrop]
  apply strtol_decimal hv
  intro c hc
  obtain rfl : m.byte = c := Option.some.inj (hm.symm.trans hc)
  cases m <;> rfl

theorem seps_mem {xs : List UInt8} {m : Mark} (h : xs[j]? = some m.byte) :
    ⟨p + j, m⟩ ∈ seps p xs := by
  induction xs generalizing p j with
  | nil => simp at h
  | cons c xs ih =>
    cases j with
    | zero =>
      obtain rfl : c = m.byte := by simpa using h
      rw [seps_mark]
      exact List.mem_cons_self ..
    | succ j =>
      have hrest : ⟨p + 1 + j, m⟩ ∈ seps (p + 1) xs := ih (by simpa using h)
      rw [Nat.add_right_comm, Nat.add_assoc] at hrest
      simp only [seps]
      cases mark? c with
      | none => exact hrest
      | some m' => exact List.mem_cons_of_mem _ hrest

theorem passed_int_zeroBrk {str : Buf} {v : Int} {hv : longMin ≤ v ∧ v ≤ longMax}
    (h : Shows str lo (.int v hv) (.int p)) :
    strtol ((zeroBrk str ((seps 0 str).map (·.pos))).cstr p) = v := by
  obtain ⟨-, k, rest, hdrop, m, hm⟩ := h
  obtain ⟨rest, rfl⟩ : ∃ t, rest = m.byte :: t := List.head?_eq_some_iff.mp hm
  rw [← List.append_assoc] at hdrop
  have hmem : ∀ c ∈ blanks k ++ decimal v, mark? c = none ∧ c ≠ 0 := by
    intro c hc
    rcases List.mem_append.mp hc with hc | hc
    · exact blanks_mem hc
    · exact ⟨(decimal_mem hc).1, (decimal_mem hc).2.1⟩
  have hcstr : (zeroBrk str ((seps 0 str).map (·.pos))).cstr p = blanks k ++ decimal v := by
    apply cstr_zeroBrk hdrop
    · exact fun h0 => (hmem 0 h0).2 rfl
    · intro j hj hz
      obtain ⟨s, hs, hpos⟩ := List.mem_map.mp hz
      have hget := seps_get hs
      rw [Nat.sub_zero, hpos, ← List.getElem?_drop, hdrop, List.getElem?_append_left hj] at hget
      have hnone := (hmem _ (List.mem_of_getElem? hget)).1
      rw [mark?_byte] at hnone
      cases hnone
    · have hget : str[p + (blanks k ++ decimal v).length]? = some m.byte := by
        rw [← List.getElem?_drop, hdrop]
        simp
      have hsep := seps_mem (p := 0) hget
      rw [Nat.zero_add] at hsep
      exact List.mem_map.mpr ⟨_, hsep, rfl⟩
  have hv' : strtol (blanks k ++ (decimal v ++ [])) = v := strtol_decimal hv k nofun
  rw [hcstr]
  rwa [List.append_nil] at hv'

theorem passed_str {str : Buf} {s : List UInt8} {hnul : 0 ∉ s} {hquote : '"'.toUInt8 ∉ s}
    {Z : List Nat} (h : Shows str lo (.str s hnul hquote) (.str p (some q))) (hq : q ∈ Z)
    (hZ : ∀ z ∈ Z, z ≤ lo ∨ str[z]? = some '"'.toUInt8) : (zeroBrk str Z).cstr p = s := by
  obtain ⟨hlo, rfl, rest, hdrop⟩ := h
  apply cstr_zeroBrk hdrop hnul _ hq
  intro j hj hz
  rcases hZ _ hz with hle | hget
  · omega
  · rw [← List.getElem?_drop, hdrop, List.getElem?_append_left hj] at hget
    exact hquote (List.mem_of_getElem? hget)

theorem seps_callText_cons (w : Name) (pad : Nat) (p : Param) (ps : List Param) :
    seps 0 (callText w pad (p :: ps)) =
      ⟨w.text.length, .lpar⟩ :: (seps (w.text.length + 1 + pad + p.pad) p.val.text ++
        seps (w.text.length + 1 + pad + p.text.length) (argTail ps)) := by
  rw [seps_callText, argList, seps_blanks, seps_param]

theorem enclosed_callText (w : Name) (pad : Nat) (p : Param) (ps : List Param) :
    Enclosed (seps 0 (callText w pad (p :: ps))) := by
  obtain ⟨z, hz, hmark⟩ := last_argTail (w.text.length + 1 + pad + p.text.length) ps
  rw [seps_callText_cons]
  refine ⟨⟨_, rfl, rfl⟩, z, ?_, hmark⟩
  rw [List.getLast?_cons, List.getLast?_append]
  simp [Option.mem_def.mp hz]

theorem quotes_callText (w : Name) (pad : Nat) (p : Param) (ps : List Param) :
    quotes (seps 0 (callText w pad (p :: ps))) = 2 * (p :: ps).countP (·.val.isStr) := by
  rw [seps_callText_cons, quotes, List.tail_cons, ← quoteCnt, quoteCnt_append, (seps_val _ p.val).2,
    quoteCnt_argTail, List.countP_cons]
  cases p.val.isStr with
  | false => simp
  | true =>
    simp
    omega

theorem length_callText (w : Name) (pad : Nat) {p : Param} {ps : List Param}
    (h : ∀ q ∈ p :: ps, q.val.isStr = false) :
    (seps 0 (callText w pad (p :: ps))).length = ps.length + 2 := by
  rw [seps_callText_cons, (seps_val _ p.val).1 (h p (by simp)), List.nil_append, List.length_cons,
    length_argTail _ fun q hq => h q (by simp [hq])]

theorem shown_getElem? {R : Param → Item → Prop} {items : List Item} {i : Nat}
    (h : List.Forall₂ R ps items)
    (hi : ps[i]? = some p) : ∃ item, items[i]? = some item ∧ R p item := by
  induction h generalizing i with
  | nil => simp at hi
  | cons hR _ ih =>
    cases i with
    | zero =>
      obtain rfl := Option.some.inj hi
      exact ⟨_, rfl, hR⟩
    | succ i => exact ih hi

theorem shown_int {line : Buf} {lo : Nat} {p : Param} {item : Item}
    (h : Shows line lo p.val item) (hint : p.val.isStr = false) : ∃ q, item = .int q := by
  obtain ⟨pad, val⟩ := p
  cases val with
  | str => cases hint
  | int =>
    cases item with
    | int q => exact ⟨q, rfl⟩
    | str => exact h.elim

theorem shown_ints {line : Buf} {lo : Nat} {items : List Item}
    (h : List.Forall₂ (fun (p : Param) item => Shows line lo p.val item) ps items)
    (hint : ∀ p ∈ ps, p.val.isStr = false) : ∀ item ∈ items, ∃ q, item = .int q := by
  induction h with
  | nil => nofun
  | cons hshow _ ih =>
    intro item hitem
    rcases List.mem_cons.mp hitem with rfl | hitem
    · exact shown_int hshow (hint _ (List.mem_cons_self ..))
    · exact ih (fun p hp => hint p (by simp [hp])) item hitem

theorem places_callText (hz : z ∈ (seps 0 (callText w pad ps)).map (·.pos)) :
    w.text.length ≤ z := by
  rw [seps_callText] at hz
  obtain ⟨s, hs, rfl⟩ := List.mem_map.mp hz
  rcases List.mem_cons.mp hs with rfl | hs
  · exact Nat.le_refl _
  · exact Nat.le_of_succ_le (seps_bound hs)

theorem intOnly_callText (w : Name) (pad : Nat) {p : Param}
    (hint : ∀ q ∈ p :: ps, q.val.isStr = false) (hps : ps ≠ []) :
    IntOnly (seps 0 (callText w pad (p :: ps))) := by
  have hlen := length_callText w pad hint
  have hpos : 0 < ps.length := List.length_pos_iff.mpr hps
  refine ⟨by omega, enclosed_callText w pad p ps, ?_⟩
  rw [quotes_callText, List.countP_eq_zero.mpr (by simpa using hint)]

theorem passed_ints {line : Buf} {items : List Item} {lo i : Nat} {q : Param}
    (hread : Reading line first (seps 0 line) items e)
    (h : List.Forall₂ (fun (p : Param) item => Shows line lo p.val item) ps items)
    (hint : ∀ q ∈ ps, q.val.isStr = false) (hi : ps[i]? = some q) :
    ∃ z, ((seps 0 line).map (·.pos))[i]? = some z ∧
      Passed (zeroBrk line ((seps 0 line).map (·.pos))) q.val
        (.int (strtol ((zeroBrk line ((seps 0 line).map (·.pos))).cstr (z + 1)))) := by
  obtain ⟨item, hitem, hshow⟩ := shown_getElem? h hi
  have hplace := hread.places (shown_ints h hint) i (List.getElem?_eq_some_iff.mp hitem).1
  rw [hitem] at hplace
  obtain ⟨s, hs, rfl⟩ := Option.map_eq_some_iff.mp hplace.symm
  refine ⟨s.pos, by rw [List.getElem?_map, hs, Option.map_some], ?_⟩
  have hq := hint q (List.mem_of_getElem? hi)
  obtain ⟨k, val⟩ := q
  cases val with
  | int v hv => exact passed_int_zeroBrk hshow
  | str => cases hq

theorem split_ints {p : Param} (args : Args) (hint : ∀ q ∈ p :: ps, q.val.isStr = false)
    (hps : ps ≠ []) (hcnt : (p :: ps).length ≤ 9)
    (hbrk : (callLine w pad (p :: ps)).brk = seps 0 (callText w pad (p :: ps))) :
    ∃ str args', getArgs 0 (callText w pad (p :: ps)) args = some (.ok (str, args')) ∧
      Split w (p :: ps) str args' := by
  have hplaces : (callLine w pad (p :: ps)).places =
      (seps 0 (callText w pad (p :: ps))).map (·.pos) := by rw [Line.places, hbrk]
  have hcount : (callLine w pad (p :: ps)).places.length = ps.length + 2 := by
    rw [hplaces, List.length_map, length_callText w pad hint]
  have hfit : 0 + (callLine w pad (p :: ps)).places.length ≤ paramsNum := by
    rw [List.length_cons] at hcnt
    simp only [paramsNum]
    omega
  obtain ⟨args', hok, -, hvals⟩ := intArgs_ok (args.setFirst (.int 0))
    (zeroBrk (callText w pad (p :: ps)) (callLine w pad (p :: ps)).places) hfit
  obtain ⟨items, hread, hshows⟩ :=
    reads_callText (rfl : callText w pad (p :: ps) = _) fun h => absurd h hps
  have hcall := getArgs_intOnly args (hbrk ▸ intOnly_callText w pad hint hps) 0
  rw [callLine_val, hok] at hcall
  refine ⟨_, _, hcall, ?_, name_zeroBrk ?_ ?_, ?_⟩
  · simp [hcount]
    omega
  · rw [hplaces]
    exact fun z hz => places_callText hz
  · rw [hplaces, seps_callText]
    exact List.mem_cons_self ..
  · intro i q hi
    obtain ⟨z, hz, hpassed⟩ := passed_ints hread hshows hint hi
    rw [← hplaces] at hz hpassed
    have hval := hvals i (List.getElem?_eq_some_iff.mp hz).1
    rw [hz, Option.map_some, Nat.zero_add, Nat.add_comm 1 i] at hval
    exact ⟨_, (Vector.getElem?_set_ne _ (Nat.succ_ne_zero i).symm).trans hval, hpassed⟩

theorem mixed_callText (w : Name) (pad : Nat) {p : Param}
    (hstr : ∃ q ∈ p :: ps, q.val.isStr = true) :
    Mixed (seps 0 (callText w pad (p :: ps))) := by
  have hpos : 0 < (p :: ps).countP (·.val.isStr) := List.countP_pos_iff.mpr hstr
  have hquotes := quotes_callText w pad p ps
  have hle : quotes (seps 0 (callText w pad (p :: ps))) ≤
      (seps 0 (callText w pad (p :: ps))).tail.length := List.countP_le_length
  rw [List.length_tail] at hle
  exact ⟨by omega, enclosed_callText w pad p ps, by omega, by omega⟩

theorem shown_closing {str : Buf} {lo q : Nat} {v : Val} {item : Item}
    (h : Shows str lo v item) (hq : item.closing = some q) :
    lo < q ∧ str[q]? = some '"'.toUInt8 := by
  cases v with
  | int v hv =>
    cases item with
    | int p => cases hq
    | str p close => exact h.elim
  | str s hnul hquote =>
    cases item with
    | int p => cases hq
    | str p close =>
      obtain rfl : close = some q := hq
      obtain ⟨hlo, rfl, rest, hdrop⟩ := h
      refine ⟨by omega, ?_⟩
      rw [← List.getElem?_drop, hdrop]
      simp

theorem shown_closings {str : Buf} {lo q : Nat} {items : List Item}
    (h : List.Forall₂ (fun (p : Param) item => Shows str lo p.val item) ps items)
    (hq : q ∈ items.filterMap Item.closing) : lo < q ∧ str[q]? = some '"'.toUInt8 := by
  induction h with
  | nil => cases hq
  | cons hshow _ ih =>
    obtain ⟨item, hitem, hclose⟩ := List.mem_filterMap.mp hq
    rcases List.mem_cons.mp hitem with rfl | hitem
    · exact shown_closing hshow hclose
    · exact ih (List.mem_filterMap.mpr ⟨item, hitem, hclose⟩)

theorem passed_strings {line : Buf} {items : List Item} {Z : List Nat} {lo i : Nat} {p : Param}
    (h : List.Forall₂ (fun (p : Param) item => Shows line lo p.val item) ps items)
    (hZ : Z = items.filterMap Item.closing ++ [lo]) (hnul : 0 ∉ line) (hi : ps[i]? = some p) :
    ∃ item, items[i]? = some item ∧ Passed (zeroBrk line Z) p.val (item.arg line) := by
  obtain ⟨item, hitem, hshow⟩ := shown_getElem? h hi
  refine ⟨item, hitem, ?_⟩
  obtain ⟨pad, val⟩ := p
  cases val with
  | int v hv =>
    cases item with
    | int q => exact passed_int hnul hshow
    | str => exact hshow.elim
  | str s _ _ =>
    cases item with
    | int => exact hshow.elim
    | str q close =>
      cases close with
      | none => exact hshow.elim
      | some c =>
        have hc : c ∈ items.filterMap Item.closing :=
          List.mem_filterMap.mpr ⟨_, List.mem_of_getElem? hitem, rfl⟩
        subst hZ
        apply passed_str hshow (List.mem_append_left _ hc)
        intro z hz
        rcases List.mem_append.mp hz with hz | hz
        · exact .inr (shown_closings h hz).2
        · exact .inl (Nat.le_of_eq (List.mem_singleton.mp hz))

theorem split_strings {p : Param} (args : Args) (hstr : ∃ q ∈ p :: ps, q.val.isStr = true)
    (hcnt : (p :: ps).length ≤ 10)
    (hbrk : (callLine w pad (p :: ps)).brk = seps 0 (callText w pad (p :: ps))) :
    ∃ fuel str args', getArgs fuel (callText w pad (p :: ps)) args = some (.ok (str, args')) ∧
      Split w (p :: ps) str args' := by
  have hone : ps = [] → p.val.isStr = true := by
    rintro rfl
    simpa using hstr
  obtain ⟨items, hread, hshows⟩ :=
    reads_callText (rfl : callText w pad (p :: ps) = _) hone
  have hlen := hshows.length_eq
  replace hread : Reading (callLine w pad (p :: ps)).val true (callLine w pad (p :: ps)).brk items
      .closed := by
    rw [hbrk]
    exact hread
  have hroom : (scanStart (callText w pad (p :: ps)) (args.setFirst (.int 0))).argsCnt +
      items.length ≤ paramsNum + 1 := by
    simp only [scanStart, paramsNum]
    omega
  have hresult := hread.result (At.start _ (args.setFirst (.int 0))) hroom
  obtain ⟨s, hends, hfilled, -⟩ := hresult
  have hshape : Mixed (callLine w pad (p :: ps)).brk := hbrk ▸ mixed_callText w pad hstr
  obtain ⟨fuel, hcall⟩ := hshape.ends args hends
  have hfirst : (callLine w pad (p :: ps)).places.getD 0 0 = w.text.length :=
    Line.places_head (hbrk.trans (seps_callText w pad (p :: ps)))
  rw [hfirst, Except.map, hfilled.overwritten, callLine_val] at hcall
  refine ⟨fuel, _, _, hcall, ?_, name_zeroBrk ?_ ?_, fun i q hi => ?_⟩
  · rw [Args.first_setFirst]
    congr 1
    have hargs := hfilled.argsCnt
    simp only [scanStart] at hargs
    omega
  · intro z hz
    rcases List.mem_append.mp hz with hz | hz
    · exact Nat.le_of_lt (shown_closings hshows hz).1
    · exact Nat.le_of_eq (List.mem_singleton.mp hz).symm
  · simp
  · obtain ⟨item, hitem, hpassed⟩ :=
      passed_strings hshows rfl (callText_nul_notMem w pad _) hi
    have hval := hfilled.stored i (List.getElem?_eq_some_iff.mp hitem).1
    rw [hitem, Option.map_some, scanStart, Nat.add_comm 1 i] at hval
    exact ⟨_, (Vector.getElem?_set_ne _ (Nat.succ_ne_zero i).symm).trans hval, hpassed⟩

/-- `get_args` splits every line `name(a1, ..., ak)` into its name and its arguments. -/
theorem getArgs_callLine (w : Name) (pad : Nat) (ps : List Param) (args : Args)
    (hcnt : ps.length ≤ 9 ∨ (ps.length = 10 ∧ ∃ p ∈ ps, p.val.isStr = true))
    (hsep : (callText w pad ps).countP key.contains ≤ paramsNum * 3) :
    ∃ fuel str args', getArgs fuel (callText w pad ps) args = some (.ok (str, args')) ∧
      Split w ps str args' := by
  have hbrk : (callLine w pad ps).brk = seps 0 (callText w pad ps) := by
    apply List.take_of_length_le
    rw [seps_length]
    exact hsep
  cases ps with
  | nil => exact ⟨0, split_nil args hbrk⟩
  | cons p ps =>
    by_cases hstr : ∃ q ∈ p :: ps, q.val.isStr = true
    · exact split_strings args hstr (hcnt.elim Nat.le_succ_of_le fun h => Nat.le_of_eq h.1) hbrk
    · have hint : ∀ q ∈ p :: ps, q.val.isStr = false := by simpa using hstr
      have hle : (p :: ps).length ≤ 9 := hcnt.elim id fun h => absurd h.2 hstr
      by_cases hps : ps = []
      · subst hps
        obtain ⟨k, val⟩ := p
        cases val with
        | int v hv => exact ⟨0, split_int args hbrk⟩
        | str => cases hint _ (List.mem_singleton_self _)
      · exact ⟨0, split_ints args hint hps hle hbrk⟩

def disp : Name := ⟨text "disp", by decide, by decide +kernel⟩

def dispParams : List Param :=
  [⟨0, .int 10 (by decide)⟩, ⟨0, .int (-60) (by decide)⟩,
    ⟨1, .str (text "sub:(a,b)") (by decide) (by decide)⟩]

theorem disp_split : ∃ fuel str args',
    getArgs fuel (callText disp 1 dispParams) (.replicate (paramsNum + 1) (.int 0)) =
        some (.ok (str, args')) ∧ Split disp dispParams str args' :=
  getArgs_callLine disp 1 dispParams _ (.inl (by decide)) (by decide +kernel)

end Cases

end Mangoxx.Fcmd
