import Mangoxx.Fcmd.Scan

namespace Mangoxx.Fcmd

open Mangoxx.Lib

def Enclosed (S : List Sep) : Prop :=
  (∃ a ∈ S.head?, a.mark = .lpar) ∧ ∃ z ∈ S.getLast?, z.mark = .rpar

def quotes (S : List Sep) : Nat := S.tail.countP (·.mark = .quote)

structure IntOnly (S : List Sep) : Prop where
  length : 3 ≤ S.length
  enclosed : Enclosed S
  quotes : quotes S = 0

structure Mixed (S : List Sep) : Prop where
  length : 3 ≤ S.length
  enclosed : Enclosed S
  quotes : quotes S ≠ 0
  even : Fcmd.quotes S % 2 = 0

namespace Line

variable {line : Line}

theorem first_mark (hlen : line.brk.length ≠ 0) :
    Buf.peek line.val (line.places.getD 0 0) = '('.toUInt8 ↔
      ∃ a ∈ line.brk.head?, a.mark = .lpar := by
  cases hS : line.brk with
  | nil => simp [hS] at hlen
  | cons a r =>
    have hpeek : Buf.peek line.val a.pos = a.mark.byte := brk_peek (by simp [hS])
    have hplace : line.places.getD 0 0 = a.pos := places_getD (by simp [hS])
    rw [hplace, hpeek, Mark.byte_eq_lpar]
    simp

theorem last_mark (hlen : line.brk.length ≠ 0) :
    Buf.peek line.val (line.places.getD (line.places.length - 1) 0) = ')'.toUInt8 ↔
      ∃ z ∈ line.brk.getLast?, z.mark = .rpar := by
  have hne : line.brk ≠ [] := by simpa using hlen
  have hpeek : Buf.peek line.val (line.brk.getLast hne).pos = (line.brk.getLast hne).mark.byte :=
    brk_peek (List.getLast_mem hne)
  have hplace : line.places.getD (line.places.length - 1) 0 = (line.brk.getLast hne).pos := by
    apply places_getD
    rw [places_length, ← List.getLast?_eq_getElem?, List.getLast?_eq_some_getLast hne]
  rw [hplace, hpeek, Mark.byte_eq_rpar, List.getLast?_eq_some_getLast hne]
  simp

theorem enclosed_iff (hlen : line.brk.length ≠ 0) :
    Buf.peek line.val (line.places.getD 0 0) = '('.toUInt8 ∧
      Buf.peek line.val (line.places.getD (line.places.length - 1) 0) = ')'.toUInt8 ↔
        Enclosed line.brk :=
  and_congr (first_mark hlen) (last_mark hlen)

theorem quotationCnt_eq (line : Line) : quotationCnt line.val line.places = quotes line.brk := by
  rw [quotationCnt, quotes, places, ← List.map_tail, List.countP_map]
  apply List.countP_congr
  intro s hs
  have hpeek : Buf.peek line.val s.pos = s.mark.byte := brk_peek (List.mem_of_mem_tail hs)
  simp [hpeek, Mark.byte_eq_quote]

end Line

variable {line : Line} (args : Args)

theorem getArgs_mixed (h : Mixed line.brk) (fuel : Nat) :
    getArgs fuel line.val args =
      (Loop.iterate (scanTurn line.places) fuel (scanStart line.val (args.setFirst (.int 0)))).map
        fun r => r.map fun s =>
          (s.str.set (line.places.getD 0 0) 0, s.args.setFirst (.int (s.argsCnt - 1))) := by
  have hlen := h.length
  have hmarks := (Line.enclosed_iff (by omega)).mpr h.enclosed
  have hplaces := line.places_length
  simp only [getArgs, Line.pbrk_eq]
  rw [if_neg (by omega), if_neg (by omega), if_pos hmarks, if_neg (by omega),
    Line.quotationCnt_eq, if_neg h.quotes, if_neg (not_not.mpr h.even)]

theorem getArgs_intOnly (h : IntOnly line.brk) (fuel : Nat) :
    getArgs fuel line.val args =
      some ((intArgs (zeroBrk line.val line.places) line.places 0 (args.setFirst (.int 0))).map
        fun args =>
          (zeroBrk line.val line.places, args.setFirst (.int (line.places.length - 1)))) := by
  have hlen := h.length
  have hmarks := (Line.enclosed_iff (by omega)).mpr h.enclosed
  have hplaces := line.places_length
  simp only [getArgs, Line.pbrk_eq]
  rw [if_neg (by omega), if_neg (by omega), if_pos hmarks, if_neg (by omega),
    Line.quotationCnt_eq, if_pos h.quotes]

theorem getArgs_other (hmixed : ¬ Mixed line.brk) (hint : ¬ IntOnly line.brk) :
    ∃ r, ∀ fuel, getArgs fuel line.val args = some (.ok r) := by
  simp only [getArgs, Line.pbrk_eq]
  split
  · exact ⟨_, fun _ => rfl⟩
  split
  · exact ⟨_, fun _ => rfl⟩
  rename_i h0 h1
  rw [Line.places_length] at h0 h1
  split
  · rename_i henc
    have henclosed : Enclosed line.brk := (Line.enclosed_iff (by omega)).mp henc
    split
    · split <;> exact ⟨_, fun _ => rfl⟩
    · rename_i h2
      rw [Line.places_length] at h2
      rw [Line.quotationCnt_eq]
      split
      · rename_i hq
        exact absurd ⟨by omega, henclosed, hq⟩ hint
      · rename_i hq
        split
        · exact ⟨_, fun _ => rfl⟩
        · rename_i heven
          exact absurd ⟨by omega, henclosed, hq, not_not.mp heven⟩ hmixed
  · exact ⟨_, fun _ => rfl⟩

theorem intArgs_ok (m : Buf) {ps : List Nat} (h : i + ps.length ≤ paramsNum) :
    ∃ args', intArgs m ps i args = .ok args' ∧ (∀ j < i + 1, args'[j]? = args[j]?) ∧
      ∀ j < ps.length, args'[i + 1 + j]? = ps[j]?.map fun p => .int (strtol (m.cstr (p + 1))) := by
  induction ps generalizing i args with
  | nil => exact ⟨args, rfl, fun _ _ => rfl, nofun⟩
  | cons p ps ih =>
    rw [List.length_cons] at h
    have hi : i + 1 < paramsNum + 1 := by omega
    have hrest : i + 1 + ps.length ≤ paramsNum := by omega
    obtain ⟨args', hok, hkeep, hval⟩ :=
      ih (args.set (i + 1) (.int (strtol (m.cstr (p + 1))))) hrest
    refine ⟨args', ?_, fun j hj => ?_, fun j hj => ?_⟩
    · simp only [intArgs, bind, Except.bind, Args.store_lt hi, hok]
    · rw [hkeep j (by omega)]
      exact Vector.getElem?_set_ne hi (Nat.ne_of_gt hj)
    · cases j with
      | zero =>
        have hfirst := hkeep (i + 1) (Nat.lt_succ_self _)
        simpa using hfirst
      | succ j =>
        have hindex : i + 1 + (j + 1) = i + 1 + 1 + j := by omega
        rw [List.getElem?_cons_succ, ← hval j (Nat.lt_of_succ_lt_succ hj), hindex]

theorem intArgs_fault (m : Buf) {ps : List Nat} (hi : i ≤ paramsNum)
    (h : paramsNum < i + ps.length) : intArgs m ps i args = .error (.args (paramsNum + 1)) := by
  induction ps generalizing i args with
  | nil => exact absurd h (by simpa using hi)
  | cons p ps ih =>
    by_cases hlt : i + 1 < paramsNum + 1
    · simp only [intArgs, bind, Except.bind, Args.store_lt hlt]
      exact ih _ (Nat.le_of_lt_succ hlt) (by rw [List.length_cons] at h; omega)
    · obtain rfl : i = paramsNum := by omega
      simp only [intArgs, bind, Except.bind, Args.store_ge hlt]

theorem At.start (line : Line) (args : Args) : At line true line.brk (scanStart line.val args) where
  rest := rfl
  first := rfl
  state := rfl
  finding := rfl
  str _ _ := rfl

/-- A line of this kind is read up to a separator that is out of place, where the loop makes no
progress any more. -/
def Hangs (line : Line) : Prop :=
  Mixed line.brk ∧ ∃ items, items.length ≤ paramsNum ∧ Reading line.val true line.brk items .stuck

/-- A line without strings has room for one value for each separator; a line with strings has at
most ten arguments, and its strings are closed. -/
structure InRange (line : Line) : Prop where
  intOnly : IntOnly line.brk → line.brk.length ≤ paramsNum
  mixed : Mixed line.brk → ∃ items e, Reading line.val true line.brk items e ∧
    items.length ≤ paramsNum ∧ e ≠ .overrun

theorem Mixed.not_intOnly (h : Mixed S) : ¬ IntOnly S := fun hint => h.quotes hint.quotes

theorem Mixed.hangs_iff (h : Mixed line.brk) (hread : Reading line.val true line.brk items e) :
    Hangs line ↔ items.length ≤ paramsNum ∧ e = .stuck := by
  constructor
  · rintro ⟨-, items', hlen, hread'⟩
    obtain ⟨rfl, rfl⟩ := hread.unique hread'
    exact ⟨hlen, rfl⟩
  · rintro ⟨hlen, rfl⟩
    exact ⟨h, items, hlen, hread⟩

theorem Mixed.inRange_iff (h : Mixed line.brk) (hread : Reading line.val true line.brk items e) :
    InRange line ↔ items.length ≤ paramsNum ∧ e ≠ .overrun := by
  constructor
  · intro hrange
    obtain ⟨items', e', hread', hlen, he⟩ := hrange.mixed h
    obtain ⟨rfl, rfl⟩ := hread.unique hread'
    exact ⟨hlen, he⟩
  · rintro ⟨hlen, he⟩
    exact ⟨fun hint => absurd hint h.not_intOnly, fun _ => ⟨items, e, hread, hlen, he⟩⟩

theorem Mixed.ends (h : Mixed line.brk) {r : Except Fault Scan}
    (hends : Loop.Ends (scanTurn line.places) (scanStart line.val (args.setFirst (.int 0))) r) :
    ∃ fuel, getArgs fuel line.val args = some (r.map fun s =>
      (s.str.set (line.places.getD 0 0) 0, s.args.setFirst (.int (s.argsCnt - 1)))) := by
  obtain ⟨fuel, hfuel⟩ := hends
  exact ⟨fuel, by rw [getArgs_mixed args h, hfuel, Option.map_some]⟩

theorem Mixed.forever (h : Mixed line.brk)
    (hloop : Loop.Forever (scanTurn line.places) (scanStart line.val (args.setFirst (.int 0))))
    (fuel : Nat) : getArgs fuel line.val args = none := by
  rw [getArgs_mixed args h, hloop fuel, Option.map_none]

inductive Behaviour (line : Line) (args : Args) : Prop
  | returns (hhangs : ¬ Hangs line) (hrange : InRange line) (fuel r)
      (h : getArgs fuel line.val args = some (.ok r))
  | hangs (hhangs : Hangs line) (hrange : InRange line)
      (h : ∀ fuel, getArgs fuel line.val args = none)
  | faults (hhangs : ¬ Hangs line) (hrange : ¬ InRange line) (fuel f)
      (h : getArgs fuel line.val args = some (.error f))

theorem behaviour_mixed (h : Mixed line.brk) (args : Args) : Behaviour line args := by
  obtain ⟨items, e, hread⟩ := Reading.total line.val true line.brk
  have hhangs := h.hangs_iff hread
  have hrange := h.inRange_iff hread
  have hat := At.start line (args.setFirst (.int 0))
  have hcnt : (scanStart line.val (args.setFirst (.int 0))).argsCnt = 1 := rfl
  by_cases hlen : items.length ≤ paramsNum
  · have hresult := hread.result hat (by omega)
    cases e with
    | closed =>
      obtain ⟨s', hends, -, -⟩ := hresult
      obtain ⟨fuel, hfuel⟩ := h.ends args hends
      exact .returns (by simp [hhangs]) (by simp [hrange, hlen]) fuel _ hfuel
    | stuck =>
      exact .hangs (by simp [hhangs, hlen]) (by simp [hrange, hlen]) (h.forever args hresult)
    | overrun =>
      obtain ⟨j, hends⟩ := hresult
      obtain ⟨fuel, hfuel⟩ := h.ends args hends
      exact .faults (by simp [hhangs]) (by simp [hrange]) fuel _ hfuel
  · obtain ⟨fuel, hfuel⟩ := h.ends args (hread.overflow hat (by omega) (by omega))
    exact .faults (by simp [hhangs, hlen]) (by simp [hrange, hlen]) fuel _ hfuel

theorem behaviour (line : Line) (args : Args) : Behaviour line args := by
  by_cases hmixed : Mixed line.brk
  · exact behaviour_mixed hmixed args
  have hhangs : ¬ Hangs line := fun h => hmixed h.1
  by_cases hint : IntOnly line.brk
  · have hcall := getArgs_intOnly args hint 0
    have hplaces := line.places_length
    by_cases hlen : line.brk.length ≤ paramsNum
    · have hfit : 0 + line.places.length ≤ paramsNum := by omega
      obtain ⟨args', hok, -⟩ :=
        intArgs_ok (args.setFirst (.int 0)) (zeroBrk line.val line.places) hfit
      rw [hok] at hcall
      exact .returns hhangs ⟨fun _ => hlen, fun h => absurd h hmixed⟩ 0 _ hcall
    · have hfull : paramsNum < 0 + line.places.length := by omega
      have hfault := intArgs_fault (args.setFirst (.int 0)) (zeroBrk line.val line.places)
        (Nat.zero_le _) hfull
      rw [hfault] at hcall
      exact .faults hhangs (fun hrange => hlen (hrange.intOnly hint)) 0 _ hcall
  · obtain ⟨r, hr⟩ := getArgs_other args hmixed hint
    exact .returns hhangs ⟨fun h => absurd h hint, fun h => absurd h hmixed⟩ 0 r (hr 0)

theorem getArgs_unique (h : getArgs n line.val args = some r)
    (h' : getArgs m line.val args = some r') : r = r' := by
  by_cases hmixed : Mixed line.brk
  · rw [getArgs_mixed args hmixed, Option.map_eq_some_iff] at h h'
    obtain ⟨x, hx, rfl⟩ := h
    obtain ⟨y, hy, rfl⟩ := h'
    rw [Loop.Ends.unique ⟨n, hx⟩ ⟨m, hy⟩]
  by_cases hint : IntOnly line.brk
  · rw [getArgs_intOnly args hint] at h h'
    exact Option.some.inj (h.symm.trans h')
  · obtain ⟨x, hx⟩ := getArgs_other args hmixed hint
    rw [hx] at h h'
    exact Option.some.inj (h.symm.trans h')

/-- The loops are left unless the line has a separator out of place; nothing else keeps `get_args`
from returning but an access outside of an array. -/
theorem getArgs_terminates_iff (line : Line) (args : Args) :
    ((∃ fuel r, getArgs fuel line.val args = some r) ↔ ¬ Hangs line) ∧
      ((∃ fuel r, getArgs fuel line.val args = some (.ok r)) ↔ ¬ Hangs line ∧ InRange line) := by
  cases behaviour line args with
  | returns hhangs hrange fuel r h =>
    exact ⟨iff_of_true ⟨fuel, _, h⟩ hhangs, iff_of_true ⟨fuel, r, h⟩ ⟨hhangs, hrange⟩⟩
  | hangs hhangs hrange h =>
    refine ⟨iff_of_false ?_ (not_not.mpr hhangs), iff_of_false ?_ fun hok => hok.1 hhangs⟩
    · simp [h]
    · simp [h]
  | faults hhangs hrange fuel f h =>
    refine ⟨iff_of_true ⟨fuel, _, h⟩ hhangs, iff_of_false ?_ fun hok => hrange hok.2⟩
    rintro ⟨fuel', r, h'⟩
    cases getArgs_unique args h h'

def doubleOpen : Line := ⟨text "f((\"\")", by decide⟩

theorem doubleOpen_hangs : ¬ ∃ fuel r,
    getArgs fuel doubleOpen.val (.replicate (paramsNum + 1) (.int 0)) = some r := by
  have hbrk : doubleOpen.brk =
      [⟨1, .lpar⟩, ⟨2, .lpar⟩, ⟨3, .quote⟩, ⟨4, .quote⟩, ⟨5, .rpar⟩] := by decide
  have hmixed : Mixed doubleOpen.brk := by
    rw [hbrk]
    exact ⟨by decide, ⟨⟨_, rfl, rfl⟩, ⟨_, rfl, rfl⟩⟩, by decide, by decide⟩
  have hat := At.start doubleOpen (Args.setFirst (.replicate _ (.int 0)) (.int 0))
  rw [hbrk] at hat
  have hloop := hmixed.forever _ (hat.forever (by simp [IsInt]) (by simp [IsStr]))
  rintro ⟨fuel, r, h⟩
  rw [hloop fuel] at h
  cases h

/-- Every array access of `get_args` is in range exactly for these lines. -/
theorem getArgs_in_range_iff (line : Line) :
    (∀ args fuel f, getArgs fuel line.val args ≠ some (.error f)) ↔ InRange line := by
  constructor
  · intro hsafe
    cases behaviour line (.replicate (paramsNum + 1) (.int 0)) with
    | returns _ hrange => exact hrange
    | hangs _ hrange => exact hrange
    | faults _ _ fuel f h => exact absurd h (hsafe _ fuel f)
  · intro hin args fuel f h
    cases behaviour line args with
    | returns _ _ fuel' r h' => cases getArgs_unique args h h'
    | hangs _ _ h' => simp [h'] at h
    | faults _ hrange => exact hrange hin

/-- Ten numbers have eleven separators, and the value behind the last one is stored as well. -/
theorem ten_numbers_overflow :
    getArgs 0 (text "f(1,2,3,4,5,6,7,8,9,10)") (.replicate (paramsNum + 1) (.int 0)) =
      some (.error (.args (paramsNum + 1))) := by
  decide +kernel

end Mangoxx.Fcmd
