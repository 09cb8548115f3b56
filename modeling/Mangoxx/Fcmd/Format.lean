import Mangoxx.Fcmd.CallArgs

namespace Mangoxx.Fcmd

open Mangoxx.Lib

def callHead (s : List UInt8) : List UInt8 := s.takeWhile (· ≠ '('.toUInt8)

theorem seps_callHead {xs : List UInt8} (h : seps p xs = ⟨f, .lpar⟩ :: r) :
    p + (callHead xs).length = f ∧ ∃ rest, xs = callHead xs ++ '('.toUInt8 :: rest := by
  induction xs generalizing p with
  | nil => cases h
  | cons c xs ih =>
    rw [seps] at h
    cases hm : mark? c with
    | some m =>
      rw [hm] at h
      cases h
      obtain rfl := mark?_eq_some.mp hm
      have hhead : callHead (Mark.lpar.byte :: xs) = [] := rfl
      rw [hhead]
      exact ⟨rfl, xs, rfl⟩
    | none =>
      rw [hm] at h
      obtain ⟨hlen, rest, hrest⟩ := ih h
      have hc : c ≠ '('.toUInt8 := by
        rintro rfl
        cases hm
      have hhead : callHead (c :: xs) = c :: callHead xs :=
        List.takeWhile_cons_of_pos (by simpa using hc)
      rw [hhead, List.length_cons]
      exact ⟨by omega, rest, congrArg (c :: ·) hrest⟩

theorem Enclosed.head {S : List Sep} (h : Enclosed S) : ∃ f r, S = ⟨f, .lpar⟩ :: r := by
  obtain ⟨⟨f, m⟩, ha, hmark⟩ := h.1
  obtain rfl : m = .lpar := hmark
  obtain ⟨r, hr⟩ := List.head?_eq_some_iff.mp ha
  exact ⟨f, r, hr⟩

section Line

variable {line : Line} {f : Nat} {r : List Sep}

theorem Line.seps_eq (h : line.brk = ⟨f, .lpar⟩ :: r) :
    ∃ r', seps 0 line.val = ⟨f, .lpar⟩ :: r' := by
  have htake := (List.take_append_drop (paramsNum * 3) (seps 0 line.val)).symm
  rw [← Line.brk, h] at htake
  exact ⟨_, htake⟩

theorem Line.first_mem (h : line.brk = ⟨f, .lpar⟩ :: r) (hz : z ∈ [f]) :
    ∃ s ∈ line.brk, s.pos = z := by
  rw [h, List.mem_singleton.mp hz]
  exact ⟨_, List.mem_cons_self .., rfl⟩

theorem Line.first_le (h : line.brk = ⟨f, .lpar⟩ :: r) (hs : s ∈ line.brk) : f ≤ s.pos := by
  have hsorted := line.brk_sorted
  rw [h] at hs hsorted
  rcases List.mem_cons.mp hs with rfl | hs
  · exact Nat.le_refl _
  · exact Nat.le_of_lt (List.rel_of_pairwise_cons hsorted hs)

theorem cstr_callHead {Z : List Nat} (h : line.brk = ⟨f, .lpar⟩ :: r) (hf : f ∈ Z)
    (hZ : ∀ z ∈ Z, ∃ s ∈ line.brk, s.pos = z) :
    (zeroBrk line.val Z).cstr 0 = callHead line.val := by
  obtain ⟨r', hseps⟩ := Line.seps_eq h
  obtain ⟨hlen, rest, hrest⟩ := seps_callHead hseps
  apply cstr_zeroBrk (by rw [List.drop_zero]; exact hrest)
  · exact fun h0 => line.property (List.takeWhile_subset _ h0)
  · intro j hj hmem
    obtain ⟨s, hs, hpos⟩ := hZ _ hmem
    have := Line.first_le h hs
    omega
  · rwa [hlen]

end Line

theorem Reading.closing_mem {line : Buf} (h : Reading line first S items e)
    (hq : q ∈ items.filterMap Item.closing) : ∃ s ∈ S, s.pos = q := by
  induction h with
  | closed | stuck => cases hq
  | overrun => simp [Item.closing] at hq
  | int _ _ ih =>
    obtain ⟨s, hs, hpos⟩ := ih (by simpa [Item.closing] using hq)
    exact ⟨s, by simp [List.mem_cons.mp hs], hpos⟩
  | str _ hend _ ih =>
    obtain ⟨pre, rfl⟩ := stringEnd_split hend
    rw [List.filterMap_cons] at hq
    rcases List.mem_cons.mp hq with rfl | hq
    · exact ⟨⟨q, .quote⟩, by simp, rfl⟩
    · obtain ⟨s, hs, hpos⟩ := ih hq
      exact ⟨s, by simp [hs], hpos⟩

inductive Format (line : Line) (str : Buf) (args : Args) : Prop
  | system (hstr : str = line.val) (hargs : args.first = .int (-1))
  | error (hargs : args.first = .int (-2))
  | call (k : Nat) (hk : k ≤ paramsNum) (hargs : args.first = .int k)
    (hhead : str.cstr 0 = callHead line.val)

section GetArgs

variable {line : Line} {str : Buf} {args args' : Args}

theorem format_mixed (hmixed : Mixed line.brk)
    (h : getArgs fuel line.val args = some (.ok (str, args'))) : Format line str args' := by
  obtain ⟨items, e, hread⟩ := Reading.total line.val true line.brk
  have hat := At.start line (args.setFirst (.int 0))
  have hcnt : (scanStart line.val (args.setFirst (.int 0))).argsCnt = 1 := rfl
  have hlen : items.length ≤ paramsNum := by
    by_contra hfull
    obtain ⟨fuel', hfault⟩ := hmixed.ends args (hread.overflow hat (by omega) (by omega))
    cases getArgs_unique args h hfault
  have hresult := hread.result hat (by omega)
  cases e with
  | stuck => simp [hmixed.forever args hresult fuel] at h
  | overrun =>
    obtain ⟨j, hends⟩ := hresult
    obtain ⟨fuel', hfault⟩ := hmixed.ends args hends
    cases getArgs_unique args h hfault
  | closed =>
    obtain ⟨s, hends, hfilled, -⟩ := hresult
    obtain ⟨fuel', hok⟩ := hmixed.ends args hends
    cases getArgs_unique args h hok
    obtain ⟨f, r, hbrk⟩ := hmixed.enclosed.head
    apply Format.call items.length hlen
    · rw [Args.first_setFirst, hfilled.argsCnt, hcnt]
      congr 1
      omega
    · rw [Line.places_head hbrk, hfilled.overwritten]
      apply cstr_callHead hbrk (by simp)
      intro z hz
      rcases List.mem_append.mp hz with hz | hz
      · exact hread.closing_mem hz
      · exact Line.first_mem hbrk hz

theorem format_intOnly (hint : IntOnly line.brk)
    (h : getArgs fuel line.val args = some (.ok (str, args'))) : Format line str args' := by
  have hplaces := line.places_length
  have hlen : line.places.length ≤ paramsNum := by
    by_contra hfull
    rw [getArgs_intOnly args hint,
      intArgs_fault (args.setFirst (.int 0)) _ (Nat.zero_le _) (by omega)] at h
    cases h
  have hlen3 := hint.length
  obtain ⟨f, r, hbrk⟩ := hint.enclosed.head
  obtain ⟨args₁, hok, -⟩ := intArgs_ok (args.setFirst (.int 0)) (zeroBrk line.val line.places)
    (by omega : 0 + line.places.length ≤ paramsNum)
  rw [getArgs_intOnly args hint, hok] at h
  cases h
  apply Format.call (line.places.length - 1) (by omega)
  · rw [Args.first_setFirst]
    congr 1
    omega
  · apply cstr_callHead hbrk
    · rw [Line.places, hbrk]
      exact List.mem_cons_self ..
    · exact fun z hz => List.mem_map.mp hz

theorem getArgs_format (h : getArgs fuel line.val args = some (.ok (str, args'))) :
    Format line str args' := by
  by_cases hmixed : Mixed line.brk
  · exact format_mixed hmixed h
  by_cases hint : IntOnly line.brk
  · exact format_intOnly hint h
  have hplaces := line.places_length
  simp only [getArgs, Line.pbrk_eq] at h
  split at h
  · cases h
    exact .system rfl (Args.first_setFirst _ _)
  split at h
  · cases h
    exact .error (Args.first_setFirst _ _)
  split at h
  · rename_i h0 h1 henc
    have henclosed : Enclosed line.brk := (Line.enclosed_iff (by omega)).mp henc
    obtain ⟨f, r, hbrk⟩ := henclosed.head
    have hhead : Buf.cstr (line.val.set (line.places.getD 0 0) 0) 0 = callHead line.val := by
      rw [Line.places_head hbrk]
      exact cstr_callHead hbrk (List.mem_singleton_self f) fun z hz => Line.first_mem hbrk hz
    split at h
    · split at h
      · cases h
        exact .call 0 (Nat.zero_le _) (Args.first_setFirst _ _) hhead
      · cases h
        exact .call 1 (by decide) (by simp) hhead
    · rename_i h2
      rw [Line.quotationCnt_eq] at h
      split at h
      · rename_i hq
        exact absurd ⟨by omega, henclosed, hq⟩ hint
      · rename_i hq
        split at h
        · cases h
          exact .error (Args.first_setFirst _ _)
        · rename_i heven
          exact absurd ⟨by omega, henclosed, hq, not_not.mp heven⟩ hmixed
  · cases h
    exact .error (Args.first_setFirst _ _)

end GetArgs

end Mangoxx.Fcmd
