import Mangoxx.Fcmd.GetArgs

namespace Mangoxx.Fcmd

inductive Mark
  | lpar | comma | rpar | quote
  deriving DecidableEq

def Mark.byte : Mark → UInt8
  | .lpar => '('.toUInt8
  | .comma => ','.toUInt8
  | .rpar => ')'.toUInt8
  | .quote => '"'.toUInt8

def mark? (c : UInt8) : Option Mark := [.lpar, .comma, .rpar, .quote].find? (·.byte = c)

structure Sep where
  pos : Nat
  mark : Mark
  deriving DecidableEq

def seps (p : Nat) : List UInt8 → List Sep
  | [] => []
  | c :: cs =>
    match mark? c with
    | some m => ⟨p, m⟩ :: seps (p + 1) cs
    | none => seps (p + 1) cs

abbrev Line := { s : List UInt8 // 0 ∉ s }

def Line.brk (line : Line) : List Sep := (seps 0 line.val).take (paramsNum * 3)

@[simp] theorem Mark.byte_inj {m m' : Mark} : m.byte = m'.byte ↔ m = m' := by
  cases m <;> cases m' <;> decide

theorem Mark.byte_eq_lpar {m : Mark} : m.byte = '('.toUInt8 ↔ m = .lpar :=
  @byte_inj m .lpar

theorem Mark.byte_eq_comma {m : Mark} : m.byte = ','.toUInt8 ↔ m = .comma :=
  @byte_inj m .comma

theorem Mark.byte_eq_rpar {m : Mark} : m.byte = ')'.toUInt8 ↔ m = .rpar :=
  @byte_inj m .rpar

theorem Mark.byte_eq_quote {m : Mark} : m.byte = '"'.toUInt8 ↔ m = .quote :=
  @byte_inj m .quote

theorem mark?_eq_some : mark? c = some m ↔ m.byte = c := by
  constructor
  · intro h
    simpa using List.find?_some h
  · rintro rfl
    cases m <;> rfl

@[simp] theorem mark?_byte (m : Mark) : mark? m.byte = some m := mark?_eq_some.mpr rfl

theorem key_contains (c : UInt8) : key.contains c = (mark? c).isSome := by
  have hkey : key = [Mark.lpar, .comma, .rpar, .quote].map Mark.byte := rfl
  rw [Bool.eq_iff_iff, List.contains_iff_mem, hkey, List.mem_map, mark?, List.find?_isSome]
  simp only [decide_eq_true_eq]

theorem seps_append (p : Nat) (xs ys : List UInt8) :
    seps p (xs ++ ys) = seps p xs ++ seps (p + xs.length) ys := by
  induction xs generalizing p with
  | nil => rfl
  | cons c xs ih =>
    simp only [seps, List.cons_append, ih, List.length_cons]
    rw [Nat.add_right_comm, ← Nat.add_assoc]
    cases mark? c <;> rfl

theorem seps_eq_nil {xs : List UInt8} (h : ∀ c ∈ xs, mark? c = none) : seps p xs = [] := by
  induction xs generalizing p with
  | nil => rfl
  | cons c xs ih => simp [seps, h c (by simp), ih fun c' hc => h c' (by simp [hc])]

theorem seps_bound (hs : s ∈ seps p xs) : p ≤ s.pos := by
  induction xs generalizing p with
  | nil => cases hs
  | cons c xs ih =>
    simp only [seps] at hs
    cases hm : mark? c with
    | none =>
      rw [hm] at hs
      exact Nat.le_of_succ_le (ih hs)
    | some m =>
      rw [hm] at hs
      rcases List.mem_cons.mp hs with rfl | hs
      · exact Nat.le_refl _
      · exact Nat.le_of_succ_le (ih hs)

theorem seps_sorted (p : Nat) (xs : List UInt8) : (seps p xs).Pairwise (·.pos < ·.pos) := by
  induction xs generalizing p with
  | nil => exact .nil
  | cons c xs ih =>
    simp only [seps]
    cases mark? c with
    | none => exact ih _
    | some m => exact .cons (fun s hs => seps_bound hs) (ih _)

theorem seps_get (hs : s ∈ seps p xs) : xs[s.pos - p]? = some s.mark.byte := by
  induction xs generalizing p with
  | nil => cases hs
  | cons c xs ih =>
    have hrest : s ∈ seps (p + 1) xs → (c :: xs)[s.pos - p]? = some s.mark.byte := by
      intro hs
      have hle := seps_bound hs
      have hsub : s.pos - p = (s.pos - (p + 1)) + 1 := by omega
      rw [hsub, List.getElem?_cons_succ, ih hs]
    simp only [seps] at hs
    cases hm : mark? c with
    | none =>
      rw [hm] at hs
      exact hrest hs
    | some m =>
      rw [hm] at hs
      rcases List.mem_cons.mp hs with rfl | hs
      · simp [mark?_eq_some.mp hm]
      · exact hrest hs

theorem seps_first (p : Nat) (xs : List UInt8) :
    (xs.findIdx? key.contains = none ∧ seps p xs = []) ∨
      ∃ k m, xs.findIdx? key.contains = some k ∧
        seps p xs = ⟨p + k, m⟩ :: seps (p + k + 1) (xs.drop (k + 1)) := by
  induction xs generalizing p with
  | nil => exact .inl ⟨rfl, rfl⟩
  | cons c xs ih =>
    cases hm : mark? c with
    | some m =>
      refine .inr ⟨0, m, ?_, ?_⟩
      · rw [List.findIdx?_cons, key_contains, hm]
        rfl
      · simp [seps, hm]
    | none =>
      simp only [List.findIdx?_cons, key_contains, hm, Option.isSome_none, Bool.false_eq_true,
        if_false, seps]
      rcases ih (p + 1) with ⟨hnone, hnil⟩ | ⟨k, m, hk, hcons⟩
      · exact .inl ⟨by simp [hnone], hnil⟩
      · refine .inr ⟨k + 1, m, by simp [hk], ?_⟩
        rw [hcons, List.drop_succ_cons, Nat.add_right_comm p 1 k, Nat.add_assoc p k 1]

namespace Buf

theorem cstr_of_line {m : Buf} (h : 0 ∉ m) (p : Nat) : m.cstr p = m.drop p := by
  apply List.takeWhile_eq_self_iff.mpr
  intro c hc
  have hne : c ≠ 0 := fun h0 => h (h0 ▸ List.mem_of_mem_drop hc)
  simpa using hne

end Buf

theorem findBrk_eq {str : Buf} (h : 0 ∉ str) (n p : Nat) :
    findBrk str key n (strpbrk str p key) = ((seps p (str.drop p)).take n).map (·.pos) := by
  induction n generalizing p with
  | zero => simp [findBrk]
  | succ n ih =>
    rw [strpbrk, Buf.cstr_of_line h]
    rcases seps_first p (str.drop p) with ⟨hnone, hnil⟩ | ⟨k, m, hk, hcons⟩
    · simp [hnone, hnil, findBrk]
    · rw [hk, hcons, Option.map_some, findBrk, ih, List.drop_drop, Nat.add_assoc p k 1]
      rfl

theorem pos_getD {S : List Sep} (h : S[i]? = some s) : (S.map (·.pos)).getD i 0 = s.pos := by
  simp [List.getD_eq_getElem?_getD, h]

theorem pos_deref {S : List Sep} (h : S[i]? = some s) (m : Buf) :
    deref (S.map (·.pos)) m i = .ok (m.peek s.pos) := by
  simp [deref, h]

namespace Line

variable {line : Line}

def places (line : Line) : List Nat := line.brk.map (·.pos)

theorem pbrk_eq (line : Line) : pbrk line.val = line.places := findBrk_eq line.property _ 0

@[simp] theorem places_length (line : Line) : line.places.length = line.brk.length :=
  List.length_map ..

theorem places_getD (h : line.brk[i]? = some s) : line.places.getD i 0 = s.pos := pos_getD h

theorem places_head (h : line.brk = ⟨f, m⟩ :: r) : line.places.getD 0 0 = f := by
  rw [places, h]
  rfl

theorem brk_sorted (line : Line) : line.brk.Pairwise (·.pos < ·.pos) :=
  (seps_sorted 0 line.val).take

theorem brk_get (hs : s ∈ line.brk) : line.val[s.pos]? = some s.mark.byte :=
  seps_get (p := 0) (List.mem_of_mem_take hs)

theorem brk_peek (hs : s ∈ line.brk) : Buf.peek line.val s.pos = s.mark.byte := by
  rw [Buf.peek, List.getD_eq_getElem?_getD, brk_get hs]
  rfl

end Line

end Mangoxx.Fcmd
