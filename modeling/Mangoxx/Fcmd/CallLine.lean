import Mangoxx.Fcmd.Limits
import Mathlib.Data.List.Forall2

namespace Mangoxx.Fcmd

open Mangoxx.Lib

structure Name where
  text : List UInt8
  noNul : 0 ∉ text
  noSep : ∀ c ∈ key, c ∉ text

inductive Val
  | int (v : Int) (range : longMin ≤ v ∧ v ≤ longMax)
  | str (s : List UInt8) (noNul : 0 ∉ s) (noQuote : '"'.toUInt8 ∉ s)

def Val.text : Val → List UInt8
  | .int v _ => decimal v
  | .str s _ _ => '"'.toUInt8 :: (s ++ ['"'.toUInt8])

def Val.isStr : Val → Bool
  | .int _ _ => false
  | .str _ _ _ => true

structure Param where
  pad : Nat
  val : Val

def Param.text (p : Param) : List UInt8 := blanks p.pad ++ p.val.text

def argTail : List Param → List UInt8
  | [] => [')'.toUInt8]
  | p :: ps => ','.toUInt8 :: (p.text ++ argTail ps)

def argList : List Param → List UInt8
  | [] => [')'.toUInt8]
  | p :: ps => p.text ++ argTail ps

def callText (w : Name) (pad : Nat) (ps : List Param) : List UInt8 :=
  w.text ++ '('.toUInt8 :: (blanks pad ++ argList ps)

section Characters

theorem decimalNat_mem (hc : c ∈ decimalNat n) : ∃ d < 10, c = (Nat.digitChar d).toUInt8 := by
  induction n using Nat.strong_induction_on with
  | h n ih =>
    rcases Nat.lt_or_ge n 10 with hlt | hge
    · rw [decimalNat_lt hlt] at hc
      exact ⟨n, hlt, List.mem_singleton.mp hc⟩
    · rw [decimalNat_ge hge] at hc
      rcases List.mem_append.mp hc with hc | hc
      · exact ih (n / 10) (by omega) hc
      · exact ⟨n % 10, Nat.mod_lt n (by decide), List.mem_singleton.mp hc⟩

theorem decimal_mem (hc : c ∈ decimal v) : mark? c = none ∧ c ≠ 0 ∧ c ≠ ' '.toUInt8 := by
  have hdigit : ∀ d < 10, mark? (Nat.digitChar d).toUInt8 = none ∧
      (Nat.digitChar d).toUInt8 ≠ 0 ∧ (Nat.digitChar d).toUInt8 ≠ ' '.toUInt8 := by
    decide
  have hnat : ∀ n, c ∈ decimalNat n → mark? c = none ∧ c ≠ 0 ∧ c ≠ ' '.toUInt8 := by
    intro n hn
    obtain ⟨d, hd, rfl⟩ := decimalNat_mem hn
    exact hdigit d hd
  rcases Int.lt_or_le v 0 with hneg | hnonneg
  · rw [decimal_of_neg hneg] at hc
    rcases List.mem_cons.mp hc with rfl | hc
    · decide
    · exact hnat _ hc
  · rw [decimal_of_nonneg hnonneg] at hc
    exact hnat _ hc

theorem decimal_ne_nil (v : Int) : decimal v ≠ [] := by
  rcases Int.lt_or_le v 0 with hneg | hnonneg
  · rw [decimal_of_neg hneg]
    exact List.cons_ne_nil _ _
  · obtain ⟨d, cs, heq, -⟩ := decimalNat_head v.natAbs
    rw [decimal_of_nonneg hnonneg, heq]
    exact List.cons_ne_nil _ _

theorem blanks_mem (hc : c ∈ blanks n) : mark? c = none ∧ c ≠ 0 := by
  obtain rfl := List.eq_of_mem_replicate hc
  decide

@[simp] theorem blanks_length (n : Nat) : (blanks n).length = n := List.length_replicate

theorem blanks_append (n m : Nat) : blanks n ++ blanks m = blanks (n + m) :=
  List.replicate_append_replicate

theorem Name.mark?_none (w : Name) (hc : c ∈ w.text) : mark? c = none := by
  have hkey := key_contains c
  cases h : mark? c with
  | none => rfl
  | some m =>
    rw [h, Option.isSome_some, List.contains_iff_mem] at hkey
    exact absurd hc (w.noSep c hkey)

theorem Val.nul_notMem (v : Val) : 0 ∉ v.text := by
  cases v with
  | int v hv => exact fun h => (decimal_mem h).2.1 rfl
  | str s hnul hquote =>
    have hne : (0 : UInt8) ≠ '"'.toUInt8 := by decide
    simp [Val.text, hnul, hne]

theorem Param.nul_notMem (p : Param) : 0 ∉ p.text := by
  intro h
  rcases List.mem_append.mp h with h | h
  · exact (blanks_mem h).2 rfl
  · exact p.val.nul_notMem h

theorem argTail_nul_notMem (ps : List Param) : 0 ∉ argTail ps := by
  induction ps with
  | nil => decide
  | cons p ps ih =>
    have hne : (0 : UInt8) ≠ ','.toUInt8 := by decide
    simp [argTail, ih, p.nul_notMem, hne]

theorem callText_nul_notMem (w : Name) (pad : Nat) (ps : List Param) :
    0 ∉ callText w pad ps := by
  have hne : (0 : UInt8) ≠ '('.toUInt8 := by decide
  have hne' : (0 : UInt8) ≠ ')'.toUInt8 := by decide
  have hblank : 0 ∉ blanks pad := fun h => (blanks_mem h).2 rfl
  cases ps with
  | nil => simp [callText, argList, w.noNul, hne, hne', hblank]
  | cons p ps =>
    simp [callText, argList, w.noNul, hne, hblank, p.nul_notMem, argTail_nul_notMem]

end Characters

def callLine (w : Name) (pad : Nat) (ps : List Param) : Line :=
  ⟨callText w pad ps, callText_nul_notMem w pad ps⟩

@[simp] theorem callLine_val (w : Name) (pad : Nat) (ps : List Param) :
    (callLine w pad ps).val = callText w pad ps := rfl

section Separators

theorem seps_blanks (p n : Nat) (xs : List UInt8) : seps p (blanks n ++ xs) = seps (p + n) xs := by
  rw [seps_append, seps_eq_nil fun c hc => (blanks_mem hc).1, blanks_length]
  rfl

theorem seps_decimal (p : Nat) (v : Int) (xs : List UInt8) :
    seps p (decimal v ++ xs) = seps (p + (decimal v).length) xs := by
  rw [seps_append, seps_eq_nil fun c hc => (decimal_mem hc).1]
  rfl

theorem seps_mark (p : Nat) (m : Mark) (xs : List UInt8) :
    seps p (m.byte :: xs) = ⟨p, m⟩ :: seps (p + 1) xs := by
  simp [seps]

theorem seps_string (p : Nat) (s xs : List UInt8) :
    seps p ('"'.toUInt8 :: (s ++ ['"'.toUInt8]) ++ xs) =
      ⟨p, .quote⟩ :: (seps (p + 1) s ++
        ⟨p + 1 + s.length, .quote⟩ :: seps (p + 1 + s.length + 1) xs) := by
  rw [List.cons_append, List.append_assoc, List.singleton_append]
  apply (seps_mark p .quote _).trans
  rw [seps_append]
  exact congrArg _ (congrArg _ (seps_mark _ .quote _))

theorem seps_name (w : Name) (xs : List UInt8) : seps 0 (w.text ++ xs) = seps w.text.length xs := by
  rw [seps_append, seps_eq_nil fun c hc => w.mark?_none hc, Nat.zero_add]
  rfl

theorem seps_argTail_cons (p : Nat) (q : Param) (ps : List Param) :
    seps p (argTail (q :: ps)) = ⟨p, .comma⟩ :: seps (p + 1) (q.text ++ argTail ps) :=
  seps_mark p .comma _

theorem seps_argTail_nil (p : Nat) : seps p (argTail []) = [⟨p, .rpar⟩] := seps_mark p .rpar []

theorem seps_callText (w : Name) (pad : Nat) (ps : List Param) :
    seps 0 (callText w pad ps) =
      ⟨w.text.length, .lpar⟩ :: seps (w.text.length + 1) (blanks pad ++ argList ps) := by
  rw [callText, seps_name]
  exact seps_mark _ .lpar _

theorem seps_noQuote {s : List UInt8} (h : '"'.toUInt8 ∉ s) (hx : x ∈ seps p s) :
    x.mark ≠ .quote := by
  intro hq
  have hget := seps_get hx
  rw [hq] at hget
  exact h (List.mem_of_getElem? hget)

theorem stringEnd_text {L : Buf} {S r : List Sep} {q : Nat} (hS : ∀ x ∈ S, x.mark ≠ .quote)
    (hr : ∃ m r', r = ⟨q + 1, m⟩ :: r' ∧ (m = .comma ∨ r' = [])) :
    stringEnd L true (S ++ ⟨q, .quote⟩ :: r) = some (q, r) := by
  induction S with
  | nil =>
    obtain ⟨m, r', rfl, hm⟩ := hr
    have hspan : spanIsspace L (q + 1) (q + 1) = true := by simp [spanIsspace]
    rw [List.nil_append, stringEnd.eq_def]
    rcases hm with rfl | rfl
    · by_cases hlen : r'.length ≤ 0 <;> simp [hspan]
    · simp
  | cons x S ih =>
    have hx : x.mark ≠ .quote := hS x (by simp)
    rw [List.cons_append, stringEnd.eq_def]
    simp only [hx, ne_eq, not_false_eq_true, if_true]
    exact ih fun y hy => hS y (by simp [hy])

end Separators

section Reading

def Shows (line : Buf) (lo : Nat) : Val → Item → Prop
  | .int v _, .int p => lo < p ∧ ∃ k rest, line.drop p = blanks k ++ (decimal v ++ rest) ∧
      ∃ m : Mark, rest.head? = some m.byte
  | .str s _ _, .str p (some q) => lo < p ∧ q = p + s.length ∧
      ∃ rest, line.drop p = s ++ '"'.toUInt8 :: rest
  | _, _ => False

theorem Shows.mono {line : Buf} {lo lo' : Nat} {v : Val} {item : Item} (hle : lo' ≤ lo)
    (h : Shows line lo v item) : Shows line lo' v item := by
  cases v with
  | int v hv =>
    cases item with
    | int p => exact ⟨Nat.lt_of_le_of_lt hle h.1, h.2⟩
    | str p q => exact h.elim
  | str s hnul hquote =>
    cases item with
    | int p => exact h.elim
    | str p q =>
      cases q with
      | none => exact h.elim
      | some q => exact ⟨Nat.lt_of_le_of_lt hle h.1, h.2⟩

def Reads (line : Buf) (first : Bool) (lo : Nat) (ps : List Param) (r : List Sep) : Prop :=
  ∃ items, Reading line first r items .closed ∧
    List.Forall₂ (fun (p : Param) item => Shows line lo p.val item) ps items

theorem argTail_head (ps : List Param) : ∃ m : Mark, (argTail ps).head? = some m.byte := by
  cases ps with
  | nil => exact ⟨.rpar, rfl⟩
  | cons p ps => exact ⟨.comma, rfl⟩

theorem drop_of_drop {line xs ys : Buf} (h : line.drop p = xs ++ ys) :
    line.drop (p + xs.length) = ys := by
  rw [← List.drop_drop, h, List.drop_left]

theorem seps_argTail (p : Nat) (ps : List Param) :
    ∃ m r, seps p (argTail ps) = ⟨p, m⟩ :: r ∧ (m = .comma ∨ (m = .rpar ∧ r = [] ∧ ps = [])) := by
  cases ps with
  | nil => exact ⟨.rpar, [], seps_argTail_nil p, .inr ⟨rfl, rfl, rfl⟩⟩
  | cons q ps => exact ⟨.comma, _, seps_argTail_cons p q ps, .inl rfl⟩

theorem reads_param {line : Buf} {first : Bool} {a : Sep} {k : Nat} {p : Param} {ps : List Param}
    (hdrop : line.drop (a.pos + 1) = blanks k ++ (p.text ++ argTail ps))
    (ha : first = true ∨ a.mark = .comma) (hone : first = true → ps = [] → p.val.isStr = true)
    (htail : ∀ q, a.pos < q → line.drop q = argTail ps →
      Reads line false a.pos ps (seps q (argTail ps))) :
    Reads line first a.pos (p :: ps)
      (a :: seps (a.pos + 1) (blanks k ++ (p.text ++ argTail ps))) := by
  obtain ⟨pad, val⟩ := p
  rw [Param.text, List.append_assoc, ← List.append_assoc, blanks_append] at hdrop ⊢
  dsimp only at hdrop hone ⊢
  have hplace := drop_of_drop hdrop
  rw [blanks_length] at hplace
  rw [seps_blanks]
  cases val with
  | int v hv =>
    rw [Val.text] at hdrop hplace ⊢
    have hnext := drop_of_drop hplace
    rw [seps_decimal]
    obtain ⟨m, r, hseps, hm⟩ := seps_argTail (a.pos + 1 + (k + pad) + (decimal v).length) ps
    obtain ⟨items, hread, hshows⟩ := htail _ (by omega) hnext
    rw [hseps] at hread ⊢
    refine ⟨.int (a.pos + 1) :: items, .int ?_ hread, .cons ?_ hshows⟩
    · cases first with
      | true =>
        rcases hm with rfl | ⟨-, -, hps⟩
        · rfl
        · cases hone rfl hps
      | false =>
        have hcomma : a.mark = .comma := by simpa using ha
        exact ⟨hcomma, hm.imp_right And.left⟩
    · exact ⟨Nat.lt_succ_self _, k + pad, argTail ps, hdrop, argTail_head ps⟩
  | str s hnul hquote =>
    rw [Val.text] at hplace ⊢
    rw [seps_string]
    have hopen : line.drop (a.pos + 1 + (k + pad) + 1) = s ++ '"'.toUInt8 :: argTail ps := by
      rw [← List.drop_drop, hplace]
      simp
    have hnext : line.drop (a.pos + 1 + (k + pad) + 1 + s.length + 1) = argTail ps := by
      rw [← List.drop_drop, drop_of_drop hopen]
      rfl
    obtain ⟨items, hread, hshows⟩ := htail _ (by omega) hnext
    obtain ⟨m, r, hseps, hm⟩ := seps_argTail (a.pos + 1 + (k + pad) + 1 + s.length + 1) ps
    have hinner : ∀ x ∈ seps (a.pos + 1 + (k + pad) + 1) s, x.mark ≠ .quote :=
      fun x hx => seps_noQuote hquote hx
    have hend := stringEnd_text (L := line) hinner ⟨m, r, hseps, hm.imp_right fun h => h.2.1⟩
    refine ⟨_, .str ⟨ha, rfl⟩ hend hread, .cons ?_ hshows⟩
    exact ⟨by dsimp only; omega, rfl, argTail ps, hopen⟩

theorem reads_tail {line : Buf} {lo q : Nat} {ps : List Param} (hlo : lo < q)
    (hdrop : line.drop q = argTail ps) : Reads line false lo ps (seps q (argTail ps)) := by
  induction ps generalizing lo q with
  | nil =>
    rw [seps_argTail_nil]
    exact ⟨[], .closed (Nat.le_refl 1), .nil⟩
  | cons p ps ih =>
    have hnext : line.drop (q + 1) = blanks 0 ++ (p.text ++ argTail ps) := by
      rw [← List.drop_drop, hdrop]
      rfl
    have hparam : Reads line false q (p :: ps)
        (⟨q, .comma⟩ :: seps (q + 1) (blanks 0 ++ (p.text ++ argTail ps))) :=
      reads_param (a := ⟨q, .comma⟩) hnext (.inr rfl) nofun fun _ => ih
    obtain ⟨items, hread, hshows⟩ := hparam
    rw [seps_argTail_cons]
    exact ⟨items, hread, hshows.imp fun _ _ => Shows.mono (Nat.le_of_lt hlo)⟩

/-- Every command line but one with a single number is read argument by argument. -/
theorem reads_callText {line : Buf} {w : Name} {pad : Nat} {p : Param} {ps : List Param}
    (hline : line = callText w pad (p :: ps)) (hone : ps = [] → p.val.isStr = true) :
    Reads line true w.text.length (p :: ps) (seps 0 line) := by
  have hdrop : line.drop (w.text.length + 1) = blanks pad ++ (p.text ++ argTail ps) := by
    rw [hline, callText, ← List.drop_drop, List.drop_left]
    rfl
  rw [hline, seps_callText, ← hline]
  exact reads_param (a := ⟨w.text.length, .lpar⟩) hdrop (.inl rfl) (fun _ => hone)
    fun _ => reads_tail

end Reading

section Counting

theorem seps_length (p : Nat) (xs : List UInt8) : (seps p xs).length = xs.countP key.contains := by
  induction xs generalizing p with
  | nil => rfl
  | cons c xs ih =>
    rw [List.countP_cons, key_contains, ← ih (p + 1), seps]
    cases mark? c <;> rfl

def quoteCnt (S : List Sep) : Nat := S.countP (·.mark = .quote)

theorem quoteCnt_append (S T : List Sep) : quoteCnt (S ++ T) = quoteCnt S + quoteCnt T :=
  List.countP_append

theorem quoteCnt_text {s : List UInt8} (h : '"'.toUInt8 ∉ s) : quoteCnt (seps p s) = 0 := by
  apply List.countP_eq_zero.mpr
  intro x hx
  simpa using seps_noQuote h hx

theorem seps_val (p : Nat) (v : Val) :
    (v.isStr = false → seps p v.text = []) ∧
      quoteCnt (seps p v.text) = if v.isStr then 2 else 0 := by
  cases v with
  | int v hv =>
    have hnil : seps p (Val.int v hv).text = [] := seps_eq_nil fun c hc => (decimal_mem hc).1
    exact ⟨fun _ => hnil, by rw [hnil]; rfl⟩
  | str s hnul hquote =>
    refine ⟨nofun, ?_⟩
    have hstring := seps_string p s []
    rw [List.append_nil] at hstring
    rw [Val.text, hstring, quoteCnt, List.countP_cons, ← quoteCnt, quoteCnt_append,
      quoteCnt_text hquote]
    rfl

theorem seps_param (q : Nat) (p : Param) (ps : List Param) :
    seps q (p.text ++ argTail ps) =
      seps (q + p.pad) p.val.text ++ seps (q + p.text.length) (argTail ps) := by
  rw [seps_append, Param.text, seps_blanks]

theorem quoteCnt_argTail (p : Nat) (ps : List Param) :
    quoteCnt (seps p (argTail ps)) = 2 * ps.countP (·.val.isStr) := by
  induction ps generalizing p with
  | nil =>
    rw [seps_argTail_nil]
    rfl
  | cons q ps ih =>
    rw [seps_argTail_cons, seps_param, quoteCnt, List.countP_cons, ← quoteCnt, quoteCnt_append,
      (seps_val _ q.val).2, ih, List.countP_cons]
    cases q.val.isStr with
    | false => simp
    | true =>
      simp
      omega

theorem length_argTail (p : Nat) {ps : List Param} (h : ∀ q ∈ ps, q.val.isStr = false) :
    (seps p (argTail ps)).length = ps.length + 1 := by
  induction ps generalizing p with
  | nil =>
    rw [seps_argTail_nil]
    rfl
  | cons q ps ih =>
    have hrest := ih (p + 1 + q.text.length) fun q' hq' => h q' (by simp [hq'])
    rw [seps_argTail_cons, seps_param, (seps_val _ q.val).1 (h q (by simp)), List.nil_append,
      List.length_cons, hrest, List.length_cons]

theorem last_argTail (p : Nat) (ps : List Param) :
    ∃ z ∈ (seps p (argTail ps)).getLast?, z.mark = .rpar := by
  induction ps generalizing p with
  | nil =>
    rw [seps_argTail_nil]
    exact ⟨_, rfl, rfl⟩
  | cons q ps ih =>
    obtain ⟨z, hz, hmark⟩ := ih (p + 1 + q.text.length)
    refine ⟨z, ?_, hmark⟩
    rw [seps_argTail_cons, seps_param, List.getLast?_cons, List.getLast?_append]
    simp [Option.mem_def.mp hz]

end Counting


end Mangoxx.Fcmd
