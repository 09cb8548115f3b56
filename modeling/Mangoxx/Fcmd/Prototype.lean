import Mangoxx.Fcmd.Exec
import Mangoxx.Fcmd.CallLine
import Mathlib.Data.List.DropRight

namespace Mangoxx.Fcmd

def isGap (c : UInt8) : Bool := c = ' '.toUInt8 ∨ c = '*'.toUInt8 ∨ c = '\t'.toUInt8

/-- `ret name(params)`; `gap` is the last character of the return type. -/
structure Proto where
  ret : List UInt8
  gap : UInt8
  name : List UInt8
  params : List UInt8
  gap_isGap : isGap gap
  name_ne_nil : name ≠ []
  name_word : ∀ c ∈ name, isGap c = false
  noOpen : '('.toUInt8 ∉ ret ++ name
  noNul : 0 ∉ ret ++ name ++ params

def Proto.text (p : Proto) : Line where
  val := p.ret ++ p.gap :: (p.name ++ '('.toUInt8 :: (p.params ++ [')'.toUInt8]))
  property := by
    have hgap : (0 : UInt8) ≠ p.gap := by
      intro h
      have := p.gap_isGap
      rw [← h] at this
      cases this
    have hne : (0 : UInt8) ≠ '('.toUInt8 ∧ (0 : UInt8) ≠ ')'.toUInt8 := by decide
    have hnul := p.noNul
    simp only [List.mem_append, not_or] at hnul
    simp [hnul, hgap, hne]

section ScanBack

variable {m A B R : List UInt8} {skip : UInt8 → Bool}

theorem scanBack_stop (hm : m = A ++ c :: (B ++ R)) (hn : n = A.length + 1 + B.length)
    (hc : skip c = false) (hB : ∀ b ∈ B, skip b = true) : scanBack m skip n = .ok A.length := by
  subst hm hn
  induction B using List.reverseRecOn generalizing R with
  | nil => simp [scanBack, Buf.peek, hc]
  | append_singleton B b ih =>
    have hpeek : Buf.peek (A ++ c :: (B ++ b :: R)) (A.length + 1 + B.length) = b := by
      simp [Buf.peek, List.getD_eq_getElem?_getD, Nat.add_assoc, Nat.add_comm 1]
    rw [List.append_assoc, List.singleton_append, List.length_append, List.length_singleton,
      ← Nat.add_assoc, scanBack, hpeek, if_pos (hB b (by simp))]
    exact ih fun b' hb' => hB b' (by simp [hb'])

theorem scanBack_underrun (hm : m = B ++ R) (hB : ∀ b ∈ B, skip b = true) :
    scanBack m skip B.length = .error .line := by
  subst hm
  induction B using List.reverseRecOn generalizing R with
  | nil => rfl
  | append_singleton B b ih =>
    have hpeek : Buf.peek (B ++ b :: R) B.length = b := by
      simp [Buf.peek, List.getD_eq_getElem?_getD]
    rw [List.append_assoc, List.singleton_append, List.length_append, List.length_singleton,
      scanBack, hpeek, if_pos (hB b (by simp))]
    exact ih fun b' hb' => hB b' (by simp [hb'])

end ScanBack

theorem Proto.paren (p : Proto) :
    p.text.val.findIdx? (· = '('.toUInt8) = some (p.ret.length + 1 + p.name.length) := by
  have hgap : p.gap ≠ '('.toUInt8 := by
    intro h
    have := p.gap_isGap
    rw [h] at this
    cases this
  have hopen := p.noOpen
  simp only [List.mem_append, not_or] at hopen
  have hret : p.ret.findIdx? (· = '('.toUInt8) = none := by
    rw [List.findIdx?_eq_none_iff]
    intro c hc
    simpa using fun h : c = '('.toUInt8 => hopen.1 (h ▸ hc)
  have hname : p.name.findIdx? (· = '('.toUInt8) = none := by
    rw [List.findIdx?_eq_none_iff]
    intro c hc
    simpa using fun h : c = '('.toUInt8 => hopen.2 (h ▸ hc)
  rw [Proto.text, List.findIdx?_append, hret, List.findIdx?_cons, List.findIdx?_append, hname,
    List.findIdx?_cons]
  simp [hgap]
  omega

/-- `get_fname` finds the name of a prototype; its length is cut off to eight bits. -/
theorem Proto.getFname (p : Proto) :
    getFname p.text.val = .ok (p.ret.length + 1, p.name.length % 256) := by
  rcases List.eq_nil_or_concat p.name with hnil | ⟨init, last, hname⟩
  · exact absurd hnil p.name_ne_nil
  have hlast := p.name_word last (by simp [hname])
  have htext : p.text.val = p.ret ++ p.gap ::
      (init ++ last :: '('.toUInt8 :: (p.params ++ [')'.toUInt8])) := by
    simp [Proto.text, hname]
  have hlen : (p.ret ++ p.gap :: init).length = p.ret.length + 1 + init.length := by
    simp only [List.length_append, List.length_cons]
    omega
  have hend : scanBack p.text.val (fun c => c = ' '.toUInt8 ∨ c = '\t'.toUInt8)
      (p.ret.length + 1 + p.name.length) = .ok (p.ret.length + 1 + init.length) := by
    rw [hname, List.length_concat, ← Nat.add_assoc, ← hlen]
    apply scanBack_stop (B := []) (htext.trans (List.append_assoc p.ret (p.gap :: init) _).symm) rfl
    · simp only [isGap, decide_eq_false_iff_not] at hlast ⊢
      tauto
    · nofun
  have hhead : scanBack p.text.val
      (fun c => c ≠ ' '.toUInt8 ∧ c ≠ '*'.toUInt8 ∧ c ≠ '\t'.toUInt8)
      (p.ret.length + 1 + init.length + 1) = .ok p.ret.length := by
    apply scanBack_stop (B := p.name) rfl
    · rw [hname, List.length_concat, Nat.add_assoc]
    · have hgap := p.gap_isGap
      simp only [isGap, decide_eq_true_eq] at hgap
      simp only [decide_eq_false_iff_not]
      tauto
    · intro c hc
      simpa [isGap] using p.name_word c hc
  have hnum : p.ret.length + 1 + init.length + 1 - (p.ret.length + 1) = p.name.length := by
    rw [hname, List.length_concat]
    omega
  rw [Fcmd.getFname, p.paren]
  simp only [bind, Except.bind]
  rw [hend]
  simp only
  rw [hhead]
  simp only [hnum]
  rfl

def Taken (name t : List UInt8) : Prop :=
  let n := max (t.length % 256) (name.length % 256)
  n ≤ t.length ∧ n ≤ name.length ∧ t.take n = name.take n

instance (name t : List UInt8) : Decidable (Taken name t) :=
  inferInstanceAs (Decidable (_ ∧ _ ∧ _))

theorem taken_short (hname : name.length < 256) (ht : t.length < 256) :
    Taken name t ↔ name = t := by
  rw [Taken, Nat.mod_eq_of_lt hname, Nat.mod_eq_of_lt ht]
  constructor
  · rintro ⟨hle, hle', htake⟩
    rw [Nat.max_le] at hle hle'
    rw [Nat.le_antisymm hle.2 hle'.1, Nat.max_self] at htake
    rw [List.take_length, ← Nat.le_antisymm hle.2 hle'.1, List.take_length] at htake
    exact htake.symm
  · rintro rfl
    simp

/-- Behind the name stands `(`, which the text does not have; behind the text stand blanks, which
the name does not have. -/
theorem strncmpEq_taken {name t R : List UInt8} (hopen : '('.toUInt8 ∉ t)
    (hblank : ' '.toUInt8 ∉ name) :
    strncmpEq (name ++ '('.toUInt8 :: R) (t ++ blanks k)
      (max (t.length % 256) (name.length % 256)) = true ↔ Taken name t := by
  have hmodt := Nat.mod_le t.length 256
  have hmodn := Nat.mod_le name.length 256
  generalize hn : max (t.length % 256) (name.length % 256) = n
  rw [Taken, hn, strncmpEq, decide_eq_true_eq]
  constructor
  · intro heq
    have hget : ∀ i < n, (name ++ '('.toUInt8 :: R)[i]? = (t ++ blanks k)[i]? := by
      intro i hi
      have hi' := congrArg (·[i]?) heq
      simpa [List.getElem?_take, hi] using hi'
    have hname : n ≤ name.length := by
      by_contra hlt
      have hlen : name.length < t.length := by omega
      have hat := hget name.length (by omega)
      rw [List.getElem?_append_left hlen] at hat
      exact hopen (List.mem_of_getElem? (by simpa using hat.symm))
    have ht : n ≤ t.length := by
      by_contra hlt
      have hlen : t.length < name.length := by omega
      have hat := hget t.length (by omega)
      rw [List.getElem?_append_left hlen, List.getElem?_append_right (Nat.le_refl _)] at hat
      have hmem : name[t.length] ∈ blanks k :=
        List.mem_of_getElem? (hat.symm.trans (List.getElem?_eq_getElem hlen))
      exact hblank (List.eq_of_mem_replicate hmem ▸ List.getElem_mem hlen)
    refine ⟨ht, hname, ?_⟩
    rw [List.take_append_of_le_length hname, List.take_append_of_le_length ht] at heq
    exact heq.symm
  · rintro ⟨ht, hname, heq⟩
    rw [List.take_append_of_le_length hname, List.take_append_of_le_length ht, heq]

section FindCmd

variable {tbl : List (CmdTbl Nat)} {protos : List Proto} {str : Buf} {t : List UInt8}

theorem cstr_split (h : str.cstr 0 = t) : str = t ++ str.dropWhile (· ≠ 0) := by
  rw [← h, Buf.cstr, List.drop_zero, List.takeWhile_append_dropWhile]

theorem pcmdEnd_eq (h : str.cstr 0 = t ++ blanks k) (ht : t ≠ [])
    (hlast : ∀ c ∈ t.getLast?, c ≠ ' '.toUInt8) :
    scanBack str (· = ' '.toUInt8) (str.cstr 0).length = .ok (t.length - 1) := by
  rcases List.eq_nil_or_concat t with rfl | ⟨A, c, rfl⟩
  · exact absurd rfl ht
  have hsplit : str = A ++ c :: (blanks k ++ str.dropWhile (· ≠ 0)) := by
    simpa using cstr_split h
  have hc : c ≠ ' '.toUInt8 := hlast c (by simp)
  rw [h, List.length_concat, Nat.add_sub_cancel]
  apply scanBack_stop hsplit
  · rw [List.length_append, List.length_concat]
  · simpa using hc
  · intro b hb
    simpa using List.eq_of_mem_replicate hb

theorem pcmdEnd_blanks (h : str.cstr 0 = blanks k) :
    scanBack str (· = ' '.toUInt8) (str.cstr 0).length = .error .line := by
  rw [h]
  apply scanBack_underrun (cstr_split h)
  intro b hb
  simpa using List.eq_of_mem_replicate hb

theorem findCmd_blanks (h : str.cstr 0 = blanks k)
    (hT : tbl.map (·.fname) = protos.map Proto.text) : findCmd str tbl n ≠ .ok (some r) := by
  cases tbl with
  | nil => nofun
  | cons e tbl =>
    cases protos with
    | nil => cases hT
    | cons p protos =>
      obtain ⟨he, -⟩ := List.cons.inj hT
      simp only [findCmd, he, p.getFname, pcmdEnd_blanks h, bind, Except.bind]
      nofun

theorem findCmd_spec (h : str.cstr 0 = t ++ blanks k) (ht : t ≠ [])
    (hlast : ∀ c ∈ t.getLast?, c ≠ ' '.toUInt8) (hopen : '('.toUInt8 ∉ t)
    (hT : tbl.map (·.fname) = protos.map Proto.text) :
    (protos.find? (Taken ·.name t) = none ∧ findCmd str tbl n = .ok none) ∨
      ∃ i e p, findCmd str tbl n = .ok (some (n + i, e)) ∧ e.fname = p.text ∧ protos[i]? = some p ∧
        protos.find? (Taken ·.name t) = some p := by
  induction protos generalizing tbl n with
  | nil =>
    obtain rfl := List.map_eq_nil_iff.mp hT
    exact .inl ⟨rfl, rfl⟩
  | cons p protos ih =>
    cases tbl with
    | nil => cases hT
    | cons e tbl =>
      obtain ⟨he, hT⟩ := List.cons.inj hT
      have hname : p.text.val.drop (p.ret.length + 1) =
          p.name ++ '('.toUInt8 :: (p.params ++ [')'.toUInt8]) := by
        rw [Proto.text, ← List.drop_drop, List.drop_left]
        rfl
      have hlen : t.length - 1 + 1 = t.length := Nat.sub_add_cancel (List.length_pos_iff.mpr ht)
      have hblank : ' '.toUInt8 ∉ p.name := by
        intro hmem
        cases p.name_word _ hmem
      have htaken := strncmpEq_taken (k := k) (R := p.params ++ [')'.toUInt8]) hopen hblank
      simp only [findCmd, he, p.getFname, pcmdEnd_eq h ht hlast, bind, Except.bind, hname, hlen]
      rw [h]
      by_cases hp : Taken p.name t
      · refine .inr ⟨0, e, p, ?_, he, rfl, ?_⟩
        · rw [if_pos (htaken.mpr hp)]
          rfl
        · rw [List.find?_cons_of_pos (by simpa using hp)]
      · rw [if_neg (mt htaken.mp hp), List.find?_cons_of_neg (by simpa using hp)]
        rcases ih hT with hnone | ⟨i, e', p', hfound, hrest⟩
        · exact .inl hnone
        · refine .inr ⟨i + 1, e', p', ?_, hrest⟩
          rw [hfound, Nat.add_assoc, Nat.add_comm 1]

end FindCmd

end Mangoxx.Fcmd
