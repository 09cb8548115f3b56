import Mangoxx.Lzo.Format

namespace Mangoxx.Lzo

open Lib Lib.Program Lz77

section Parts

/-- The bytes written so far stand for the first `k` bytes of the text and end with a match. -/
def Written (text : List UInt8) (k : Nat) (out : List UInt8) : Prop :=
  k ≤ text.length ∧
    (out = [] ∧ k = 0 ∨
      ∃ first ps p, 4 ≤ first.length ∧ first.length ≤ 2 ^ 32 - 511 ∧
        AllFit first (ps ++ [p]) ∧ (∀ q ∈ ps ++ [p], Codable q ∧ Short q) ∧ p.lits = [] ∧
        out = Source.runHeader first.length ++ first ++ (ps ++ [p]).flatMap pieceBytes ∧
        text.take k = expand first (ps ++ [p]))

def orLast (out : List UInt8) (t : Nat) : List UInt8 :=
  out.modify (out.length - 2) (· ||| UInt8.ofNat t)

def withLiterals (out lits : List UInt8) : List UInt8 :=
  if lits.length = 0 then out
  else if lits.length ≤ 3 then orLast out lits.length ++ lits
  else out ++ Source.runHeader lits.length ++ lits

def withLast (out lits : List UInt8) : List UInt8 :=
  if out = [] ∧ lits.length ≤ 238 ∧ lits.length ≠ 0 then shortBytes lits else withLiterals out lits

theorem modify_right (front bytes : List UInt8) (i : Nat) (f : UInt8 → UInt8) :
    (front ++ bytes).modify (front.length + i) f = front ++ bytes.modify i f := by
  induction front with
  | nil => simp
  | cons b front ih =>
    rw [List.length_cons, Nat.add_right_comm]
    simp [ih]

theorem orLast_append (front : List UInt8) {bytes : List UInt8} (h : 2 ≤ bytes.length) (t : Nat) :
    orLast (front ++ bytes) t = front ++ orLast bytes t := by
  have hplace : (front ++ bytes).length - 2 = front.length + (bytes.length - 2) := by
    rw [List.length_append]
    omega
  rw [orLast, hplace, modify_right, orLast]

theorem pieceBytes_none {p : Piece UInt8} (h : p.lits = []) :
    pieceBytes p = Source.matchBytes p.len p.off := by
  have hzero : (fun x : UInt8 => x ||| UInt8.ofNat 0) = id := by
    funext x
    exact UInt8.or_zero
  rw [pieceBytes, h, tagged, runBytes, List.length_nil, hzero, List.modify_id]
  exact List.append_nil _

theorem pieceBytes_lits {p : Piece UInt8} (h : p.lits = []) (lits : List UInt8) :
    pieceBytes { p with lits := lits } = withLiterals (pieceBytes p) lits := by
  rw [pieceBytes_none h, withLiterals]
  split
  · rename_i hzero
    rw [List.length_eq_zero_iff.mp hzero]
    exact pieceBytes_none rfl
  split
  · rename_i hfew
    rw [pieceBytes, tagged, runBytes]
    simp only [if_pos hfew]
    rfl
  · rename_i hmany
    rw [pieceBytes, tagged, runBytes]
    simp only [if_neg hmany, List.append_assoc]

theorem withLiterals_append (front : List UInt8) {bytes : List UInt8} (h : 2 ≤ bytes.length)
    (lits : List UInt8) :
    withLiterals (front ++ bytes) lits = front ++ withLiterals bytes lits := by
  simp only [withLiterals, orLast_append front h]
  split
  · rfl
  split <;> simp only [List.append_assoc]

theorem pieceBytes_length {p : Piece UInt8} (h : p.lits = []) : 2 ≤ (pieceBytes p).length := by
  rw [pieceBytes_none h]
  exact matchBytes_length p.len p.off

variable {text out : List UInt8} {k t len off : Nat}

theorem Written.literals (h : Written text k out) (hout : out ≠ [])
    (hsize : text.length ≤ 2 ^ 32 - 511) :
    ∃ first qs, 4 ≤ first.length ∧ first.length ≤ 2 ^ 32 - 511 ∧ AllFit first qs ∧
      (∀ q ∈ qs, Codable q ∧ Short q) ∧
      withLiterals out ((text.drop k).take t) =
        Source.runHeader first.length ++ first ++ qs.flatMap pieceBytes ∧
      text.take (k + t) = expand first qs := by
  obtain ⟨-, ⟨hnone, -⟩ | ⟨first, ps, p, hfour, hfirst, hfit, hcodes, hlits, hbytes, htext⟩⟩ := h
  · exact absurd hnone hout
  · have hlength : ((text.drop k).take t).length ≤ 2 ^ 32 - 511 := by
      rw [List.length_take, List.length_drop]
      exact Nat.le_trans (Nat.min_le_right _ _) (Nat.le_trans (Nat.sub_le _ _) hsize)
    have hp := hcodes p (by simp)
    have hall := allFit_append.mp hfit
    refine ⟨first, ps ++ [{ p with lits := (text.drop k).take t }], hfour, hfirst,
      allFit_append.mpr ⟨hall.1, hall.2.1, trivial⟩, ?_, ?_, ?_⟩
    · intro q hq
      rcases List.mem_append.mp hq with hq | hq
      · exact hcodes q (by simp [hq])
      · rw [List.mem_singleton.mp hq]
        exact ⟨⟨hp.1.len_ge, hp.1.off_pos, hp.1.off_le⟩, hp.2.1, hlength⟩
    · simp only [List.flatMap_append, List.flatMap_singleton] at hbytes ⊢
      rw [pieceBytes_lits hlits, hbytes, ← List.append_assoc,
        withLiterals_append _ (pieceBytes_length hlits), ← List.append_assoc]
    · rw [List.take_add, htext]
      simp [Piece.extend, hlits]

theorem Written.piece (h : Written text k out) (hstart : out = [] → 4 ≤ t)
    (hend : k + t + len ≤ text.length)
    (hsize : text.length ≤ 2 ^ 32 - 511) (hlen : 4 ≤ len) (hoff : 1 ≤ off ∧ off ≤ 0xbfff)
    (hback : off ≤ k + t) (hsame : ∀ i < len, text[k + t + i]? = text[k + t + i - off]?) :
    Written text (k + t + len)
      (withLiterals out ((text.drop k).take t) ++ Source.matchBytes len off) := by
  have hall : ∃ first qs, 4 ≤ first.length ∧ first.length ≤ 2 ^ 32 - 511 ∧ AllFit first qs ∧
      (∀ q ∈ qs, Codable q ∧ Short q) ∧
      withLiterals out ((text.drop k).take t) =
        Source.runHeader first.length ++ first ++ qs.flatMap pieceBytes ∧
      text.take (k + t) = expand first qs := by
    by_cases hout : out = []
    · obtain ⟨-, ⟨-, rfl⟩ | ⟨first, ps, p, -, -, -, -, hlits, hbytes, -⟩⟩ := h
      · have hfour := hstart hout
        have hlength : (text.take t).length = t := List.length_take_of_le (by omega)
        refine ⟨text.take t, [], by omega, by omega, trivial, by simp, ?_, by simp⟩
        rw [hout, withLiterals, List.drop_zero, hlength, if_neg (by omega), if_neg (by omega)]
        simp
      · have hlength := congrArg List.length (hout.symm.trans hbytes)
        have htwo := pieceBytes_length hlits
        simp only [List.flatMap_append, List.flatMap_singleton, List.length_append,
          List.length_nil] at hlength
        omega
    · exact h.literals hout hsize
  obtain ⟨first, qs, hfour, hfirst, hfit, hcodes, hbytes, htext⟩ := hall
  have hlength : (expand first qs).length = k + t := by
    rw [← htext]
    exact List.length_take_of_le (by omega)
  refine ⟨hend, .inr ⟨first, qs, ⟨off, len, []⟩, hfour, hfirst,
    allFit_append.mpr ⟨hfit, ⟨hoff.1, by rw [hlength]; exact hback⟩, trivial⟩, ?_, rfl, ?_, ?_⟩⟩
  · intro q hq
    rcases List.mem_append.mp hq with hq | hq
    · exact hcodes q hq
    · rw [List.mem_singleton.mp hq]
      exact ⟨⟨hlen, hoff.1, hoff.2⟩, Nat.le_trans (show len ≤ text.length by omega) hsize,
        Nat.zero_le _⟩
  · rw [hbytes, List.flatMap_append, List.flatMap_singleton, pieceBytes_none rfl,
      ← List.append_assoc]
  · rw [expand_append, ← htext]
    simp only [expand_cons, expand_nil, Piece.extend, List.append_nil]
    exact (copyBehind_take hoff.1 hback hend hsame).symm

theorem Written.finish (h : Written text k out) (hend : k + t = text.length)
    (hsize : text.length ≤ 2 ^ 32 - 511) :
    Encodes (withLast out (text.drop k) ++ endMark) text := by
  have hrest : (text.drop k).take t = text.drop k :=
    List.take_of_length_le (by rw [List.length_drop]; omega)
  have hlast : (text.drop k).length = t := by
    rw [List.length_drop]
    omega
  rw [withLast, hlast]
  by_cases hout : out = []
  · obtain ⟨-, ⟨-, rfl⟩ | ⟨first, ps, p, -, -, -, -, hlits, hbytes, -⟩⟩ := h
    · rw [List.drop_zero] at hlast ⊢
      by_cases hzero : t = 0
      · have hnone : text = [] := List.length_eq_zero_iff.mp (by omega)
        subst hnone
        rw [if_neg (by tauto), hout]
        exact ⟨[], [], [], .inl ⟨rfl, rfl, rfl⟩, by decide,
          trivial, by simp, by simp [withLiterals], rfl⟩
      · by_cases hshort : t ≤ 238
        · rw [if_pos ⟨hout, hshort, hzero⟩]
          exact ⟨text, [], shortBytes text, .inr (.inr ⟨by omega, by omega, rfl⟩), hsize,
            trivial, by simp, by simp, rfl⟩
        · rw [if_neg (by tauto), hout, withLiterals, if_neg (by omega), if_neg (by omega)]
          exact ⟨text, [], _, .inr (.inl ⟨by omega, rfl⟩), hsize, trivial, by simp, by simp, rfl⟩
    · have hlength := congrArg List.length (hout.symm.trans hbytes)
      have htwo := pieceBytes_length hlits
      simp only [List.flatMap_append, List.flatMap_singleton, List.length_append,
        List.length_nil] at hlength
      omega
  · obtain ⟨first, qs, hfour, hfirst, hfit, hcodes, hbytes, htext⟩ :=
      h.literals (t := t) hout hsize
    rw [hrest] at hbytes
    rw [if_neg fun hnone => hout hnone.1, hbytes]
    refine ⟨first, qs, _, .inr (.inl ⟨hfour, rfl⟩), hfirst, hfit, hcodes, rfl, ?_⟩
    rw [← htext, hend, List.take_length]

theorem Written.two_le (h : Written text k out) (hout : out ≠ []) : 2 ≤ out.length := by
  obtain ⟨-, ⟨hnone, -⟩ | ⟨first, ps, p, -, -, -, -, hlits, rfl, -⟩⟩ := h
  · exact absurd hnone hout
  · have htwo := pieceBytes_length hlits
    simp only [List.flatMap_append, List.flatMap_singleton, List.length_append]
    omega

end Parts

section Programs

variable {src : Source} {w : Work}

theorem byteAt_eq {place : Nat} (h : src.input[place]? = some byte) :
    src.byteAt place w = .ok byte w := by
  rw [Source.byteAt, h]
  rfl

theorem emit_eq (bytes : List UInt8) :
    Source.emit bytes w = .ok () { w with out := w.out ++ bytes } := rfl

theorem copyLiterals_eq {ii t : Nat} (h : ii + t ≤ src.input.length) :
    src.copyLiterals ii t w = .ok () { w with out := w.out ++ (src.input.drop ii).take t } := by
  induction t generalizing ii w with
  | zero =>
    rw [List.take_zero, List.append_nil]
    rfl
  | succ t ih =>
    have hin : ii < src.input.length := by omega
    rw [Source.copyLiterals, bind_ok (byteAt_eq (List.getElem?_eq_getElem hin)),
      bind_ok (emit_eq _), ih (by omega), List.drop_eq_getElem_cons hin,
      List.take_succ_cons]
    simp

theorem literals_eq {ii t : Nat} (h : ii + t ≤ src.input.length) (htwo : w.out = [] → 4 ≤ t)
    (hout : w.out ≠ [] → 2 ≤ w.out.length) :
    src.literals ii t w =
      .ok () { w with out := withLiterals w.out ((src.input.drop ii).take t) } := by
  have hlength : ((src.input.drop ii).take t).length = t := by
    rw [List.length_take, List.length_drop]
    omega
  rw [Source.literals, withLiterals, hlength]
  by_cases hzero : t = 0
  · rw [if_neg (not_not.mpr hzero), if_pos hzero]
    rfl
  · rw [if_pos hzero, if_neg hzero]
    split
    · have hlong : ¬ w.out.length < 2 := by
        have := hout fun hnone => by have := htwo hnone; omega
        omega
      have hor : Source.orBack t w = .ok () { w with out := orLast w.out t } := by
        rw [Source.orBack, bind_ok (get_eq w), if_neg hlong]
        rfl
      rw [bind_ok hor, copyLiterals_eq h]
    · rw [bind_ok (emit_eq _), copyLiterals_eq h]

def wordAt (text : List UInt8) (p : Nat) (h : p + 4 ≤ text.length) : BitVec 32 :=
  text[p + 3].toBitVec ++ text[p + 2].toBitVec ++ text[p + 1].toBitVec ++ text[p].toBitVec

theorem getLE32_eq {place : Nat} (h : place + 4 ≤ src.input.length) :
    src.getLE32 place w = .ok (wordAt src.input place h) w := by
  rw [Source.getLE32, bind_ok (byteAt_eq (List.getElem?_eq_getElem _)),
    bind_ok (byteAt_eq (List.getElem?_eq_getElem _)),
    bind_ok (byteAt_eq (List.getElem?_eq_getElem _)),
    bind_ok (byteAt_eq (List.getElem?_eq_getElem _))]
  rfl

theorem append_bits_inj {m n : Nat} {a b : BitVec m} {x y : BitVec n} (h : a ++ x = b ++ y) :
    a = b ∧ x = y := by
  have hbit (i : Nat) := congrArg (BitVec.getLsbD · i) h
  simp only [BitVec.getLsbD_append] at hbit
  constructor
  · apply BitVec.eq_of_getLsbD_eq
    intro i hi
    have hhigh : ¬ i + n < n := by omega
    simpa [hhigh] using hbit (i + n)
  · apply BitVec.eq_of_getLsbD_eq
    intro i hi
    simpa [hi] using hbit i

theorem wordAt_inj {text : List UInt8} {p q : Nat} (hp : p + 4 ≤ text.length)
    (hq : q + 4 ≤ text.length) (h : wordAt text p hp = wordAt text q hq) :
    ∀ i < 4, text[p + i]? = text[q + i]? := by
  obtain ⟨h, h0⟩ := append_bits_inj h
  obtain ⟨h, h1⟩ := append_bits_inj h
  obtain ⟨h3, h2⟩ := append_bits_inj h
  intro i hi
  have hpi : p + i < text.length := by omega
  have hqi : q + i < text.length := by omega
  rw [List.getElem?_eq_getElem hpi, List.getElem?_eq_getElem hqi]
  obtain rfl | rfl | rfl | rfl : i = 0 ∨ i = 1 ∨ i = 2 ∨ i = 3 := by omega
  · exact congrArg some (UInt8.toBitVec_inj.mp h0)
  · exact congrArg some (UInt8.toBitVec_inj.mp h1)
  · exact congrArg some (UInt8.toBitVec_inj.mp h2)
  · exact congrArg some (UInt8.toBitVec_inj.mp h3)

end Programs

section Search

variable {src : Source} {w₀ : Work} {ip mPos ipEnd base len : Nat}

/-- What is known of a match while it is extended: the end is looked at after every eighth byte. -/
structure Extends (src : Source) (w₀ : Work) (ip mPos ipEnd mLen : Nat) (w : Work) : Prop where
  work_eq : w = w₀
  four_le : 4 ≤ mLen
  before_end : ip + mLen < ipEnd + (mLen - 4) % 8 + 4
  same : ∀ i < mLen, src.input[ip + i]? = src.input[mPos + i]?

structure Extended (src : Source) (w₀ : Work) (ip mPos ipEnd mLen : Nat) (w : Work) : Prop where
  work_eq : w = w₀
  four_le : 4 ≤ mLen
  le_end : ip + mLen ≤ ipEnd + 12
  same : ∀ i < mLen, src.input[ip + i]? = src.input[mPos + i]?

theorem extendTurn_post (hend : ipEnd + 20 ≤ src.input.length) (hback : mPos < ip) (mLen : Nat)
    (w : Work) (h : Extends src w₀ ip mPos ipEnd mLen w) :
    Post (TurnPost (Extends src w₀ ip mPos ipEnd) (Extended src w₀ ip mPos ipEnd)
      (fun mLen _ => ipEnd + 20 - mLen) (ipEnd + 20 - mLen)) (fun _ _ => False)
      (src.extendTurn ip mPos ipEnd mLen w) := by
  have hfour := h.four_le
  have hbefore := h.before_end
  have hmod := Nat.mod_lt (mLen - 4) (show 0 < 8 by decide)
  have hip : ip + mLen < src.input.length := by omega
  have hpos : mPos + mLen < src.input.length := by omega
  rw [Source.extendTurn, bind_ok (byteAt_eq (List.getElem?_eq_getElem hip)),
    bind_ok (byteAt_eq (List.getElem?_eq_getElem hpos))]
  split
  · exact ⟨h.work_eq, hfour, by omega, h.same⟩
  · rename_i hbyte
    have hsame : ∀ i < mLen + 1, src.input[ip + i]? = src.input[mPos + i]? := by
      intro i hi
      rcases Nat.lt_succ_iff_lt_or_eq.mp hi with hlt | rfl
      · exact h.same i hlt
      · rw [List.getElem?_eq_getElem hip, List.getElem?_eq_getElem hpos, not_not.mp hbyte]
    simp only
    split
    · exact ⟨h.work_eq, by omega, by omega, hsame⟩
    · refine ⟨⟨h.work_eq, by omega, ?_, hsame⟩, by simp only; omega⟩
      omega

theorem matchLen_post (hend : ipEnd + 20 ≤ src.input.length) (hback : mPos < ip) (hip : ip < ipEnd)
    (hfour : ∀ i < 4, src.input[ip + i]? = src.input[mPos + i]?) (w : Work) :
    Post (Extended src w ip mPos ipEnd) (fun _ _ => False) (src.matchLen ip mPos ipEnd w) :=
  Post.loop _ (extendTurn_post hend hback) ⟨rfl, by decide, by omega, hfour⟩ (by omega)

end Search

section Blocks

variable {src : Source} {base len : Nat}

structure InCore (src : Source) (base len : Nat) (c : Source.Core) (w : Work) : Prop where
  written : Written src.input (c.ii - c.ti) w.out
  ti_le : c.ti ≤ c.ii
  ii_le : c.ii ≤ base + len
  base_le : base ≤ c.ip
  le_ip : c.ii ≤ c.ip
  first : w.out = [] → c.ii - c.ti + 4 ≤ c.ip
  dict_le : ∀ i : Fin (2 ^ 14), base + w.dict[i].toNat ≤ c.ip
  dict_lt : c.label = .next → ∀ i : Fin (2 ^ 14), base + w.dict[i].toNat < c.ip

def coreLeft (ipEnd : Nat) (c : Source.Core) : Nat :=
  match c.label with
  | .literal => 2 * (ipEnd - (c.ip + 1)) + 1
  | .next => 2 * (ipEnd - c.ip)

def BlockDone (src : Source) (base len left : Nat) (w : Work) : Prop :=
  left ≤ base + len ∧ Written src.input left w.out

theorem coreTurn_literal {c : Source.Core} {w : Work} (hlabel : c.label = .literal)
    (h : InCore src base len c w) :
    Post (TurnPost (InCore src base len) (BlockDone src base len)
      (fun c _ => coreLeft (base + len - 20) c) (coreLeft (base + len - 20) c)) (fun _ _ => False)
      (src.coreTurn base (base + len - 20) c w) := by
  have hbase := h.base_le
  have hip := h.le_ip
  have hmore : c.ip < c.ip + (1 + (c.ip - c.ii) >>> 5) := by omega
  rw [Source.coreTurn, hlabel]
  refine ⟨⟨h.written, h.ti_le, h.ii_le, by simp only; omega, by simp only; omega, fun hout => ?_,
    fun i => ?_, fun _ i => ?_⟩, ?_⟩
  · have := h.first hout
    simp only
    omega
  · have := h.dict_le i
    simp only
    omega
  · have := h.dict_le i
    simp only
    omega
  · simp only [coreLeft, hlabel]
    omega

theorem set_dict_le {dict : Vector UInt16 (2 ^ 14)} {ip : Nat} (index : Fin (2 ^ 14))
    (hip : base ≤ ip ∧ ip - base < 2 ^ 16) (hdict : ∀ i : Fin (2 ^ 14), base + dict[i].toNat ≤ ip)
    (i : Fin (2 ^ 14)) : base + (dict.set index (UInt16.ofNat (ip - base)))[i].toNat ≤ ip := by
  have hentry : (UInt16.ofNat (ip - base)).toNat = ip - base :=
    UInt16.toNat_ofNat_of_lt' (by rw [UInt16.size]; exact hip.2)
  by_cases hi : index = i
  · subst hi
    simp [hentry]
    omega
  · have hne : index.val ≠ i.val := fun heq => hi (Fin.ext heq)
    have := hdict i
    simpa [Vector.getElem_set_ne, hne] using this

theorem coreTurn_match {c : Source.Core} {w : Work} {dict : Vector UInt16 (2 ^ 14)} {mPos : Nat}
    (hlen : 20 < len ∧ len ≤ 49152) (hblock : base + len ≤ src.input.length)
    (hsize : src.input.length ≤ 2 ^ 32 - 511) (hlabel : c.label = .next)
    (h : InCore src base len c w)
    (hin : c.ip < base + len - 20) (hdict : ∀ i : Fin (2 ^ 14), base + dict[i].toNat ≤ c.ip)
    (hpos : base ≤ mPos ∧ mPos < c.ip)
    (hfour : ∀ i < 4, src.input[c.ip + i]? = src.input[mPos + i]?) :
    Post (TurnPost (InCore src base len) (BlockDone src base len)
      (fun c _ => coreLeft (base + len - 20) c) (coreLeft (base + len - 20) c)) (fun _ _ => False)
      ((do
        src.literals (c.ii - c.ti) (c.ip - (c.ii - c.ti))
        let mLen ← src.matchLen c.ip mPos (base + len - 20)
        Source.emit (Source.matchBytes mLen (c.ip - mPos))
        return .again ⟨.next, c.ip + mLen, c.ip + mLen, 0⟩ : CompressM (Turn Source.Core Nat))
        ⟨dict, w.out⟩) := by
  have hip := h.le_ip
  have hti := h.ti_le
  have hstart : c.ii - c.ti + (c.ip - (c.ii - c.ti)) = c.ip := by omega
  have hout : w.out ≠ [] → 2 ≤ w.out.length := h.written.two_le
  have hliterals := @literals_eq src ⟨dict, w.out⟩ (c.ii - c.ti) (c.ip - (c.ii - c.ti)) (by omega)
    (fun hnone => by have := h.first hnone; omega) hout
  rw [bind_ok hliterals]
  refine (matchLen_post (by omega) hpos.2 hin hfour _).bind fun mLen w' hmatch => ?_
  have hlarge := hmatch.four_le
  have hend := hmatch.le_end
  rw [hmatch.work_eq, bind_ok (emit_eq _)]
  have hnew : Written src.input (c.ip + mLen)
      (withLiterals w.out ((src.input.drop (c.ii - c.ti)).take (c.ip - (c.ii - c.ti))) ++
        Source.matchBytes mLen (c.ip - mPos)) := by
    have hpiece := @Written.piece _ _ _ (c.ip - (c.ii - c.ti)) mLen (c.ip - mPos) h.written
      (fun hnone => by have := h.first hnone; omega) (by omega) hsize hlarge (by omega) (by omega)
      fun i hi => by
        have hplace : c.ip + i - (c.ip - mPos) = mPos + i := by omega
        rw [hstart, hplace]
        exact hmatch.same i hi
    rwa [hstart] at hpiece
  refine ⟨⟨hnew, Nat.zero_le _, by simp only; omega, by simp only; omega, Nat.le_refl _,
    fun hnone => ?_, fun i => ?_, fun _ i => ?_⟩, ?_⟩
  · have hlength := congrArg List.length hnone
    have htwo := matchBytes_length mLen (c.ip - mPos)
    simp only [List.length_append, List.length_nil] at hlength
    omega
  · have := hdict i
    simp only
    omega
  · have := hdict i
    simp only
    omega
  · simp only [coreLeft, hlabel]
    omega

theorem coreTurn_next {c : Source.Core} {w : Work} (hlen : 20 < len ∧ len ≤ 49152)
    (hblock : base + len ≤ src.input.length) (hsize : src.input.length ≤ 2 ^ 32 - 511)
    (hlabel : c.label = .next) (h : InCore src base len c w) :
    Post (TurnPost (InCore src base len) (BlockDone src base len)
      (fun c _ => coreLeft (base + len - 20) c) (coreLeft (base + len - 20) c)) (fun _ _ => False)
      (src.coreTurn base (base + len - 20) c w) := by
  have hbase := h.base_le
  have hip := h.le_ip
  have hti := h.ti_le
  have hii := h.ii_le
  rw [Source.coreTurn, hlabel]
  simp only
  split
  · exact ⟨by omega, h.written⟩
  · rename_i hin
    have hword : c.ip + 4 ≤ src.input.length := by omega
    rw [bind_ok (getLE32_eq hword), bind_ok (get_eq w)]
    obtain ⟨index, hindex⟩ : ∃ index, dindex (wordAt src.input c.ip hword) = index := ⟨_, rfl⟩
    simp only [hindex]
    have hpos := h.dict_lt hlabel index
    have hword' : base + w.dict[index].toNat + 4 ≤ src.input.length := by omega
    have hfrom : base ≤ base + w.dict[index].toNat := Nat.le_add_right _ _
    obtain ⟨mPos, hmPos⟩ : ∃ mPos, base + w.dict[index].toNat = mPos := ⟨_, rfl⟩
    simp only [hmPos] at hpos hword' hfrom ⊢
    rw [bind_ok (modify_eq _ w), bind_ok (getLE32_eq hword')]
    have hdict := set_dict_le index ⟨hbase, by omega⟩ h.dict_le
    by_cases hequal : wordAt src.input c.ip hword = wordAt src.input mPos hword'
    · rw [if_neg (not_not.mpr hequal)]
      exact coreTurn_match hlen hblock hsize hlabel h (by omega) hdict ⟨hfrom, hpos⟩
        (wordAt_inj hword hword' hequal)
    · rw [if_pos hequal]
      refine ⟨⟨h.written, hti, hii, hbase, hip, h.first, hdict, nofun⟩, ?_⟩
      simp only [coreLeft, hlabel]
      omega

theorem coreTurn_post (hlen : 20 < len ∧ len ≤ 49152) (hblock : base + len ≤ src.input.length)
    (hsize : src.input.length ≤ 2 ^ 32 - 511) (c : Source.Core) (w : Work)
    (h : InCore src base len c w) :
    Post (TurnPost (InCore src base len) (BlockDone src base len)
      (fun c _ => coreLeft (base + len - 20) c) (coreLeft (base + len - 20) c)) (fun _ _ => False)
      (src.coreTurn base (base + len - 20) c w) := by
  cases hlabel : c.label with
  | literal => exact coreTurn_literal hlabel h
  | next => exact coreTurn_next hlen hblock hsize hlabel h

/-- A block leaves `t` of its bytes, or of those before it, unwritten. -/
theorem doCompress_post {ti : Nat} {w : Work} (hlen : 20 < len ∧ len ≤ 49152)
    (hblock : base + len ≤ src.input.length) (hsize : src.input.length ≤ 2 ^ 32 - 511)
    (hti : ti ≤ base)
    (hwritten : Written src.input (base - ti) w.out) (hdict : ∀ i : Fin (2 ^ 14), w.dict[i] = 0) :
    Post (fun t w => t ≤ base + len ∧ Written src.input (base + len - t) w.out) (fun _ _ => False)
      (src.doCompress base len ti w) := by
  have hstart :
      InCore src base len ⟨.literal, base + (if ti < 4 then 4 - ti else 0), base, ti⟩ w := by
    refine ⟨hwritten, hti, Nat.le_add_right _ _, Nat.le_add_right _ _, Nat.le_add_right _ _,
      fun _ => ?_, fun i => ?_, nofun⟩
    · simp only
      split <;> omega
    · rw [hdict i]
      exact Nat.le_add_right _ _
  have hfuel :
      coreLeft (base + len - 20) ⟨.literal, base + (if ti < 4 then 4 - ti else 0), base, ti⟩ <
        2 * src.input.length + 1 := by
    simp only [coreLeft]
    omega
  rw [Source.doCompress]
  refine (Post.loop _ (coreTurn_post hlen hblock hsize) hstart hfuel).bind fun left w' hdone => ?_
  refine ⟨Nat.sub_le _ _, ?_⟩
  rw [Nat.sub_sub_self hdone.1]
  exact hdone.2

def Between (src : Source) (v : Nat × Nat) (w : Work) : Prop :=
  v.1 + v.2 ≤ src.input.length ∧ Written src.input (src.input.length - (v.1 + v.2)) w.out

theorem blockTurn_post (hsize : src.input.length ≤ 2 ^ 32 - 511) (v : Nat × Nat) (w : Work)
    (h : Between src v w) :
    Post (TurnPost (Between src)
      (fun t w => t ≤ src.input.length ∧ Written src.input (src.input.length - t) w.out)
        (fun v _ => v.1) v.1)
      (fun _ _ => False) (src.blockTurn v w) := by
  obtain ⟨l, t⟩ := v
  obtain ⟨hle, hwritten⟩ := h
  simp only at hle hwritten
  have hstop : Post (TurnPost (Between src)
      (fun t w => t ≤ src.input.length ∧ Written src.input (src.input.length - t) w.out)
        (fun v _ => v.1) l)
      (fun _ _ => False) ((pure (.stop (t + l)) : CompressM (Turn (Nat × Nat) Nat)) w) := by
    rw [Nat.add_comm] at hle hwritten
    exact ⟨hle, hwritten⟩
  rw [Source.blockTurn]
  simp only
  split
  · exact hstop
  split
  · exact hstop
  · rename_i hmany _
    rw [bind_ok (show (modify _ : CompressM Unit) w = .ok () _ from rfl)]
    have hbase : src.input.length - l - t = src.input.length - (l + t) := by omega
    have hblock :=
      @doCompress_post src (src.input.length - l) (min l 49152) t ⟨.replicate _ 0, w.out⟩
        (by omega) (by omega) hsize (by omega) (by rw [hbase]; exact hwritten) (fun i => by simp)
    refine hblock.bind fun t' w' hdone => ?_
    have hnext : src.input.length - l + min l 49152 - t' =
        src.input.length - (l - min l 49152 + t') := by
      omega
    have hrest := hdone.2
    rw [hnext] at hrest
    have hless := hdone.1
    exact ⟨⟨by simp only; omega, hrest⟩, by simp only; omega⟩

theorem lastLiterals_eq {t : Nat} {w : Work} (h : t ≤ src.input.length)
    (htwo : w.out ≠ [] → 2 ≤ w.out.length) :
    src.lastLiterals t w =
      .ok () { w with out := withLast w.out (src.input.drop (src.input.length - t)) } := by
  have hlength : (src.input.drop (src.input.length - t)).length = t := by
    rw [List.length_drop]
    omega
  have hall : (src.input.drop (src.input.length - t)).take t =
      src.input.drop (src.input.length - t) :=
    List.take_of_length_le (Nat.le_of_eq hlength)
  have hcopy (w : Work) : src.copyLiterals (src.input.length - t) t w =
      .ok () { w with out := w.out ++ src.input.drop (src.input.length - t) } := by
    rw [copyLiterals_eq (by omega), hall]
  rw [Source.lastLiterals, withLast, hlength]
  by_cases hzero : t = 0
  · rw [if_neg (by omega), if_neg (by tauto), withLiterals, hlength, if_pos hzero]
    rfl
  · rw [if_pos (by omega)]
    simp only
    rw [bind_ok (get_eq w)]
    by_cases hfirst : w.out = [] ∧ t ≤ 238
    · rw [if_pos hfirst, if_pos ⟨hfirst.1, hfirst.2, hzero⟩,
        bind_ok (emit_eq _), hcopy]
      simp only [hfirst.1, shortBytes, hlength]
      rfl
    · have hlong : ¬ (w.out = [] ∧ t ≤ 238 ∧ t ≠ 0) := fun hall => hfirst ⟨hall.1, hall.2.1⟩
      rw [if_neg hfirst, if_neg hlong, withLiterals, hlength, if_neg hzero]
      split
      · have hlong : ¬ w.out.length < 2 := by
          have := htwo fun hnone => hfirst ⟨hnone, by omega⟩
          omega
        have hor : Source.orBack t w = .ok () { w with out := orLast w.out t } := by
          rw [Source.orBack, bind_ok (get_eq w), if_neg hlong]
          rfl
        rw [bind_ok hor, hcopy]
      · rw [bind_ok (emit_eq _), hcopy]

/-- The compressor writes a stream that stands for its input and touches no other memory. -/
theorem compress_encodes (text : List UInt8) (addr : Nat) (wrkmem : Vector UInt16 (2 ^ 14))
    (hsize : text.length ≤ 2 ^ 32 - 511) :
    ∃ stream, lzo1x1Compress text addr wrkmem = some stream ∧ Encodes stream text := by
  have hstart : Between ⟨text, addr⟩ (text.length, 0) ⟨wrkmem, []⟩ :=
    ⟨Nat.le_refl _, Nat.sub_le _ _, .inl ⟨rfl, Nat.sub_self _⟩⟩
  have hblocks : Post (fun t w => t ≤ text.length ∧ Written text (text.length - t) w.out)
      (fun _ _ => False)
      (loop Halt.spin (Source.mk text addr).blockTurn (text.length + 1) (text.length, 0)
        ⟨wrkmem, []⟩) :=
    Post.loop _ (@blockTurn_post ⟨text, addr⟩ hsize) hstart (Nat.lt_succ_self _)
  have hall : Post (fun _ w => Encodes w.out text) (fun _ _ => False)
      ((Source.mk text addr).compress ⟨wrkmem, []⟩) := by
    refine hblocks.bind fun t w hdone => ?_
    have hfinish := hdone.2.finish (t := t) (Nat.sub_add_cancel hdone.1) hsize
    rw [bind_ok (lastLiterals_eq hdone.1 hdone.2.two_le)]
    exact hfinish
  rw [lzo1x1Compress]
  cases h : (Source.mk text addr).compress ⟨wrkmem, []⟩ with
  | ok _ w =>
    rw [h] at hall
    exact ⟨w.out, rfl, hall⟩
  | error e w =>
    rw [h] at hall
    exact hall.elim

end Blocks

end Mangoxx.Lzo
