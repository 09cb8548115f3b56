import Mangoxx.Lib.BitString

/-! Canonical prefix codes.  They are given by the number of codes of each length: the codes of one
length follow each other, and the first one of the next length is the next one with a zero
appended. -/

namespace Mangoxx.Lib.Huffman

open BitString

/-- Lengths and values of the codes in their order.  The first of the counts is for the length
`len + 1`, and `first` is the next free code of length `len`. -/
def codes : (counts : List Nat) → (len first : Nat) → List (Nat × Nat)
  | [], _, _ => []
  | c :: cs, len, first =>
    (List.range c).map (fun k => (len + 1, 2 * first + k)) ++ codes cs (len + 1) (2 * first + c)

def Fits : (counts : List Nat) → (len first : Nat) → Prop
  | [], _, _ => True
  | c :: cs, len, first => 2 * first + c ≤ 2 ^ (len + 1) ∧ Fits cs (len + 1) (2 * first + c)

instance Fits.decidable : ∀ counts len first, Decidable (Fits counts len first)
  | [], _, _ => inferInstanceAs (Decidable True)
  | c :: cs, len, first =>
    have := Fits.decidable cs (len + 1) (2 * first + c)
    inferInstanceAs (Decidable (_ ∧ _))

/-- How many bit strings of the greatest length begin with a code. -/
def kraft : (counts : List Nat) → Nat
  | [] => 0
  | c :: cs => c * 2 ^ cs.length + kraft cs

/-- Read a code bit by bit, comparing with the codes of the length read so far: the number of the
code in the order of all codes, and the remaining bits. -/
def decode : (counts : List Nat) → (code first index : Nat) → List Bool → Option (Nat × List Bool)
  | c :: cs, code, first, index, b :: bs =>
    let code := 2 * code + b.toNat
    if code < 2 * first + c then some (index + (code - 2 * first), bs)
    else decode cs code (2 * first + c) (index + c) bs
  | _, _, _, _, _ => none

variable {counts : List Nat} {len first l v : Nat}

theorem codes_length (counts : List Nat) (len first : Nat) :
    (codes counts len first).length = counts.sum := by
  induction counts generalizing len first with
  | nil => rfl
  | cons c cs ih => simp [codes, ih]

theorem mem_codes {c : Nat} {cs : List Nat} (h : (l, v) ∈ codes (c :: cs) len first) :
    (l = len + 1 ∧ 2 * first ≤ v ∧ v < 2 * first + c) ∨
      (l, v) ∈ codes cs (len + 1) (2 * first + c) := by
  refine (List.mem_append.mp h).imp_left fun h => ?_
  obtain ⟨k, hk, heq⟩ := List.mem_map.mp h
  obtain ⟨rfl, rfl⟩ := Prod.mk.inj heq
  exact ⟨rfl, Nat.le_add_right _ _, Nat.add_lt_add_left (List.mem_range.mp hk) _⟩

theorem codes_ge (h : (l, v) ∈ codes counts len first) :
    len < l ∧ first * 2 ^ (l - len) ≤ v := by
  induction counts generalizing len first with
  | nil => simp [codes] at h
  | cons c cs ih =>
    rcases mem_codes h with ⟨rfl, hge, -⟩ | h
    · simp
      omega
    · obtain ⟨hlen, hge⟩ := ih h
      have hpow : 2 ^ (l - len) = 2 * 2 ^ (l - (len + 1)) := by
        rw [← pow_succ']
        congr 1
        omega
      refine ⟨by omega, le_trans ?_ hge⟩
      rw [hpow, ← Nat.mul_assoc, Nat.mul_comm first 2]
      exact Nat.mul_le_mul_right _ (Nat.le_add_right _ _)

theorem codes_le (h : (l, v) ∈ codes counts len first) : l ≤ len + counts.length := by
  induction counts generalizing len first with
  | nil => simp [codes] at h
  | cons c cs ih =>
    rw [List.length_cons]
    rcases mem_codes h with ⟨rfl, -, -⟩ | h
    · omega
    · have hle := ih h
      omega

theorem codes_lt (hfits : Fits counts len first) (h : (l, v) ∈ codes counts len first) :
    v < 2 ^ l := by
  induction counts generalizing len first with
  | nil => simp [codes] at h
  | cons c cs ih =>
    rcases mem_codes h with ⟨rfl, -, hlt⟩ | h
    · exact lt_of_lt_of_le hlt hfits.1
    · exact ih hfits.2 h

theorem decode_from (h : (codes counts len first)[i]? = some (l, v)) (index : Nat)
    (rest : List Bool) :
    decode counts (v / 2 ^ (l - len)) first index (toBits (l - len) v ++ rest) =
      some (index + i, rest) := by
  induction counts generalizing len first index i with
  | nil => simp [codes] at h
  | cons c cs ih =>
    have hlen := (codes_ge (List.mem_of_getElem? h)).1
    obtain ⟨n, hn, hn'⟩ : ∃ n, l - len = n + 1 ∧ l - (len + 1) = n := ⟨l - len - 1, by omega, rfl⟩
    rw [hn, toBits_succ, List.cons_append, decode]
    simp only [ofBits_read]
    by_cases hi : i < c
    · -- the code has the length read so far
      rw [codes, List.getElem?_append_left (by simpa using hi)] at h
      simp only [List.getElem?_map, List.getElem?_range hi, Option.map_some, Option.some.injEq,
        Prod.mk.injEq] at h
      obtain ⟨rfl, rfl⟩ := h
      obtain rfl : n = 0 := by omega
      simp [toBits, hi]
    · -- the code is longer, so its beginning comes after all codes read so far
      rw [codes, List.getElem?_append_right (by simpa using hi)] at h
      simp only [List.length_map, List.length_range] at h
      have hge := (codes_ge (List.mem_of_getElem? h)).2
      rw [hn'] at hge
      have hcode : ¬ v / 2 ^ n < 2 * first + c :=
        not_lt.mpr ((Nat.le_div_iff_mul_le (Nat.two_pow_pos n)).mpr hge)
      have hnext := ih h (index + c)
      rw [hn'] at hnext
      rw [if_neg hcode, hnext]
      congr 2
      omega

theorem decode_code (hfits : Fits counts 0 0) (h : (codes counts 0 0)[i]? = some (l, v))
    (rest : List Bool) : decode counts 0 0 0 (toBits l v ++ rest) = some (i, rest) := by
  have hlt := codes_lt hfits (List.mem_of_getElem? h)
  have hfrom := decode_from h 0 rest
  rwa [Nat.sub_zero, Nat.div_eq_of_lt hlt, Nat.zero_add] at hfrom

/-- The strings in front of the next free code and those that begin with a later code are no more
than there are. -/
theorem fits_of_kraft (h : first * 2 ^ counts.length + kraft counts ≤ 2 ^ (len + counts.length)) :
    Fits counts len first := by
  induction counts generalizing len first with
  | nil => trivial
  | cons c cs ih =>
    have hshift : first * 2 ^ (cs.length + 1) + (c * 2 ^ cs.length + kraft cs) =
        (2 * first + c) * 2 ^ cs.length + kraft cs := by ring
    have hlength : len + (cs.length + 1) = len + 1 + cs.length := by omega
    rw [List.length_cons, kraft, hshift, hlength] at h
    have hfirst : (2 * first + c) * 2 ^ cs.length ≤ 2 ^ (len + 1) * 2 ^ cs.length := by
      rw [← pow_add]
      omega
    exact ⟨Nat.le_of_mul_le_mul_right hfirst (Nat.two_pow_pos _), ih h⟩

theorem codes_prefixFree {i j l' v' : Nat} (hfits : Fits counts 0 0)
    (hi : (codes counts 0 0)[i]? = some (l, v)) (hj : (codes counts 0 0)[j]? = some (l', v'))
    (h : toBits l v <+: toBits l' v') : i = j := by
  obtain ⟨rest, hrest⟩ := h
  have hread := decode_code hfits hi rest
  have hread' := decode_code hfits hj []
  rw [List.append_nil, ← hrest, hread] at hread'
  exact congrArg Prod.fst (Option.some.inj hread')

end Mangoxx.Lib.Huffman
