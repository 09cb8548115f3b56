import Mathlib.Data.List.TakeDrop
import Mathlib.Order.Basic

universe u

namespace Mangoxx.Lib.Lz77

variable {α : Type u}

def copyBehind (out : List α) (off : Nat) : (n : Nat) → List α
  | 0 => out
  | n + 1 => copyBehind (out ++ out[out.length - off]?.toList) off n

structure Piece (α : Type u) where
  off : Nat
  len : Nat
  lits : List α

def Piece.extend (out : List α) (p : Piece α) : List α := copyBehind out p.off p.len ++ p.lits

def expand (out : List α) (ps : List (Piece α)) : List α := ps.foldl Piece.extend out

def Piece.Fits (out : List α) (p : Piece α) : Prop := 1 ≤ p.off ∧ p.off ≤ out.length

def AllFit : List α → List (Piece α) → Prop
  | _, [] => True
  | out, p :: ps => p.Fits out ∧ AllFit (p.extend out) ps

@[simp] theorem expand_nil (out : List α) : expand out [] = out := rfl

@[simp] theorem expand_cons (out : List α) (p : Piece α) (ps : List (Piece α)) :
    expand out (p :: ps) = expand (p.extend out) ps := rfl

@[simp] theorem expand_append (out : List α) (ps qs : List (Piece α)) :
    expand out (ps ++ qs) = expand (expand out ps) qs := List.foldl_append

theorem allFit_append {out : List α} {ps qs : List (Piece α)} :
    AllFit out (ps ++ qs) ↔ AllFit out ps ∧ AllFit (expand out ps) qs := by
  induction ps generalizing out with
  | nil => simp [AllFit]
  | cons p ps ih => simp [AllFit, ih, and_assoc]

theorem length_copyBehind {out : List α} {off : Nat} (hpos : 1 ≤ off) (hle : off ≤ out.length)
    (n : Nat) :
    (copyBehind out off n).length = out.length + n := by
  induction n generalizing out with
  | zero => rfl
  | succ n ih =>
    have hin : out.length - off < out.length := by omega
    rw [copyBehind, List.getElem?_eq_getElem hin, ih (by simp; omega)]
    simp
    omega

theorem length_le_copyBehind (out : List α) (off n : Nat) :
    out.length ≤ (copyBehind out off n).length := by
  induction n generalizing out with
  | zero => exact Nat.le_refl _
  | succ n ih =>
    have h := ih (out ++ out[out.length - off]?.toList)
    rw [List.length_append] at h
    rw [copyBehind]
    omega

theorem length_extend {out : List α} {p : Piece α} (h : p.Fits out) :
    (p.extend out).length = out.length + (p.len + p.lits.length) := by
  rw [Piece.extend, List.length_append, length_copyBehind h.1 h.2, Nat.add_assoc]

theorem length_le_expand (out : List α) (ps : List (Piece α)) :
    out.length ≤ (expand out ps).length := by
  induction ps generalizing out with
  | nil => exact Nat.le_refl _
  | cons p ps ih =>
    have hcopy := length_le_copyBehind out p.off p.len
    have hrest := ih (p.extend out)
    rw [Piece.extend, List.length_append] at hrest
    rw [expand_cons]
    exact Nat.le_trans (by omega) hrest

/-- A text that equals itself at a distance is continued by a copy. -/
theorem copyBehind_take {s : List α} {off k n : Nat} (hpos : 1 ≤ off) (hle : off ≤ k)
    (hlen : k + n ≤ s.length) (hsame : ∀ i < n, s[k + i]? = s[k + i - off]?) :
    copyBehind (s.take k) off n = s.take (k + n) := by
  induction n generalizing k with
  | zero => rfl
  | succ n ih =>
    have hlength : (s.take k).length = k := List.length_take_of_le (by omega)
    have hbehind : (s.take k)[k - off]? = s[k]? := by
      rw [List.getElem?_take_of_lt (by omega)]
      exact (hsame 0 (by omega)).symm
    rw [copyBehind, hlength, hbehind, ← List.take_add_one, ih (by omega) (by omega),
      Nat.add_right_comm k 1 n]
    · rfl
    · intro i hi
      rw [Nat.add_right_comm]
      exact hsame (i + 1) (by omega)

end Mangoxx.Lib.Lz77
