import Mangoxx.Lib.Dump

universe u

namespace Mangoxx.Lib.Rows

variable {α : Type u} {xs ys : List α} {n i j h : Nat}

def row (xs : List α) (n j : Nat) : List α := (xs.drop (n * j)).take n

def patch (xs : List α) (off : Nat) (ys : List α) : List α :=
  xs.take off ++ ys ++ xs.drop (off + ys.length)

def swap (xs : List α) (n i j : Nat) : List α :=
  patch (patch xs (n * i) (row xs n j)) (n * j) (row xs n i)

/-- The first `k` of `h` rows have changed places with the last `k`. -/
def turned (xs : List α) (n h : Nat) : Nat → List α
  | 0 => xs
  | k + 1 => swap (turned xs n h k) n k (h - k - 1)

theorem row_end (hj : j < h) : n * j + n ≤ n * h := Nat.mul_le_mul_left n hj

theorem row_length (hrow : n * j + n ≤ xs.length) : (row xs n j).length = n := by
  rw [row, List.length_take, List.length_drop]
  omega

theorem row_getElem? (xs : List α) (n j k : Nat) :
    (row xs n j)[k]? = if k < n then xs[n * j + k]? else none := by
  rw [row, List.getElem?_take]
  split_ifs
  · exact List.getElem?_drop
  · rfl

@[simp] theorem patch_nil (xs : List α) (off : Nat) : patch xs off [] = xs := by
  rw [patch, List.append_nil, List.length_nil, Nat.add_zero, List.take_append_drop]

theorem patch_length (hfit : off + ys.length ≤ xs.length) :
    (patch xs off ys).length = xs.length := by
  rw [patch, List.length_append, List.length_append, List.length_take, List.length_drop]
  omega

theorem patch_getElem? (hfit : off + ys.length ≤ xs.length) (k : Nat) :
    (patch xs off ys)[k]? = if off ≤ k ∧ k < off + ys.length then ys[k - off]? else xs[k]? := by
  have htake : (xs.take off).length = off := by
    rw [List.length_take]
    omega
  rw [patch, List.append_assoc]
  by_cases hbefore : k < off
  · rw [List.getElem?_append_left (by omega), List.getElem?_take, if_pos hbefore,
      if_neg (by omega)]
  · rw [List.getElem?_append_right (by omega), htake]
    by_cases hin : k < off + ys.length
    · rw [List.getElem?_append_left (by omega), if_pos ⟨by omega, hin⟩]
    · rw [List.getElem?_append_right (by omega), List.getElem?_drop, if_neg (by omega)]
      congr 1
      omega

theorem patch_append {zs : List α} (hfit : i + ys.length + zs.length ≤ xs.length) :
    patch (patch xs i ys) (i + ys.length) zs = patch xs i (ys ++ zs) := by
  have hlen : (patch xs i ys).length = xs.length := patch_length (by omega)
  apply List.ext_getElem?
  intro k
  rw [patch_getElem? (by omega), patch_getElem? (by omega),
    patch_getElem? (by rw [List.length_append]; omega), List.length_append, List.getElem?_append]
  split_ifs
  all_goals first | rfl | omega | (congr 1; omega)

theorem row_patch_self (hys : ys.length = n) (hi : n * i + n ≤ xs.length) :
    row (patch xs (n * i) ys) n i = ys := by
  apply List.ext_getElem?
  intro k
  rw [row_getElem?]
  split_ifs with hk
  · rw [patch_getElem? (by omega), if_pos (by omega), Nat.add_sub_cancel_left]
  · rw [List.getElem?_eq_none (by omega)]

theorem row_patch_other (hys : ys.length = n) (hi : n * i + n ≤ xs.length) (hij : j ≠ i) :
    row (patch xs (n * i) ys) n j = row xs n j := by
  apply List.ext_getElem?
  intro k
  rw [row_getElem?, row_getElem?]
  split_ifs with hk
  · have hapart : ¬ (n * i ≤ n * j + k ∧ n * j + k < n * i + ys.length) := by
      rcases Nat.lt_or_gt_of_ne hij with hlt | hgt
      · have hend := row_end (n := n) hlt
        omega
      · have hend := row_end (n := n) hgt
        omega
    rw [patch_getElem? (by omega), if_neg hapart]
  · rfl

theorem swap_length (hi : n * i + n ≤ xs.length) (hj : n * j + n ≤ xs.length) :
    (swap xs n i j).length = xs.length := by
  have hrow : (row xs n i).length = n := row_length hi
  have hrow' : (row xs n j).length = n := row_length hj
  have hfirst : (patch xs (n * i) (row xs n j)).length = xs.length := patch_length (by omega)
  rw [swap, patch_length (by omega), hfirst]

theorem row_swap (hi : n * i + n ≤ xs.length) (hj : n * j + n ≤ xs.length) (k : Nat) :
    row (swap xs n i j) n k =
      if k = j then row xs n i else if k = i then row xs n j else row xs n k := by
  have hrow : (row xs n i).length = n := row_length hi
  have hrow' : (row xs n j).length = n := row_length hj
  have hfirst : (patch xs (n * i) (row xs n j)).length = xs.length := patch_length (by omega)
  rw [swap]
  split_ifs with hkj hki
  · rw [hkj, row_patch_self hrow (by omega)]
  · rw [row_patch_other hrow (by omega) hkj, hki, row_patch_self hrow' hi]
  · rw [row_patch_other hrow (by omega) hkj, row_patch_other hrow' hi hki]

theorem turned_length (hrows : n * h ≤ xs.length) (hk : k ≤ h / 2) :
    (turned xs n h k).length = xs.length := by
  induction k with
  | zero => rfl
  | succ k ih =>
    have hlen := ih (by omega)
    have hlow := row_end (n := n) (by omega : k < h)
    have hhigh := row_end (n := n) (by omega : h - k - 1 < h)
    rw [turned, swap_length (by omega) (by omega), hlen]

theorem row_turned (hrows : n * h ≤ xs.length) (hk : k ≤ h / 2) (hj : j < h) :
    row (turned xs n h k) n j =
      row xs n (if j < k ∨ h - k ≤ j then h - 1 - j else j) := by
  induction k generalizing j with
  | zero => rw [turned, if_neg (by omega)]
  | succ k ih =>
    have hlen := turned_length hrows (by omega : k ≤ h / 2)
    have hlow := row_end (n := n) (by omega : k < h)
    have hhigh := row_end (n := n) (by omega : h - k - 1 < h)
    rw [turned, row_swap (by omega) (by omega)]
    split_ifs with hlast hfirst houter hinner
    all_goals rw [ih (by omega) (by omega)]
    all_goals congr 1
    all_goals split_ifs <;> omega

/-- After half of the rows the order is turned round; the middle row stays. -/
theorem row_turned_half (hrows : n * h ≤ xs.length) (hj : j < h) :
    row (turned xs n h (h / 2)) n j = row xs n (h - 1 - j) := by
  rw [row_turned hrows (Nat.le_refl _) hj]
  congr 1
  split_ifs <;> omega

theorem row_flatMap {f : Nat → List α} {rest : List α} (hf : ∀ r < h, (f r).length = n)
    (hj : j < h) : row ((List.range h).flatMap f ++ rest) n j = f j := by
  have hlen := Dump.rows_length hf
  have hend := row_end (n := n) hj
  apply List.ext_getElem?
  intro k
  rw [row_getElem?]
  split_ifs with hk
  · rw [List.getElem?_append_left (by omega), Dump.rows_getElem? hf hj hk]
  · rw [List.getElem?_eq_none (by rw [hf j hj]; omega)]

end Mangoxx.Lib.Rows
