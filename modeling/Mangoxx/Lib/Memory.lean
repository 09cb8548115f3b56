import Mathlib.Data.Int.Notation
import Mathlib.Data.List.Basic
import Mathlib.Data.List.Range

universe u

namespace Mangoxx.Lib

abbrev Memory (α : Type u) := Int → α

namespace Memory

variable {α : Type u} {a i : Int}

def load (mem : Memory α) (a : Int) (n : Nat) : List α :=
  (List.range n).map fun k : Nat => mem (a + k)

def store (mem : Memory α) (a : Int) (data : List α) : Memory α := fun i =>
  if i < a then mem i else data[(i - a).toNat]?.getD (mem i)

def Within (lo hi a : Int) (n : Nat) : Prop :=
  ∀ k : Nat, k < n → lo ≤ a + k ∧ a + k < hi

theorem within_iff {lo hi a : Int} {n : Nat} :
    Within lo hi a n ↔ n = 0 ∨ lo ≤ a ∧ a + n ≤ hi := by
  constructor
  · intro h
    cases n with
    | zero => exact .inl rfl
    | succ n =>
      have hfirst := h 0 (Nat.zero_lt_succ n)
      have hlast := h n (Nat.lt_succ_self n)
      right
      omega
  · rintro (rfl | h) k hk
    · omega
    · omega

@[simp] theorem load_length (mem : Memory α) (a : Int) (n : Nat) : (load mem a n).length = n := by
  simp [load]

@[simp] theorem load_zero (mem : Memory α) (a : Int) : load mem a 0 = [] := rfl

theorem load_congr {mem mem' : Memory α} {n : Nat}
    (h : ∀ k : Nat, k < n → mem (a + k) = mem' (b + k)) :
    load mem a n = load mem' b n := by
  apply List.map_congr_left
  intro k hk
  exact h k (List.mem_range.mp hk)

theorem load_add (mem : Memory α) (a : Int) (m n : Nat) :
    load mem a (m + n) = load mem a m ++ load mem (a + m) n := by
  rw [load, List.range_add, List.map_append, List.map_map]
  congr 1
  apply List.map_congr_left
  intro k _
  simp [Int.add_assoc]

theorem load_mono (mem : Memory α) (a : Int) (h : m ≤ n) : load mem a m <+: load mem a n := by
  obtain ⟨k, rfl⟩ := Nat.exists_eq_add_of_le h
  exact ⟨_, (load_add mem a m k).symm⟩

theorem load_take (mem : Memory α) (a : Int) (h : m ≤ n) :
    load mem a m = (load mem a n).take m := by
  have hprefix := List.prefix_iff_eq_take.mp (load_mono mem a h)
  rwa [load_length] at hprefix

theorem load_drop (mem : Memory α) (a : Int) (m n : Nat) :
    load mem (a + m) (n - m) = (load mem a n).drop m := by
  rcases Nat.le_total m n with h | h
  · obtain ⟨k, rfl⟩ := Nat.exists_eq_add_of_le h
    rw [load_add, Nat.add_sub_cancel_left, List.drop_left' (load_length mem a m)]
  · rw [Nat.sub_eq_zero_of_le h, load_zero, List.drop_eq_nil_of_le (by simpa using h)]

theorem store_at (mem : Memory α) (a : Int) (data : List α) (k : Nat) :
    store mem a data (a + k) = data[k]?.getD (mem (a + k)) := by
  have hge : ¬ a + (k : Int) < a := by omega
  have hk : (a + (k : Int) - a).toNat = k := by omega
  rw [store, if_neg hge, hk]

theorem store_of_lt (mem : Memory α) (data : List α) (h : i < a) : store mem a data i = mem i :=
  if_pos h

theorem store_of_ge (mem : Memory α) (data : List α) (h : a + data.length ≤ i) :
    store mem a data i = mem i := by
  rw [store]
  split
  · rfl
  · rw [List.getElem?_eq_none (by omega), Option.getD_none]

@[simp] theorem store_nil (mem : Memory α) (a : Int) : store mem a [] = mem := by
  funext i
  simp [store]

theorem load_store_self (mem : Memory α) (a : Int) (data : List α) :
    load (store mem a data) a data.length = data := by
  apply List.ext_getElem (by simp)
  intro k hk hk'
  simp [load, store_at, hk']

theorem load_store_of_disjoint (mem : Memory α) {a b : Int} {n : Nat} {data : List α}
    (h : b + n ≤ a ∨ a + data.length ≤ b) : load (store mem a data) b n = load mem b n := by
  apply load_congr
  intro k hk
  rcases h with h | h
  · exact store_of_lt mem data (by omega : b + (k : Int) < a)
  · exact store_of_ge mem data (by omega : a + data.length ≤ b + (k : Int))

theorem store_append (mem : Memory α) (a : Int) (xs ys : List α) :
    store mem a (xs ++ ys) = store (store mem a xs) (a + xs.length) ys := by
  funext i
  by_cases hi : i < a
  · rw [store_of_lt mem _ hi, store_of_lt _ _ (by omega), store_of_lt mem _ hi]
  · obtain ⟨k, rfl⟩ := Int.exists_add_of_le (Int.not_lt.mp hi)
    by_cases hk : k < xs.length
    · rw [store_at, store_of_lt _ ys (by omega), store_at, List.getElem?_append_left hk]
    · obtain ⟨m, rfl⟩ := Nat.exists_eq_add_of_le (Nat.le_of_not_lt hk)
      rw [store_at, List.getElem?_append_right (by omega), Nat.add_sub_cancel_left,
        Int.natCast_add, ← Int.add_assoc, store_at, store_of_ge mem xs (by omega)]

theorem store_store (mem : Memory α) (a : Int) {xs ys : List α} (h : xs.length = ys.length) :
    store (store mem a xs) a ys = store mem a ys := by
  funext i
  by_cases hi : i < a
  · rw [store_of_lt _ _ hi, store_of_lt _ _ hi, store_of_lt _ _ hi]
  · by_cases hend : a + ys.length ≤ i
    · rw [store_of_ge _ _ hend, store_of_ge _ _ (by omega), store_of_ge _ _ hend]
    · obtain ⟨k, rfl⟩ := Int.exists_add_of_le (Int.not_lt.mp hi)
      have hk : k < ys.length := by omega
      simp only [store_at, List.getElem?_eq_getElem hk, Option.getD_some]

theorem store_load (mem : Memory α) (a : Int) (n : Nat) : store mem a (load mem a n) = mem := by
  funext i
  by_cases hi : i < a
  · exact store_of_lt mem _ hi
  · obtain ⟨k, rfl⟩ := Int.exists_add_of_le (Int.not_lt.mp hi)
    rw [store_at]
    by_cases hk : k < n
    · simp [load, hk]
    · rw [List.getElem?_eq_none (by simpa using hk), Option.getD_none]

theorem store_patch (mem : Memory α) (a : Int) {n off : Nat} {data : List α}
    (h : off + data.length ≤ n) :
    store mem a ((load mem a n).take off ++ data ++ (load mem a n).drop (off + data.length)) =
      store mem (a + off) data := by
  have hfirst : (load mem a n).take off = load mem a off :=
    (load_take mem a (by omega)).symm
  have hlast : (load mem a n).drop (off + data.length) =
      load (store mem (a + off) data) (a + off + data.length) (n - (off + data.length)) := by
    rw [load_store_of_disjoint mem (.inr (Int.le_refl _)), ← load_drop, Int.natCast_add,
      Int.add_assoc]
  rw [hfirst, hlast, store_append, store_append, store_load, load_length, List.length_append,
    load_length, Int.natCast_add, ← Int.add_assoc, store_load]

end Memory

end Mangoxx.Lib
